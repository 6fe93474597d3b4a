import Mathlib.Data.Finset.Basic
import Tlpiexer.Constants
import Tlpiexer.Foundations.CString
import Tlpiexer.Foundations.Descriptors
import Tlpiexer.Foundations.Layout
import Tlpiexer.Foundations.Transition

/-!
# Sequence numbers over message queues

The server of `src/imp/52-02-server.c`. One step is one round of the loop in `main`: `mq_receive`
fails, or it delivers a message, and the label holds what the calls on the client's queue answer.
The buffer `req` is not cleared between two messages, so a short one leaves the rest of an earlier
request in it.

## What `handle_req` can do

The function has six exits. `handleReq_eq` sorts them into those that leave everything as it was,
those that leave the client's queue open, and the one that sends a response. A response that has
been sent is in `delivered`, whether or not the queue could be closed after it.

## Main results

* `numbers_in_order` — the responses of the requests that get one carry the numbers 0, 1, 2, …
* `handle_req_balanced_iff` — when no call leaves a queue open
-/

namespace Tlpiexer

namespace MqSeqNum

open CString Descriptors Transition

/-! ### States -/

/-- `sizeof(request_t)`: an `int`, 255 characters and one byte of padding. -/
def requestSize : ℕ := 260

/-- `sizeof(response_t)`. -/
def responseSize : ℕ := 4

/-- A response that has been sent to the queue with this name. -/
structure Response where
  name : Bytes
  seqNum : ℕ
  deriving DecidableEq

structure State where
  /-- `req` of `main`. -/
  req : Bytes
  /-- `seq_num` of `handle_req`. -/
  seqNum : ℕ
  /-- The descriptors of message queues. -/
  mqds : Finset ℕ
  /-- The other descriptors. -/
  files : Finset ℕ
  /-- The responses sent so far, oldest first. -/
  delivered : List Response

/-- What the calls on the queue of a client answer. -/
structure Answers where
  /-- `mq_open` succeeds. -/
  opened : Bool
  /-- `mq_getattr`: `mq_msgsize`, if it succeeds. -/
  msgsize : Option ℕ
  /-- `mq_send` succeeds. -/
  sent : Bool
  /-- `mq_close` succeeds. -/
  closed : Bool

/-! ### `handle_req` -/

/-- `req->mq_name`. -/
def State.name (s : State) : Bytes := cstr (s.req.drop 4)

/-- The descriptor that `mq_open` returns. -/
def State.newMqd (s : State) : ℕ := lowest (s.files ∪ s.mqds)

/-- The state behind `mq_open`. -/
def State.openQueue (s : State) : State := { s with mqds := insert s.newMqd s.mqds }

/-- The state behind `mq_send` and `seq_num++`. -/
def State.deliver (s : State) : State :=
  { s with seqNum := s.seqNum + 1, delivered := s.delivered ++ [⟨s.name, s.seqNum⟩] }

/-- `handle_req`. It has no result when `seq_num` is incremented beyond an `int`. -/
def State.handleReq (s : State) (a : Answers) : Option (ℤ × State) :=
  if a.opened = false then some (fnEr, s)
  else
    match a.msgsize with
    | none => some (fnEr, s.openQueue)
    | some msgsize =>
      if msgsize < responseSize then some (fnEr, s.openQueue)
      else if a.sent = false then some (fnEr, s.openQueue)
      else if s.seqNum = intMax then none
      else if a.closed = false then some (fnEr, s.openQueue.deliver)
      else some (fnOk, { s.openQueue.deliver with mqds := s.openQueue.mqds.erase s.newMqd })

/-! ### The loop of `main` -/

/-- `mq_receive` writes a message to `req`. -/
def State.receive (s : State) (msg : Bytes) : State := { s with req := overlay s.req msg }

/-- `!(req.mq_name_size > (rsize - sizeof(req.mq_name_size)))`, where both sides are `size_t`. -/
def State.accepts (s : State) (rsize : ℕ) : Bool :=
  ((Layout.ofBytes 4 (s.req.take 4)).signExtend 64).ule (BitVec.ofNat 64 rsize - 4#64)

/-- A round of the loop: `mq_receive` fails, or it delivers a message of at most `requestSize`
bytes. -/
inductive Label
  | fail
  | message (msg : Bytes) (a : Answers)

def Label.isMessage : Label → Bool
  | .fail => false
  | .message _ _ => true

/-- The request is given to `handle_req`, in this state. -/
def State.handles (s : State) (msg : Bytes) : Option State :=
  let msg := msg.take requestSize
  if (s.receive msg).accepts msg.length then some (s.receive msg) else none

def State.step (s : State) : Label → Option State
  | .fail => some s
  | .message msg a =>
    match s.handles msg with
    | none => some (s.receive (msg.take requestSize))
    | some s' => (s'.handleReq a).map Prod.snd

/-- The server, from the first round on. -/
def server : Machine State Label where
  init s := s.seqNum = 0 ∧ s.delivered = []
  step := State.step

/-! ### What a call can do -/

/-- The call gets to the response and sends it. -/
def Answers.sends (a : Answers) : Bool := a.msgsize.any (responseSize ≤ ·) && a.sent

/-- The name of the queue to which a round sends a response, if it does. -/
def sentTo (p : State × Label) : Option Bytes :=
  match p.2 with
  | .fail => none
  | .message msg a =>
    (p.1.handles msg).bind fun s => if a.opened && a.sends then some s.name else none

section

variable {s t : State} {a : Answers}

theorem newMqd_notMem (s : State) : s.newMqd ∉ s.mqds := fun h =>
  lowest_notMem (s.files ∪ s.mqds) (Finset.mem_union_right _ h)

/-- **The exits of `handle_req`.** -/
theorem handleReq_eq (s : State) (a : Answers) : s.handleReq a =
    if a.opened = false then some (fnEr, s)
    else if a.sends = false then some (fnEr, s.openQueue)
    else if s.seqNum = intMax then none
    else if a.closed = false then some (fnEr, s.openQueue.deliver)
    else some (fnOk, s.deliver) := by
  have hclose : { s.openQueue.deliver with mqds := s.openQueue.mqds.erase s.newMqd } =
      s.deliver := by
    have herase : s.openQueue.mqds.erase s.newMqd = s.mqds :=
      Finset.erase_insert (newMqd_notMem s)
    rw [herase]
    rfl
  rw [State.handleReq, hclose]
  by_cases hopen : a.opened = false
  · rw [if_pos hopen, if_pos hopen]
  rw [if_neg hopen, if_neg hopen]
  cases hmsg : a.msgsize with
  | none =>
    have hsends : a.sends = false := by rw [Answers.sends, hmsg]; rfl
    rw [if_pos hsends]
  | some msgsize =>
    by_cases hsize : msgsize < responseSize
    · have hsends : a.sends = false := by simp [Answers.sends, hmsg, hsize]
      rw [if_pos hsends]
      exact if_pos hsize
    · have hsends : a.sends = a.sent := by simp [Answers.sends, hmsg, Nat.not_lt.mp hsize]
      rw [hsends]
      exact if_neg hsize

/-- The numbers so far, and the next one. -/
structure State.Inv (s : State) : Prop where
  next : s.seqNum = s.delivered.length
  numbers : s.delivered.map Response.seqNum = List.range s.delivered.length

theorem delivered_deliver (s : State) :
    s.deliver.delivered = s.delivered ++ [⟨s.name, s.seqNum⟩] := rfl

theorem State.Inv.deliver (h : s.Inv) : s.deliver.Inv where
  next := by
    rw [delivered_deliver, List.length_append, List.length_singleton, ← h.next]
    rfl
  numbers := by
    rw [delivered_deliver, List.map_append, List.length_append, List.length_singleton,
      List.range_succ, h.numbers, List.map_singleton, h.next]

/-- The names of the queues that have got a response. -/
def State.names (s : State) : List Bytes := s.delivered.map Response.name

theorem names_deliver (s : State) : s.deliver.names = s.names ++ [s.name] := by
  rw [State.names, delivered_deliver, List.map_append]
  rfl

/-- One call takes at most one number, for the response it sends, and has a result as long as there
is one left. -/
theorem exists_handleReq (h : s.Inv) (hlt : s.seqNum < intMax) (a : Answers) :
    ∃ r, s.handleReq a = some r ∧ r.2.Inv ∧ r.2.seqNum ≤ s.seqNum + 1 ∧
      r.2.names = s.names ++ (if a.opened && a.sends then some s.name else none).toList := by
  rw [handleReq_eq, if_neg (Nat.ne_of_lt hlt)]
  have hopened : s.openQueue.Inv := ⟨h.next, h.numbers⟩
  cases a.opened with
  | false => exact ⟨_, rfl, h, Nat.le_succ _, (List.append_nil _).symm⟩
  | true =>
    cases a.sends with
    | false => exact ⟨_, rfl, hopened, Nat.le_succ _, (List.append_nil _).symm⟩
    | true =>
      cases a.closed with
      | false => exact ⟨_, rfl, hopened.deliver, Nat.le_refl _, names_deliver s.openQueue⟩
      | true => exact ⟨_, rfl, h.deliver, Nat.le_refl _, names_deliver s⟩

/-- **One round keeps the numbers.** -/
theorem exists_step (h : s.Inv) {l : Label} (hlt : l.isMessage → s.seqNum < intMax) :
    ∃ t, s.step l = some t ∧ t.Inv ∧ t.seqNum ≤ s.seqNum + (if l.isMessage then 1 else 0) ∧
      t.names = s.names ++ (sentTo (s, l)).toList := by
  cases l with
  | fail => exact ⟨s, rfl, h, Nat.le_refl _, (List.append_nil _).symm⟩
  | message msg a =>
    have hreceive : (s.receive (msg.take requestSize)).Inv := ⟨h.next, h.numbers⟩
    simp only [State.step, sentTo, State.handles, Label.isMessage]
    by_cases hacc : (s.receive (msg.take requestSize)).accepts (msg.take requestSize).length
    · obtain ⟨r, hr, hinv, hle, hnames⟩ := exists_handleReq hreceive (hlt rfl) a
      rw [if_pos hacc]
      simp only [hr]
      exact ⟨r.2, rfl, hinv, hle, hnames⟩
    · rw [if_neg hacc]
      exact ⟨_, rfl, hreceive, Nat.le_succ _, (List.append_nil _).symm⟩

/-- The numbers of a whole run. -/
theorem exists_exec {ls : List Label} (h : s.Inv)
    (hlt : s.seqNum + ls.countP Label.isMessage ≤ intMax) :
    ∃ t, server.exec s ls = some t ∧ t.Inv ∧
      t.names = s.names ++ (server.trace s ls).filterMap sentTo := by
  induction ls generalizing s with
  | nil => exact ⟨s, rfl, h, (List.append_nil _).symm⟩
  | cons l ls ih =>
    rw [List.countP_cons] at hlt
    have hnext : l.isMessage → s.seqNum < intMax := by
      intro hl
      rw [if_pos hl] at hlt
      omega
    obtain ⟨t, ht, hinv, hle, hnames⟩ := exists_step h hnext
    obtain ⟨u, hu, huinv, hunames⟩ := ih hinv (by omega)
    have hstep : server.step s l = some t := ht
    have htrace : server.trace s (l :: ls) = (s, l) :: server.trace t ls := by
      rw [Machine.trace, hstep, Option.elim_some]
    refine ⟨u, by rw [Machine.exec, hstep, Option.bind_some, hu], huinv, ?_⟩
    rw [hunames, hnames, htrace, List.append_assoc]
    cases hsent : sentTo (s, l) with
    | none => rw [List.filterMap_cons_none hsent, Option.toList_none, List.nil_append]
    | some name => rw [List.filterMap_cons_some hsent, Option.toList_some, List.singleton_append]

end

/-- **The responses carry the numbers in order.** Whatever fails, the server goes on; the responses
that have been sent are those of the requests that were accepted, whose queue was opened and has
taken a response, in this order, and the `k`-th of them carries `k - 1`. -/
theorem numbers_in_order {s₀ : State} (h₀ : server.init s₀) (ls : List Label)
    (hlt : ls.countP Label.isMessage < 2147483648) :
    ∃ s, server.exec s₀ ls = some s ∧
      s.delivered.map Response.name = (server.trace s₀ ls).filterMap sentTo ∧
      s.delivered.map Response.seqNum = List.range s.delivered.length := by
  have hinv : s₀.Inv := ⟨by rw [h₀.1, h₀.2]; rfl, by rw [h₀.2]; rfl⟩
  obtain ⟨s, hexec, h, hnames⟩ :=
    exists_exec hinv (by rw [h₀.1, Nat.zero_add]; exact Nat.le_of_lt_succ hlt)
  have hnone : s₀.names = [] := by rw [State.names, h₀.2]; rfl
  rw [hnone, List.nil_append] at hnames
  exact ⟨s, hexec, hnames, h.numbers⟩

/-- The server in its first round, with the standard descriptors and its own queue. -/
def started : State := ⟨List.replicate requestSize 0, 0, {3}, {0, 1, 2}, []⟩

/-- Three requests, of which the second cannot be sent. -/
def threeRequests : List Label :=
  [.message [0, 0, 0, 0, 47, 97] ⟨true, some 4, true, true⟩,
    .message [0, 0, 0, 0, 47, 98] ⟨true, some 4, false, true⟩,
    .message [0, 0, 0, 0, 47, 99] ⟨true, some 4, true, true⟩]

/-- `/a` gets the number 0 and `/c` the number 1. -/
theorem numbers_in_order_sample : ∃ s, server.exec started threeRequests = some s ∧
    s.delivered.map Response.name = [[47, 97], [47, 99]] ∧
    s.delivered.map Response.seqNum = [0, 1] := by
  obtain ⟨s, hexec, hnames, hnumbers⟩ :=
    numbers_in_order (⟨rfl, rfl⟩ : server.init started) threeRequests (by decide)
  have hsent : (server.trace started threeRequests).filterMap sentTo = [[47, 97], [47, 99]] := by
    decide +kernel
  rw [hsent] at hnames
  have hlen : s.delivered.length = 2 := by
    simpa using congrArg List.length hnames
  rw [hlen] at hnumbers
  exact ⟨s, hexec, hnames, hnumbers⟩

/-! ### Open queues -/

/-- A call leaves as many queues open as there were before. -/
def Balanced (s : State) (a : Answers) : Prop :=
  ∀ r, s.handleReq a = some r → r.2.mqds.card = s.mqds.card

theorem balanced_iff (s : State) {a : Answers} (hclosed : a.closed = true) :
    Balanced s a ↔ a.opened = false ∨ a.sends = true := by
  rw [Balanced, handleReq_eq, hclosed]
  by_cases hopen : a.opened = false
  · rw [if_pos hopen]
    refine iff_of_true ?_ (.inl hopen)
    rintro r hr
    obtain rfl := Option.some.inj hr
    rfl
  rw [if_neg hopen]
  cases hsends : a.sends with
  | false =>
    rw [if_pos rfl]
    refine iff_of_false (fun h => ?_) ?_
    · have hcard : (insert s.newMqd s.mqds).card = s.mqds.card := h _ rfl
      rw [Finset.card_insert_of_notMem (newMqd_notMem s)] at hcard
      exact Nat.succ_ne_self _ hcard
    · rintro (h | h)
      · exact hopen h
      · cases h
  | true =>
    refine iff_of_true ?_ (.inr rfl)
    intro r hr
    simp only [Bool.true_eq_false, if_false] at hr
    by_cases hmax : s.seqNum = intMax
    · rw [if_pos hmax] at hr
      cases hr
    · rw [if_neg hmax] at hr
      obtain rfl := Option.some.inj hr
      rfl

/-- **When no call leaves a queue open.** For every sequence of rounds in which `mq_close` succeeds:
in each call `mq_open` fails, or the client's queue takes messages of the size of a response and
`mq_send` succeeds. -/
theorem handle_req_balanced_iff (s₀ : State) (ls : List Label)
    (hclosed : ∀ p ∈ server.trace s₀ ls, ∀ msg a, p.2 = .message msg a → a.closed = true) :
    (∀ p ∈ server.trace s₀ ls, ∀ msg a s, p.2 = .message msg a → p.1.handles msg = some s →
      Balanced s a) ↔
      ∀ p ∈ server.trace s₀ ls, ∀ msg a s, p.2 = .message msg a → p.1.handles msg = some s →
        a.opened = false ∨ a.sends = true := by
  refine forall₂_congr fun p hp => ?_
  refine forall₂_congr fun msg a => ?_
  refine forall₂_congr fun s hmsg => ?_
  exact forall_congr' fun _ => balanced_iff s (hclosed p hp msg a hmsg)

/-- Two requests, of which the first names a queue that cannot be opened. -/
def twoRequests : List Label :=
  [.message [0, 0, 0, 0, 47, 97] ⟨false, none, false, true⟩,
    .message [0, 0, 0, 0, 47, 98] ⟨true, some 4, true, true⟩]

theorem handle_req_balanced_sample :
    (server.exec started twoRequests).isSome ∧
      ∀ p ∈ server.trace started twoRequests, ∀ msg a s, p.2 = .message msg a →
        p.1.handles msg = some s → Balanced s a := by
  have hsome : (server.exec started twoRequests).isSome := by decide
  obtain ⟨t, ht⟩ := Option.isSome_iff_exists.mp hsome
  have hall : ∀ p ∈ server.trace started twoRequests, ∀ msg a, p.2 = .message msg a →
      a.closed = true ∧ (a.opened = false ∨ a.sends = true) := by
    intro p hp msg a hmsg
    have hmem : p.2 ∈ twoRequests := by
      rw [← Machine.map_snd_trace ht]
      exact List.mem_map_of_mem hp
    rw [hmsg] at hmem
    simp only [twoRequests, List.mem_cons, Label.message.injEq, List.not_mem_nil, or_false] at hmem
    rcases hmem with ⟨-, rfl⟩ | ⟨-, rfl⟩ <;> decide
  exact ⟨hsome, (handle_req_balanced_iff started twoRequests
    fun p hp msg a hmsg => (hall p hp msg a hmsg).1).mpr
      fun p hp msg a _ hmsg _ => (hall p hp msg a hmsg).2⟩

/-- The queue of the client takes messages of 3 bytes only, and stays open. -/
theorem handle_req_leaks : server.Reachable started ∧
    started.handles [0, 0, 0, 0, 47, 97] = some (started.receive [0, 0, 0, 0, 47, 97]) ∧
    ¬ Balanced (started.receive [0, 0, 0, 0, 47, 97]) ⟨true, some 3, true, true⟩ := by
  refine ⟨⟨started, [], ⟨rfl, rfl⟩, .nil⟩, rfl, fun h => ?_⟩
  exact absurd (h _ rfl) (by decide)

end MqSeqNum

end Tlpiexer
