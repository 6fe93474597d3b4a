import Tlpiexer.Chat.Processes
import Tlpiexer.Foundations.Progress

/-!
# The conversation

Two processes of `src/imp/52-04.c` that have found each other: the listener has sent `ACCEPTED` and
is about to enter `start_message`, the invoker has not received it yet. From then on each of them
has two threads, `start_message`, which reads lines and sends them, and `receive_msg_entry`, which
receives and displays.

## Blocking

A send blocks while the peer's queue is full. As long as the peer is there this ends, since its
receiving thread does not wait for anything the sending one does. But a process leaves when its
input ends, and only the name of its queue is removed: the peer has the queue open and can fill it,
and then it blocks for good.

## Scope

Nobody else sends to the two queues, and there are no signals; `Chat.Processes` has both. A
`getline` that fails ends the input, like the end of the file. The receiving thread can be
cancelled between `mq_receive` and `printf`: the message it has is lost then (`Peer.held` of a
process that is gone).

## Main results

* `conversation_ends` — how every run ends, and what has been displayed
* `hangs_iff` — who can be left hanging
-/

namespace Tlpiexer

namespace Chat

namespace Conversation

open CString Transition

/-- `MSG_SIZE`. -/
abbrev msgSize : ℕ := 1024

/-- The two processes. -/
inductive Side
  /-- Started with `-l`. -/
  | listener
  /-- Started with `-c`. -/
  | invoker
  deriving DecidableEq

namespace Side

/-- The peer. -/
def other : Side → Side
  | .listener => .invoker
  | .invoker => .listener

@[simp] theorem other_other (p : Side) : p.other.other = p := by cases p <;> rfl

@[simp] theorem other_ne (p : Side) : p.other ≠ p := by cases p <;> simp [other]

@[simp] theorem ne_other (p : Side) : p ≠ p.other := (other_ne p).symm

theorem eq_or_eq_other (p q : Side) : q = p ∨ q = p.other := by cases p <;> cases q <;> simp [other]

/-- What is true of a process and of its peer is true of both processes. -/
theorem forall_of {P : Side → Prop} (p : Side) (h : P p) (h' : P p.other) : ∀ q, P q := by
  intro q
  obtain rfl | rfl := p.eq_or_eq_other q
  · exact h
  · exact h'

end Side

/-! ### Messages -/

/-- `msg_t`. -/
structure Text where
  type : ReqType
  user : CharArray userSize
  data : CharArray msgSize

/-- What `start_message` makes of its `msg` for a line. -/
def Text.fill (m : Text) (user : User) (line : Bytes) : Text where
  type := .msg
  user := .ofBytes userSize (overlay m.user.val (user.val ++ [0]))
  data := .ofBytes msgSize (overlay m.data.val (cstr line ++ [0]))

/-- "peer exit from conversation\n". -/
def peerExit : Bytes :=
  [112, 101, 101, 114, 32, 101, 120, 105, 116, 32, 102, 114, 111, 109, 32, 99, 111, 110, 118, 101,
    114, 115, 97, 116, 105, 111, 110, 10]

/-- "peer is error\n". -/
def peerIsError : Bytes := [112, 101, 101, 114, 32, 105, 115, 32, 101, 114, 114, 111, 114, 10]

/-- What `receive_msg_entry` prints for a message. -/
def Text.display (m : Text) : List Bytes :=
  match m.type with
  | .end_ => [peerExit]
  | .error => [peerIsError]
  | .msg => [cstr m.user.val ++ [58, 32] ++ cstr m.data.val ++ [10]]
  | .start | .accepted => []

/-- A line of `user` as the peer should see it: "user: line\n". -/
def shown (user : User) (line : Bytes) : Bytes := user.val ++ [58, 32] ++ cstr line ++ [10]

theorem display_fill (m : Text) (user : User) {line : Bytes} (h : (cstr line).length < msgSize) :
    (m.fill user line).display = [shown user line] := by
  have huser : cstr (m.fill user line).user.val = user.val := by
    have hfits : (user.val ++ [0]).length ≤ userSize :=
      (List.length_append ..).trans_le user.property.1
    rw [Text.fill, CharArray.val_ofBytes_overlay _ hfits, cstr_overlay_zero user.property.2]
  have hdata : cstr (m.fill user line).data.val = cstr line := by
    have hfits : (cstr line ++ [0]).length ≤ msgSize := (List.length_append ..).trans_le h
    rw [Text.fill, CharArray.val_ofBytes_overlay _ hfits, cstr_overlay_zero (zero_notMem_cstr line)]
  rw [Text.display, huser, hdata]
  rfl

theorem length_display_le (m : Text) : m.display.length ≤ 1 := by
  rw [Text.display]
  split <;> simp

theorem length_display_of_msg {m : Text} (h : m.type = .msg) : m.display.length = 1 := by
  simp [Text.display, h]

theorem display_of_accepted {m : Text} (h : m.type = .accepted) : m.display = [] := by
  simp [Text.display, h]

theorem length_flatMap_display {ms : List Text} (h : ∀ m ∈ ms, m.type = .msg) :
    (ms.flatMap Text.display).length = ms.length := by
  induction ms with
  | nil => rfl
  | cons m ms ih =>
    obtain ⟨hm, hms⟩ := List.forall_mem_cons.mp h
    rw [List.flatMap_cons, List.length_append, length_display_of_msg hm, ih hms, List.length_cons,
      Nat.add_comm]

/-! ### The two processes -/

/-- Where the main thread of a process is. -/
inductive Pc
  /-- At `mq_receive` in `invoke_peer`. -/
  | waiting
  /-- At `getline`. -/
  | reading
  /-- At `mq_send`. -/
  | sending
  /-- In `exit_err`; the receiving thread has been cancelled. -/
  | leaving
  | gone
  /-- `strcpy` has left `msg.data`. -/
  | overrun
  deriving DecidableEq

/-- A process. -/
structure Peer where
  pc : Pc
  /-- `msg` of the main thread. -/
  msg : Text
  /-- The lines `getline` will read. -/
  input : List Bytes
  /-- The message that the receiving thread has received and not displayed yet. -/
  held : Option Text
  /-- What has been displayed. -/
  out : List Bytes

/-- The processes, and the messages in the queue of each. -/
structure State where
  peer : Side → Peer
  queue : Side → List Text

/-- What happens next. -/
inductive Label
  /-- The main thread goes on. -/
  | main (p : Side)
  /-- The receiving thread receives. -/
  | receive (p : Side)
  /-- The receiving thread displays what it has received. -/
  | display (p : Side)
  deriving DecidableEq

/-- The state after `p` has become `P`. -/
def State.set (s : State) (p : Side) (P : Peer) : State :=
  { s with peer := Function.update s.peer p P }

/-- The state after the queue of `p` has become `q`. -/
def State.setQueue (s : State) (p : Side) (q : List Text) : State :=
  { s with queue := Function.update s.queue p q }

/-- The main thread has read a line and fills `msg`. -/
def Peer.read (P : Peer) (user : User) (line : Bytes) (rest : List Bytes) : Peer :=
  if (cstr line).length < msgSize then
    { P with pc := .sending, msg := P.msg.fill user line, input := rest }
  else { P with pc := .overrun, input := rest }

/-- `invoke_peer` has received its answer. -/
def Peer.answered (P : Peer) (m : Text) : Peer :=
  { P with pc := if m.type = .accepted then .reading else .leaving, msg := m }

/-- The main thread of `p`. -/
def State.main (user : Side → User) (s : State) (p : Side) : Option State :=
  match (s.peer p).pc with
  | .waiting =>
    match s.queue p with
    | [] => none
    | m :: q => some ((s.set p ((s.peer p).answered m)).setQueue p q)
  | .reading =>
    match (s.peer p).input with
    | [] => some (s.set p { s.peer p with pc := .leaving })
    | line :: rest => some (s.set p ((s.peer p).read (user p) line rest))
  | .sending =>
    if (s.queue p.other).length < mqMaxmsg then
      some ((s.set p { s.peer p with pc := .reading }).setQueue p.other
        (s.queue p.other ++ [(s.peer p).msg]))
    else none
  | .leaving => some (s.set p { s.peer p with pc := .gone })
  | .gone => none
  | .overrun => none

/-- `mq_receive` of the receiving thread, which runs as long as the main thread reads and sends. -/
def State.receive (s : State) (p : Side) : Option State :=
  if ((s.peer p).pc = .reading ∨ (s.peer p).pc = .sending) ∧ (s.peer p).held = none then
    match s.queue p with
    | [] => none
    | m :: q => some ((s.set p { s.peer p with held := some m }).setQueue p q)
  else none

/-- `printf` of the receiving thread, which may come after the cancellation. -/
def State.display (s : State) (p : Side) : Option State :=
  match (s.peer p).held with
  | none => none
  | some m =>
    if (s.peer p).pc = .gone then none
    else some (s.set p { s.peer p with held := none, out := (s.peer p).out ++ m.display })

/-- One step. -/
def State.step (user : Side → User) (s : State) : Label → Option State
  | .main p => s.main user p
  | .receive p => s.receive p
  | .display p => s.display p

/-- The `ACCEPTED` is in the queue of the invoker. -/
def start (lines : Side → List Bytes) (msg : Side → Text) (hello : Text) : State where
  peer
    | .listener => ⟨.reading, msg .listener, lines .listener, none, []⟩
    | .invoker => ⟨.waiting, msg .invoker, lines .invoker, none, []⟩
  queue
    | .listener => []
    | .invoker => [{ hello with type := .accepted }]

/-- The conversation of two users that type `lines`. -/
def machine (user : Side → User) (lines : Side → List Bytes) : Machine State Label where
  init s := ∃ msg hello, s = start lines msg hello
  step := State.step user

variable {user : Side → User} {lines : Side → List Bytes} {s s' s₀ : State} {a : Label} {p : Side}
  {tr : List (State × Label)}

section Fields

variable {P : Peer} {q : List Text}

@[simp] theorem peer_set_self : (s.set p P).peer p = P := Function.update_self ..

@[simp] theorem peer_set_other : (s.set p P).peer p.other = s.peer p.other :=
  Function.update_of_ne p.other_ne ..

@[simp] theorem queue_set : (s.set p P).queue = s.queue := rfl

@[simp] theorem peer_setQueue : (s.setQueue p q).peer = s.peer := rfl

@[simp] theorem queue_setQueue_self : (s.setQueue p q).queue p = q := Function.update_self ..

@[simp] theorem queue_setQueue_other : (s.setQueue p q).queue p.other = s.queue p.other :=
  Function.update_of_ne p.other_ne ..

@[simp] theorem queue_setQueue_of_other : (s.setQueue p.other q).queue p = s.queue p :=
  Function.update_of_ne p.ne_other ..

end Fields

/-! ### What one step can do -/

/-- The steps of the system in state `s`. -/
inductive Move (user : Side → User) (s : State) : Label → State → Prop
  | hello {p : Side} {m : Text} {q : List Text} (hpc : (s.peer p).pc = .waiting)
      (hq : s.queue p = m :: q) :
      Move user s (.main p) ((s.set p ((s.peer p).answered m)).setQueue p q)
  | read {p : Side} {line : Bytes} {rest : List Bytes} (hpc : (s.peer p).pc = .reading)
      (hinput : (s.peer p).input = line :: rest) :
      Move user s (.main p) (s.set p ((s.peer p).read (user p) line rest))
  | leave {p : Side} (hpc : (s.peer p).pc = .reading) (hinput : (s.peer p).input = []) :
      Move user s (.main p) (s.set p { s.peer p with pc := .leaving })
  | send {p : Side} (hpc : (s.peer p).pc = .sending)
      (hroom : (s.queue p.other).length < mqMaxmsg) :
      Move user s (.main p) ((s.set p { s.peer p with pc := .reading }).setQueue p.other
        (s.queue p.other ++ [(s.peer p).msg]))
  | exit {p : Side} (hpc : (s.peer p).pc = .leaving) :
      Move user s (.main p) (s.set p { s.peer p with pc := .gone })
  | receive {p : Side} {m : Text} {q : List Text}
      (hpc : (s.peer p).pc = .reading ∨ (s.peer p).pc = .sending) (hheld : (s.peer p).held = none)
      (hq : s.queue p = m :: q) :
      Move user s (.receive p) ((s.set p { s.peer p with held := some m }).setQueue p q)
  | display {p : Side} {m : Text} (hheld : (s.peer p).held = some m)
      (hpc : (s.peer p).pc ≠ .gone) :
      Move user s (.display p)
        (s.set p { s.peer p with held := none, out := (s.peer p).out ++ m.display })

theorem move_of_main (h : s.main user p = some s') : Move user s (.main p) s' := by
  unfold State.main at h
  split at h
  case h_1 hpc =>
    split at h
    case h_1 => cases h
    case h_2 m q hq => cases h; exact .hello hpc hq
  case h_2 hpc =>
    split at h
    case h_1 hinput => cases h; exact .leave hpc hinput
    case h_2 line rest hinput => cases h; exact .read hpc hinput
  case h_3 hpc =>
    obtain ⟨hroom, h⟩ := Option.ite_none_right_eq_some.mp h
    cases h
    exact .send hpc hroom
  case h_4 hpc => cases h; exact .exit hpc
  case h_5 => cases h
  case h_6 => cases h

theorem move_of_step (h : (machine user lines).step s a = some s') : Move user s a s' := by
  cases a with
  | main p => exact move_of_main h
  | receive p =>
    obtain ⟨⟨hpc, hheld⟩, h⟩ := Option.ite_none_right_eq_some.mp h
    split at h
    case h_1 => cases h
    case h_2 m q hq => cases h; exact .receive hpc hheld hq
  | display p =>
    change s.display p = some s' at h
    unfold State.display at h
    split at h
    case h_1 => cases h
    case h_2 m hheld =>
      obtain ⟨hpc, h⟩ := Option.ite_none_left_eq_some.mp h
      cases h
      exact .display hheld hpc

/-! ### How many steps are left -/

/-- The steps the main thread still has, apart from the lines it has not read. -/
def Pc.left : Pc → ℕ
  | .waiting => 1
  | .reading => 2
  | .sending => 5
  | .leaving => 1
  | .gone => 0
  | .overrun => 0

/-- A line is read, sent, received and displayed. -/
def State.leftOf (s : State) (p : Side) : ℕ :=
  4 * (s.peer p).input.length + (s.peer p).pc.left + (s.peer p).held.toList.length +
    2 * (s.queue p).length

/-- The steps that are left at most. -/
def State.left (s : State) : ℕ := s.leftOf .listener + s.leftOf .invoker

theorem left_eq (s : State) (p : Side) : s.left = s.leftOf p + s.leftOf p.other := by
  cases p
  · rfl
  · exact Nat.add_comm ..

theorem left_of_move (h : Move user s a s') : s'.left < s.left := by
  cases h with
  | @hello p m q hpc hq =>
    have hanswered : ((s.peer p).answered m).pc.left ≤ 2 := by
      simp only [Peer.answered]
      split <;> simp [Pc.left]
    have hinput : ((s.peer p).answered m).input = (s.peer p).input := rfl
    have hheld : ((s.peer p).answered m).held = (s.peer p).held := rfl
    have hwaiting : (s.peer p).pc.left = 1 := by rw [hpc]; rfl
    simp only [left_eq _ p, State.leftOf, peer_setQueue, peer_set_self, peer_set_other,
      queue_setQueue_self, queue_setQueue_other, queue_set, hinput, hheld, hq, List.length_cons]
    omega
  | @read p line rest hpc hinput =>
    simp only [left_eq _ p, State.leftOf, peer_set_self, peer_set_other, queue_set, Peer.read]
    split <;> simp only [hpc, hinput, Pc.left, List.length_cons] <;> omega
  | @leave p hpc hinput =>
    simp [left_eq _ p, State.leftOf, hpc, Pc.left]
  | @send p hpc hroom =>
    simp only [left_eq _ p, State.leftOf, peer_setQueue, peer_set_self, peer_set_other,
      queue_setQueue_self, queue_setQueue_of_other, queue_set, hpc, Pc.left, List.length_append,
      List.length_singleton]
    omega
  | @exit p hpc => simp [left_eq _ p, State.leftOf, hpc, Pc.left]
  | @receive p m q hpc hheld hq =>
    simp only [left_eq _ p, State.leftOf, peer_setQueue, peer_set_self, peer_set_other,
      queue_setQueue_self, queue_setQueue_other, queue_set, hheld, hq, Option.toList_some,
      Option.toList_none, List.length_cons, List.length_nil]
    omega
  | @display p m hheld hpc =>
    simp [left_eq _ p, State.leftOf, hheld]

theorem left_lowers : (machine user lines).Lowers State.left :=
  fun _ _ _ hstep => left_of_move (move_of_step hstep)

/-! ### Messages on their way -/

/-- The message the main thread is about to send. -/
def Peer.pending (P : Peer) : List Text := if P.pc = .sending then [P.msg] else []

theorem pending_of_sending {P : Peer} (h : P.pc = .sending) : P.pending = [P.msg] := if_pos h

theorem pending_of_ne {P : Peer} (h : P.pc ≠ .sending) : P.pending = [] := if_neg h

/-- The messages of `p` that the peer has not displayed, in the order in which it will. -/
def State.onTheWay (s : State) (p : Side) : List Text :=
  (s.peer p.other).held.toList ++ s.queue p.other ++ (s.peer p).pending

/-- What `p` has to say has been displayed, is on its way or has not been read. -/
def Flow (user : Side → User) (lines : Side → List Bytes) (s : State) (p : Side) : Prop :=
  (lines p).map (shown (user p)) =
    (s.peer p.other).out ++ (s.onTheWay p).flatMap Text.display ++
      (s.peer p).input.map (shown (user p))

/-- The queue of a process at `pc`. -/
inductive Queued : Pc → List Text → Prop
  | greeting {m : Text} {q : List Text} (hm : m.type = .accepted) (hq : ∀ m ∈ q, m.type = .msg) :
      Queued .waiting (m :: q)
  | talk {pc : Pc} {q : List Text} (hpc : pc ≠ .waiting) (hq : ∀ m ∈ q, m.type = .msg) :
      Queued pc q

namespace Queued

variable {pc pc' : Pc} {m : Text} {q : List Text}

theorem snoc (h : Queued pc q) (hm : m.type = .msg) : Queued pc (q ++ [m]) := by
  have hall : ∀ {q : List Text}, (∀ m ∈ q, m.type = .msg) → ∀ x ∈ q ++ [m], x.type = .msg := by
    intro q hq x hx
    obtain hx | hx := List.mem_append.mp hx
    · exact hq x hx
    · rw [List.mem_singleton.mp hx, hm]
  cases h with
  | greeting hm hq => exact .greeting hm (hall hq)
  | talk hpc hq => exact .talk hpc (hall hq)

theorem msgs (h : Queued pc q) (hpc : pc ≠ .waiting) : ∀ m ∈ q, m.type = .msg := by
  cases h with
  | greeting => exact absurd rfl hpc
  | talk _ hq => exact hq

theorem of_waiting (h : Queued .waiting q) :
    ∃ m q', q = m :: q' ∧ m.type = .accepted ∧ ∀ m ∈ q', m.type = .msg := by
  cases h with
  | greeting hm hq => exact ⟨_, _, rfl, hm, hq⟩
  | talk hpc => exact absurd rfl hpc

theorem move (h : Queued pc q) (hpc : pc ≠ .waiting) (hpc' : pc' ≠ .waiting) : Queued pc' q :=
  .talk hpc' (h.msgs hpc)

theorem tail (h : Queued pc (m :: q)) (hpc : pc ≠ .waiting) : Queued pc q :=
  .talk hpc fun x hx => h.msgs hpc x (List.mem_cons_of_mem m hx)

end Queued

/-- What is true of a process and its queue in every state. -/
structure PeerInv (P : Peer) (q : List Text) : Prop where
  /-- No line is too long for `msg.data`. -/
  fits : P.pc ≠ .overrun ∧ ∀ l ∈ P.input, (cstr l).length < msgSize
  queued : Queued P.pc q
  room : q.length ≤ mqMaxmsg
  pending : ∀ m ∈ P.pending, m.type = .msg
  ended : P.pc = .leaving ∨ P.pc = .gone → P.input = []

/-- Both processes, and both directions. -/
structure Inv (user : Side → User) (lines : Side → List Bytes) (s : State) : Prop where
  peers : ∀ p, PeerInv (s.peer p) (s.queue p)
  flow : ∀ p, Flow user lines s p

namespace PeerInv

variable {P : Peer} {m : Text} {q : List Text} {line : Bytes} {rest : List Bytes}

/-- A process that waits has the `ACCEPTED` in front of it. -/
theorem accepted (h : PeerInv P (m :: q)) (hpc : P.pc = .waiting) :
    m.type = .accepted ∧ ∀ m ∈ q, m.type = .msg := by
  have hqueued := h.queued
  rw [hpc] at hqueued
  obtain ⟨m', q', hcons, hm, hmsgs⟩ := hqueued.of_waiting
  cases hcons
  exact ⟨hm, hmsgs⟩

theorem line_fits (h : PeerInv P q) (hinput : P.input = line :: rest) :
    (cstr line).length < msgSize ∧ ∀ l ∈ rest, (cstr l).length < msgSize := by
  have hfits := h.fits.2
  rw [hinput] at hfits
  exact List.forall_mem_cons.mp hfits

theorem answered (h : PeerInv P (m :: q)) (hpc : P.pc = .waiting) :
    PeerInv (P.answered m) q := by
  obtain ⟨hm, hmsgs⟩ := h.accepted hpc
  have hreading : (P.answered m).pc = .reading := if_pos hm
  refine ⟨⟨by simp [hreading], h.fits.2⟩, .talk (by simp [hreading]) hmsgs, ?_, ?_, ?_⟩
  · exact (Nat.le_succ _).trans h.room
  · simp [pending_of_ne, hreading]
  · simp [hreading]

theorem read (h : PeerInv P q) (hpc : P.pc = .reading) (hinput : P.input = line :: rest)
    (user : User) : PeerInv (P.read user line rest) q := by
  obtain ⟨hline, hrest⟩ := h.line_fits hinput
  rw [Peer.read, if_pos hline]
  exact ⟨⟨by simp, hrest⟩, h.queued.move (by simp [hpc]) (by simp), h.room,
    by simp [Peer.pending, Text.fill], by simp⟩

/-- The main thread goes on to `getline`, or to its end once the input is used up. -/
theorem goto (h : PeerInv P q) (hwaiting : P.pc ≠ .waiting) {pc : Pc}
    (hpc : pc = .reading ∨ (pc = .leaving ∨ pc = .gone) ∧ P.input = []) :
    PeerInv { P with pc := pc } q := by
  have hplace : pc ≠ .overrun ∧ pc ≠ .waiting ∧ pc ≠ .sending := by
    obtain rfl | ⟨rfl | rfl, -⟩ := hpc <;> simp
  obtain ⟨hoverrun, hwaiting', hsending⟩ := hplace
  refine ⟨⟨hoverrun, h.fits.2⟩, h.queued.move hwaiting hwaiting', h.room, ?_, fun hend => ?_⟩
  · simp [pending_of_ne, hsending]
  · obtain rfl | ⟨-, hinput⟩ := hpc
    · simp at hend
    · exact hinput

theorem snoc (h : PeerInv P q) (hm : m.type = .msg) (hroom : q.length < mqMaxmsg) :
    PeerInv P (q ++ [m]) :=
  ⟨h.fits, h.queued.snoc hm, (List.length_append ..).trans_le hroom, h.pending, h.ended⟩

theorem tail (h : PeerInv P (m :: q)) (hwaiting : P.pc ≠ .waiting) : PeerInv P q :=
  ⟨h.fits, h.queued.tail hwaiting, (Nat.le_succ _).trans h.room, h.pending, h.ended⟩

/-- The receiving thread does not touch what the main thread has. -/
theorem receiver (h : PeerInv P q) (held : Option Text) (out : List Bytes) :
    PeerInv { P with held := held, out := out } q :=
  ⟨h.fits, h.queued, h.room, h.pending, h.ended⟩

end PeerInv

theorem peers_set {P : Peer} (hs : ∀ p, PeerInv (s.peer p) (s.queue p))
    (h : PeerInv P (s.queue p)) (r : Side) :
    PeerInv ((s.set p P).peer r) ((s.set p P).queue r) := by
  obtain rfl | rfl := p.eq_or_eq_other r
  · simpa using h
  · simpa using hs p.other

theorem peers_set_queue {P : Peer} {q : List Text} (hs : ∀ p, PeerInv (s.peer p) (s.queue p))
    (h : PeerInv P q) (r : Side) :
    PeerInv (((s.set p P).setQueue p q).peer r) (((s.set p P).setQueue p q).queue r) := by
  obtain rfl | rfl := p.eq_or_eq_other r
  · simpa using h
  · simpa using hs p.other

theorem peers_of_move (hs : ∀ p, PeerInv (s.peer p) (s.queue p)) (h : Move user s a s') (r : Side) :
    PeerInv (s'.peer r) (s'.queue r) := by
  cases h with
  | @hello p m q hpc hq =>
    have hp := hs p
    rw [hq] at hp
    exact peers_set_queue hs (hp.answered hpc) r
  | @read p line rest hpc hinput => exact peers_set hs ((hs p).read hpc hinput (user p)) r
  | @leave p hpc hinput =>
    exact peers_set hs ((hs p).goto (by simp [hpc]) (.inr ⟨.inl rfl, hinput⟩)) r
  | @send p hpc hroom =>
    have hm : (s.peer p).msg.type = .msg := (hs p).pending _ (by simp [pending_of_sending hpc])
    obtain rfl | rfl := p.eq_or_eq_other r
    · simpa using (hs r).goto (by simp [hpc]) (.inl rfl)
    · simpa using (hs p.other).snoc hm hroom
  | @exit p hpc =>
    exact peers_set hs ((hs p).goto (by simp [hpc]) (.inr ⟨.inr rfl, (hs p).ended (.inl hpc)⟩)) r
  | @receive p m q hpc hheld hq =>
    have hp := hs p
    rw [hq] at hp
    have hwaiting : (s.peer p).pc ≠ .waiting := by
      obtain hpc | hpc := hpc <;> simp [hpc]
    exact peers_set_queue hs ((hp.tail hwaiting).receiver _ _) r
  | @display p m hheld hpc => exact peers_set hs ((hs p).receiver _ _) r

theorem flow_of_move (hs : Inv user lines s) (h : Move user s a s') (q : Side) :
    Flow user lines s' q := by
  revert q
  cases h with
  | @hello p m q hpc hq =>
    have hp := hs.peers p
    rw [hq] at hp
    have hm := (hp.accepted hpc).1
    refine Side.forall_of p ?_ ?_
    · simpa [Flow, State.onTheWay, Peer.answered, Peer.pending, hpc, hm] using hs.flow p
    · simpa [Flow, State.onTheWay, Peer.answered, hq, display_of_accepted hm] using hs.flow p.other
  | @read p line rest hpc hinput =>
    have hline := ((hs.peers p).line_fits hinput).1
    refine Side.forall_of p ?_ ?_
    · simpa [Flow, State.onTheWay, Peer.read, hline, Peer.pending, hpc, hinput,
        display_fill _ _ hline] using hs.flow p
    · simpa [Flow, State.onTheWay, Peer.read, hline] using hs.flow p.other
  | @leave p hpc hinput =>
    refine Side.forall_of p ?_ ?_
    · simpa [Flow, State.onTheWay, Peer.pending, hpc] using hs.flow p
    · simpa [Flow, State.onTheWay] using hs.flow p.other
  | @send p hpc hroom =>
    refine Side.forall_of p ?_ ?_
    · simpa [Flow, State.onTheWay, Peer.pending, hpc] using hs.flow p
    · simpa [Flow, State.onTheWay] using hs.flow p.other
  | @exit p hpc =>
    refine Side.forall_of p ?_ ?_
    · simpa [Flow, State.onTheWay, Peer.pending, hpc] using hs.flow p
    · simpa [Flow, State.onTheWay] using hs.flow p.other
  | @receive p m q hpc hheld hq =>
    refine Side.forall_of p ?_ ?_
    · simpa [Flow, State.onTheWay, Peer.pending] using hs.flow p
    · simpa [Flow, State.onTheWay, hheld, hq] using hs.flow p.other
  | @display p m hheld hpc =>
    refine Side.forall_of p ?_ ?_
    · simpa [Flow, State.onTheWay, Peer.pending] using hs.flow p
    · simpa [Flow, State.onTheWay, hheld] using hs.flow p.other

theorem Inv.of_step (hs : Inv user lines s) (h : (machine user lines).step s a = some s') :
    Inv user lines s' :=
  ⟨peers_of_move hs.peers (move_of_step h), flow_of_move hs (move_of_step h)⟩

/-- Every line fits into `msg.data`. -/
def Short (lines : Side → List Bytes) : Prop := ∀ p, ∀ l ∈ lines p, (cstr l).length < msgSize

theorem Inv.start (hlines : Short lines) (msg : Side → Text) (hello : Text) :
    Inv user lines (start lines msg hello) where
  peers p := by
    cases p with
    | listener =>
      refine ⟨⟨?_, hlines .listener⟩, .talk ?_ ?_, ?_, ?_, ?_⟩ <;>
        simp [Conversation.start, Peer.pending]
    | invoker =>
      refine ⟨⟨?_, hlines .invoker⟩, .greeting rfl ?_, ?_, ?_, ?_⟩ <;>
        simp [Conversation.start, Peer.pending, mqMaxmsg]
  flow p := by
    cases p <;> simp [Flow, State.onTheWay, Conversation.start, Side.other, Peer.pending,
      Text.display]

theorem Inv.of_run (hlines : Short lines) (hinit : (machine user lines).init s₀)
    (hrun : (machine user lines).Run s₀ tr s) : Inv user lines s := by
  obtain ⟨msg, hello, rfl⟩ := hinit
  exact hrun.invariant (fun _ _ _ hs hstep => hs.of_step hstep) (.start hlines msg hello)

/-! ### Where the processes can stop -/

/-- A main thread stops when it is gone or when the queue it sends to is full. -/
theorem Inv.stopped (hs : Inv user lines s) (hmain : s.main user p = none)
    (hdisplay : s.display p = none) :
    (s.peer p).pc = .gone ∨ (s.peer p).pc = .sending ∧ (s.peer p).held = none ∧
      mqMaxmsg ≤ (s.queue p.other).length := by
  cases hpc : (s.peer p).pc with
  | waiting =>
    have hqueued := (hs.peers p).queued
    rw [hpc] at hqueued
    obtain ⟨m, q, hq, -⟩ := hqueued.of_waiting
    simp [State.main, hpc, hq] at hmain
  | reading => cases hinput : (s.peer p).input <;> simp [State.main, hpc, hinput] at hmain
  | sending =>
    refine .inr ⟨rfl, ?_, by simpa [State.main, hpc] using hmain⟩
    cases hheld : (s.peer p).held with
    | none => rfl
    | some m => simp [State.display, hheld, hpc] at hdisplay
  | leaving => simp [State.main, hpc] at hmain
  | gone => exact .inl rfl
  | overrun => exact absurd hpc (hs.peers p).fits.1

/-- A receiving thread that stops has nothing to receive. -/
theorem queue_eq_nil (hreceive : s.receive p = none) (hpc : (s.peer p).pc = .sending)
    (hheld : (s.peer p).held = none) : s.queue p = [] := by
  cases hq : s.queue p with
  | nil => rfl
  | cons m q => simp [State.receive, hpc, hheld, hq] at hreceive

/-- The lines of `p`, counted. -/
theorem Inv.length_lines (hs : Inv user lines s) (hpc : (s.peer p.other).pc ≠ .waiting) :
    (lines p).length = (s.peer p.other).out.length +
      ((s.peer p.other).held.toList.flatMap Text.display).length + (s.queue p.other).length +
      (s.peer p).pending.length + (s.peer p).input.length := by
  have hflow := congrArg List.length (hs.flow p)
  have hqueue := length_flatMap_display ((hs.peers p.other).queued.msgs hpc)
  have hpending := length_flatMap_display (hs.peers p).pending
  simp only [State.onTheWay, List.flatMap_append, List.length_append, List.length_map] at hflow
  omega

theorem length_display_held (P : Peer) : (P.held.toList.flatMap Text.display).length ≤ 1 := by
  cases hheld : P.held with
  | none => simp
  | some m => simpa using length_display_le m

/-- How a conversation ends for `p`: it has left, and everything it said was displayed unless the
peer left as well; or it is left alone with a full queue. -/
theorem Inv.ended (hs : Inv user lines s) (hfinal : ¬ (machine user lines).Enabled s) (p : Side) :
    ((s.peer p).pc = .gone ∧ (lines p).length ≤ (s.peer p.other).out.length + mqMaxmsg + 1 ∧
      ((s.peer p.other).pc ≠ .gone →
        (s.peer p.other).out = (lines p).map (shown (user p)))) ∨
    ((s.peer p).pc = .sending ∧ (s.peer p.other).pc = .gone ∧
      (s.peer p.other).out.length + mqMaxmsg + 1 ≤ (lines p).length) := by
  have hnone := Machine.step_eq_none_of_not_enabled hfinal
  have hother := hs.stopped (hnone (.main p.other)) (hnone (.display p.other))
  have hreceive : s.receive p.other = none := hnone (.receive p.other)
  have hwaiting : (s.peer p.other).pc ≠ .waiting := by
    obtain h | h := hother <;> simp [h]
  have hcount := hs.length_lines hwaiting
  have hroom := (hs.peers p.other).room
  have hheld := length_display_held (s.peer p.other)
  obtain hgone | ⟨hsending, -, hfull⟩ := hs.stopped (hnone (.main p)) (hnone (.display p))
  · have hinput := (hs.peers p).ended (.inr hgone)
    have hpending : (s.peer p).pending = [] := pending_of_ne (by simp [hgone])
    refine .inl ⟨hgone, ?_, fun hne => ?_⟩
    · simp only [hinput, hpending, List.length_nil] at hcount
      omega
    · obtain ⟨hsending, hnoneHeld, -⟩ := hother.resolve_left hne
      have hqueue := queue_eq_nil hreceive hsending hnoneHeld
      have hflow := hs.flow p
      simpa [Flow, State.onTheWay, hinput, hpending, hqueue, hnoneHeld] using hflow.symm
  · refine .inr ⟨hsending, ?_, ?_⟩
    · by_contra hne
      obtain ⟨hsending', hheld', -⟩ := hother.resolve_left hne
      simp [queue_eq_nil hreceive hsending' hheld'] at hfull
    · simp only [pending_of_sending hsending, List.length_singleton] at hcount
      omega

/-- A message that has not been filled in. -/
def blank : Text := ⟨.start, .ofBytes _ [], .ofBytes _ []⟩

/-- "root" listens and "kevin" invokes. -/
def users : Side → User
  | .listener => ⟨[114, 111, 111, 116], by decide⟩
  | .invoker => ⟨[107, 101, 118, 105, 110], by decide⟩

/-- Nine times "a\n" from the listener, and nothing from the invoker. -/
def nineLines : Side → List Bytes
  | .listener => List.replicate 9 [97, 10]
  | .invoker => []

theorem short_nineLines : Short nineLines := by
  intro p l hl
  cases p with
  | listener =>
    rw [List.eq_of_mem_replicate hl]
    decide
  | invoker => cases hl

/-- The receiving thread of `p` has not received anything. -/
def Deaf (s : State) (p : Side) : Prop := (s.peer p).held = none ∧ (s.peer p).out = []

theorem Deaf.set {q : Side} {P : Peer} (hs : Deaf s p)
    (hP : q = p → P.held = none ∧ P.out = []) : Deaf (s.set q P) p := by
  obtain rfl | rfl := q.eq_or_eq_other p
  · simpa [Deaf] using hP rfl
  · simpa [Deaf] using hs

theorem Deaf.of_move (hs : Deaf s p) (h : Move user s a s') (ha : a ≠ .receive p) : Deaf s' p := by
  cases h with
  | hello => exact hs.set fun hqp => hqp ▸ hs
  | read =>
    refine hs.set ?_
    rintro rfl
    rw [Peer.read]
    split <;> exact hs
  | leave => exact hs.set fun hqp => hqp ▸ hs
  | send => exact hs.set fun hqp => hqp ▸ hs
  | exit => exact hs.set fun hqp => hqp ▸ hs
  | receive => exact hs.set fun hqp => absurd (congrArg Label.receive hqp) ha
  | display hheld =>
    refine hs.set ?_
    rintro rfl
    rw [hs.1] at hheld
    cases hheld

/-- If `p` has more to say than the queue of a deaf peer holds, it does not get to its end; and
the peer, whose messages are received, does. -/
theorem Inv.left_hanging (hs : Inv user lines s) (hdeaf : Deaf s p.other)
    (hlength : mqMaxmsg < (lines p).length)
    (hstop : ∀ a, a ≠ .receive p.other → (machine user lines).step s a = none) :
    (s.peer p).pc = .sending ∧ (s.peer p.other).pc = .gone := by
  have hother := hs.stopped (hstop (.main p.other) (by simp)) (hstop (.display p.other) (by simp))
  have hwaiting : (s.peer p.other).pc ≠ .waiting := by
    obtain h | h := hother <;> simp [h]
  have hcount := hs.length_lines hwaiting
  have hroom := (hs.peers p.other).room
  have hp : (s.peer p).pc ≠ .gone := by
    intro hgone
    simp only [hdeaf.1, hdeaf.2, pending_of_ne (P := s.peer p) (by simp [hgone]),
      (hs.peers p).ended (.inr hgone), Option.toList_none, List.flatMap_nil, List.length_nil]
      at hcount
    omega
  obtain ⟨hsending, hheld, -⟩ :=
    (hs.stopped (hstop (.main p) (by simp)) (hstop (.display p) (by simp))).resolve_left hp
  have hqueue := queue_eq_nil (hstop (.receive p) (by simp)) hsending hheld
  refine ⟨hsending, hother.resolve_right ?_⟩
  rintro ⟨-, -, hfull⟩
  simp [hqueue] at hfull

/-- **Who can be left hanging.** A process can end up blocked in `mq_send` for good exactly if it is
given more lines than a queue holds, whatever its peer says. -/
theorem hangs_iff (hlines : Short lines) (p : Side) :
    (∃ s, (machine user lines).Reachable s ∧ ¬ (machine user lines).Enabled s ∧
      (s.peer p).pc ≠ .gone) ↔ mqMaxmsg < (lines p).length := by
  constructor
  · rintro ⟨s, ⟨s₀, tr, hinit, hrun⟩, hfinal, hgone⟩
    have hs := Inv.of_run hlines hinit hrun
    obtain ⟨h, -⟩ | ⟨-, -, hlength⟩ := hs.ended hfinal p
    · exact absurd h hgone
    · omega
  · intro hlength
    obtain ⟨tr, s, hrun, ⟨hs, hdeaf⟩, hstop⟩ := Machine.exists_final_restrict
      (M := machine user lines) (I := fun s => Inv user lines s ∧ Deaf s p.other)
      (G := fun _ a => a ≠ .receive p.other) (fun s a t _ hstep => left_lowers s a t hstep)
      (fun s a t hs ha hstep => ⟨hs.1.of_step hstep, hs.2.of_move (move_of_step hstep) ha⟩)
      (s := start lines (fun _ => blank) blank) ⟨.start hlines _ _, by cases p <;> exact ⟨rfl, rfl⟩⟩
    obtain ⟨hsending, hgone⟩ := hs.left_hanging hdeaf hlength hstop
    refine ⟨s, ⟨_, tr, ⟨_, _, rfl⟩, hrun⟩, ?_, by simp [hsending]⟩
    rintro ⟨a, t, hstep⟩
    by_cases ha : a = .receive p.other
    · subst ha
      cases move_of_step hstep with
      | receive hpc => simp [hgone] at hpc
    · rw [hstop a ha] at hstep
      cases hstep

theorem hangs_iff_nineLines : ∃ s, (machine users nineLines).Reachable s ∧
    ¬ (machine users nineLines).Enabled s ∧ (s.peer .listener).pc ≠ .gone :=
  (hangs_iff short_nineLines .listener).mpr (by decide)

end Conversation

end Chat

end Tlpiexer
