import Mathlib.Logic.Function.Basic
import Tlpiexer.Foundations.Transition
import Tlpiexer.QueueMonitor.Frame

/-!
# Many queues into one pipe

The threads of `src/imp/63-03.c`. Every monitor thread copies the messages of its queue into one
pipe (`monitor_queue_entry`); the main thread takes them out again with `read_pipe`, which reads a
header and then as many bytes as the header says.

## Two reads

Between the two reads of `read_pipe` other threads may write, so the pipe does not hold whole
messages then. What it holds is said by `Pending`: the messages that are written and not decoded,
in the order of their writes, the first of them without its header when `read_pipe` has read that
already. The invariant is that the decoded messages and the pending ones are the written ones.

## What the model records

`written` lists the messages in the order their writes entered the pipe, each with the thread it
came from, and a thread keeps the message it has received and not written in `inHand`; no step
reads them. The errors of `read_pipe` and an index outside `data` are modelled, and shown not to
occur.

## Main results

* `QueueMonitor.decoded_in_order` — what `read_pipe` decodes
-/

namespace Tlpiexer

namespace QueueMonitor

open CString Layout Transition

variable {ι : Type*}

/-- Where a monitor thread is. -/
inductive ThreadPc
  /-- At `mq_receive`. -/
  | receive
  /-- At `write`. -/
  | write
  /-- It has returned. -/
  | returned
  deriving DecidableEq

/-- A monitor thread. -/
structure Thread where
  qmsg : QueueMsg
  /-- What its queue will deliver. -/
  inbox : List Msg
  /-- What it has received and not written. -/
  inHand : List Msg
  pc : ThreadPc
  deriving DecidableEq

/-- Where the main thread is. -/
inductive Reader
  /-- Between two calls of `read_pipe`. -/
  | idle
  /-- In `read_pipe`, with the header read. -/
  | payload (qid : BitVec 32) (size : BitVec 64)
  /-- `read_pipe` has gone past the end of `data`. -/
  | overrun
  deriving DecidableEq

/-- The process. -/
structure State (ι : Type*) where
  threads : ι → Thread
  pipe : Bytes
  reader : Reader
  /-- The messages `read_pipe` has decoded. -/
  decoded : List (BitVec 32 × Bytes)
  /-- The calls of `read_pipe` that ended with an error message. -/
  errors : ℕ
  /-- The messages in the order their writes entered the pipe. -/
  written : List (ι × Msg)

/-- What happens next. -/
inductive Label (ι : Type*)
  /-- A step of a monitor thread. -/
  | thread (i : ι)
  /-- The call a monitor thread is at fails. -/
  | fail (i : ι)
  /-- A read of `read_pipe`. -/
  | read

variable [DecidableEq ι]

/-- A thread moves. -/
def State.setThread (s : State ι) (i : ι) (T : Thread) : State ι :=
  { s with threads := Function.update s.threads i T }

/-- A step of `monitor_queue_entry`; `cap` is the capacity of the pipe. -/
def State.runThread (cap : ℕ) (s : State ι) (i : ι) : Option (State ι) :=
  let T := s.threads i
  match T.pc with
  | .receive =>
    match T.inbox with
    | [] => none
    | m :: inbox => some (s.setThread i ⟨T.qmsg.receive m, inbox, [m], .write⟩)
  | .write =>
    -- the write waits until all of it fits
    if s.pipe.length + T.qmsg.frame.length ≤ cap then
      some { s.setThread i { T with inHand := [], pc := .receive } with
        pipe := s.pipe ++ T.qmsg.frame
        written := s.written ++ T.inHand.map fun m => (i, m) }
    else none
  | .returned => none

/-- The call of `monitor_queue_entry` fails. -/
def State.failThread (s : State ι) (i : ι) : Option (State ι) :=
  let T := s.threads i
  if T.pc = .returned then none else some (s.setThread i { T with pc := .returned })

/-- A read of `read_pipe`: of the header, or of the bytes behind it. -/
def State.runRead (s : State ι) : Option (State ι) :=
  match s.reader with
  | .idle =>
    if s.pipe = [] then none
    else
      let bs := s.pipe.take headerSize
      if bs.length ≠ headerSize then
        some { s with pipe := s.pipe.drop headerSize, errors := s.errors + 1 }
      else
        some
          { s with
            pipe := s.pipe.drop headerSize
            reader := .payload (qidField bs) (sizeField bs) }
  | .payload qid size =>
    if 0 ≤ size.toInt ∧ size.toInt < maxMsgSize then
      let n := size.toNat
      if n ≠ 0 ∧ s.pipe = [] then none
      else
        let bs := s.pipe.take n
        if bs.length ≠ n then
          some { s with pipe := s.pipe.drop n, reader := .idle, errors := s.errors + 1 }
        else
          some
            { s with
              pipe := s.pipe.drop n
              reader := .idle
              decoded := s.decoded ++ [(qid, bs)] }
    else some { s with reader := .overrun }
  | .overrun => none

/-- One step of the process. -/
def State.step (cap : ℕ) (s : State ι) : Label ι → Option (State ι)
  | .thread i => s.runThread cap i
  | .fail i => s.failThread i
  | .read => s.runRead

/-- The process when its threads have opened their queues. -/
structure Init (s : State ι) : Prop where
  pipe : s.pipe = []
  reader : s.reader = .idle
  decoded : s.decoded = []
  errors : s.errors = 0
  written : s.written = []
  pc : ∀ i, (s.threads i).pc ≠ .write
  inHand : ∀ i, (s.threads i).inHand = []

/-- The system. -/
def machine (ι : Type*) [DecidableEq ι] (cap : ℕ) : Machine (State ι) (Label ι) where
  init := Init
  step := State.step cap

/-! ### What is pending -/

/-- The pair `read_pipe` should decode from a message of thread `i`. -/
def State.pair (s : State ι) (e : ι × Msg) : BitVec 32 × Bytes :=
  ((s.threads e.1).qmsg.qid, e.2.val)

/-- The bytes of a message of thread `i` in the pipe. -/
def State.frame (s : State ι) (e : ι × Msg) : Bytes :=
  header (s.threads e.1).qmsg.qid (s.threads e.1).qmsg.padding e.2 ++ e.2.val

/-- The messages `rest` are what is written and not decoded, and they are what the pipe holds;
queue ids and padding are those of `s₀`. -/
def Pending (s₀ s : State ι) (rest : List (ι × Msg)) : Prop :=
  s.decoded ++ rest.map s₀.pair = s.written.map s₀.pair ∧
    match s.reader with
    | .idle => s.pipe = (rest.map s₀.frame).flatten
    | .payload qid size => ∃ e rest', rest = e :: rest' ∧ qid = (s₀.threads e.1).qmsg.qid ∧
        size = .ofNat 64 e.2.val.length ∧ s.pipe = e.2.val ++ (rest'.map s₀.frame).flatten
    | .overrun => False

/-- What a thread has of its own. -/
structure Thread.Ok (T₀ T : Thread) (written : List Msg) : Prop where
  qid : T.qmsg.qid = T₀.qmsg.qid
  padding : T.qmsg.padding = T₀.qmsg.padding
  /-- At `write`, the record is that of the message in its hand. -/
  write : T.pc = .write → ∃ m, T.inHand = [m] ∧ ∃ q : QueueMsg, T.qmsg = q.receive m
  /-- Otherwise it has none, unless it has returned. -/
  receive : T.pc = .receive → T.inHand = []
  /-- The messages of its queue are written, in its hand, or still to come. -/
  order : written ++ T.inHand ++ T.inbox = T₀.inbox

/-- The messages of one thread, in the order of their writes. -/
def State.writtenBy (s : State ι) (i : ι) : List Msg :=
  (s.written.filter fun e => e.1 = i).map Prod.snd

/-- The invariant. -/
structure Inv (s₀ s : State ι) : Prop where
  threads : ∀ i, (s₀.threads i).Ok (s.threads i) (s.writtenBy i)
  pending : ∃ rest, Pending s₀ s rest
  errors : s.errors = 0

section Steps

variable {s₀ s t : State ι} {cap : ℕ} {rest : List (ι × Msg)}

theorem inv_init (h : Init s) : Inv s s where
  threads i := by
    refine ⟨rfl, rfl, fun hpc => absurd hpc (h.pc i), fun _ => h.inHand i, ?_⟩
    simp [State.writtenBy, h.written, h.inHand i]
  pending := by
    refine ⟨[], ?_, ?_⟩
    · simp [h.decoded, h.written]
    · rw [h.reader]
      exact h.pipe
  errors := h.errors

/-! ### The monitor threads -/

section OneThread

variable {T₀ T : Thread} {written : List Msg} {m : Msg}

theorem Thread.Ok.receives (h : T₀.Ok T written) (hpc : T.pc = .receive) {inbox : List Msg}
    (hm : T.inbox = m :: inbox) : T₀.Ok ⟨T.qmsg.receive m, inbox, [m], .write⟩ written where
  qid := h.qid
  padding := h.padding
  write _ := ⟨m, rfl, T.qmsg, rfl⟩
  receive := nofun
  order := by
    have horder := h.order
    rw [h.receive hpc, hm] at horder
    simpa using horder

theorem Thread.Ok.writes (h : T₀.Ok T written) (hm : T.inHand = [m]) :
    T₀.Ok { T with inHand := [], pc := .receive } (written ++ [m]) where
  qid := h.qid
  padding := h.padding
  write := nofun
  receive _ := rfl
  order := by
    have horder := h.order
    rw [hm] at horder
    simpa using horder

theorem Thread.Ok.returns (h : T₀.Ok T written) : T₀.Ok { T with pc := .returned } written :=
  ⟨h.qid, h.padding, nofun, nofun, h.order⟩

/-- What a thread writes is the frame of the message in its hand. -/
theorem Thread.Ok.frame_eq (h : T₀.Ok T written) (hpc : T.pc = .write) :
    ∃ m, T.inHand = [m] ∧ T.qmsg.frame = header T₀.qmsg.qid T₀.qmsg.padding m ++ m.val ∧
      T.qmsg.frame.length ≤ pipeBuf := by
  obtain ⟨m, hm, q, hq⟩ := h.write hpc
  have hqid : q.qid = T₀.qmsg.qid := by rw [← h.qid, hq]; rfl
  have hpad : q.padding = T₀.qmsg.padding := by rw [← h.padding, hq]; rfl
  refine ⟨m, hm, ?_, ?_⟩
  · rw [hq, frame_receive, hqid, hpad]
  · rw [hq]
    exact length_frame_receive q m

end OneThread

/-- A step of one thread that writes nothing. -/
theorem Inv.setThread (h : Inv s₀ s) {i : ι} {T : Thread}
    (hT : (s₀.threads i).Ok T (s.writtenBy i)) : Inv s₀ (s.setThread i T) where
  threads j := by
    show (s₀.threads j).Ok (Function.update s.threads i T j) (s.writtenBy j)
    by_cases hj : j = i
    · subst hj
      rwa [Function.update_self]
    · rw [Function.update_of_ne hj]
      exact h.threads j
  pending := h.pending
  errors := h.errors

theorem writtenBy_concat_self (s : State ι) (i : ι) (m : Msg) :
    ((s.written ++ [(i, m)]).filter fun e => e.1 = i).map Prod.snd = s.writtenBy i ++ [m] := by
  simp [State.writtenBy]

theorem writtenBy_concat_of_ne (s : State ι) {i j : ι} (h : j ≠ i) (m : Msg) :
    ((s.written ++ [(i, m)]).filter fun e => e.1 = j).map Prod.snd = s.writtenBy j := by
  simp [State.writtenBy, h.symm]

omit [DecidableEq ι] in
/-- A write puts one more message at the end of what is pending. -/
theorem Pending.concat (h : Pending s₀ s rest) (e : ι × Msg) (threads : ι → Thread) :
    Pending s₀ { s with
      threads := threads, pipe := s.pipe ++ s₀.frame e, written := s.written ++ [e] }
      (rest ++ [e]) := by
  obtain ⟨heq, hpipe⟩ := h
  refine ⟨?_, ?_⟩
  · show s.decoded ++ (rest ++ [e]).map s₀.pair = (s.written ++ [e]).map s₀.pair
    rw [List.map_append, List.map_append, ← heq, List.append_assoc]
  · show match s.reader with
      | .idle => s.pipe ++ s₀.frame e = ((rest ++ [e]).map s₀.frame).flatten
      | .payload qid size => ∃ e' rest', rest ++ [e] = e' :: rest' ∧
          qid = (s₀.threads e'.1).qmsg.qid ∧ size = .ofNat 64 e'.2.val.length ∧
          s.pipe ++ s₀.frame e = e'.2.val ++ (rest'.map s₀.frame).flatten
      | .overrun => False
    cases hr : s.reader with
    | idle =>
      simp only [hr] at hpipe
      simp [hpipe]
    | payload qid size =>
      simp only [hr] at hpipe
      obtain ⟨e', rest', rfl, hqid, hsize, hp⟩ := hpipe
      refine ⟨e', rest' ++ [e], rfl, hqid, hsize, ?_⟩
      simp [hp]
    | overrun => simp only [hr] at hpipe

theorem inv_runThread (h : Inv s₀ s) {i : ι} (hstep : s.runThread cap i = some t) : Inv s₀ t := by
  have hT := h.threads i
  simp only [State.runThread] at hstep
  split at hstep
  case h_1 hpc =>
    split at hstep
    case h_1 => cases hstep
    case h_2 m inbox hm =>
      cases hstep
      exact h.setThread (hT.receives hpc hm)
  case h_2 hpc =>
    split at hstep
    case isFalse => cases hstep
    case isTrue =>
      obtain ⟨m, hm, hframe, -⟩ := hT.frame_eq hpc
      obtain ⟨rest, hrest⟩ := h.pending
      cases hstep
      simp only [hm, hframe, List.map_cons, List.map_nil]
      refine ⟨?_, ⟨_, hrest.concat (i, m) _⟩, h.errors⟩
      intro j
      by_cases hj : j = i
      · subst hj
        simp only [State.setThread, Function.update_self, State.writtenBy]
        rw [writtenBy_concat_self]
        exact hT.writes hm
      · simp only [State.setThread, Function.update_of_ne hj, State.writtenBy]
        rw [writtenBy_concat_of_ne s hj]
        exact h.threads j
  case h_3 => cases hstep

theorem inv_failThread (h : Inv s₀ s) {i : ι} (hstep : s.failThread i = some t) : Inv s₀ t := by
  obtain ⟨_, ht⟩ := Option.ite_none_left_eq_some.mp hstep
  cases ht
  exact h.setThread (h.threads i).returns

/-! ### `read_pipe` -/

omit [DecidableEq ι] in
/-- The first read finds a whole header. -/
theorem Pending.readHeader {e : ι × Msg} (h : Pending s₀ s (e :: rest)) (hr : s.reader = .idle) :
    s.runRead = some { s with
      pipe := e.2.val ++ (rest.map s₀.frame).flatten
      reader := .payload (s₀.threads e.1).qmsg.qid (.ofNat 64 e.2.val.length) } := by
  let hdr := header (s₀.threads e.1).qmsg.qid (s₀.threads e.1).qmsg.padding e.2
  have hlen : hdr.length = headerSize := length_header _ _ _
  have hpipe : s.pipe = hdr ++ (e.2.val ++ (rest.map s₀.frame).flatten) := by
    have hp := h.2
    simp only [hr] at hp
    rw [hp, List.map_cons, List.flatten_cons, State.frame, List.append_assoc]
  have hne : s.pipe ≠ [] := by
    intro hnil
    have hzero := congrArg List.length (hpipe.symm.trans hnil)
    rw [List.length_append, hlen, headerSize, List.length_nil] at hzero
    omega
  have htake : s.pipe.take headerSize = hdr := by rw [hpipe, List.take_left' hlen]
  have hdrop : s.pipe.drop headerSize = e.2.val ++ (rest.map s₀.frame).flatten := by
    rw [hpipe, List.drop_left' hlen]
  simp only [State.runRead, hr, if_neg hne, htake, hlen, ne_eq, not_true_eq_false, if_false, hdrop]
  rw [qidField_header, sizeField_header]

omit [DecidableEq ι] in
/-- The second read finds all bytes of the message. -/
theorem Pending.readPayload {qid : BitVec 32} {size : BitVec 64} (h : Pending s₀ s rest)
    (hr : s.reader = .payload qid size) : ∃ e rest', rest = e :: rest' ∧
      s.runRead = some { s with
        pipe := (rest'.map s₀.frame).flatten
        reader := .idle
        decoded := s.decoded ++ [s₀.pair e] } := by
  have hp := h.2
  simp only [hr] at hp
  obtain ⟨e, rest', rfl, hqid, hsize, hpipe⟩ := hp
  refine ⟨e, rest', rfl, ?_⟩
  have hm := length_msg e.2
  have hint : 0 ≤ size.toInt ∧ size.toInt < maxMsgSize := by
    rw [hsize, toInt_size]
    constructor
    · omega
    · show (e.2.val.length : ℤ) < (1024 : ℕ)
      omega
  have hnat : size.toNat = e.2.val.length := by rw [hsize, toNat_size]
  have htake : s.pipe.take size.toNat = e.2.val := by rw [hpipe, hnat, List.take_left]
  have hdrop : s.pipe.drop size.toNat = (rest'.map s₀.frame).flatten := by
    rw [hpipe, hnat, List.drop_left]
  have hsome : ¬ (size.toNat ≠ 0 ∧ s.pipe = []) := by
    rintro ⟨hne, hnil⟩
    rw [hnil, List.take_nil] at htake
    rw [hnat, ← htake] at hne
    exact hne rfl
  have hlen : ¬ e.2.val.length ≠ size.toNat := not_not_intro hnat.symm
  simp only [State.runRead, hr, if_pos hint, if_neg hsome, htake, if_neg hlen, hdrop, hqid]
  rfl

theorem inv_runRead (h : Inv s₀ s) (hstep : s.runRead = some t) : Inv s₀ t := by
  obtain ⟨rest, hrest⟩ := h.pending
  cases hr : s.reader with
  | idle =>
    cases rest with
    | nil =>
      -- nothing is pending, so the pipe is empty and the read waits
      have hp := hrest.2
      simp only [hr, List.map_nil, List.flatten_nil] at hp
      simp only [State.runRead, hr, if_pos hp] at hstep
      cases hstep
    | cons e rest =>
      rw [hrest.readHeader hr] at hstep
      cases hstep
      exact ⟨h.threads, ⟨e :: rest, hrest.1, e, rest, rfl, rfl, rfl, rfl⟩, h.errors⟩
  | payload qid size =>
    obtain ⟨e, rest', rfl, hread⟩ := hrest.readPayload hr
    rw [hread] at hstep
    cases hstep
    refine ⟨h.threads, ⟨rest', ?_, rfl⟩, h.errors⟩
    have heq := hrest.1
    show s.decoded ++ [s₀.pair e] ++ rest'.map s₀.pair = s.written.map s₀.pair
    rw [List.append_assoc]
    exact heq
  | overrun =>
    have hp := hrest.2
    simp only [hr] at hp

theorem inv_of_step (h : Inv s₀ s) {a : Label ι} (hstep : s.step cap a = some t) : Inv s₀ t := by
  cases a with
  | thread i => exact inv_runThread h hstep
  | fail i => exact inv_failThread h hstep
  | read => exact inv_runRead h hstep

theorem inv_of_run {tr : List (State ι × Label ι)} (h₀ : Init s₀)
    (h : (machine ι cap).Run s₀ tr s) : Inv s₀ s :=
  h.invariant (I := Inv s₀) (fun _ _ _ hs hstep => inv_of_step hs hstep) (inv_init h₀)

/-- As long as something is pending, `read_pipe` goes on. -/
theorem Pending.exists_read (h : Pending s₀ s rest) (hne : rest ≠ []) :
    ∃ t, (machine ι cap).step s .read = some t := by
  cases hr : s.reader with
  | idle =>
    obtain ⟨e, rest', rfl⟩ := List.exists_cons_of_ne_nil hne
    exact ⟨_, h.readHeader hr⟩
  | payload qid size =>
    obtain ⟨e, rest', rfl, hread⟩ := h.readPayload hr
    exact ⟨_, hread⟩
  | overrun =>
    have hp := h.2
    simp only [hr] at hp

omit [DecidableEq ι] in
/-- When the pipe is empty and `read_pipe` is not in the middle of a message, nothing is pending. -/
theorem Pending.eq_nil (h : Pending s₀ s rest) (hr : s.reader = .idle) (hp : s.pipe = []) :
    rest = [] := by
  cases rest with
  | nil => rfl
  | cons e rest =>
    have hpipe := h.2
    simp only [hr, hp, List.map_cons, List.flatten_cons, State.frame] at hpipe
    have hzero := congrArg List.length hpipe
    rw [List.length_append, List.length_append, length_header, headerSize, List.length_nil] at hzero
    omega

end Steps

/-- **Framing.** In every interleaving of the monitor threads and the reads of `read_pipe`, the
pairs decoded so far are the first of the messages in the order of their writes, and as long as one
is missing the next read is possible; with the pipe empty between two calls of `read_pipe` they are
all of them. No call of `read_pipe` ends with an error or leaves `data`, every write is atomic, and
the messages a thread has written are the first of those its queue delivers, in order. -/
theorem decoded_in_order {cap : ℕ} {s₀ s : State ι} {tr : List (State ι × Label ι)}
    (h₀ : (machine ι cap).init s₀) (h : (machine ι cap).Run s₀ tr s) :
    (∃ rest, s.written.map s₀.pair = s.decoded ++ rest ∧
      (rest ≠ [] → ∃ t, (machine ι cap).step s .read = some t) ∧
      (s.reader = .idle → s.pipe = [] → rest = [])) ∧
    s.errors = 0 ∧ s.reader ≠ .overrun ∧
    (∀ i, (s.threads i).pc = .write → (s.threads i).qmsg.frame.length ≤ pipeBuf) ∧
    ∀ i, s.writtenBy i ++ (s.threads i).inHand ++ (s.threads i).inbox = (s₀.threads i).inbox := by
  have hinv := inv_of_run h₀ h
  obtain ⟨rest, hrest⟩ := hinv.pending
  refine ⟨⟨rest.map s₀.pair, hrest.1.symm, ?_, ?_⟩, hinv.errors, ?_, ?_, ?_⟩
  · intro hne
    exact hrest.exists_read fun hnil => hne (by rw [hnil, List.map_nil])
  · intro hr hp
    rw [hrest.eq_nil hr hp, List.map_nil]
  · intro hr
    have hp := hrest.2
    simp only [hr] at hp
  · intro i hpc
    obtain ⟨m, -, -, hle⟩ := (hinv.threads i).frame_eq hpc
    exact hle
  · intro i
    exact (hinv.threads i).order

/-- Two threads with one message each, the first of them empty. -/
def twoQueues : State Bool where
  threads i :=
    { qmsg := ⟨if i then 7 else 6, .ofBytes _ [], 0, .ofBytes _ []⟩
      inbox := [⟨if i then [104, 105] else [], by cases i <;> decide⟩]
      inHand := []
      pc := .receive }
  pipe := []
  reader := .idle
  decoded := []
  errors := 0
  written := []

/-- The second thread writes between the two reads of the first message. -/
def twoMessages : List (Label Bool) :=
  [.thread true, .thread false, .thread false, .read, .thread true, .read, .read, .read]

theorem decoded_in_order_twoMessages :
    ∃ tr s, (machine Bool 65536).Run twoQueues tr s ∧ s.decoded = [(6, []), (7, [104, 105])] ∧
      s.written.map twoQueues.pair = [(6, []), (7, [104, 105])] := by
  have hexec : ((machine Bool 65536).exec twoQueues twoMessages).map
      (fun s => (s.decoded, s.reader, s.pipe)) =
        some ([(6, []), (7, [104, 105])], .idle, []) := by decide +kernel
  obtain ⟨s, hs, heq⟩ := Option.map_eq_some_iff.mp hexec
  obtain ⟨hdecoded, hreader, hpipe⟩ : s.decoded = _ ∧ s.reader = _ ∧ s.pipe = _ := by
    simpa only [Prod.mk.injEq] using heq
  have hinit : (machine Bool 65536).init twoQueues :=
    ⟨rfl, rfl, rfl, rfl, rfl, fun _ => nofun, fun _ => rfl⟩
  have hrun := Machine.run_of_exec hs
  obtain ⟨⟨rest, heq, -, hnil⟩, -⟩ := decoded_in_order hinit hrun
  refine ⟨_, s, hrun, hdecoded, ?_⟩
  rw [heq, hnil hreader hpipe, List.append_nil, hdecoded]

end QueueMonitor

end Tlpiexer
