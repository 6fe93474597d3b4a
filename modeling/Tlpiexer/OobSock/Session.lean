import Tlpiexer.Constants
import Tlpiexer.Foundations.Transition
import Tlpiexer.OobSock

/-!
# Normal and urgent data

What follows the handshake of `src/imp/61-06-client.c` and `src/imp/61-06-server.c`. The client's
child sends normal data in a loop; the client sends one urgent message with data and one that asks
the server to close. The server's child polls both sockets (`is_oob`) and reads the urgent one
first.

## The sockets

Each connection is a stream of bytes. What has been written is in flight until it arrives, in
pieces of any size, and the two streams are independent of each other. A `read` returns what has
arrived, up to the size asked for. The end of a stream arrives behind its last byte, and only after
every process that has the socket open has closed it: if the client fails, its child still holds
both.

## How the data is shown

The server shows what it has read from the normal socket as a string. It neither looks at the
number of bytes nor clears the buffer, so one line may stand for several messages, and a read at
the end of the stream shows the old contents again.

## Main results

* `urgent_first` — normal data cannot delay urgent messages that have arrived
* `session_outcome` — what the server shows, and how it ends
-/

namespace Tlpiexer

namespace OobSock

namespace Session

open CString Transition

/-! ### States -/

/-- `OOB_CLOSE`. -/
def oobClose : BitVec (8 * 4) := 1

/-- `OOB_DATA`. -/
def oobData : BitVec (8 * 4) := 2

/-- `DATA_NORMAL_SOCK`, with its NUL. -/
def normalData : Bytes :=
  [78, 79, 82, 77, 65, 76, 32, 78, 79, 82, 77, 65, 76, 32, 78, 79, 82, 77, 65, 76, 0]

/-- `DATA_URGENT_SOCK`. -/
def urgentData : Bytes :=
  [85, 82, 71, 69, 78, 84, 32, 85, 82, 71, 69, 78, 84, 32, 85, 82, 71, 69, 78, 84]

/-- One direction of a connection. -/
structure Sock where
  flight : Bytes
  arrived : Bytes
  /-- All processes of the client have closed it. -/
  closed : Bool
  /-- The server knows. -/
  eof : Bool

/-- `poll` reports `POLLIN`. -/
def Sock.readable (k : Sock) : Bool := k.arrived ≠ [] || k.eof

/-- What the server prints. -/
inductive Line
  | normal (text : Option Bytes)
  | close
  | data (text : Option Bytes)
  | unknow
  deriving DecidableEq

/-- Where `peer_proc_entry` is. -/
inductive Server
  | polling
  /-- `is_oob` has returned 1. -/
  | urgent
  /-- `is_oob` has returned 2. -/
  | normal
  | exited (status : ℕ)
  deriving DecidableEq

/-- How far the client has got. -/
inductive Client
  | ready
  | sentData
  | sentClose
  | ended
  /-- In `EXIT_ERROR`. -/
  | failed
  deriving DecidableEq

/-- Both programs and the connections. -/
structure State where
  client : Client
  /-- The process that sends normal data. -/
  child : Bool
  /-- `oob_msg.data` of the client. -/
  data : CharArray 256
  normal : Sock
  urgent : Sock
  server : Server
  buf : CharArray bufSize
  out : List Line

/-- What happens next. -/
inductive Label
  /-- The client writes its first or second urgent message, or fails. -/
  | send (ok : Bool)
  /-- The client kills its child and closes both sockets. -/
  | endClient
  /-- The child writes normal data, or fails. -/
  | sendNormal (ok : Bool)
  | arriveNormal (n : ℕ)
  | arriveUrgent (n : ℕ)
  | finNormal
  | finUrgent
  /-- The server calls `is_oob`. -/
  | poll (ok : Bool)
  | readNormal (ok : Bool)
  | readUrgent (ok : Bool)

/-! ### Steps -/

/-- `n` bytes arrive. -/
def Sock.arrive (k : Sock) (n : ℕ) : Sock :=
  { k with flight := k.flight.drop n, arrived := k.arrived ++ k.flight.take n }

/-- The client's processes have closed it if none is left. -/
def Sock.close (k : Sock) (all : Bool) : Sock := { k with closed := k.closed || all }

/-- The next urgent message of the client. -/
def State.message (s : State) : OobMsg :=
  match s.client with
  | .ready => ⟨oobData, .ofBytes 256 (overlay s.data.val (urgentData ++ [0]))⟩
  | _ => ⟨oobClose, s.data⟩

/-- The server has read an urgent message. -/
def State.handle (s : State) (msg : OobMsg) : State :=
  if msg.code = oobClose then { s with server := .exited 0, out := s.out ++ [.close] }
  else if msg.code = oobData then
    { s with server := .polling, out := s.out ++ [.data (printed msg.data.val)] }
  else { s with server := .polling, out := s.out ++ [.unknow] }

/-- `is_oob`, without its error. It waits while neither socket is readable. -/
def State.isOob (s : State) : Option ℕ :=
  if s.urgent.readable then some 1 else if s.normal.readable then some 2 else none

/-- One step. -/
def State.step (s : State) : Label → Option State
  | .send ok =>
    if s.client = .ready ∨ s.client = .sentData then
      if ok then some { s with
        client := if s.client = .ready then .sentData else .sentClose
        data := s.message.data
        urgent := { s.urgent with flight := s.urgent.flight ++ s.message.encode } }
      else some { s with
        client := .failed
        normal := s.normal.close !s.child
        urgent := s.urgent.close !s.child }
    else none
  | .endClient =>
    if s.client = .sentClose then some { s with
      client := .ended
      child := false
      normal := s.normal.close true
      urgent := s.urgent.close true }
    else none
  | .sendNormal ok =>
    if s.child then
      if ok then some { s with normal := { s.normal with flight := s.normal.flight ++ normalData } }
      else some { s with
        child := false
        normal := s.normal.close (s.client = .failed)
        urgent := s.urgent.close (s.client = .failed) }
    else none
  | .arriveNormal n => some { s with normal := s.normal.arrive n }
  | .arriveUrgent n => some { s with urgent := s.urgent.arrive n }
  | .finNormal =>
    if s.normal.closed ∧ s.normal.flight = [] then
      some { s with normal := { s.normal with eof := true } }
    else none
  | .finUrgent =>
    if s.urgent.closed ∧ s.urgent.flight = [] then
      some { s with urgent := { s.urgent with eof := true } }
    else none
  | .poll ok =>
    if s.server = .polling then
      if ok then
        match s.isOob with
        | some 1 => some { s with server := .urgent }
        | some _ => some { s with server := .normal }
        | none => none
      else some { s with server := .exited 1 }
    else none
  | .readNormal ok =>
    if s.server = .normal then
      if ok then
        let bytes := s.normal.arrived.take bufSize
        let buf := CharArray.ofBytes bufSize (overlay s.buf.val bytes)
        some { s with
          normal := { s.normal with arrived := s.normal.arrived.drop bufSize }
          server := .polling
          buf := buf
          out := s.out ++ [.normal (printed buf.val)] }
      else some { s with server := .exited 1 }
    else none
  | .readUrgent ok =>
    if s.server = .urgent then
      if ok ∧ oobSize ≤ s.urgent.arrived.length then
        some (State.handle
          { s with urgent := { s.urgent with arrived := s.urgent.arrived.drop oobSize } }
          (.decode (s.urgent.arrived.take oobSize)))
      else some { s with server := .exited 1 }
    else none

/-- A connection without data. -/
def Sock.fresh : Sock := ⟨[], [], false, false⟩

/-- Behind the handshake; what the arrays hold is not known. -/
def machine : Machine State Label where
  init s := s.client = .ready ∧ s.child ∧ s.normal = .fresh ∧ s.urgent = .fresh ∧
    s.server = .polling ∧ s.out = []
  step := State.step

/-- The lines about urgent messages. -/
def urgentLines (out : List Line) : List Line :=
  out.filter fun
    | .normal _ => false
    | _ => true

/-- What a step does. -/
inductive Move (s : State) : Label → State → Prop
  | send (hc : s.client = .ready ∨ s.client = .sentData) : Move s (.send true)
      { s with
        client := if s.client = .ready then .sentData else .sentClose
        data := s.message.data
        urgent := { s.urgent with flight := s.urgent.flight ++ s.message.encode } }
  | sendFails (hc : s.client = .ready ∨ s.client = .sentData) : Move s (.send false)
      { s with
        client := .failed
        normal := s.normal.close !s.child
        urgent := s.urgent.close !s.child }
  | endClient (hc : s.client = .sentClose) : Move s .endClient
      { s with
        client := .ended
        child := false
        normal := s.normal.close true
        urgent := s.urgent.close true }
  | sendNormal : Move s (.sendNormal true)
      { s with normal := { s.normal with flight := s.normal.flight ++ normalData } }
  | childFails : Move s (.sendNormal false)
      { s with
        child := false
        normal := s.normal.close (s.client = .failed)
        urgent := s.urgent.close (s.client = .failed) }
  | arriveNormal (n : ℕ) : Move s (.arriveNormal n) { s with normal := s.normal.arrive n }
  | arriveUrgent (n : ℕ) : Move s (.arriveUrgent n) { s with urgent := s.urgent.arrive n }
  | finNormal : Move s .finNormal { s with normal := { s.normal with eof := true } }
  | finUrgent (hclosed : s.urgent.closed) (hflight : s.urgent.flight = []) :
      Move s .finUrgent { s with urgent := { s.urgent with eof := true } }
  | pollUrgent (hs : s.server = .polling) (hr : s.urgent.readable) :
      Move s (.poll true) { s with server := .urgent }
  | pollNormal (hs : s.server = .polling) (hr : s.urgent.readable = false) :
      Move s (.poll true) { s with server := .normal }
  | readNormal (hs : s.server = .normal) (buf : CharArray bufSize) :
      Move s (.readNormal true)
        { s with
          normal := { s.normal with arrived := s.normal.arrived.drop bufSize }
          server := .polling
          buf := buf
          out := s.out ++ [.normal (printed buf.val)] }
  | readUrgent (hs : s.server = .urgent) (hlen : oobSize ≤ s.urgent.arrived.length) :
      Move s (.readUrgent true)
        (State.handle
          { s with urgent := { s.urgent with arrived := s.urgent.arrived.drop oobSize } }
          (.decode (s.urgent.arrived.take oobSize)))
  | short (hs : s.server = .urgent) (hlen : s.urgent.arrived.length < oobSize) :
      Move s (.readUrgent true) { s with server := .exited 1 }
  | pollFails (hs : s.server = .polling) : Move s (.poll false) { s with server := .exited 1 }
  | readNormalFails (hs : s.server = .normal) :
      Move s (.readNormal false) { s with server := .exited 1 }
  | readUrgentFails (hs : s.server = .urgent) :
      Move s (.readUrgent false) { s with server := .exited 1 }

theorem move_of_step {s s' : State} {a : Label} (h : s.step a = some s') : Move s a s' := by
  cases a with
  | send ok =>
    obtain ⟨hc, h⟩ := Option.ite_none_right_eq_some.mp h
    cases ok <;> cases h
    · exact .sendFails hc
    · exact .send hc
  | endClient =>
    obtain ⟨hc, ⟨⟩⟩ := Option.ite_none_right_eq_some.mp h
    exact .endClient hc
  | sendNormal ok =>
    obtain ⟨-, h⟩ := Option.ite_none_right_eq_some.mp h
    cases ok <;> cases h
    · exact .childFails
    · exact .sendNormal
  | arriveNormal n =>
    cases h
    exact .arriveNormal n
  | arriveUrgent n =>
    cases h
    exact .arriveUrgent n
  | finNormal =>
    obtain ⟨-, ⟨⟩⟩ := Option.ite_none_right_eq_some.mp h
    exact .finNormal
  | finUrgent =>
    obtain ⟨⟨hclosed, hflight⟩, ⟨⟩⟩ := Option.ite_none_right_eq_some.mp h
    exact .finUrgent hclosed hflight
  | poll ok =>
    obtain ⟨hs, h⟩ := Option.ite_none_right_eq_some.mp h
    cases ok with
    | false =>
      cases h
      exact .pollFails hs
    | true =>
      simp only [↓reduceIte, State.isOob] at h
      cases hu : s.urgent.readable with
      | true =>
        simp only [hu, ↓reduceIte] at h
        cases h
        exact .pollUrgent hs hu
      | false =>
        cases hn : s.normal.readable with
        | true =>
          simp only [hu, hn, Bool.false_eq_true, ↓reduceIte] at h
          cases h
          exact .pollNormal hs hu
        | false => simp [hu, hn] at h
  | readNormal ok =>
    obtain ⟨hs, h⟩ := Option.ite_none_right_eq_some.mp h
    cases ok <;> cases h
    · exact .readNormalFails hs
    · exact .readNormal hs _
  | readUrgent ok =>
    obtain ⟨hs, h⟩ := Option.ite_none_right_eq_some.mp h
    cases ok with
    | false =>
      cases h
      exact .readUrgentFails hs
    | true =>
      by_cases hlen : oobSize ≤ s.urgent.arrived.length
      · rw [if_pos ⟨rfl, hlen⟩] at h
        cases h
        exact .readUrgent hs hlen
      · rw [if_neg fun hc => hlen hc.2] at h
        cases h
        exact .short hs (Nat.not_le.mp hlen)

/-! ### Urgent before normal -/

/-- A step of the server. -/
def Label.isServer : Label → Bool
  | .poll _ | .readNormal _ | .readUrgent _ => true
  | _ => false

/-- A read from the normal socket. -/
def Label.isReadNormal : Label → Bool
  | .readNormal _ => true
  | _ => false

/-- How many steps the server makes until `m` urgent messages that have arrived are handled. -/
def Server.rank (m : ℕ) : Server → ℕ
  | .polling => 2 * m
  | .urgent => 2 * m - 1
  | .normal => 2 * m + 1
  | .exited _ => 0

/-- The read from the normal socket that the server has decided on. -/
def Server.due : Server → ℕ
  | .normal => 1
  | _ => 0

/-- The number of urgent messages handled. -/
def State.handled (s : State) : ℕ := (urgentLines s.out).length

section Urgent

variable {s s' t : State} {a : Label} {m : ℕ}

/-- What a step does about `m + 1` urgent messages that have arrived. -/
structure Progress (m : ℕ) (s : State) (a : Label) (s' : State) (k : ℕ) : Prop where
  handled : s'.handled = s.handled + k
  arrived : oobSize * (m + 1 - k) ≤ s'.urgent.arrived.length
  rank : s'.server.rank (m + 1 - k) + (if a.isServer then 1 else 0) ≤ s.server.rank (m + 1)
  due : s'.server.due + (if a.isReadNormal then 1 else 0) ≤ s.server.due

theorem urgentLines_concat (out : List Line) (l : Line) :
    urgentLines (out ++ [l]) = urgentLines out ++ urgentLines [l] := by
  simp [urgentLines]

theorem handled_handle (s : State) (msg : OobMsg) : (s.handle msg).handled = s.handled + 1 := by
  rw [State.handle]
  split
  · simp [State.handled, urgentLines]
  · split <;> simp [State.handled, urgentLines]

theorem server_handle (s : State) (msg : OobMsg) :
    (s.handle msg).server = .polling ∨ (s.handle msg).server = .exited 0 := by
  rw [State.handle]
  split
  · exact .inr rfl
  · split <;> exact .inl rfl

theorem frame_handle (s : State) (msg : OobMsg) :
    (s.handle msg).client = s.client ∧ (s.handle msg).urgent = s.urgent := by
  rw [State.handle]
  split
  · exact ⟨rfl, rfl⟩
  · split <;> exact ⟨rfl, rfl⟩

theorem rank_handle (s : State) (msg : OobMsg) (m : ℕ) :
    (s.handle msg).server.rank m ≤ 2 * m ∧ (s.handle msg).server.due = 0 := by
  rcases server_handle s msg with h | h <;> rw [h]
  · exact ⟨Nat.le_refl _, rfl⟩
  · exact ⟨Nat.zero_le _, rfl⟩

/-- One step: every step of the server brings it closer to the messages, and it starts no read from
the normal socket. -/
theorem progress (h : Move s a s') (hm : oobSize * (m + 1) ≤ s.urgent.arrived.length) :
    ∃ k, Progress m s a s' k := by
  have hne : s.urgent.arrived ≠ [] := by
    intro hnil
    rw [hnil, oobSize, List.length_nil] at hm
    omega
  have hreadable : s.urgent.readable = true := by simp [Sock.readable, hne]
  cases h with
  | send => exact ⟨0, rfl, hm, Nat.le_refl _, Nat.le_refl _⟩
  | sendFails => exact ⟨0, rfl, hm, Nat.le_refl _, Nat.le_refl _⟩
  | endClient => exact ⟨0, rfl, hm, Nat.le_refl _, Nat.le_refl _⟩
  | sendNormal => exact ⟨0, rfl, hm, Nat.le_refl _, Nat.le_refl _⟩
  | childFails => exact ⟨0, rfl, hm, Nat.le_refl _, Nat.le_refl _⟩
  | arriveNormal => exact ⟨0, rfl, hm, Nat.le_refl _, Nat.le_refl _⟩
  | arriveUrgent n =>
    refine ⟨0, rfl, hm.trans ?_, Nat.le_refl _, Nat.le_refl _⟩
    simp [Sock.arrive]
  | finNormal => exact ⟨0, rfl, hm, Nat.le_refl _, Nat.le_refl _⟩
  | finUrgent => exact ⟨0, rfl, hm, Nat.le_refl _, Nat.le_refl _⟩
  | pollUrgent hs =>
    refine ⟨0, rfl, hm, ?_, ?_⟩
    · simp only [hs, Server.rank, Label.isServer, ↓reduceIte]
      omega
    · simp [hs, Server.due, Label.isReadNormal]
  | pollNormal hs hr => exact absurd (hr.symm.trans hreadable) Bool.false_ne_true
  | readNormal hs buf =>
    refine ⟨0, ?_, hm, ?_, ?_⟩
    · simp [State.handled, urgentLines]
    · simp [hs, Server.rank, Label.isServer]
    · simp [hs, Server.due, Label.isReadNormal]
  | readUrgent hs hlen =>
    have hserver := rank_handle
      { s with urgent := { s.urgent with arrived := s.urgent.arrived.drop oobSize } }
      (.decode (s.urgent.arrived.take oobSize)) (m + 1 - 1)
    refine ⟨1, handled_handle _ _, ?_, ?_, ?_⟩
    · rw [(frame_handle _ _).2, List.length_drop]
      rw [oobSize] at hm ⊢
      omega
    · have hrank : s.server.rank (m + 1) = 2 * (m + 1) - 1 := by rw [hs]; rfl
      have hone : (if (Label.readUrgent true).isServer then 1 else 0) = 1 := rfl
      rw [hrank, hone]
      omega
    · rw [hserver.2]
      exact Nat.zero_le _
  | short hs hlen =>
    rw [oobSize] at hm hlen
    omega
  | pollFails hs =>
    refine ⟨0, rfl, hm, ?_, by simp [hs, Server.due, Label.isReadNormal]⟩
    simp only [hs, Server.rank, Label.isServer, ↓reduceIte]
    omega
  | readNormalFails hs =>
    refine ⟨0, rfl, hm, ?_, by simp [hs, Server.due, Label.isReadNormal]⟩
    simp only [hs, Server.rank, Label.isServer, ↓reduceIte]
    omega
  | readUrgentFails hs =>
    refine ⟨0, rfl, hm, ?_, by simp [hs, Server.due, Label.isReadNormal]⟩
    simp only [hs, Server.rank, Label.isServer, ↓reduceIte]
    omega

theorem handled_le (h : Move s a s') : s.handled ≤ s'.handled := by
  cases h with
  | readNormal => simp [State.handled, urgentLines]
  | readUrgent => rw [handled_handle]; exact Nat.le_succ _
  | _ => exact Nat.le_refl _

/-- **Normal data cannot delay urgent messages.** If `k` urgent messages have arrived, then until
the last of them is handled the server reads from the normal socket at most once, and makes at most
`2 * k + 1` steps altogether, whatever else is sent and arrives meanwhile. -/
theorem urgent_first {tr : List (State × Label)} {k : ℕ} (hrun : machine.Run s tr t)
    (hk : oobSize * k ≤ s.urgent.arrived.length) (hmore : t.handled < s.handled + k) :
    tr.countP (fun p => p.2.isReadNormal) ≤ 1 ∧ tr.countP (fun p => p.2.isServer) ≤ 2 * k + 1 := by
  have hinv : ∃ m, t.handled + (m + 1) = s.handled + k ∧
      oobSize * (m + 1) ≤ t.urgent.arrived.length ∧
      t.server.rank (m + 1) + tr.countP (fun p => p.2.isServer) ≤ s.server.rank k ∧
      t.server.due + tr.countP (fun p => p.2.isReadNormal) ≤ s.server.due := by
    induction hrun with
    | nil =>
      obtain ⟨m, rfl⟩ : ∃ m, k = m + 1 := ⟨k - 1, by omega⟩
      exact ⟨m, rfl, hk, by simp, by simp⟩
    | @snoc tr u v a _ hstep ih =>
      have hmove := move_of_step hstep
      obtain ⟨m, hm, harr, hrank, hdue⟩ := ih ((handled_le hmove).trans_lt hmore)
      obtain ⟨j, hp⟩ := progress hmove harr
      have hhandled := hp.handled
      have hr := hp.rank
      have hd := hp.due
      obtain ⟨m', hm'⟩ : ∃ m', m + 1 - j = m' + 1 := ⟨m - j, by omega⟩
      have ha := hp.arrived
      rw [hm'] at hr ha
      refine ⟨m', by omega, ha, ?_, ?_⟩
      · simp only [List.countP_append, List.countP_singleton]
        omega
      · simp only [List.countP_append, List.countP_singleton]
        omega
  obtain ⟨m, -, -, hrank, hdue⟩ := hinv
  have hle : s.server.rank k ≤ 2 * k + 1 ∧ s.server.due ≤ 1 := by
    cases s.server <;> simp only [Server.rank, Server.due] <;> omega
  omega

/-- The server has just decided to read normal data when two urgent messages arrive. -/
def overtaken : State :=
  { client := .failed, child := true, data := .ofBytes _ []
    normal := ⟨normalData, normalData, false, false⟩
    urgent := ⟨[], List.replicate 520 7, false, false⟩
    server := .normal, buf := .ofBytes _ [], out := [] }

theorem urgent_first_overtaken : ∃ tr t, machine.Run overtaken tr t ∧
    oobSize * 2 ≤ overtaken.urgent.arrived.length ∧ t.handled < overtaken.handled + 2 ∧
    tr.map Prod.snd =
      [.readNormal true, .poll true, .arriveNormal 21, .readUrgent true, .poll true] ∧
    tr.countP (fun p => p.2.isReadNormal) ≤ 1 ∧ tr.countP (fun p => p.2.isServer) ≤ 5 := by
  have hend : (machine.exec overtaken
      [.readNormal true, .poll true, .arriveNormal 21, .readUrgent true, .poll true]).map
        (fun t => t.handled) = some 1 := by decide +kernel
  obtain ⟨t, hexec, ht⟩ := Option.map_eq_some_iff.mp hend
  have hrun := Machine.run_of_exec hexec
  have hk : oobSize * 2 ≤ overtaken.urgent.arrived.length := by
    rw [show overtaken.urgent.arrived = List.replicate 520 7 from rfl, List.length_replicate]
    decide
  have hmore : t.handled < overtaken.handled + 2 := by
    rw [ht]
    decide
  exact ⟨_, t, hrun, hk, hmore, Machine.map_snd_trace hexec, urgent_first hrun hk hmore⟩

end Urgent

/-! ### The whole session -/

section Outcome

variable {s s' s₀ : State} {a : Label} {n j : ℕ}

/-- The urgent messages of the client. -/
def messages (d : CharArray 256) : List OobMsg := [⟨oobData, d⟩, ⟨oobClose, d⟩]

/-- What the server shows for them. -/
def shownFor : List Line := [.data (some urgentData), .close]

/-- How many of them have been sent. -/
def Client.Sent (n : ℕ) : Client → Prop
  | .ready => n = 0
  | .sentData => n = 1
  | .sentClose => n = 2
  | .ended => n = 2
  | .failed => n ≤ 1

/-- Of the `n` messages sent, `j` have been handled, and the others are on their way. -/
structure Inv (n j : ℕ) (s : State) : Prop where
  sent : s.client.Sent n
  le : j ≤ n
  data : n ≠ 0 → printed s.data.val = some urgentData
  lines : urgentLines s.out = shownFor.take j
  bytes : s.server ≠ .exited 1 →
    s.urgent.arrived ++ s.urgent.flight =
      (((messages s.data).take n).drop j).flatMap OobMsg.encode
  closed : s.server = .exited 0 ↔ j = 2

theorem Client.Sent.le {c : Client} (h : c.Sent n) : n ≤ 2 := by
  cases c <;> simp only [Client.Sent] at h <;> omega

theorem OobMsg.decode_encode (m : OobMsg) : OobMsg.decode m.encode = m := by
  have hdrop : m.encode.drop 4 = m.data.val := List.drop_left' (Layout.length_toBytes 4 _)
  have hdata : CharArray.ofBytes 256 m.data.val = m.data :=
    Subtype.ext (CharArray.val_ofBytes m.data.property)
  have hcode := m.code_decode_encode
  rw [OobMsg.decode] at hcode ⊢
  rw [hdrop, hdata]
  exact congrArg (OobMsg.mk · m.data) hcode

theorem printed_urgent (d : CharArray 256) :
    printed (CharArray.ofBytes 256 (overlay d.val (urgentData ++ [0]))).val = some urgentData := by
  have hlen : (urgentData ++ [0]).length ≤ 256 := by decide
  have hval : (CharArray.ofBytes 256 (overlay d.val (urgentData ++ [0]))).val =
      overlay d.val (urgentData ++ [0]) := by
    refine CharArray.val_ofBytes ?_
    rw [length_overlay (by rw [d.property]; exact hlen), d.property]
  rw [hval, OobSock.printed, if_pos, cstr_overlay_zero (by decide)]
  exact List.mem_append_left _ (by decide)

/-- The next message is the first in the stream. -/
theorem Inv.next (h : Inv n j s) (hs : s.server = .urgent)
    (hlen : oobSize ≤ s.urgent.arrived.length) :
    ∃ m rest, ((messages s.data).take n).drop j = m :: rest ∧
      OobMsg.decode (s.urgent.arrived.take oobSize) = m ∧
      s.urgent.arrived.drop oobSize ++ s.urgent.flight = rest.flatMap OobMsg.encode := by
  have hbytes := h.bytes (by simp [hs])
  cases hrest : ((messages s.data).take n).drop j with
  | nil =>
    rw [hrest, List.flatMap_nil] at hbytes
    rw [(List.append_eq_nil_iff.mp hbytes).1, oobSize, List.length_nil] at hlen
    omega
  | cons m rest =>
    rw [hrest, List.flatMap_cons] at hbytes
    refine ⟨m, rest, rfl, ?_, ?_⟩
    · have htake := congrArg (List.take oobSize) hbytes
      rw [List.take_append_of_le_length hlen, List.take_left' m.length_encode] at htake
      rw [htake, OobMsg.decode_encode]
    · have hdrop := congrArg (List.drop oobSize) hbytes
      rwa [List.drop_append_of_le_length hlen, List.drop_left' m.length_encode] at hdrop

theorem handle_data (s : State) (d : CharArray 256) : s.handle ⟨oobData, d⟩ =
    { s with server := .polling, out := s.out ++ [.data (printed d.val)] } := by
  rw [State.handle, if_neg (show ¬ oobData = oobClose by decide), if_pos rfl]

theorem handle_close (s : State) (d : CharArray 256) : s.handle ⟨oobClose, d⟩ =
    { s with server := .exited 0, out := s.out ++ [.close] } :=
  if_pos rfl

theorem Inv.step (h : Inv n j s) (hmove : Move s a s') : ∃ n' j', Inv n' j' s' := by
  have hle := h.sent.le
  cases hmove with
  | send hc =>
    rcases hc with hc | hc
    · have hn : n = 0 := by simpa [hc, Client.Sent] using h.sent
      subst hn
      obtain rfl : j = 0 := Nat.le_zero.mp h.le
      refine ⟨1, 0, ?_, Nat.zero_le 1, fun _ => ?_, h.lines, fun hs => ?_, h.closed⟩
      · simp [hc, Client.Sent]
      · simpa [State.message, hc] using printed_urgent s.data
      · have hbytes := h.bytes hs
        simp only [List.take_zero, List.drop_nil, List.flatMap_nil] at hbytes
        rw [← List.append_assoc, hbytes]
        simp [messages, State.message, hc]
    · have hn : n = 1 := by simpa [hc, Client.Sent] using h.sent
      subst hn
      have hmsg : s.message = ⟨oobClose, s.data⟩ := by simp [State.message, hc]
      refine ⟨2, j, ?_, h.le.trans (by decide), fun _ => ?_, h.lines, fun hs => ?_, h.closed⟩
      · simp [hc, Client.Sent]
      · rw [hmsg]
        exact h.data (by decide)
      · have hbytes := h.bytes hs
        rw [← List.append_assoc, hbytes, hmsg]
        obtain rfl | rfl : j = 0 ∨ j = 1 := by
          have := h.le
          omega
        · simp [messages]
        · simp [messages]
  | sendFails hc =>
    refine ⟨n, j, ?_, h.le, h.data, h.lines, h.bytes, h.closed⟩
    rcases hc with hc | hc <;> have := h.sent <;> simp only [hc, Client.Sent] at this ⊢ <;> omega
  | endClient hc =>
    refine ⟨n, j, ?_, h.le, h.data, h.lines, h.bytes, h.closed⟩
    simpa [hc, Client.Sent] using h.sent
  | sendNormal => exact ⟨n, j, h.sent, h.le, h.data, h.lines, h.bytes, h.closed⟩
  | childFails => exact ⟨n, j, h.sent, h.le, h.data, h.lines, h.bytes, h.closed⟩
  | arriveNormal => exact ⟨n, j, h.sent, h.le, h.data, h.lines, h.bytes, h.closed⟩
  | arriveUrgent k =>
    refine ⟨n, j, h.sent, h.le, h.data, h.lines, fun hs => ?_, h.closed⟩
    rw [Sock.arrive, List.append_assoc, List.take_append_drop]
    exact h.bytes hs
  | finNormal => exact ⟨n, j, h.sent, h.le, h.data, h.lines, h.bytes, h.closed⟩
  | finUrgent => exact ⟨n, j, h.sent, h.le, h.data, h.lines, h.bytes, h.closed⟩
  | pollUrgent hs | pollNormal hs =>
    exact ⟨n, j, h.sent, h.le, h.data, h.lines, fun _ => h.bytes (by simp [hs]),
      by simpa [hs] using h.closed⟩
  | readNormal hs buf =>
    refine ⟨n, j, h.sent, h.le, h.data, ?_, fun _ => h.bytes (by simp [hs]),
      by simpa [hs] using h.closed⟩
    rw [urgentLines_concat, h.lines]
    simp [urgentLines]
  | readUrgent hs hlen =>
    obtain ⟨m, rest, hrest, hdecode, hbytes⟩ := h.next hs hlen
    rw [hdecode]
    have hj2 : j ≠ 2 := by simpa [hs] using h.closed
    have hlines := h.lines
    have hjle := h.le
    obtain rfl | rfl : j = 0 ∨ j = 1 := by omega
    · -- the message with data
      obtain ⟨n, rfl⟩ : ∃ k, n = k + 1 := by
        cases n with
        | zero => simp at hrest
        | succ k => exact ⟨k, rfl⟩
      obtain ⟨rfl, rfl⟩ : m = ⟨oobData, s.data⟩ ∧ rest = [OobMsg.mk oobClose s.data].take n := by
        simpa [messages, eq_comm] using hrest
      rw [handle_data, h.data (Nat.succ_ne_zero n)]
      refine ⟨n + 1, 1, h.sent, by omega, h.data, ?_, fun _ => ?_, by simp⟩
      · rw [urgentLines_concat, hlines]
        rfl
      · simpa [messages] using hbytes
    · -- the message that asks to close
      obtain rfl : n = 2 := by
        rcases Nat.lt_or_ge n 2 with hlt | hge
        · obtain rfl : n = 1 := by omega
          simp [messages] at hrest
        · omega
      obtain ⟨rfl, rfl⟩ : m = ⟨oobClose, s.data⟩ ∧ rest = [] := by
        simpa [messages, eq_comm] using hrest
      rw [handle_close]
      refine ⟨2, 2, h.sent, Nat.le_refl 2, h.data, ?_, fun _ => ?_, by simp⟩
      · rw [urgentLines_concat, hlines]
        rfl
      · simpa [messages] using hbytes
  | short hs | pollFails hs | readNormalFails hs | readUrgentFails hs =>
    exact ⟨n, j, h.sent, h.le, h.data, h.lines, fun hc => absurd rfl hc,
      by simpa [hs] using h.closed⟩

/-- No call fails, and each urgent message arrives as a whole. -/
def Label.Clean : Label → Prop
  | .send ok => ok
  | .arriveUrgent n => oobSize ∣ n
  | .poll ok => ok
  | .readNormal ok => ok
  | .readUrgent ok => ok
  | _ => True

/-- What holds in addition as long as everything is clean. -/
structure CleanInv (s : State) : Prop where
  whole : oobSize ∣ s.urgent.arrived.length
  client : s.client ≠ .failed
  closed : s.urgent.closed → s.client = .ended
  eof : s.urgent.eof → s.urgent.closed ∧ s.urgent.flight = []
  readable : s.server = .urgent → s.urgent.readable
  server : s.server ≠ .exited 1

/-- Everything has been handled once everything has arrived and been read. -/
theorem Inv.eq_two (h : Inv n j s) (hc : s.client = .ended) (hs : s.server ≠ .exited 1)
    (harr : s.urgent.arrived = []) (hflight : s.urgent.flight = []) : j = 2 := by
  obtain rfl : n = 2 := by simpa [hc, Client.Sent] using h.sent
  have hle := h.le
  have hbytes := h.bytes hs
  rw [harr, hflight, List.append_nil] at hbytes
  have hlen := congrArg List.length hbytes
  obtain rfl | rfl | rfl : j = 0 ∨ j = 1 ∨ j = 2 := by omega
  · simp [messages, OobMsg.length_encode, oobSize] at hlen
  · simp [messages, OobMsg.length_encode, oobSize] at hlen
  · rfl

theorem length_flatMap_encode (l : List OobMsg) :
    (l.flatMap OobMsg.encode).length = oobSize * l.length := by
  induction l with
  | nil => rfl
  | cons m l ih =>
    rw [List.flatMap_cons, List.length_append, ih, m.length_encode, List.length_cons, Nat.mul_succ,
      Nat.add_comm]

theorem CleanInv.step (hinv : Inv n j s) (h : CleanInv s) (ha : a.Clean) (hmove : Move s a s') :
    CleanInv s' := by
  cases hmove with
  | send hc =>
    refine ⟨h.whole, ?_, fun hclosed => ?_, fun heof => ?_, h.readable, h.server⟩
    · dsimp only
      split <;> exact nofun
    · rcases hc with hc | hc <;> cases hc.symm.trans (h.closed hclosed)
    · rcases hc with hc | hc <;> cases hc.symm.trans (h.closed (h.eof heof).1)
  | sendFails => cases ha
  | endClient =>
    exact ⟨h.whole, nofun, fun _ => rfl, fun heof => ⟨by simp [Sock.close], (h.eof heof).2⟩,
      h.readable, h.server⟩
  | sendNormal => exact ⟨h.whole, h.client, h.closed, h.eof, h.readable, h.server⟩
  | childFails =>
    have hcl : (s.urgent.close (s.client = .failed)) = s.urgent := by
      simp [Sock.close, h.client]
    rw [hcl]
    exact ⟨h.whole, h.client, h.closed, h.eof, h.readable, h.server⟩
  | arriveNormal => exact ⟨h.whole, h.client, h.closed, h.eof, h.readable, h.server⟩
  | arriveUrgent k =>
    have hflight : oobSize ∣ s.urgent.flight.length := by
      have hlen := congrArg List.length (hinv.bytes h.server)
      rw [List.length_append, length_flatMap_encode] at hlen
      exact (Nat.dvd_add_right h.whole).mp ⟨_, hlen⟩
    refine ⟨?_, h.client, h.closed, fun heof => ⟨(h.eof heof).1, ?_⟩, fun hs => ?_, h.server⟩
    · simp only [Sock.arrive, List.length_append, List.length_take]
      refine Nat.dvd_add h.whole ?_
      rcases Nat.le_total k s.urgent.flight.length with hk | hk
      · rw [Nat.min_eq_left hk]
        exact ha
      · rw [Nat.min_eq_right hk]
        exact hflight
    · simp [Sock.arrive, (h.eof heof).2]
    · have hr := h.readable hs
      rw [Sock.readable, Bool.or_eq_true, decide_eq_true_iff] at hr ⊢
      exact hr.imp (fun hne hnil => hne (List.append_eq_nil_iff.mp hnil).1) id
  | finNormal => exact ⟨h.whole, h.client, h.closed, h.eof, h.readable, h.server⟩
  | finUrgent hclosed hflight =>
    exact ⟨h.whole, h.client, h.closed, fun _ => ⟨hclosed, hflight⟩,
      fun _ => by simp [Sock.readable], h.server⟩
  | pollUrgent hs hr => exact ⟨h.whole, h.client, h.closed, h.eof, fun _ => hr, nofun⟩
  | pollNormal hs hr => exact ⟨h.whole, h.client, h.closed, h.eof, nofun, nofun⟩
  | readNormal => exact ⟨h.whole, h.client, h.closed, h.eof, nofun, nofun⟩
  | readUrgent hs hlen =>
    obtain ⟨hclient, hurgent⟩ := frame_handle
      { s with urgent := { s.urgent with arrived := s.urgent.arrived.drop oobSize } }
      (.decode (s.urgent.arrived.take oobSize))
    have hserver := server_handle
      { s with urgent := { s.urgent with arrived := s.urgent.arrived.drop oobSize } }
      (.decode (s.urgent.arrived.take oobSize))
    refine ⟨?_, by rw [hclient]; exact h.client, ?_, ?_, fun hc => ?_, fun hc => ?_⟩
    · rw [hurgent, List.length_drop]
      exact Nat.dvd_sub h.whole (Nat.dvd_refl _)
    · rw [hurgent, hclient]
      exact h.closed
    · rw [hurgent]
      exact h.eof
    · rcases hserver with hserver | hserver <;> cases hserver.symm.trans hc
    · rcases hserver with hserver | hserver <;> cases hserver.symm.trans hc
  | short hs hlen =>
    -- nothing has arrived, so this is the end of the stream, and there was a message to close
    have harr : s.urgent.arrived = [] :=
      List.length_eq_zero_iff.mp (Nat.eq_zero_of_dvd_of_lt h.whole hlen)
    have heof : s.urgent.eof = true := by simpa [Sock.readable, harr] using h.readable hs
    obtain ⟨hclosed, hflight⟩ := h.eof heof
    have hj := hinv.eq_two (h.closed hclosed) h.server harr hflight
    cases hs.symm.trans (hinv.closed.mpr hj)
  | pollFails => cases ha
  | readNormalFails => cases ha
  | readUrgentFails => cases ha

theorem inv_start (h : machine.init s) : Inv 0 0 s ∧ CleanInv s := by
  obtain ⟨hc, -, -, hu, hs, hout⟩ := h
  refine ⟨⟨by rw [hc]; rfl, Nat.le_refl 0, fun h => absurd rfl h, by rw [hout]; rfl,
    fun _ => by rw [hu]; rfl, by simp [hs]⟩, ?_⟩
  refine ⟨by rw [hu]; exact Nat.dvd_zero _, by simp [hc], by simp [hu, Sock.fresh],
    by simp [hu, Sock.fresh], by simp [hs], by simp [hs]⟩

theorem inv_of_run {tr : List (State × Label)} (h₀ : machine.init s₀)
    (hrun : machine.Run s₀ tr s) :
    (∃ n j, Inv n j s) ∧ ((∀ p ∈ tr, p.2.Clean) → CleanInv s) := by
  induction hrun with
  | nil => exact ⟨⟨0, 0, (inv_start h₀).1⟩, fun _ => (inv_start h₀).2⟩
  | snoc _ hstep ih =>
    obtain ⟨⟨n, j, hinv⟩, hclean⟩ := ih
    have hmove := move_of_step hstep
    refine ⟨hinv.step hmove, fun hall => ?_⟩
    refine (hclean fun p hp => hall p (List.mem_append_left _ hp)).step hinv ?_ hmove
    exact hall _ (List.mem_append_right _ (List.mem_singleton_self _))

/-- The server shows the urgent messages in their order and ends with success just when it has been
asked to close. If no call fails and the urgent messages arrive as a whole, it never ends with an
error, and it has ended with success when the client has ended and all its urgent messages have
arrived and been read; how the normal data is cut into pieces does not matter. -/
theorem session_outcome {tr : List (State × Label)} (h₀ : machine.init s₀)
    (hrun : machine.Run s₀ tr s) :
    urgentLines s.out <+: [.data (some urgentData), .close] ∧
    (s.server = .exited 0 ↔ .close ∈ s.out) ∧
    ((∀ p ∈ tr, p.2.Clean) → s.server ≠ .exited 1 ∧
      (s.client = .ended → s.urgent.flight = [] → s.urgent.arrived = [] →
        s.server = .exited 0)) := by
  obtain ⟨⟨n, j, hinv⟩, hclean⟩ := inv_of_run h₀ hrun
  have hlines := hinv.lines
  refine ⟨?_, ?_, fun hall => ⟨(hclean hall).server, fun hc hflight harr => ?_⟩⟩
  · rw [hlines]
    exact List.take_prefix j _
  · have hmem : .close ∈ s.out ↔ .close ∈ urgentLines s.out := by simp [urgentLines]
    have hle := hinv.le.trans hinv.sent.le
    rw [hinv.closed, hmem, hlines]
    obtain rfl | rfl | rfl : j = 0 ∨ j = 1 ∨ j = 2 := by omega
    · simp
    · simp [shownFor]
    · simp [shownFor]
  · exact hinv.closed.mpr (hinv.eq_two hc (hclean hall).server harr hflight)

/-- Behind the handshake, with empty arrays. -/
def started : State :=
  ⟨.ready, true, .ofBytes _ [], .fresh, .fresh, .polling, .ofBytes _ [], []⟩

/-- Both messages are sent and arrive, together with normal data, before the server polls. -/
def bothAtOnce : List Label :=
  [.sendNormal true, .send true, .send true, .endClient, .arriveNormal 21, .arriveUrgent 520,
    .poll true, .readUrgent true, .poll true, .readUrgent true]

theorem session_outcome_bothAtOnce : ∃ s₀ tr s, machine.init s₀ ∧ machine.Run s₀ tr s ∧
    (∀ p ∈ tr, p.2.Clean) ∧ s.client = .ended ∧ s.server = .exited 0 ∧ .close ∈ s.out := by
  have h₀ : machine.init started := ⟨rfl, rfl, rfl, rfl, rfl, rfl⟩
  have hend : (machine.exec started bothAtOnce).map
      (fun s => (s.client, s.urgent.flight, s.urgent.arrived)) = some (.ended, [], []) := by
    decide +kernel
  obtain ⟨s, hexec, hs⟩ := Option.map_eq_some_iff.mp hend
  obtain ⟨hclient, hflight, harr⟩ : s.client = .ended ∧ s.urgent.flight = [] ∧
    s.urgent.arrived = [] := by simpa using hs
  have hrun := Machine.run_of_exec hexec
  have hclean : ∀ a ∈ bothAtOnce, a.Clean := by
    simp [bothAtOnce, Label.Clean, oobSize]
  have hall : ∀ p ∈ machine.trace started bothAtOnce, p.2.Clean := fun p hp =>
    hclean p.2 (by rw [← Machine.map_snd_trace hexec]; exact List.mem_map_of_mem hp)
  obtain ⟨-, hiff, houtcome⟩ := session_outcome h₀ hrun
  have hserver := (houtcome hall).2 hclient hflight harr
  exact ⟨started, _, s, h₀, hrun, hall, hclient, hserver, hiff.mp hserver⟩

end Outcome

end Session

end OobSock

end Tlpiexer
