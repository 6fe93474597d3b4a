import Tlpiexer.Foundations.CString
import Tlpiexer.Foundations.MessageQueue
import Tlpiexer.Foundations.Transition

/-!
# The chat program

`src/imp/52-04.c`, run by any number of users, any number of times each. A process creates a queue
under its user's name and then listens (`listen_user`) or invokes a peer (`invoke_peer`); either
way it ends up in `start_message`, where one thread sends and another receives.

## Steps

A step is one system call that others can notice: `mq_open`, `mq_send`, `mq_receive`, `mq_unlink`,
with the tests of its result. A user name fits the 16 bytes of `msg.user`, so the `strcpy`s copy it
whole, and the queue's name is the user's name behind a fixed text (`mqUserName`).

## Leaving

A process leaves by `exit_err` or because of a signal. Both try to create the queue once more and
unlink the name if that fails (`Pc.leaving`, `Pc.unlinking`). This also happens to a process whose
first `mq_open` failed because another process of the same user is running: it unlinks the other
one's queue. If on the other hand the name is free by then, a queue that nobody reads is left
behind.

## Ghost state

`Msg.sender` and `Proc.entered` are not in the program. `Proc.got` is the message received last
during the handshake; the code keeps it in `msg`, which `listen_user` changes before it answers.
-/

namespace Tlpiexer

namespace Chat

open CString Transition MessageQueue

/-- `USER_SIZE`. -/
abbrev userSize : ℕ := 16

/-- `attr.mq_maxmsg`. -/
abbrev mqMaxmsg : ℕ := 8

/-- A user name that fits a message. -/
abbrev User := { u : Bytes // u.length < userSize ∧ (0 : UInt8) ∉ u }

/-- `MQ_USER_TMP`, which is "/tlpiexer-52-04-". -/
def mqUserTmp : Bytes := [47, 116, 108, 112, 105, 101, 120, 101, 114, 45, 53, 50, 45, 48, 52, 45]

/-- `mq_user_name`. -/
def mqUserName (user : User) : Bytes := mqUserTmp ++ user.val

theorem mqUserName_injective : Function.Injective mqUserName := fun _ _ h =>
  Subtype.ext (List.append_cancel_left h)

/-- `reqtype_t`. -/
inductive ReqType
  | start
  | accepted
  | msg
  | end_
  | error
  deriving DecidableEq

/-- `msg_t` without its `data`. -/
structure Msg where
  type : ReqType
  user : User
  sender : ℕ
  deriving DecidableEq

/-- What the options ask for. -/
inductive Role
  /-- `-l`. -/
  | listener
  /-- `-c peer`. -/
  | invoker (peer : User)
  deriving DecidableEq

/-- Where a process is. -/
inductive Pc
  /-- At the `mq_open` of `main`. -/
  | starting
  /-- At `mq_receive` in `listen_user`. -/
  | listening
  /-- At `mq_open` in `listen_user`. -/
  | opening
  /-- At `mq_send` in `listen_user`. -/
  | accepting
  /-- At the start of `invoke_peer`. -/
  | invoking
  /-- At `mq_send` in `invoke_peer`. -/
  | asking
  /-- At `mq_receive` in `invoke_peer`. -/
  | waiting
  /-- In `start_message`. -/
  | talking
  /-- At the `mq_open` of `exit_err` or `term_handle`. -/
  | leaving
  /-- At the `mq_unlink` of `exit_err` or `term_handle`. -/
  | unlinking
  | gone
  deriving DecidableEq

/-- A process. -/
structure Proc where
  user : User
  role : Role
  pc : Pc
  /-- `mqd_listen`. -/
  mqdListen : Option ℕ
  /-- `peer`, once `listen_user` has set it. -/
  peer : Option User
  /-- `mqd_peer`. -/
  mqdPeer : Option ℕ
  got : Option Msg
  /-- The thread `receive_msg_entry` is running. -/
  receiving : Bool
  /-- `start_message` was called. -/
  entered : Bool
  deriving DecidableEq

/-- All processes, and the queues. -/
structure State where
  procs : ℕ → Option Proc
  table : Table Bytes Msg

/-- What happens next. -/
inductive Label
  /-- A user starts the program as process `p`. -/
  | start (p : ℕ) (user : User) (role : Role)
  /-- The next system call of `p` goes its way. -/
  | run (p : ℕ)
  /-- The next system call of `p` (or the `getline` of `start_message`) fails. -/
  | fail (p : ℕ)
  /-- `p` sends a line it read. -/
  | say (p : ℕ)
  /-- The receiving thread of `p` takes a message. -/
  | hear (p : ℕ)
  /-- `p` gets a `SIGINT` or `SIGTERM`. -/
  | signal (p : ℕ)

/-! ### One process -/

/-- A process at the start of `main`. -/
def Proc.new (user : User) (role : Role) : Proc :=
  ⟨user, role, .starting, none, none, none, none, false, false⟩

/-- The queue of a process has been created. -/
def Proc.opened (P : Proc) (q : ℕ) : Proc :=
  { P with
    mqdListen := some q
    pc := match P.role with
      | .listener => .listening
      | .invoker _ => .invoking }

/-- `listen_user` has received a message; only a `START` is looked at. -/
def Proc.hears (P : Proc) (m : Msg) : Proc :=
  if m.type = .start then { P with got := some m, peer := some m.user, pc := .opening }
  else { P with got := some m }

/-- `start_message`. -/
def Proc.startMessage (P : Proc) : Proc :=
  { P with pc := .talking, receiving := true, entered := true }

/-- `exit_err`, which stops the receiving thread first. -/
def Proc.exitErr (P : Proc) : Proc := { P with pc := .leaving, receiving := false }

/-- `invoke_peer` has received a message. -/
def Proc.answered (P : Proc) (m : Msg) : Proc :=
  if m.type = .accepted then ({ P with got := some m }).startMessage
  else ({ P with got := some m }).exitErr

/-- The process has come to its end. -/
def Proc.exit (P : Proc) : Proc := { P with pc := .gone, receiving := false }

/-! ### Steps -/

/-- Process `p` is now `P`. -/
def State.set (s : State) (p : ℕ) (P : Proc) : State :=
  { s with procs := Function.update s.procs p (some P) }

/-- The next system call of `p`. -/
def State.run (s : State) (p : ℕ) (P : Proc) : Option State :=
  match P.pc with
  | .starting =>
    match s.table.create (mqUserName P.user) with
    | none => some (s.set p P.exitErr)
    | some (q, t) => some { s.set p (P.opened q) with table := t }
  | .listening => do
    let (m, t) ← s.table.receive (← P.mqdListen)
    some { s.set p (P.hears m) with table := t }
  | .opening => do
    match s.table.names (mqUserName (← P.peer)) with
    | none => some (s.set p { P with pc := .listening })
    | some q => some (s.set p { P with mqdPeer := some q, pc := .accepting })
  | .accepting => do
    let t ← s.table.send mqMaxmsg (← P.mqdPeer) ⟨.accepted, P.user, p⟩
    some { s.set p P.startMessage with table := t }
  | .invoking =>
    match P.role with
    | .listener => none
    | .invoker peer =>
      if P.user = peer then some (s.set p P.exitErr)
      else
        match s.table.names (mqUserName peer) with
        | none => some (s.set p P.exitErr)
        | some q => some (s.set p { P with mqdPeer := some q, pc := .asking })
  | .asking => do
    let t ← s.table.send mqMaxmsg (← P.mqdPeer) ⟨.start, P.user, p⟩
    some { s.set p { P with pc := .waiting } with table := t }
  | .waiting => do
    let (m, t) ← s.table.receive (← P.mqdListen)
    some { s.set p (P.answered m) with table := t }
  | .talking => none
  | .leaving =>
    match s.table.create (mqUserName P.user) with
    | none => some (s.set p { P with pc := .unlinking })
    | some (_, t) => some { s.set p P.exit with table := t }
  | .unlinking => some { s.set p P.exit with table := s.table.unlink (mqUserName P.user) }
  | .gone => none

/-- A failing system call of `p`. -/
def State.fail (s : State) (p : ℕ) (P : Proc) : Option State :=
  match P.pc with
  | .listening => some s
  | .opening | .accepting => some (s.set p { P with pc := .listening })
  | .starting | .invoking | .asking | .waiting | .talking => some (s.set p P.exitErr)
  | .leaving => some (s.set p { P with pc := .unlinking })
  | .unlinking => some (s.set p P.exit)
  | .gone => none

/-- A `MSG` to the peer. -/
def State.say (s : State) (p : ℕ) (P : Proc) : Option State := do
  if P.pc = .talking then
    let t ← s.table.send mqMaxmsg (← P.mqdPeer) ⟨.msg, P.user, p⟩
    some { s with table := t }
  else none

/-- A message is taken from the queue, and displayed. -/
def State.hear (s : State) (P : Proc) : Option State := do
  if P.receiving then
    let (_, t) ← s.table.receive (← P.mqdListen)
    some { s with table := t }
  else none

/-- `term_handle` begins. -/
def State.signal (s : State) (p : ℕ) (P : Proc) : Option State :=
  if P.pc = .leaving ∨ P.pc = .unlinking ∨ P.pc = .gone then none
  else some (s.set p { P with pc := .leaving })

/-- One step of the system. -/
def State.step (s : State) : Label → Option State
  | .start p user role => if s.procs p = none then some (s.set p (.new user role)) else none
  | .run p => (s.procs p).bind fun P => s.run p P
  | .fail p => (s.procs p).bind fun P => s.fail p P
  | .say p => (s.procs p).bind fun P => s.say p P
  | .hear p => (s.procs p).bind fun P => s.hear P
  | .signal p => (s.procs p).bind fun P => s.signal p P

/-- No process has been started and there are no queues. -/
def start : State := ⟨fun _ => none, .empty⟩

/-- The system. -/
def machine : Machine State Label where
  init s := s = start
  step := State.step

/-! ### What one step can do -/

/-- The steps of the system in state `s`. -/
inductive Move (s : State) : Label → State → Prop
  | new {a : Label} {p : ℕ} {user : User} {role : Role} (hp : s.procs p = none) :
      Move s a (s.set p (.new user role))
  | create {a : Label} {p : ℕ} {P : Proc} (hp : s.procs p = some P) (hpc : P.pc = .starting) :
      Move s a { s.set p (P.opened s.table.next) with table := s.table.link (mqUserName P.user) }
  | hears {a : Label} {p : ℕ} {P : Proc} {q : ℕ} {m : Msg} {t : Table Bytes Msg}
      (hp : s.procs p = some P) (hpc : P.pc = .listening) (hq : P.mqdListen = some q)
      (hr : s.table.receive q = some (m, t)) : Move s a { s.set p (P.hears m) with table := t }
  | again {a : Label} {p : ℕ} {P : Proc} (hp : s.procs p = some P)
      (hpc : P.pc = .opening ∨ P.pc = .accepting) : Move s a (s.set p { P with pc := .listening })
  | openPeer {a : Label} {p : ℕ} {P : Proc} {peer : User} {q : ℕ} (hp : s.procs p = some P)
      (hpc : P.pc = .opening) (hpeer : P.peer = some peer)
      (hq : s.table.names (mqUserName peer) = some q) :
      Move s a (s.set p { P with mqdPeer := some q, pc := .accepting })
  | accept {a : Label} {p : ℕ} {P : Proc} {q : ℕ} {t : Table Bytes Msg} (hp : s.procs p = some P)
      (hpc : P.pc = .accepting) (hq : P.mqdPeer = some q)
      (hs : s.table.send mqMaxmsg q ⟨.accepted, P.user, p⟩ = some t) :
      Move s a { s.set p P.startMessage with table := t }
  | openInvoked {a : Label} {p : ℕ} {P : Proc} {q : ℕ} (hp : s.procs p = some P)
      (hpc : P.pc = .invoking) :
      Move s a (s.set p { P with mqdPeer := some q, pc := .asking })
  | ask {a : Label} {p : ℕ} {P : Proc} {q : ℕ} {t : Table Bytes Msg} (hp : s.procs p = some P)
      (hpc : P.pc = .asking) (hs : s.table.send mqMaxmsg q ⟨.start, P.user, p⟩ = some t) :
      Move s a { s.set p { P with pc := .waiting } with table := t }
  | answered {p : ℕ} {P : Proc} {q : ℕ} {m : Msg} {t : Table Bytes Msg} (hp : s.procs p = some P)
      (hpc : P.pc = .waiting) (hq : P.mqdListen = some q)
      (hr : s.table.receive q = some (m, t)) :
      Move s (.run p) { s.set p (P.answered m) with table := t }
  | leave {a : Label} {p : ℕ} {P : Proc} {r : Bool} (hp : s.procs p = some P) :
      Move s a (s.set p { P with pc := .leaving, receiving := r })
  | unlinking {a : Label} {p : ℕ} {P : Proc} (hp : s.procs p = some P) (hpc : P.pc = .leaving) :
      Move s a (s.set p { P with pc := .unlinking })
  | exit {a : Label} {p : ℕ} {P : Proc} (hp : s.procs p = some P) : Move s a (s.set p P.exit)
  | orphan {a : Label} {p : ℕ} {P : Proc} (hp : s.procs p = some P) :
      Move s a { s.set p P.exit with table := s.table.link (mqUserName P.user) }
  | unlink {a : Label} {p : ℕ} {P : Proc} (hp : s.procs p = some P) :
      Move s a { s.set p P.exit with table := s.table.unlink (mqUserName P.user) }
  | say {a : Label} {p q : ℕ} {u : User} {t : Table Bytes Msg}
      (hs : s.table.send mqMaxmsg q ⟨.msg, u, p⟩ = some t) : Move s a { s with table := t }
  | hear {a : Label} {q : ℕ} {m : Msg} {t : Table Bytes Msg}
      (hr : s.table.receive q = some (m, t)) :
      Move s a { s with table := t }
  | stay {a : Label} : Move s a s

section Inversion

variable {s s' : State} {p : ℕ} {P : Proc}

theorem move_of_run (hp : s.procs p = some P) (h : s.run p P = some s') : Move s (.run p) s' := by
  unfold State.run at h
  split at h
  case h_1 hpc =>
    split at h
    case h_1 => cases h; exact .leave hp
    case h_2 q t hc =>
      obtain ⟨-, rfl, rfl⟩ := Table.create_spec hc
      cases h
      exact .create hp hpc
  case h_2 hpc =>
    obtain ⟨q, hq, h⟩ := Option.bind_eq_some_iff.mp h
    obtain ⟨⟨m, t⟩, hr, h⟩ := Option.bind_eq_some_iff.mp h
    cases h
    exact .hears hp hpc hq hr
  case h_3 hpc =>
    obtain ⟨peer, hpeer, h⟩ := Option.bind_eq_some_iff.mp h
    split at h
    case h_1 => cases h; exact .again hp (.inl hpc)
    case h_2 q hq => cases h; exact .openPeer hp hpc hpeer hq
  case h_4 hpc =>
    obtain ⟨q, hq, h⟩ := Option.bind_eq_some_iff.mp h
    obtain ⟨t, hs, h⟩ := Option.bind_eq_some_iff.mp h
    cases h
    exact .accept hp hpc hq hs
  case h_5 hpc =>
    split at h
    case h_1 => cases h
    case h_2 =>
      split at h
      case isTrue => cases h; exact .leave hp
      case isFalse =>
        split at h
        case h_1 => cases h; exact .leave hp
        case h_2 => cases h; exact .openInvoked hp hpc
  case h_6 hpc =>
    obtain ⟨q, -, h⟩ := Option.bind_eq_some_iff.mp h
    obtain ⟨t, hs, h⟩ := Option.bind_eq_some_iff.mp h
    cases h
    exact .ask hp hpc hs
  case h_7 hpc =>
    obtain ⟨q, hq, h⟩ := Option.bind_eq_some_iff.mp h
    obtain ⟨⟨m, t⟩, hr, h⟩ := Option.bind_eq_some_iff.mp h
    cases h
    exact .answered hp hpc hq hr
  case h_8 => cases h
  case h_9 hpc =>
    split at h
    case h_1 => cases h; exact .unlinking hp hpc
    case h_2 q t hc =>
      obtain ⟨-, -, rfl⟩ := Table.create_spec hc
      cases h
      exact .orphan hp
  case h_10 => cases h; exact .unlink hp
  case h_11 => cases h

theorem move_of_fail (hp : s.procs p = some P) (h : s.fail p P = some s') :
    Move s (.fail p) s' := by
  unfold State.fail at h
  split at h
  case h_1 => cases h; exact .stay
  case h_2 hpc => cases h; exact .again hp (.inl hpc)
  case h_3 hpc => cases h; exact .again hp (.inr hpc)
  case h_9 hpc => cases h; exact .unlinking hp hpc
  case h_10 => cases h; exact .exit hp
  case h_11 => cases h
  all_goals cases h; exact .leave hp

theorem move_of_step {a : Label} (h : machine.step s a = some s') : Move s a s' := by
  cases a with
  | start p user role =>
    by_cases hp : s.procs p = none
    · obtain rfl : s.set p (.new user role) = s' := by simpa [machine, State.step, hp] using h
      exact .new hp
    · simp [machine, State.step, hp] at h
  | run p =>
    obtain ⟨P, hp, h⟩ := Option.bind_eq_some_iff.mp h
    exact move_of_run hp h
  | fail p =>
    obtain ⟨P, hp, h⟩ := Option.bind_eq_some_iff.mp h
    exact move_of_fail hp h
  | say p =>
    obtain ⟨P, -, h⟩ := Option.bind_eq_some_iff.mp h
    rw [State.say] at h
    split at h
    case isTrue =>
      obtain ⟨q, -, h⟩ := Option.bind_eq_some_iff.mp h
      obtain ⟨t, hs, h⟩ := Option.bind_eq_some_iff.mp h
      cases h
      exact .say hs
    case isFalse => cases h
  | hear p =>
    obtain ⟨P, -, h⟩ := Option.bind_eq_some_iff.mp h
    rw [State.hear] at h
    split at h
    case isTrue =>
      obtain ⟨q, -, h⟩ := Option.bind_eq_some_iff.mp h
      obtain ⟨⟨m, t⟩, hr, h⟩ := Option.bind_eq_some_iff.mp h
      cases h
      exact .hear hr
    case isFalse => cases h
  | signal p =>
    obtain ⟨P, hp, h⟩ := Option.bind_eq_some_iff.mp h
    rw [State.signal] at h
    split at h
    case isTrue => cases h
    case isFalse => cases h; exact .leave hp

end Inversion

end Chat

end Tlpiexer
