import Mathlib.Data.Nat.Notation
import Mathlib.Logic.Basic
import Tlpiexer.Constants
import Tlpiexer.Foundations.Transition

/-!
# A pipe to oneself

The handler and the poll loop of `tlpi/altio/self_pipe_63-5.c`. The handler of `SIGUSR1` writes a
message into a pipe whose other end the main loop polls together with its standard input; when the
pipe is ready, the loop reads messages until the non-blocking read finds none.

## Where the handler runs

The handler may run between any two steps of the loop, and inside `poll`, which it makes fail with
`EINTR`. The loop stands still while it runs and the signal is blocked, so one invocation is one
step. The loop tests `errno` after a failing call and not with it, so what matters is that the
handler leaves `errno` as it found it, also when its own write is refused (`errno_handler`).

## What the model records

A message carries the number of the invocation that wrote it, and `written`, `refused` and
`completed` count what the handler did; no step reads them.

## Main results

* `SelfPipe.signals_accounted` — every invocation is accounted for, in order, and none makes the
  loop exit
-/

namespace Tlpiexer

namespace SelfPipe

open Transition

/-- `MONITOR_SIG`, that is `SIGUSR1`. -/
def monitorSig : ℕ := 10

/-- The values of `errno` the program looks for, and the others. -/
inductive Errno
  | eintr
  | eagain
  | other (n : ℕ)
  deriving DecidableEq

/-- `struct pipe_msg`. -/
structure PipeMsg where
  signo : ℕ
  /-- The invocation of the handler that wrote it. -/
  invocation : ℕ
  deriving DecidableEq

/-- The calls of `errExit` in the handler and in the loop. -/
inductive Exit
  /-- `errExit("write")` -/
  | write
  /-- `errExit("poll")` -/
  | poll
  /-- `errExit("read:stdin")` -/
  | readStdin
  /-- `errExit("read:poll_fd:read_end")` -/
  | readEnd
  deriving DecidableEq

/-- Where the main loop is. -/
inductive Pc
  /-- At `poll`. -/
  | poll
  /-- `poll` has failed, and `errno` is to be tested. -/
  | pollFailed
  /-- At the test of `poll_fd[0].revents`. -/
  | testStdin
  /-- At the read of standard input. -/
  | readStdin
  /-- At the test of `poll_fd[1].revents`. -/
  | testPipe
  /-- At the read of the pipe. -/
  | readPipe
  /-- The read of the pipe has failed, and `errno` is to be tested. -/
  | readFailed
  /-- At the `printf` of a message. -/
  | print (m : PipeMsg)
  /-- `buf[rsize] = 0` was outside `buf`. -/
  | overrun
  /-- The process has called `errExit`. -/
  | exited (c : Exit)
  deriving DecidableEq

/-- The process. -/
structure State where
  pc : Pc
  errno : Errno
  pipe : List PipeMsg
  /-- `poll_fd[0].revents & POLLIN`. -/
  stdinReady : Bool
  /-- `poll_fd[1].revents & POLLIN`. -/
  pipeReady : Bool
  /-- The messages of the signal lines printed. -/
  printed : List PipeMsg
  /-- The messages the handler has written. -/
  written : List PipeMsg
  /-- The writes of the handler that were refused. -/
  refused : ℕ
  /-- The invocations of the handler that have returned. -/
  completed : ℕ
  deriving DecidableEq

/-- What happens next. -/
inductive Label
  /-- The handler runs, between two steps of the loop. -/
  | signal
  /-- The handler runs inside `poll`. -/
  | interrupt
  /-- `poll` returns, with input on standard input or without. -/
  | pollReturns (stdin : Bool)
  /-- `poll` fails. -/
  | pollFails (e : Errno)
  /-- The read of standard input returns `n` bytes. -/
  | stdin (n : ℕ)
  /-- The read of standard input fails. -/
  | stdinFails (e : Errno)
  /-- Another step of the loop. -/
  | main
  deriving DecidableEq

/-- The process has not ended. -/
def Pc.running : Pc → Bool
  | .overrun | .exited _ => false
  | _ => true

/-- `handler`; the pipe holds at most `cap` messages, and a write beyond that is refused. (Linux
counts pages, not messages, so that a pipe from which a part was read may refuse a write earlier.
What is proved holds for each `cap`.) -/
def State.handler (cap : ℕ) (s : State) : State :=
  let savedErrno := s.errno
  let pmsg : PipeMsg := ⟨monitorSig, s.completed⟩
  if s.pipe.length < cap then
    { s with
      pipe := s.pipe ++ [pmsg], written := s.written ++ [pmsg], errno := savedErrno
      completed := s.completed + 1 }
  else
    let t := { s with errno := .eagain, refused := s.refused + 1 }
    if t.errno ≠ .eagain then { t with pc := .exited .write }
    else { t with errno := savedErrno, completed := s.completed + 1 }

/-- A step of the loop that does not depend on the outside. -/
def State.runMain (s : State) : Option State :=
  match s.pc with
  | .pollFailed =>
    if s.errno = .eintr then some { s with pc := .poll } else some { s with pc := .exited .poll }
  | .testStdin => some { s with pc := if s.stdinReady then .readStdin else .testPipe }
  | .testPipe => some { s with pc := if s.pipeReady then .readPipe else .poll }
  | .readPipe =>
    match s.pipe with
    | [] => some { s with errno := .eagain, pc := .readFailed }
    | m :: pipe => some { s with pipe := pipe, pc := .print m }
  | .readFailed =>
    -- a failing read returned -1, which is not `sizeof(pmsg)` either
    if s.errno = .eagain then some { s with pc := .poll }
    else some { s with pc := .exited .readEnd }
  | .print m => some { s with printed := s.printed ++ [m], pc := .readPipe }
  | _ => none

/-- One step of the process. -/
def State.step (cap : ℕ) (s : State) : Label → Option State
  | .signal => if s.pc.running then some (s.handler cap) else none
  | .interrupt =>
    if s.pc = .poll then some { s.handler cap with errno := .eintr, pc := .pollFailed } else none
  | .pollReturns stdin =>
    if s.pc = .poll then
      some { s with stdinReady := stdin, pipeReady := s.pipe ≠ [], pc := .testStdin }
    else none
  | .pollFails e => if s.pc = .poll then some { s with errno := e, pc := .pollFailed } else none
  | .stdin n =>
    if s.pc = .readStdin ∧ n ≤ bufSize then
      some { s with pc := if n < bufSize then .testPipe else .overrun }
    else none
  | .stdinFails e =>
    if s.pc = .readStdin then some { s with errno := e, pc := .exited .readStdin } else none
  | .main => s.runMain

/-- The process before its loop; `errno` may be anything. -/
def start (e : Errno) : State := ⟨.poll, e, [], false, false, [], [], 0, 0⟩

/-- The system. -/
def machine (cap : ℕ) : Machine State Label where
  init s := ∃ e, s = start e
  step := State.step cap

/-- A call of the loop fails for a reason of its own. -/
def Label.Failure : Label → Prop
  | .pollFails e => e ≠ .eintr
  | .stdinFails _ => True
  | _ => False

/-- What the loop has read and not printed. -/
def State.inHand (s : State) : List PipeMsg :=
  match s.pc with
  | .print m => [m]
  | _ => []

/-! ### What a step can do -/

section Steps

variable {s t : State} {cap : ℕ} {a : Label}

/-- What the handler does: its message is in the pipe, or its write was refused. -/
theorem handler_cases (cap : ℕ) (s : State) :
    (∃ m, s.handler cap = { s with
      pipe := s.pipe ++ [m], written := s.written ++ [m], completed := s.completed + 1 }) ∨
    s.handler cap = { s with refused := s.refused + 1, completed := s.completed + 1 } := by
  unfold State.handler
  by_cases hfull : s.pipe.length < cap
  · left
    exact ⟨_, if_pos hfull⟩
  · right
    exact if_neg hfull

/-- **The handler leaves `errno` and the loop's place as they were.** -/
theorem errno_handler (cap : ℕ) (s : State) :
    (s.handler cap).errno = s.errno ∧ (s.handler cap).pc = s.pc := by
  rcases handler_cases cap s with ⟨m, h⟩ | h
  · rw [h]
    exact ⟨rfl, rfl⟩
  · rw [h]
    exact ⟨rfl, rfl⟩

theorem inHand_eq_nil (h : ∀ m, s.pc ≠ .print m) : s.inHand = [] := by
  unfold State.inHand
  split
  case h_1 m hpc => exact absurd hpc (h m)
  case h_2 => rfl

/-- The steps of the process in state `s`. Except where a message is read or printed, the loop only
goes to another place; the conditions say under which `errno` it goes to the places that test it,
and what makes it exit. -/
inductive Move (cap : ℕ) (s : State) : Label → State → Prop
  | signal : Move cap s .signal (s.handler cap)
  | interrupt (hpc : s.pc = .poll) :
      Move cap s .interrupt { s.handler cap with errno := .eintr, pc := .pollFailed }
  | goto {a : Label} (c : Pc) (e : Errno) (b b' : Bool) (hs : ∀ m, s.pc ≠ .print m)
      (hc : ∀ m, c ≠ .print m) (hread : c = .readFailed → e = .eagain)
      (hpoll : c = .pollFailed → a = .pollFails e)
      (hexit : ∀ x, c = .exited x → x = .poll ∧ s.pc = .pollFailed ∧ s.errno ≠ .eintr ∨
        x = .readStdin ∧ a.Failure ∨ x = .readEnd ∧ s.pc = .readFailed ∧ s.errno ≠ .eagain) :
      Move cap s a { s with pc := c, errno := e, stdinReady := b, pipeReady := b' }
  | take (m : PipeMsg) (pipe : List PipeMsg) (hpc : s.pc = .readPipe) (hpipe : s.pipe = m :: pipe) :
      Move cap s .main { s with pipe := pipe, pc := .print m }
  | print (m : PipeMsg) (hpc : s.pc = .print m) :
      Move cap s .main { s with printed := s.printed ++ [m], pc := .readPipe }

theorem move_of_runMain (h : s.runMain = some t) : Move cap s .main t := by
  unfold State.runMain at h
  split at h
  case h_1 hpc =>
    split at h
    · cases h
      exact .goto _ _ _ _ (by simp [hpc]) nofun nofun nofun nofun
    case isFalse hne =>
      cases h
      exact .goto _ _ _ _ (by simp [hpc]) nofun nofun nofun
        (by rintro x ⟨⟩; exact .inl ⟨rfl, hpc, hne⟩)
  case h_2 hpc =>
    cases h
    split <;> exact .goto _ _ _ _ (by simp [hpc]) nofun nofun nofun nofun
  case h_3 hpc =>
    cases h
    split <;> exact .goto _ _ _ _ (by simp [hpc]) nofun nofun nofun nofun
  case h_4 hpc =>
    split at h
    · cases h
      exact .goto _ _ _ _ (by simp [hpc]) nofun (fun _ => rfl) nofun nofun
    case h_2 m pipe hpipe =>
      cases h
      exact .take m pipe hpc hpipe
  case h_5 hpc =>
    split at h
    · cases h
      exact .goto _ _ _ _ (by simp [hpc]) nofun nofun nofun nofun
    case isFalse hne =>
      cases h
      exact .goto _ _ _ _ (by simp [hpc]) nofun nofun nofun
        (by rintro x ⟨⟩; exact .inr (.inr ⟨rfl, hpc, hne⟩))
  case h_6 m hpc =>
    cases h
    exact .print m hpc
  case h_7 => cases h

theorem move_of_step (h : s.step cap a = some t) : Move cap s a t := by
  cases a with
  | signal =>
    obtain ⟨-, ht⟩ := Option.ite_none_right_eq_some.mp h
    cases ht
    exact .signal
  | interrupt =>
    obtain ⟨hpc, ht⟩ := Option.ite_none_right_eq_some.mp h
    cases ht
    exact .interrupt hpc
  | pollReturns stdin =>
    obtain ⟨hpc, ht⟩ := Option.ite_none_right_eq_some.mp h
    cases ht
    exact .goto _ _ _ _ (by simp [hpc]) nofun nofun nofun nofun
  | pollFails e =>
    obtain ⟨hpc, ht⟩ := Option.ite_none_right_eq_some.mp h
    cases ht
    exact .goto _ _ _ _ (by simp [hpc]) nofun nofun (fun _ => rfl) nofun
  | stdin n =>
    obtain ⟨⟨hpc, -⟩, ht⟩ := Option.ite_none_right_eq_some.mp h
    cases ht
    split <;> exact .goto _ _ _ _ (by simp [hpc]) nofun nofun nofun nofun
  | stdinFails e =>
    obtain ⟨hpc, ht⟩ := Option.ite_none_right_eq_some.mp h
    cases ht
    exact .goto _ _ _ _ (by simp [hpc]) nofun nofun nofun
      (by rintro x ⟨⟩; exact .inr (.inl ⟨rfl, trivial⟩))
  | main => exact move_of_runMain h

/-! ### The invariant -/

/-- What holds in every state. -/
structure Inv (s : State) : Prop where
  /-- The messages are printed, in the loop's hand, or in the pipe, in the order they were
  written. -/
  order : s.printed ++ s.inHand ++ s.pipe = s.written
  /-- An invocation has written a message or was refused. -/
  count : s.completed = s.written.length + s.refused
  /-- A read of the pipe fails for one reason only. -/
  errno : s.pc = .readFailed → s.errno = .eagain
  exit : ∀ c, s.pc = .exited c → c = .poll ∨ c = .readStdin

theorem inv_start (e : Errno) : Inv (start e) := ⟨rfl, rfl, nofun, nofun⟩

/-- The loop goes from one place to another, without a message in its hand. -/
theorem Inv.goto (h : Inv s) {c : Pc} (e : Errno) (b b' : Bool) (hs : ∀ m, s.pc ≠ .print m)
    (hc : ∀ m, c ≠ .print m) (hread : c = .readFailed → e = .eagain)
    (hexit : ∀ x, c = .exited x → x = .poll ∨ x = .readStdin) :
    Inv { s with pc := c, errno := e, stdinReady := b, pipeReady := b' } where
  order := by
    have horder := h.order
    rw [inHand_eq_nil hs] at horder
    rw [inHand_eq_nil hc]
    exact horder
  count := h.count
  errno := hread
  exit := hexit

theorem Inv.handler (h : Inv s) (cap : ℕ) : Inv (s.handler cap) := by
  have hcount := h.count
  rcases handler_cases cap s with ⟨m, heq⟩ | heq
  · rw [heq]
    refine ⟨?_, ?_, h.errno, h.exit⟩
    · show s.printed ++ s.inHand ++ (s.pipe ++ [m]) = s.written ++ [m]
      rw [← List.append_assoc, h.order]
    · show s.completed + 1 = (s.written ++ [m]).length + s.refused
      rw [List.length_append, List.length_singleton]
      omega
  · rw [heq]
    refine ⟨h.order, ?_, h.errno, h.exit⟩
    show s.completed + 1 = s.written.length + (s.refused + 1)
    omega

theorem inv_of_move (h : Inv s) (hm : Move cap s a t) : Inv t := by
  cases hm with
  | signal => exact h.handler cap
  | interrupt hpc =>
    have hpc' : (s.handler cap).pc = .poll := (errno_handler cap s).2.trans hpc
    exact (h.handler cap).goto _ _ _ (by simp [hpc']) nofun nofun nofun
  | goto c e b b' hs hc hread hpoll hexit =>
    refine h.goto e b b' hs hc hread fun x hx => ?_
    rcases hexit x hx with ⟨rfl, -⟩ | ⟨rfl, -⟩ | ⟨-, hpc, hne⟩
    · exact .inl rfl
    · exact .inr rfl
    · exact absurd (h.errno hpc) hne
  | take m pipe hpc hpipe =>
    have horder := h.order
    rw [inHand_eq_nil (by simp [hpc]), hpipe, List.append_nil] at horder
    refine ⟨?_, h.count, nofun, nofun⟩
    show s.printed ++ [m] ++ pipe = s.written
    rw [← horder, List.append_assoc, List.singleton_append]
  | print m hpc =>
    have hhand : s.inHand = [m] := by rw [State.inHand, hpc]
    have horder := h.order
    rw [hhand] at horder
    refine ⟨?_, h.count, nofun, nofun⟩
    show s.printed ++ [m] ++ [] ++ s.pipe = s.written
    rw [List.append_nil, horder]

/-! ### Runs without failures -/

/-- The loop has not exited, and is not about to. -/
structure Quiet (s : State) : Prop where
  errno : s.pc = .pollFailed → s.errno = .eintr
  running : ∀ c, s.pc ≠ .exited c

theorem quiet_of_move (hinv : Inv s) (h : Quiet s) (ha : ¬ a.Failure) (hm : Move cap s a t) :
    Quiet t := by
  cases hm with
  | signal =>
    obtain ⟨herrno, hpc⟩ := errno_handler cap s
    exact ⟨by rw [herrno, hpc]; exact h.errno, by rw [hpc]; exact h.running⟩
  | interrupt hpc => exact ⟨fun _ => rfl, nofun⟩
  | goto c e b b' hs hc hread hpoll hexit =>
    refine ⟨fun hc => ?_, fun x hx => ?_⟩
    · rw [hpoll hc] at ha
      exact not_not.mp ha
    · rcases hexit x hx with ⟨-, hpc, hne⟩ | ⟨-, hfail⟩ | ⟨-, hpc, hne⟩
      · exact hne (h.errno hpc)
      · exact ha hfail
      · exact hne (hinv.errno hpc)
  | take m pipe hpc hpipe => exact ⟨nofun, nofun⟩
  | print m hpc => exact ⟨nofun, nofun⟩

end Steps

/-- **Every signal is accounted for.** In every run: the completed invocations of the handler are
the signal lines printed, the messages in the pipe, the refused writes, and the message the loop has
read and not printed; what is printed, in the loop's hand and in the pipe are the messages in the
order they were written. The loop exits only where `poll` or the read of standard input fails, and
in a run without such failures it does not exit, whenever signals arrive. -/
theorem signals_accounted {cap : ℕ} {s₀ s : State} {tr : List (State × Label)}
    (h₀ : (machine cap).init s₀) (h : (machine cap).Run s₀ tr s) :
    s.completed = s.printed.length + s.pipe.length + s.refused + s.inHand.length ∧
      s.printed ++ s.inHand ++ s.pipe = s.written ∧
      (∀ c, s.pc = .exited c → c = .poll ∨ c = .readStdin) ∧
      ((∀ p ∈ tr, ¬ p.2.Failure) → ∀ c, s.pc ≠ .exited c) := by
  obtain ⟨e, rfl⟩ := h₀
  have hinv : Inv s :=
    h.invariant (I := Inv) (fun _ _ _ hs hstep => inv_of_move hs (move_of_step hstep)) (inv_start e)
  refine ⟨?_, hinv.order, hinv.exit, fun hall => ?_⟩
  · have hlen := congrArg List.length hinv.order
    have hcount := hinv.count
    rw [List.length_append, List.length_append] at hlen
    omega
  · have hboth : Inv s ∧ Quiet s := by
      refine h.invariant_of_forall (I := fun s => Inv s ∧ Quiet s) (G := fun _ a => ¬ a.Failure)
        ?_ hall ⟨inv_start e, nofun, nofun⟩
      intro s a t hs ha hstep
      have hm := move_of_step hstep
      exact ⟨inv_of_move hs.1 hm, quiet_of_move hs.1 hs.2 ha hm⟩
    exact hboth.2.running

/-- A signal inside `poll`, one while a message is in the loop's hand, and two between the failing
read of the pipe and the test of `errno`, of which the second finds the pipe full. -/
def fourSignals : List Label :=
  [.interrupt, .main, .pollReturns false, .main, .main, .main, .signal, .main, .main, .main, .main,
    .signal, .signal, .main]

theorem signals_accounted_fourSignals :
    ∃ tr s, (machine 1).Run (start (.other 0)) tr s ∧ s.completed = 4 ∧ s.refused = 1 ∧
      s.pc = .poll ∧ s.printed ++ s.inHand ++ s.pipe = s.written := by
  obtain ⟨s, hexec, hc, hr, hpc⟩ : ∃ s, (machine 1).exec (start (.other 0)) fourSignals = some s ∧
      s.completed = 4 ∧ s.refused = 1 ∧ s.pc = .poll := ⟨_, rfl, rfl, rfl, rfl⟩
  have hrun := Machine.run_of_exec hexec
  exact ⟨_, s, hrun, hc, hr, hpc, (signals_accounted ⟨_, rfl⟩ hrun).2.1⟩

end SelfPipe

end Tlpiexer
