import Mathlib.Logic.Basic
import Tlpiexer.Foundations.Transition

/-!
# A limit on the children of a server

The accept loop and the `SIGCHLD` handler of `tlpi/sockets/is_echo_sv_60-1.c`. The loop takes a
permit from the semaphore `csem` before every `fork`; the handler `grimReaper` returns one for
every child it reaps.

## The handler

The handler interrupts the loop anywhere, also while it waits in `sem_wait` or `accept`, which are
restarted (`SA_RESTART`). The loop stands still while the handler runs, and a further `SIGCHLD`
stays pending, one for any number of children that end meanwhile; so the handler goes on until
`waitpid` finds no more of them.

## Where the permits are

A permit is in the semaphore, with a child that is not reaped, with the loop between `sem_wait` and
`fork`, or with the handler between `waitpid` and `sem_post` (`State.permits`). No step makes one,
and only one step loses one: a `fork` that fails, whose branch does not call `sem_post`.

## Main results

* `permits_eq_iff` — when all permits are accounted for
* `not_permits_eq` — they are not always
-/

namespace Tlpiexer

namespace EchoServer

open Transition

/-- `MAX_CHILDREN`. -/
def maxChildren : ℕ := 4

/-- Where the accept loop is. -/
inductive MainPc
  /-- At `accept`. -/
  | accept
  /-- At `sem_wait`. -/
  | semWait
  /-- At `fork`. -/
  | fork
  deriving DecidableEq

/-- Where the signal handler is. -/
inductive HandlerPc
  /-- It is not running. -/
  | idle
  /-- At `waitpid`. -/
  | waitpid
  /-- At `sem_post`. -/
  | semPost
  deriving DecidableEq

/-- The server and its children. -/
structure State where
  /-- The value of `csem`. -/
  sem : ℕ
  /-- The children that are running. -/
  running : ℕ
  /-- The children that have ended and are not reaped. -/
  zombies : ℕ
  /-- `SIGCHLD` is pending. -/
  pending : Bool
  /-- The server has not exited. -/
  alive : Bool
  main : MainPc
  handler : HandlerPc
  deriving DecidableEq

/-- What happens next. -/
inductive Label
  /-- A step of the accept loop. -/
  | main
  /-- The call the loop or the handler is at fails. -/
  | fail
  /-- A child ends. -/
  | terminate
  /-- `SIGCHLD` is delivered. -/
  | deliver
  /-- A step of the handler. -/
  | handler
  deriving DecidableEq

/-- A step of the accept loop. -/
def State.runMain (s : State) : Option State :=
  match s.main with
  | .accept => some { s with main := .semWait }
  | .semWait => if 0 < s.sem then some { s with sem := s.sem - 1, main := .fork } else none
  | .fork => some { s with running := s.running + 1, main := .accept }

/-- A failing call of the accept loop. -/
def State.failMain (s : State) : Option State :=
  match s.main with
  | .accept => some { s with alive := false }
  | .semWait => some { s with alive := false }
  -- "May be temporary; try next client"
  | .fork => some { s with main := .accept }

/-- A step of `grimReaper`. -/
def State.runHandler (s : State) : Option State :=
  match s.handler with
  | .idle => none
  | .waitpid =>
    if 0 < s.zombies then some { s with zombies := s.zombies - 1, handler := .semPost }
    else some { s with handler := .idle }
  | .semPost => some { s with sem := s.sem + 1, handler := .waitpid }

/-- One step of the system. -/
def State.step (s : State) : Label → Option State
  | .main => if s.alive ∧ s.handler = .idle then s.runMain else none
  | .fail =>
    if s.alive then
      match s.handler with
      | .idle => s.failMain
      | .waitpid => none
      | .semPost => some { s with alive := false }
    else none
  | .terminate =>
    if 0 < s.running then
      some { s with running := s.running - 1, zombies := s.zombies + 1, pending := true }
    else none
  | .deliver =>
    if s.alive ∧ s.pending ∧ s.handler = .idle then
      some { s with pending := false, handler := .waitpid }
    else none
  | .handler => if s.alive then s.runHandler else none

/-- The server before its loop. -/
def start : State := ⟨maxChildren, 0, 0, false, true, .accept, .idle⟩

/-- The system. -/
def machine : Machine State Label where
  init s := s = start
  step := State.step

/-- The children that are not reaped. -/
def State.children (s : State) : ℕ := s.running + s.zombies

/-- The loop is waiting for a connection and the handler is not running. -/
def State.Waiting (s : State) : Prop := s.alive ∧ s.main = .accept ∧ s.handler = .idle

/-- The step is a `fork` that fails. -/
def ForkFails (s : State) (a : Label) : Prop := a = .fail ∧ s.main = .fork ∧ s.handler = .idle

/-! ### What one step can do -/

/-- The steps of the system in state `s`. -/
inductive Move (s : State) : Label → State → Prop
  | accept (hm : s.main = .accept) : Move s .main { s with main := .semWait }
  | semWait (hm : s.main = .semWait) (hsem : 0 < s.sem) :
      Move s .main { s with sem := s.sem - 1, main := .fork }
  | fork (hm : s.main = .fork) : Move s .main { s with running := s.running + 1, main := .accept }
  | forkFails (hm : s.main = .fork) (hh : s.handler = .idle) :
      Move s .fail { s with main := .accept }
  | exit (h : ¬ (s.main = .fork ∧ s.handler = .idle)) : Move s .fail { s with alive := false }
  | terminate (hr : 0 < s.running) :
      Move s .terminate
        { s with running := s.running - 1, zombies := s.zombies + 1, pending := true }
  | deliver (hh : s.handler = .idle) :
      Move s .deliver { s with pending := false, handler := .waitpid }
  | reap (hh : s.handler = .waitpid) (hz : 0 < s.zombies) :
      Move s .handler { s with zombies := s.zombies - 1, handler := .semPost }
  | leave (hh : s.handler = .waitpid) : Move s .handler { s with handler := .idle }
  | semPost (hh : s.handler = .semPost) :
      Move s .handler { s with sem := s.sem + 1, handler := .waitpid }

section Steps

variable {s t : State} {a : Label}

theorem move_of_runMain (h : s.runMain = some t) : Move s .main t := by
  unfold State.runMain at h
  split at h
  case h_1 hm => cases h; exact .accept hm
  case h_2 hm =>
    split at h
    case isTrue hsem => cases h; exact .semWait hm hsem
    case isFalse => cases h
  case h_3 hm => cases h; exact .fork hm

theorem move_of_failMain (hh : s.handler = .idle) (h : s.failMain = some t) : Move s .fail t := by
  unfold State.failMain at h
  split at h
  case h_1 hm => cases h; exact .exit (by simp [hm])
  case h_2 hm => cases h; exact .exit (by simp [hm])
  case h_3 hm => cases h; exact .forkFails hm hh

theorem move_of_runHandler (h : s.runHandler = some t) : Move s .handler t := by
  unfold State.runHandler at h
  split at h
  case h_1 => cases h
  case h_2 hh =>
    split at h
    case isTrue hz => cases h; exact .reap hh hz
    case isFalse => cases h; exact .leave hh
  case h_3 hh => cases h; exact .semPost hh

theorem move_of_step (h : s.step a = some t) : Move s a t := by
  cases a with
  | main =>
    obtain ⟨_, hrun⟩ := Option.ite_none_right_eq_some.mp h
    exact move_of_runMain hrun
  | fail =>
    obtain ⟨_, hfail⟩ := Option.ite_none_right_eq_some.mp h
    split at hfail
    case h_1 hh => exact move_of_failMain hh hfail
    case h_2 => cases hfail
    case h_3 hh => cases hfail; exact .exit (by simp [hh])
  | terminate =>
    obtain ⟨hr, ht⟩ := Option.ite_none_right_eq_some.mp h
    cases ht
    exact .terminate hr
  | deliver =>
    obtain ⟨hd, ht⟩ := Option.ite_none_right_eq_some.mp h
    cases ht
    exact .deliver hd.2.2
  | handler =>
    obtain ⟨_, hrun⟩ := Option.ite_none_right_eq_some.mp h
    exact move_of_runHandler hrun

/-! ### Counting the permits -/

/-- The permits the loop has taken and not yet handed to a child. -/
def MainPc.permits : MainPc → ℕ
  | .fork => 1
  | _ => 0

/-- The permits of reaped children that are not yet back in the semaphore. -/
def HandlerPc.permits : HandlerPc → ℕ
  | .semPost => 1
  | _ => 0

/-- All permits. -/
def State.permits (s : State) : ℕ :=
  s.sem + s.children + s.main.permits + s.handler.permits

/-- A failing `fork` loses the permit the loop has taken. -/
theorem permits_of_forkFails (h : Move s a t) (hf : ForkFails s a) :
    t.permits + 1 = s.permits := by
  obtain ⟨rfl, hm, hh⟩ := hf
  cases h with
  | forkFails => simp [State.permits, State.children, MainPc.permits, HandlerPc.permits, hm, hh]
  | exit h => exact absurd ⟨hm, hh⟩ h

/-- **Every other step keeps the permits.** -/
theorem permits_of_not_forkFails (h : Move s a t) (hf : ¬ ForkFails s a) :
    t.permits = s.permits := by
  cases h with
  | accept hm => simp [State.permits, State.children, MainPc.permits, hm]
  | semWait hm hsem =>
    simp only [State.permits, State.children, MainPc.permits, hm]
    omega
  | fork hm =>
    simp only [State.permits, State.children, MainPc.permits, hm]
    omega
  | forkFails hm hh => exact absurd ⟨rfl, hm, hh⟩ hf
  | exit h => rfl
  | terminate hr =>
    simp only [State.permits, State.children]
    omega
  | deliver hh => simp [State.permits, State.children, HandlerPc.permits, hh]
  | reap hh hz =>
    simp only [State.permits, State.children, HandlerPc.permits, hh]
    omega
  | leave hh => simp [State.permits, State.children, HandlerPc.permits, hh]
  | semPost hh =>
    simp only [State.permits, State.children, HandlerPc.permits, hh]
    omega

/-- No step makes a permit. -/
theorem permits_le_of_step (h : s.step a = some t) : t.permits ≤ s.permits := by
  by_cases hf : ForkFails s a
  · have hlost := permits_of_forkFails (move_of_step h) hf
    omega
  · exact Nat.le_of_eq (permits_of_not_forkFails (move_of_step h) hf)

theorem permits_start : start.permits = maxChildren := rfl

theorem permits_le_of_run {tr : List (State × Label)} (h : machine.Run start tr s) :
    s.permits ≤ maxChildren :=
  h.invariant (I := fun s => s.permits ≤ maxChildren)
    (fun _ _ _ hs hstep => Nat.le_trans (permits_le_of_step hstep) hs) (Nat.le_of_eq permits_start)

/-- **Where permits go.** A run that starts with all permits ends with all of them if and only if
no `fork` failed in it. -/
theorem permits_of_run {tr : List (State × Label)} (h : machine.Run start tr s) :
    s.permits = maxChildren ↔ ∀ p ∈ tr, ¬ ForkFails p.1 p.2 := by
  constructor
  · intro heq p hp hpf
    -- what is lost stays lost
    have hlost : s.permits < maxChildren := by
      refine h.absorb (I := fun s => s.permits ≤ maxChildren)
        (D := fun s => s.permits < maxChildren) (G := fun s a => ¬ ForkFails s a) ?_ ?_ ?_
        (Nat.le_of_eq permits_start) ⟨p, hp, not_not.mpr hpf⟩
      · intro s a t hs hstep
        exact Nat.le_trans (permits_le_of_step hstep) hs
      · intro s a t hs hf hstep
        have heq := permits_of_forkFails (move_of_step hstep) (not_not.mp hf)
        omega
      · intro s a t _ hs hstep
        exact Nat.lt_of_le_of_lt (permits_le_of_step hstep) hs
    omega
  · intro hall
    refine h.invariant_of_forall (I := fun s => s.permits = maxChildren)
      (G := fun s a => ¬ ForkFails s a) ?_ hall permits_start
    intro s a t hs hf hstep
    rw [permits_of_not_forkFails (move_of_step hstep) hf, hs]

/-- A loop that waits for a connection has no permit in its hands. -/
theorem permits_of_waiting (h : s.Waiting) : s.permits = s.sem + s.children := by
  obtain ⟨_, hm, hh⟩ := h
  simp [State.permits, MainPc.permits, HandlerPc.permits, hm, hh]

end Steps

/-- **The limit on children.** In every run there are at most `maxChildren` children; and where
the loop waits for a connection and the handler is not running, the semaphore and the children
account for all permits if and only if no `fork` has failed in the run. -/
theorem permits_eq_iff {s₀ s : State} {tr : List (State × Label)} (h₀ : machine.init s₀)
    (h : machine.Run s₀ tr s) :
    s.children ≤ maxChildren ∧
      (s.Waiting → (s.sem + s.children = maxChildren ↔ ∀ p ∈ tr, ¬ ForkFails p.1 p.2)) := by
  obtain rfl : s₀ = start := h₀
  constructor
  · have hle := permits_le_of_run h
    simp only [State.permits] at hle
    omega
  · intro hw
    rw [← permits_of_waiting hw]
    exact permits_of_run h

/-- Two clients are served at once; the children end before the handler runs, and it reaps both. -/
def twoClients : List Label :=
  [.main, .main, .main, .main, .main, .main, .terminate, .terminate, .deliver, .handler, .handler,
    .handler, .handler, .handler]

theorem permits_eq_iff_twoClients :
    ∃ tr s, machine.Run start tr s ∧ s.Waiting ∧ s.sem + s.children = maxChildren := by
  obtain ⟨s, hexec, hs⟩ : ∃ s, machine.exec start twoClients = some s ∧ s = start :=
    ⟨_, rfl, rfl⟩
  have hrun := Machine.run_of_exec hexec
  have hw : s.Waiting := by
    subst hs
    exact ⟨rfl, rfl, rfl⟩
  have hall : ∀ p ∈ machine.trace start twoClients, ¬ ForkFails p.1 p.2 := by
    intro p hp hf
    have hlabel : p.2 ∈ twoClients := by
      rw [← Machine.map_snd_trace hexec]
      exact List.mem_map_of_mem hp
    rw [hf.1] at hlabel
    simp [twoClients] at hlabel
  exact ⟨_, s, hrun, hw, ((permits_eq_iff rfl hrun).2 hw).mpr hall⟩

/-- **A lost permit.** After one `fork` that fails, the loop waits for the next client with a
permit less. -/
theorem not_permits_eq :
    ¬ ∀ s, machine.Reachable s → s.Waiting → s.sem + s.children = maxChildren := by
  intro h
  obtain ⟨s, hexec, hs⟩ : ∃ s, machine.exec start [.main, .main, .fail] = some s ∧
      s = { start with sem := 3 } := ⟨_, rfl, rfl⟩
  have hsum := h s (Machine.reachable_of_exec rfl hexec) (by subst hs; exact ⟨rfl, rfl, rfl⟩)
  subst hs
  exact absurd hsum (by decide)

end EchoServer

end Tlpiexer
