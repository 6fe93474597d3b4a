import Tlpiexer.Foundations.Progress
import Tlpiexer.Foundations.Signals

/-!
# Waiting for children under a `SIGCHLD` handler

`src/imp/27-06.c`. The program forks its children, waits for them until there are none left, and
prints a line for each. A handler for `SIGCHLD`, installed without `SA_RESTART`, prints lines of
its own; with the option `-b` the signal is blocked all the time.

A step is a call of the parent, the `printf` or the `_exit` of a child, or a run of the handler. A
child that exits becomes a zombie and generates `SIGCHLD` at once. The pending signals keep the
process number of the child that generated them.

## An interrupted `wait`

In the kernel `wait` first looks for a zombie. If there are only running children it then tests for
signals, and a signal that can be delivered makes it fail with `EINTR`, at which the program gives
up; without a signal it sleeps until a child exits, and looks again. These are steps of their own. A
signal that is pending when a call returns is delivered before the program goes on, so that whenever
the loop is back at `wait`, a pending `SIGCHLD` means a zombie, which is found. But a child may exit
between the two steps: its signal is pending at the test, and the zombie was not there to be found.

## What is not modelled

No signals come from outside; a child that is stopped would raise a `SIGCHLD` without a zombie. A
line is written in one piece, although `printf` in a handler has no such guarantee. When the
output is not a terminal the lines of the children stay in their buffers, which `_exit` does not
write out.

## Main results

* `wait_loop_completes` — the loop never blocks for good and ends, and when it can be interrupted
* `children_reported` — what has been printed at the end
-/

namespace Tlpiexer

namespace ChildWait

open Signals Transition

/-! ### The program -/

/-- The number of `SIGCHLD`. -/
def sigChld : ℕ := 17

/-- What the children pass to `_exit`. -/
def exitCode : ℕ := 1

/-- The status that `wait` stores for a child that called `_exit`. -/
def waitStatus (code : ℕ) : ℕ := code % 256 * 256

/-- How far a child is. -/
inductive Status
  /-- In front of its `printf`. -/
  | fresh
  /-- In `sleep`. -/
  | asleep
  | zombie
  deriving DecidableEq

/-- A child: its number in the loop, and what the kernel knows of it. -/
structure Child where
  num : ℕ
  pid : ℕ
  status : Status
  deriving DecidableEq

/-- What is printed. -/
inductive Line
  | child (num pid : ℕ)
  | hand (pid sig status : ℕ)
  | wait (pid status : ℕ)
  deriving DecidableEq

/-- What `wait` returns. -/
inductive Answer
  | reaped (pid : ℕ)
  | eintr
  | echild
  deriving DecidableEq

/-- The calls whose failure ends the program. -/
inductive Call
  | fork
  | wait
  deriving DecidableEq

/-- Where the parent is. -/
inductive Pc
  /-- At the head of the loop that forks. -/
  | fork (i : ℕ)
  /-- At `wait`, and there at the search for zombies. -/
  | wait
  /-- In `wait`, which has found running children only, at the test for signals. -/
  | test
  /-- In `wait`, asleep. -/
  | asleep
  /-- On the way back from `wait`. -/
  | back (a : Answer)
  /-- At the `printf` that follows. -/
  | print (pid : ℕ)
  | finished
  /-- In `exit_err`. -/
  | failed (call : Call)
  deriving DecidableEq

/-- The number of children, the option `-b`, and whether the output is a terminal. -/
structure Config where
  numChildProc : ℕ
  sigblk : Bool
  tty : Bool

/-- The parent and its children. -/
structure State where
  pc : Pc
  children : List Child
  pending : List (ℕ × ℕ)
  out : List Line
  /-- The children forked so far, each with its number; no step depends on it. -/
  forked : List (ℕ × ℕ)

/-- What happens next. -/
inductive Label
  /-- `fork` succeeds, and the child gets this process number. -/
  | fork (pid : ℕ)
  | forkFails
  | leaveLoop
  | childPrints (c : Child)
  | childExits (c : Child)
  /-- The handler runs. -/
  | deliver
  /-- `wait` takes one of the zombies. -/
  | reap (c : Child)
  /-- `wait` finds children, and no zombie. -/
  | look
  /-- `wait` is interrupted. -/
  | interrupt
  | sleep
  | wake
  /-- `wait` finds no children. -/
  | noChild
  /-- The parent goes on after `wait`. -/
  | resume
  | print

/-- Some `SIGCHLD` is waiting to be delivered. -/
def State.Deliverable (cfg : Config) (s : State) : Prop :=
  cfg.sigblk = false ∧ values sigChld s.pending ≠ []

instance (cfg : Config) (s : State) : Decidable (s.Deliverable cfg) :=
  inferInstanceAs (Decidable (_ ∧ _))

/-- The program has not ended. -/
def Pc.Live (pc : Pc) : Prop := pc ≠ .finished ∧ ∀ call, pc ≠ .failed call

instance (pc : Pc) : Decidable pc.Live :=
  match pc with
  | .fork _ | .wait | .test | .asleep | .back _ | .print _ => isTrue ⟨nofun, nofun⟩
  | .finished => isFalse fun h => h.1 rfl
  | .failed call => isFalse fun h => h.2 call rfl

/-- The handler can run: the program has not ended and is not in the kernel. -/
def Pc.Handles (pc : Pc) : Prop := pc.Live ∧ pc ≠ .test ∧ pc ≠ .asleep

instance (pc : Pc) : Decidable pc.Handles :=
  inferInstanceAs (Decidable (pc.Live ∧ pc ≠ .test ∧ pc ≠ .asleep))

/-- What the loop makes of the answer of `wait`. -/
def Answer.next : Answer → Pc
  | .reaped pid => .print pid
  | .eintr => .failed .wait
  | .echild => .finished

/-- One step. -/
def State.step (cfg : Config) (s : State) : Label → Option State
  | .fork pid =>
    match s.pc with
    | .fork i =>
      if i < cfg.numChildProc ∧ pid ∉ s.children.map Child.pid then some { s with
        pc := .fork (i + 1)
        children := ⟨i, pid, .fresh⟩ :: s.children
        forked := s.forked ++ [(i, pid)] }
      else none
    | _ => none
  | .forkFails =>
    match s.pc with
    | .fork i => if i < cfg.numChildProc then some { s with pc := .failed .fork } else none
    | _ => none
  | .leaveLoop =>
    match s.pc with
    | .fork i => if i < cfg.numChildProc then none else some { s with pc := .wait }
    | _ => none
  | .childPrints c =>
    if c ∈ s.children ∧ c.status = .fresh then some { s with
      children := { c with status := .asleep } :: s.children.erase c
      out := s.out ++ if cfg.tty then [.child c.num c.pid] else [] }
    else none
  | .childExits c =>
    if c ∈ s.children ∧ c.status = .asleep then some { s with
      children := { c with status := .zombie } :: s.children.erase c
      pending := generate sigChld c.pid s.pending }
    else none
  | .deliver =>
    if s.pc.Handles ∧ cfg.sigblk = false then
      (dequeue sigChld s.pending).map fun r => { s with
        pending := r.2
        out := s.out ++ [.hand r.1 sigChld exitCode] }
    else none
  | .reap c =>
    if s.pc = .wait ∧ c ∈ s.children ∧ c.status = .zombie then some { s with
      pc := .back (.reaped c.pid)
      children := s.children.erase c }
    else none
  | .look =>
    if s.pc = .wait ∧ s.children ≠ [] ∧ ∀ c ∈ s.children, c.status ≠ .zombie then
      some { s with pc := .test }
    else none
  | .interrupt =>
    if s.pc = .test ∧ s.Deliverable cfg then some { s with pc := .back .eintr } else none
  | .sleep =>
    if s.pc = .test ∧ ¬ s.Deliverable cfg then some { s with pc := .asleep } else none
  | .wake =>
    -- a child that exits wakes its parent
    if s.pc = .asleep ∧ ∃ c ∈ s.children, c.status = .zombie then some { s with pc := .wait }
    else none
  | .noChild =>
    if s.pc = .wait ∧ s.children = [] then some { s with pc := .back .echild } else none
  | .resume =>
    match s.pc with
    | .back a => if s.Deliverable cfg then none else some { s with pc := a.next }
    | _ => none
  | .print =>
    match s.pc with
    | .print pid => some { s with
        pc := .wait
        out := s.out ++ [.wait pid (waitStatus exitCode)] }
    | _ => none

/-- The state in front of the loop that forks. -/
def start : State := ⟨.fork 0, [], [], [], []⟩

/-- The program. -/
def machine (cfg : Config) : Machine State Label where
  init s := s = start
  step := State.step cfg

/-! ### The output -/

/-- The lines of the children. -/
@[simp] def childrenIn : List Line → List (ℕ × ℕ)
  | [] => []
  | .child num pid :: out => (num, pid) :: childrenIn out
  | _ :: out => childrenIn out

/-- The lines of the handler. -/
@[simp] def handsIn : List Line → List (ℕ × ℕ × ℕ)
  | [] => []
  | .hand pid sig status :: out => (pid, sig, status) :: handsIn out
  | _ :: out => handsIn out

/-- The lines of the loop. -/
@[simp] def waitsIn : List Line → List (ℕ × ℕ)
  | [] => []
  | .wait pid status :: out => (pid, status) :: waitsIn out
  | _ :: out => waitsIn out

@[simp] theorem childrenIn_append (out out' : List Line) :
    childrenIn (out ++ out') = childrenIn out ++ childrenIn out' := by
  induction out with
  | nil => rfl
  | cons l out ih => cases l <;> simp [ih]

@[simp] theorem handsIn_append (out out' : List Line) :
    handsIn (out ++ out') = handsIn out ++ handsIn out' := by
  induction out with
  | nil => rfl
  | cons l out ih => cases l <;> simp [ih]

@[simp] theorem waitsIn_append (out out' : List Line) :
    waitsIn (out ++ out') = waitsIn out ++ waitsIn out' := by
  induction out with
  | nil => rfl
  | cons l out ih => cases l <;> simp [ih]

/-- No line of the handler about a child comes after the line of the loop about it. -/
def HandsFirst : List Line → Prop
  | [] => True
  | .wait pid _ :: out => pid ∉ (handsIn out).map Prod.fst ∧ HandsFirst out
  | _ :: out => HandsFirst out

theorem handsFirst_concat_hand {out : List Line} {pid sig status : ℕ} (h : HandsFirst out)
    (hnew : pid ∉ (waitsIn out).map Prod.fst) : HandsFirst (out ++ [.hand pid sig status]) := by
  induction out with
  | nil => trivial
  | cons l out ih =>
    cases l with
    | child | hand => exact ih h hnew
    | wait p st =>
      rw [waitsIn, List.map_cons, List.mem_cons, not_or] at hnew
      refine ⟨?_, ih h.2 hnew.2⟩
      simpa [handsIn_append, eq_comm, h.1] using hnew.1

theorem handsFirst_append {out out' : List Line} (h : HandsFirst out)
    (hnone : handsIn out' = []) (h' : HandsFirst out') : HandsFirst (out ++ out') := by
  induction out with
  | nil => exact h'
  | cons l out ih =>
    cases l with
    | child | hand => exact ih h
    | wait p st => exact ⟨by simpa [hnone] using h.1, ih h.2⟩

/-! ### Steps -/

section Steps

variable {cfg : Config} {s s' : State} {a : Label}

/-- What a step does. -/
inductive Move (cfg : Config) (s : State) : State → Prop
  | fork {i pid : ℕ} (hpc : s.pc = .fork i) (hi : i < cfg.numChildProc)
      (hpid : pid ∉ s.children.map Child.pid) :
      Move cfg s { s with
        pc := .fork (i + 1)
        children := ⟨i, pid, .fresh⟩ :: s.children
        forked := s.forked ++ [(i, pid)] }
  | forkFails {i : ℕ} (hpc : s.pc = .fork i) : Move cfg s { s with pc := .failed .fork }
  | leaveLoop {i : ℕ} (hpc : s.pc = .fork i) (hi : cfg.numChildProc ≤ i) :
      Move cfg s { s with pc := .wait }
  | childPrints {c : Child} (hc : c ∈ s.children) (hfresh : c.status = .fresh) :
      Move cfg s { s with
        children := { c with status := .asleep } :: s.children.erase c
        out := s.out ++ if cfg.tty then [.child c.num c.pid] else [] }
  | childExits {c : Child} (hc : c ∈ s.children) (hasleep : c.status = .asleep) :
      Move cfg s { s with
        children := { c with status := .zombie } :: s.children.erase c
        pending := generate sigChld c.pid s.pending }
  | deliver {pid : ℕ} {q : List (ℕ × ℕ)} (hhandles : s.pc.Handles) (hblk : cfg.sigblk = false)
      (hd : dequeue sigChld s.pending = some (pid, q)) :
      Move cfg s { s with pending := q, out := s.out ++ [.hand pid sigChld exitCode] }
  | reap {c : Child} (hpc : s.pc = .wait) (hc : c ∈ s.children) (hzombie : c.status = .zombie) :
      Move cfg s { s with pc := .back (.reaped c.pid), children := s.children.erase c }
  | look (hpc : s.pc = .wait) (hsome : s.children ≠ [])
      (hnone : ∀ c ∈ s.children, c.status ≠ .zombie) : Move cfg s { s with pc := .test }
  | interrupt (hpc : s.pc = .test) (hsig : s.Deliverable cfg) :
      Move cfg s { s with pc := .back .eintr }
  | sleep (hpc : s.pc = .test) : Move cfg s { s with pc := .asleep }
  | wake (hpc : s.pc = .asleep) (hsome : ∃ c ∈ s.children, c.status = .zombie) :
      Move cfg s { s with pc := .wait }
  | noChild (hpc : s.pc = .wait) (hnone : s.children = []) :
      Move cfg s { s with pc := .back .echild }
  | resume {r : Answer} (hpc : s.pc = .back r) (hquiet : ¬ s.Deliverable cfg) :
      Move cfg s { s with pc := r.next }
  | print {pid : ℕ} (hpc : s.pc = .print pid) :
      Move cfg s { s with pc := .wait, out := s.out ++ [.wait pid (waitStatus exitCode)] }

theorem move_of_step (h : s.step cfg a = some s') : Move cfg s s' := by
  cases a with
  | fork pid =>
    simp only [State.step] at h
    split at h
    case h_2 => cases h
    case h_1 i hpc =>
      obtain ⟨⟨hi, hpid⟩, ⟨⟩⟩ := Option.ite_none_right_eq_some.mp h
      exact .fork hpc hi hpid
  | forkFails =>
    simp only [State.step] at h
    split at h
    case h_2 => cases h
    case h_1 i hpc =>
      obtain ⟨-, ⟨⟩⟩ := Option.ite_none_right_eq_some.mp h
      exact .forkFails hpc
  | leaveLoop =>
    simp only [State.step] at h
    split at h
    case h_2 => cases h
    case h_1 i hpc =>
      obtain ⟨hi, ⟨⟩⟩ := Option.ite_none_left_eq_some.mp h
      exact .leaveLoop hpc (Nat.not_lt.mp hi)
  | childPrints c =>
    obtain ⟨⟨hc, hfresh⟩, ⟨⟩⟩ := Option.ite_none_right_eq_some.mp h
    exact .childPrints hc hfresh
  | childExits c =>
    obtain ⟨⟨hc, hasleep⟩, ⟨⟩⟩ := Option.ite_none_right_eq_some.mp h
    exact .childExits hc hasleep
  | deliver =>
    obtain ⟨⟨hhandles, hblk⟩, h⟩ := Option.ite_none_right_eq_some.mp h
    obtain ⟨⟨pid, q⟩, hd, ⟨⟩⟩ := Option.map_eq_some_iff.mp h
    exact .deliver hhandles hblk hd
  | reap c =>
    obtain ⟨⟨hpc, hc, hzombie⟩, ⟨⟩⟩ := Option.ite_none_right_eq_some.mp h
    exact .reap hpc hc hzombie
  | look =>
    obtain ⟨⟨hpc, hsome, hnone⟩, ⟨⟩⟩ := Option.ite_none_right_eq_some.mp h
    exact .look hpc hsome hnone
  | interrupt =>
    obtain ⟨⟨hpc, hsig⟩, ⟨⟩⟩ := Option.ite_none_right_eq_some.mp h
    exact .interrupt hpc hsig
  | sleep =>
    obtain ⟨⟨hpc, -⟩, ⟨⟩⟩ := Option.ite_none_right_eq_some.mp h
    exact .sleep hpc
  | wake =>
    obtain ⟨⟨hpc, hsome⟩, ⟨⟩⟩ := Option.ite_none_right_eq_some.mp h
    exact .wake hpc hsome
  | noChild =>
    obtain ⟨⟨hpc, hnone⟩, ⟨⟩⟩ := Option.ite_none_right_eq_some.mp h
    exact .noChild hpc hnone
  | resume =>
    simp only [State.step] at h
    split at h
    case h_2 => cases h
    case h_1 r hpc =>
      obtain ⟨hquiet, ⟨⟩⟩ := Option.ite_none_left_eq_some.mp h
      exact .resume hpc hquiet
  | print =>
    simp only [State.step] at h
    split at h
    case h_2 => cases h
    case h_1 pid hpc =>
      cases h
      exact .print hpc

end Steps

/-! ### How many steps are left -/

section Left

variable {cfg : Config} {s s' : State} {c : Child}

/-- The steps a child still costs: its own two, three when it is reaped, and three for the search
that may follow. Its exit leaves a signal. -/
def Status.left : Status → ℕ
  | .fresh => 9
  | .asleep => 8
  | .zombie => 6

/-- The steps the children still cost. -/
def leftOf : List Child → ℕ
  | [] => 0
  | c :: l => c.status.left + leftOf l

theorem leftOf_erase {l : List Child} (hc : c ∈ l) :
    leftOf l = c.status.left + leftOf (l.erase c) := by
  induction l with
  | nil => cases hc
  | cons d l ih =>
    by_cases hd : d = c
    · rw [hd, List.erase_cons_head, leftOf]
    · have hl : c ∈ l := (List.mem_cons.mp hc).resolve_left (Ne.symm hd)
      rw [List.erase_cons_tail (by simpa using hd), leftOf, leftOf, ih hl]
      omega

/-- Some child is a zombie. -/
def anyZombie (l : List Child) : Bool := l.any fun c => c.status = .zombie

theorem anyZombie_iff {l : List Child} : anyZombie l = true ↔ ∃ c ∈ l, c.status = .zombie := by
  simp [anyZombie]

theorem anyZombie_eq_false_iff {l : List Child} :
    anyZombie l = false ↔ ∀ c ∈ l, c.status ≠ .zombie := by
  simp [anyZombie]

/-- The steps the parent still takes, those for its present children apart. A search that finds a
zombie does not sleep. -/
def Pc.left (n : ℕ) (zombie : Bool) : Pc → ℕ
  | .fork i => 10 * (n - i) + 6
  | .wait => if zombie then 2 else 5
  | .test => 4
  | .asleep => 3
  | .back (.reaped _) => 7
  | .back _ => 1
  | .print _ => 6
  | .finished => 0
  | .failed _ => 0

theorem Answer.left_next (n : ℕ) (zombie : Bool) (r : Answer) :
    r.next.left n zombie < (Pc.back r).left n zombie := by
  cases r <;> simp [Answer.next, Pc.left]

/-- A new zombie makes the search shorter. -/
theorem Pc.left_le (n : ℕ) {z z' : Bool} (h : z = true → z' = true) (pc : Pc) :
    pc.left n z' ≤ pc.left n z := by
  cases pc with
  | wait => cases z <;> cases z' <;> simp [Pc.left] at h ⊢
  | back r => cases r <;> exact Nat.le_refl _
  | _ => exact Nat.le_refl _

/-- The steps that are left at most. -/
def State.left (cfg : Config) (s : State) : ℕ :=
  s.pc.left cfg.numChildProc (anyZombie s.children) + leftOf s.children +
    (values sigChld s.pending).length

theorem left_of_move (h : Move cfg s s') : s'.left cfg < s.left cfg := by
  cases h with
  | fork hpc hi =>
    simp only [State.left, hpc, Pc.left, leftOf, Status.left]
    omega
  | forkFails hpc =>
    simp only [State.left, hpc, Pc.left]
    omega
  | leaveLoop hpc =>
    simp only [State.left, hpc, Pc.left]
    split <;> omega
  | @childPrints c hc hfresh =>
    have hpc : s.pc.left cfg.numChildProc
          (anyZombie ({ c with status := .asleep } :: s.children.erase c)) ≤
        s.pc.left cfg.numChildProc (anyZombie s.children) := by
      refine Pc.left_le _ (fun hz => ?_) s.pc
      obtain ⟨z, hz, hst⟩ := anyZombie_iff.mp hz
      have hne : z ≠ c := fun heq => by simp [heq, hfresh] at hst
      exact anyZombie_iff.mpr
        ⟨z, List.mem_cons_of_mem _ ((List.mem_erase_of_ne hne).mpr hz), hst⟩
    have hleft := leftOf_erase hc
    simp only [State.left, hfresh, leftOf, Status.left] at hleft ⊢
    omega
  | @childExits c hc hasleep =>
    have hpc : s.pc.left cfg.numChildProc
          (anyZombie ({ c with status := .zombie } :: s.children.erase c)) ≤
        s.pc.left cfg.numChildProc (anyZombie s.children) :=
      Pc.left_le _ (fun _ => anyZombie_iff.mpr ⟨_, List.mem_cons_self, rfl⟩) s.pc
    have hsig := values_generate_standard (show sigChld < 32 by decide) c.pid s.pending
    have hlen : (values sigChld (generate sigChld c.pid s.pending)).length ≤
        (values sigChld s.pending).length + 1 := by
      rw [hsig]
      split <;> simp
    have hleft := leftOf_erase hc
    simp only [State.left, hasleep, leftOf, Status.left] at hleft ⊢
    omega
  | deliver _ _ hd =>
    have hlen := congrArg List.length (values_of_dequeue hd).1
    simp only [State.left]
    rw [List.length_cons] at hlen
    omega
  | reap hpc hc hzombie =>
    have hany : anyZombie s.children = true := anyZombie_iff.mpr ⟨_, hc, hzombie⟩
    have hleft := leftOf_erase hc
    simp only [State.left, hpc, hany, hzombie, Pc.left, Status.left, if_true] at hleft ⊢
    omega
  | look hpc _ hnone =>
    have hany : anyZombie s.children = false := anyZombie_eq_false_iff.mpr hnone
    simp only [State.left, hpc, hany, Pc.left, Bool.false_eq_true, if_false]
    omega
  | interrupt hpc =>
    simp only [State.left, hpc, Pc.left]
    omega
  | sleep hpc =>
    simp only [State.left, hpc, Pc.left]
    omega
  | wake hpc hsome =>
    have hany : anyZombie s.children = true := anyZombie_iff.mpr hsome
    simp only [State.left, hpc, hany, Pc.left, if_true]
    omega
  | noChild hpc =>
    simp only [State.left, hpc, Pc.left]
    split <;> omega
  | @resume r hpc =>
    have hnext := r.left_next cfg.numChildProc (anyZombie s.children)
    simp only [State.left, hpc]
    omega
  | print hpc =>
    simp only [State.left, hpc, Pc.left]
    split <;> omega

theorem left_lowers : (machine cfg).Lowers (State.left cfg) :=
  fun _ _ _ hstep => left_of_move (move_of_step hstep)

end Left

/-! ### Every child is somewhere -/

section Pids

variable {cfg : Config} {s s' : State} {c d : Child} {p : ℕ}

/-- The child that was reaped and is not printed yet. -/
@[simp] def Pc.inFlight : Pc → List ℕ
  | .back (.reaped pid) | .print pid => [pid]
  | _ => []

/-- How many children have been forked, for as long as the program runs. -/
@[simp] def Pc.forks (n : ℕ) : Pc → Option ℕ
  | .fork i => some i
  | .failed _ => none
  | _ => some n

/-- The children that have not printed their line. -/
@[simp] def freshIn : List Child → List (ℕ × ℕ)
  | [] => []
  | ⟨num, pid, .fresh⟩ :: l => (num, pid) :: freshIn l
  | _ :: l => freshIn l

/-- The process numbers of the children that have not been reported. -/
def State.open (s : State) : List ℕ := s.children.map Child.pid ++ s.pc.inFlight

/-- The children forked are there, or have been reported once. -/
structure PidInv (cfg : Config) (s : State) : Prop where
  nodup : (s.forked.map Prod.snd).Nodup
  account : (s.forked.map Prod.snd).Perm (s.open ++ (waitsIn s.out).map Prod.fst)
  status : ∀ w ∈ waitsIn s.out, w.2 = waitStatus exitCode
  early : ∀ i, s.pc = .fork i → waitsIn s.out = []
  le : s.forked.length ≤ cfg.numChildProc
  count : ∀ k, s.pc.forks cfg.numChildProc = some k → s.forked.length = k
  gone : s.pc = .back .echild ∨ s.pc = .finished → s.children = []
  lines : cfg.tty = true → s.forked.Perm (childrenIn s.out ++ freshIn s.children)
  buffered : cfg.tty = false → childrenIn s.out = []

theorem PidInv.distinct (h : PidInv cfg s) :
    (s.open ++ (waitsIn s.out).map Prod.fst).Nodup := h.account.nodup_iff.mp h.nodup

theorem PidInv.mem_forked (h : PidInv cfg s) (hp : p ∈ s.open) : p ∈ s.forked.map Prod.snd :=
  h.account.mem_iff.mpr (List.mem_append_left _ hp)

theorem PidInv.notMem_waits (h : PidInv cfg s) (hp : p ∈ s.open) :
    p ∉ (waitsIn s.out).map Prod.fst := fun hw => (List.disjoint_of_nodup_append h.distinct) hp hw

theorem PidInv.pid_inj (h : PidInv cfg s) (hc : c ∈ s.children) (hd : d ∈ s.children)
    (hpid : c.pid = d.pid) : c = d :=
  List.inj_on_of_nodup_map (List.Nodup.of_append_left (List.Nodup.of_append_left h.distinct))
    hc hd hpid

theorem pids_perm {l : List Child} (hc : c ∈ l) (hpid : d.pid = c.pid) :
    (l.map Child.pid).Perm ((d :: l.erase c).map Child.pid) := by
  rw [List.map_cons, hpid]
  exact (List.perm_cons_erase hc).map Child.pid

theorem freshIn_cons_of_fresh (hc : c.status = .fresh) (l : List Child) :
    freshIn (c :: l) = (c.num, c.pid) :: freshIn l := by
  cases c
  cases hc
  rfl

theorem freshIn_cons_of_ne (hc : c.status ≠ .fresh) (l : List Child) :
    freshIn (c :: l) = freshIn l := by
  cases c with | mk num pid st =>
    cases st with
    | fresh => exact absurd rfl hc
    | asleep | zombie => rfl

theorem freshIn_perm {l l' : List Child} (h : l.Perm l') : (freshIn l).Perm (freshIn l') := by
  induction h with
  | nil => exact .refl _
  | cons c _ ih => cases c with | mk num pid st => cases st <;> simp [ih]
  | swap c d l =>
    cases c with | mk num pid st => cases d with | mk num' pid' st' =>
      cases st <;> cases st' <;> simp [List.Perm.swap]
  | trans _ _ ih ih' => exact ih.trans ih'

theorem pidInv_start : PidInv cfg start where
  nodup := .nil
  account := .nil
  status := nofun
  early _ _ := rfl
  le := Nat.zero_le _
  count := by simp [start]
  gone _ := rfl
  lines _ := .nil
  buffered _ := rfl

/-- The parent goes on, and no child changes its place. -/
theorem PidInv.withPc (h : PidInv cfg s) {pc : Pc} (hflight : pc.inFlight = s.pc.inFlight)
    (hfork : ∀ i, pc ≠ .fork i)
    (hcount : ∀ k, pc.forks cfg.numChildProc = some k → s.forked.length = k)
    (hgone : pc = .back .echild ∨ pc = .finished → s.children = []) :
    PidInv cfg { s with pc := pc } where
  nodup := h.nodup
  account := by
    have haccount := h.account
    rwa [State.open, ← hflight] at haccount
  status := h.status
  early i hpc := absurd hpc (hfork i)
  le := h.le
  count := hcount
  gone := hgone
  lines := h.lines
  buffered := h.buffered

/-- A child goes on. -/
theorem open_perm (hc : c ∈ s.children) (hpid : d.pid = c.pid) :
    s.open.Perm ((d :: s.children.erase c).map Child.pid ++ s.pc.inFlight) :=
  (pids_perm hc hpid).append_right _

theorem PidInv.of_move (h : PidInv cfg s) (hmove : Move cfg s s') : PidInv cfg s' := by
  cases hmove with
  | @fork i pid hpc hi hpid =>
    have hwaits := h.early i hpc
    have haccount := h.account
    simp only [State.open, hpc, hwaits, Pc.inFlight, List.map_nil, List.append_nil] at haccount
    have hcount := h.count i (by rw [hpc]; rfl)
    have hnew : pid ∉ s.forked.map Prod.snd := fun hmem => hpid (haccount.mem_iff.mp hmem)
    have hforked : ((s.forked ++ [(i, pid)]).map Prod.snd).Perm
        (pid :: s.forked.map Prod.snd) := by
      rw [List.map_append]
      exact List.perm_append_singleton _ _
    refine ⟨?_, ?_, h.status, fun _ _ => hwaits, ?_, ?_, by simp, fun htty => ?_, h.buffered⟩
    · exact hforked.nodup_iff.mpr (List.nodup_cons.mpr ⟨hnew, h.nodup⟩)
    · simp only [State.open, Pc.inFlight, hwaits, List.map_nil, List.append_nil, List.map_cons]
      exact hforked.trans (haccount.cons pid)
    · rw [List.length_append, hcount]
      exact hi
    · simp [hcount]
    · exact (List.perm_append_singleton _ _).trans
        (((h.lines htty).cons _).trans List.perm_middle.symm)
  | forkFails => exact h.withPc (by simp [*]) (by simp) (by simp) (by simp)
  | leaveLoop hpc hi =>
    have hcount := h.count _ (by rw [hpc]; rfl)
    have hle := h.le
    exact h.withPc (by simp [hpc]) (by simp) (by simp; omega) (by simp)
  | @childPrints c hc hfresh =>
    have hwaits : waitsIn (if cfg.tty then [.child c.num c.pid] else []) = [] := by
      split <;> rfl
    have hchildren := freshIn_perm (List.perm_cons_erase hc)
    rw [freshIn_cons_of_fresh hfresh] at hchildren
    refine ⟨h.nodup, ?_, by simpa [hwaits] using h.status, by simpa [hwaits] using h.early, h.le,
      h.count, fun hpc => ?_, fun htty => ?_, fun htty => ?_⟩
    · simp only [waitsIn_append, hwaits, List.append_nil]
      exact h.account.trans ((open_perm hc rfl).append_right _)
    · rw [h.gone hpc] at hc
      cases hc
    · have hlines := (h.lines htty).trans (hchildren.append_left _)
      simpa [htty] using hlines
    · simpa [htty] using h.buffered htty
  | @childExits c hc hasleep =>
    refine ⟨h.nodup, h.account.trans ((open_perm hc rfl).append_right _), h.status, h.early, h.le,
      h.count, fun hpc => ?_, fun htty => ?_, h.buffered⟩
    · rw [h.gone hpc] at hc
      cases hc
    · have hchildren := freshIn_perm (List.perm_cons_erase hc)
      rw [freshIn_cons_of_ne (by simp [hasleep])] at hchildren
      exact (h.lines htty).trans (hchildren.append_left _)
  | deliver =>
    refine ⟨h.nodup, ?_, ?_, ?_, h.le, h.count, h.gone, ?_, ?_⟩
    · simpa [State.open] using h.account
    · simpa using h.status
    · simpa using h.early
    · simpa using h.lines
    · simpa using h.buffered
  | @reap c hpc hc hzombie =>
    have haccount := h.account.trans ((open_perm hc rfl).append_right _)
    have hcount := h.count _ (by rw [hpc]; rfl)
    refine ⟨h.nodup, ?_, h.status, by simp, h.le, by simp [hcount], by simp, fun htty => ?_,
      h.buffered⟩
    · refine haccount.trans (List.Perm.append_right _ ?_)
      simp only [hpc, Pc.inFlight, List.map_cons, List.append_nil]
      exact (List.perm_append_singleton _ _).symm
    · have hchildren := freshIn_perm (List.perm_cons_erase hc)
      rw [freshIn_cons_of_ne (by simp [hzombie])] at hchildren
      exact (h.lines htty).trans (hchildren.append_left _)
  | look hpc =>
    have hcount := h.count _ (by rw [hpc]; rfl)
    exact h.withPc (by simp [hpc]) (by simp) (by simp [hcount]) (by simp)
  | interrupt hpc =>
    have hcount := h.count _ (by rw [hpc]; rfl)
    exact h.withPc (by simp [hpc]) (by simp) (by simp [hcount]) (by simp)
  | sleep hpc =>
    have hcount := h.count _ (by rw [hpc]; rfl)
    exact h.withPc (by simp [hpc]) (by simp) (by simp [hcount]) (by simp)
  | wake hpc =>
    have hcount := h.count _ (by rw [hpc]; rfl)
    exact h.withPc (by simp [hpc]) (by simp) (by simp [hcount]) (by simp)
  | noChild hpc hnone =>
    have hcount := h.count _ (by rw [hpc]; rfl)
    exact h.withPc (by simp [hpc]) (by simp) (by simp [hcount]) (fun _ => hnone)
  | @resume r hpc =>
    have hcount := h.count _ (by rw [hpc]; rfl)
    have hgone := h.gone
    refine h.withPc ?_ ?_ ?_ ?_ <;> cases r <;> simp [Answer.next, hpc, hcount]
    exact hgone (.inl hpc)
  | @print pid hpc =>
    have haccount := h.account
    have hcount := h.count _ (by rw [hpc]; rfl)
    simp only [State.open, hpc, Pc.inFlight] at haccount
    refine ⟨h.nodup, ?_, ?_, by simp, h.le, by simp [hcount], by simp, ?_, ?_⟩
    · simp only [State.open, Pc.inFlight, waitsIn_append, waitsIn, List.map_append, List.map_cons,
        List.map_nil, List.append_nil]
      rw [List.append_assoc] at haccount
      exact haccount.trans ((List.perm_append_comm).append_left _)
    · simp only [waitsIn_append, waitsIn, List.mem_append, List.mem_singleton]
      rintro w (hw | rfl)
      · exact h.status w hw
      · rfl
    · simpa using h.lines
    · simpa using h.buffered

end Pids

/-! ### A pending signal means a zombie -/

section Signal

variable {cfg : Config} {s s' : State} {c : Child} {p : ℕ}

/-- `p` is the process number of a zombie. -/
def Zombie (l : List Child) (p : ℕ) : Prop := ∃ z ∈ l, z.status = .zombie ∧ z.pid = p

theorem Zombie.of_erase {l : List Child} {d : Child} (h : Zombie l p) (hc : c.status ≠ .zombie) :
    Zombie (d :: l.erase c) p := by
  obtain ⟨z, hz, hst, hpid⟩ := h
  have hne : z ≠ c := fun heq => hc (heq ▸ hst)
  exact ⟨z, List.mem_cons_of_mem d ((List.mem_erase_of_ne hne).mpr hz), hst, hpid⟩

theorem Zombie.cons {l : List Child} (h : Zombie l p) (d : Child) : Zombie (d :: l) p := by
  obtain ⟨z, hz, hzombie⟩ := h
  exact ⟨z, List.mem_cons_of_mem d hz, hzombie⟩

theorem values_pending (p : ℕ) (q : List (ℕ × ℕ)) : values sigChld (generate sigChld p q) =
    if values sigChld q = [] then [p] else values sigChld q :=
  values_generate_standard (by decide) p q

/-- A `SIGCHLD` that can be delivered was generated by a zombie, or by the child that `wait` is
coming back with. -/
structure SigInv (cfg : Config) (s : State) : Prop where
  once : (values sigChld s.pending).length ≤ 1
  pend : cfg.sigblk = false → ∀ p ∈ values sigChld s.pending,
    Zombie s.children p ∨ s.pc = .back (.reaped p)

theorem sigInv_start : SigInv cfg start := ⟨Nat.zero_le _, nofun⟩

theorem SigInv.zombie (h : SigInv cfg s) (hpc : ∀ r, s.pc ≠ .back r) (hblk : cfg.sigblk = false)
    (hp : p ∈ values sigChld s.pending) : Zombie s.children p :=
  (h.pend hblk p hp).resolve_right (hpc _)

/-- The parent goes on and takes no child along. -/
theorem SigInv.withPc (h : SigInv cfg s) (hpc : ∀ r, s.pc ≠ .back r) (pc : Pc) :
    SigInv cfg { s with pc := pc } :=
  ⟨h.once, fun hblk _ hp => .inl (h.zombie hpc hblk hp)⟩

theorem SigInv.of_move (h : SigInv cfg s) (hmove : Move cfg s s') : SigInv cfg s' := by
  cases hmove with
  | fork hpc =>
    exact ⟨h.once, fun hblk p hp => .inl ((h.zombie (by simp [hpc]) hblk hp).cons _)⟩
  | forkFails hpc => exact h.withPc (by simp [hpc]) _
  | leaveLoop hpc => exact h.withPc (by simp [hpc]) _
  | childPrints hc hfresh =>
    refine ⟨h.once, fun hblk p hp => ?_⟩
    exact (h.pend hblk p hp).imp_left fun hz => hz.of_erase (by simp [hfresh])
  | @childExits c hc hasleep =>
    refine ⟨?_, fun hblk p hp => ?_⟩
    · rw [values_pending]
      split
      · simp
      · exact h.once
    · rw [values_pending] at hp
      split at hp
      · rw [List.mem_singleton.mp hp]
        exact .inl ⟨_, List.mem_cons_self, rfl, rfl⟩
      · exact (h.pend hblk p hp).imp_left fun hz => hz.of_erase (by simp [hasleep])
  | deliver _ _ hd =>
    have hvalues := (values_of_dequeue hd).1
    have honce := h.once
    rw [hvalues, List.length_cons] at honce
    refine ⟨by simp only; omega, fun hblk p hp => h.pend hblk p ?_⟩
    exact hvalues ▸ List.mem_cons_of_mem _ hp
  | @reap c hpc hc hzombie =>
    refine ⟨h.once, fun hblk p hp => ?_⟩
    obtain ⟨z, hz, hst, rfl⟩ := h.zombie (by simp [hpc]) hblk hp
    by_cases hzc : z = c
    · exact .inr (by rw [hzc])
    · exact .inl ⟨z, (List.mem_erase_of_ne hzc).mpr hz, hst, rfl⟩
  | look hpc => exact h.withPc (by simp [hpc]) _
  | interrupt hpc => exact h.withPc (by simp [hpc]) _
  | sleep hpc => exact h.withPc (by simp [hpc]) _
  | wake hpc => exact h.withPc (by simp [hpc]) _
  | noChild hpc => exact h.withPc (by simp [hpc]) _
  | resume hpc hquiet =>
    exact ⟨h.once, fun hblk p hp => absurd ⟨hblk, List.ne_nil_of_mem hp⟩ hquiet⟩
  | print hpc => exact ⟨h.once, fun hblk p hp => .inl (h.zombie (by simp [hpc]) hblk hp)⟩

/-- `wait` has come to its test for signals in this call, or has failed there. -/
@[simp] def Pc.tested : Pc → Bool
  | .test | .asleep | .back .eintr | .failed .wait => true
  | _ => false

/-- `wait` has been interrupted. -/
@[simp] def Pc.interrupted : Pc → Bool
  | .back .eintr | .failed .wait => true
  | _ => false

/-- `wait` tests for signals only if there are children, and is interrupted only by a signal that is
not blocked. -/
structure EintrInv (cfg : Config) (s : State) : Prop where
  children : s.pc = .test ∨ s.pc = .asleep → s.children ≠ []
  some : s.pc.tested → 0 < cfg.numChildProc
  unblocked : s.pc.interrupted → cfg.sigblk = false

theorem EintrInv.of_move (h : EintrInv cfg s) (hpids : PidInv cfg s) (hmove : Move cfg s s') :
    EintrInv cfg s' := by
  cases hmove with
  | childPrints => exact ⟨fun _ => List.cons_ne_nil _ _, h.some, h.unblocked⟩
  | childExits => exact ⟨fun _ => List.cons_ne_nil _ _, h.some, h.unblocked⟩
  | deliver => exact ⟨h.children, h.some, h.unblocked⟩
  | look hpc hsome =>
    refine ⟨fun _ => hsome, fun _ => ?_, by simp⟩
    obtain ⟨c, hc⟩ := List.exists_mem_of_ne_nil _ hsome
    have hmem := hpids.mem_forked (List.mem_append_left _ (List.mem_map_of_mem (f := Child.pid) hc))
    have hlen := List.length_pos_of_mem hmem
    rw [List.length_map] at hlen
    exact hlen.trans_le hpids.le
  | interrupt hpc hsig => exact ⟨by simp, fun _ => h.some (by simp [hpc]), fun _ => hsig.1⟩
  | sleep hpc => exact ⟨fun _ => h.children (.inl hpc), fun _ => h.some (by simp [hpc]), by simp⟩
  | @resume r hpc =>
    cases r with
    | eintr =>
      exact ⟨by simp [Answer.next], fun _ => h.some (by simp [hpc]),
        fun _ => h.unblocked (by simp [hpc])⟩
    | reaped | echild => exact ⟨by simp [Answer.next], by simp [Answer.next], by simp [Answer.next]⟩
  | _ => exact ⟨by simp, by simp, by simp⟩

end Signal

/-! ### What the handler prints -/

section Handler

variable {cfg : Config} {s s' : State} {c : Child} {p : ℕ}

/-- The process numbers in the lines of the handler. -/
def State.handled (s : State) : List ℕ := (handsIn s.out).map Prod.fst

/-- The handler prints a line for some of the children that have exited, at most one each and in
front of the line of the loop. -/
structure HandInv (cfg : Config) (s : State) : Prop where
  blocked : cfg.sigblk = true → handsIn s.out = []
  form : ∀ l ∈ handsIn s.out, l.2 = (sigChld, exitCode)
  forked : ∀ p ∈ s.handled, p ∈ s.forked.map Prod.snd
  nodup : s.handled.Nodup
  running : ∀ c ∈ s.children, c.status ≠ .zombie → c.pid ∉ s.handled
  pend : cfg.sigblk = false → ∀ p ∈ values sigChld s.pending, p ∉ s.handled
  first : (∃ p, Zombie s.children p) ∨ s.pc.inFlight ≠ [] ∨ waitsIn s.out ≠ [] →
    values sigChld s.pending ≠ [] ∨ handsIn s.out ≠ []
  order : HandsFirst s.out

theorem handInv_start : HandInv cfg start where
  blocked _ := rfl
  form := nofun
  forked := nofun
  nodup := .nil
  running := nofun
  pend := nofun
  first := by simp [start, Zombie]
  order := trivial

/-- The child of a signal that is being delivered has not been reported. -/
theorem SigInv.mem_open (h : SigInv cfg s) (hblk : cfg.sigblk = false)
    (hp : p ∈ values sigChld s.pending) : p ∈ s.open := by
  rcases h.pend hblk p hp with ⟨z, hz, -, rfl⟩ | hpc
  · exact List.mem_append_left _ (List.mem_map_of_mem hz)
  · exact List.mem_append_right _ (by simp [hpc])

/-- And it is not running. -/
theorem SigInv.ne_running (h : SigInv cfg s) (hpids : PidInv cfg s) (hblk : cfg.sigblk = false)
    (hp : p ∈ values sigChld s.pending) (hc : c ∈ s.children) (hrun : c.status ≠ .zombie) :
    c.pid ≠ p := by
  rintro rfl
  rcases h.pend hblk _ hp with ⟨z, hz, hst, hpid⟩ | hpc
  · exact hrun (hpids.pid_inj hz hc hpid ▸ hst)
  · have hdisjoint := List.disjoint_of_nodup_append (List.Nodup.of_append_left hpids.distinct)
    exact hdisjoint (List.mem_map_of_mem hc) (by simp [hpc])

/-- The parent goes on. -/
theorem HandInv.withPc (h : HandInv cfg s) {pc : Pc} {l : List Child} (hsub : l ⊆ s.children)
    (hflight : pc.inFlight ≠ [] → (∃ p, Zombie s.children p) ∨ s.pc.inFlight ≠ []) :
    HandInv cfg { s with pc := pc, children := l } where
  blocked := h.blocked
  form := h.form
  forked := h.forked
  nodup := h.nodup
  running c hc := h.running c (hsub hc)
  pend := h.pend
  first := by
    rintro (⟨p, z, hz, hzombie⟩ | hpc | hwaits)
    · exact h.first (.inl ⟨p, z, hsub hz, hzombie⟩)
    · exact h.first ((hflight hpc).imp_right .inl)
    · exact h.first (.inr (.inr hwaits))
  order := h.order

theorem HandInv.of_move (h : HandInv cfg s) (hpids : PidInv cfg s) (hsig : SigInv cfg s)
    (hmove : Move cfg s s') : HandInv cfg s' := by
  cases hmove with
  | @fork i pid hpc hi hpid =>
    have hwaits := hpids.early i hpc
    have hnew : pid ∉ s.forked.map Prod.snd := by
      rw [hpids.account.mem_iff, State.open, hpc, hwaits]
      simpa using hpid
    refine ⟨h.blocked, h.form, fun p hp => ?_, h.nodup, ?_, h.pend, ?_, h.order⟩
    · rw [List.map_append]
      exact List.mem_append_left _ (h.forked p hp)
    · simp only [List.mem_cons]
      rintro c (rfl | hc) hrun
      · exact fun hmem => hnew (h.forked _ hmem)
      · exact h.running c hc hrun
    · rintro (⟨p, z, hz, hst, hp⟩ | hflight)
      · refine h.first (.inl ⟨p, z, (List.mem_cons.mp hz).resolve_left ?_, hst, hp⟩)
        rintro rfl
        cases hst
      · exact h.first (.inr (by simpa [hpc] using hflight))
  | forkFails => exact h.withPc (List.Subset.refl _) (by simp)
  | leaveLoop => exact h.withPc (List.Subset.refl _) (by simp)
  | @childPrints c hc hfresh =>
    have hhands : handsIn (if cfg.tty then [.child c.num c.pid] else []) = [] := by
      split <;> rfl
    have hwaits : waitsIn (if cfg.tty then [.child c.num c.pid] else []) = [] := by
      split <;> rfl
    have hfirst : HandsFirst (if cfg.tty then [.child c.num c.pid] else []) := by
      split <;> trivial
    have hout : handsIn (s.out ++ if cfg.tty then [.child c.num c.pid] else []) =
        handsIn s.out := by rw [handsIn_append, hhands, List.append_nil]
    refine ⟨?_, ?_, ?_, ?_, ?_, ?_, ?_, handsFirst_append h.order hhands hfirst⟩ <;>
      simp only [State.handled, hout]
    · exact h.blocked
    · exact h.form
    · exact h.forked
    · exact h.nodup
    · simp only [List.mem_cons]
      rintro d (rfl | hd) hrun
      · exact h.running c hc (by simp [hfresh])
      · exact h.running d (List.mem_of_mem_erase hd) hrun
    · exact h.pend
    · rw [waitsIn_append, hwaits, List.append_nil]
      rintro (⟨p, z, hz, hst, hp⟩ | hflight)
      · refine h.first (.inl ⟨p, z, List.mem_of_mem_erase ((List.mem_cons.mp hz).resolve_left ?_),
          hst, hp⟩)
        rintro rfl
        cases hst
      · exact h.first (.inr hflight)
  | @childExits c hc hasleep =>
    have hnew := h.running c hc (by simp [hasleep])
    refine ⟨h.blocked, h.form, h.forked, h.nodup, ?_, fun hblk p hp => ?_, fun _ => .inl ?_,
      h.order⟩
    · simp only [List.mem_cons]
      rintro d (rfl | hd) hrun
      · exact absurd rfl hrun
      · exact h.running d (List.mem_of_mem_erase hd) hrun
    · rw [values_pending] at hp
      split at hp
      · rw [List.mem_singleton.mp hp]
        exact hnew
      · exact h.pend hblk p hp
    · rw [values_pending]
      split
      · exact List.cons_ne_nil _ _
      · assumption
  | @deliver p q _ hblk hd =>
    have hvalues := (values_of_dequeue hd).1
    have hp : p ∈ values sigChld s.pending := hvalues ▸ List.mem_cons_self
    have hlast : values sigChld q = [] := by
      have honce := hsig.once
      rw [hvalues, List.length_cons] at honce
      exact List.eq_nil_of_length_eq_zero (by omega)
    have hopen := hsig.mem_open hblk hp
    refine ⟨by simp [hblk], ?_, ?_, ?_, ?_, ?_, ?_,
      handsFirst_concat_hand h.order (hpids.notMem_waits hopen)⟩ <;>
      simp only [State.handled, handsIn_append, handsIn, List.map_append, List.map_cons,
        List.map_nil, List.mem_append, List.mem_singleton]
    · rintro l (hl | rfl)
      · exact h.form l hl
      · rfl
    · rintro r (hr | rfl)
      · exact h.forked r hr
      · exact hpids.mem_forked hopen
    · rw [List.nodup_append]
      refine ⟨h.nodup, List.nodup_singleton p, fun r hr r' hr' => ?_⟩
      rw [List.mem_singleton.mp hr']
      exact fun heq => h.pend hblk p hp (heq ▸ hr)
    · intro c hc hrun
      exact not_or.mpr ⟨h.running c hc hrun, hsig.ne_running hpids hblk hp hc hrun⟩
    · simp [hlast]
    · simp
  | @reap c hpc hc hzombie =>
    exact h.withPc List.erase_subset fun _ => .inl ⟨c.pid, c, hc, hzombie, rfl⟩
  | look => exact h.withPc (List.Subset.refl _) (by simp)
  | interrupt => exact h.withPc (List.Subset.refl _) (by simp)
  | sleep => exact h.withPc (List.Subset.refl _) (by simp)
  | wake => exact h.withPc (List.Subset.refl _) (by simp)
  | noChild => exact h.withPc (List.Subset.refl _) (by simp)
  | @resume r hpc =>
    refine h.withPc (List.Subset.refl _) fun hflight => .inr ?_
    cases r <;> simp [hpc, Answer.next] at hflight ⊢
  | @print pid hpc =>
    refine ⟨by simpa using h.blocked, by simpa using h.form,
      by simpa [State.handled] using h.forked, by simpa [State.handled] using h.nodup,
      by simpa [State.handled] using h.running,
      by simpa [State.handled] using h.pend, fun _ => ?_,
      handsFirst_append h.order rfl ⟨by simp, trivial⟩⟩
    have hfirst := h.first (.inr (.inl (by simp [hpc])))
    simpa using hfirst

/-- The invariants of the program. -/
structure Inv (cfg : Config) (s : State) : Prop where
  pids : PidInv cfg s
  sig : SigInv cfg s
  eintr : EintrInv cfg s
  hand : HandInv cfg s

/-- They hold in every state it can be in. -/
theorem inv_of_reachable (h : (machine cfg).Reachable s) : Inv cfg s := by
  refine h.invariant (I := Inv cfg) ?_ ?_
  · rintro _ rfl
    exact ⟨pidInv_start, sigInv_start, ⟨by simp [start], by simp [start], by simp [start]⟩,
      handInv_start⟩
  · intro s a s' hinv hstep
    have hmove := move_of_step hstep
    exact ⟨hinv.pids.of_move hmove, hinv.sig.of_move hmove, hinv.eintr.of_move hinv.pids hmove,
      hinv.hand.of_move hinv.pids hinv.sig hmove⟩

end Handler

/-! ### Whole runs -/

section Runs

variable {cfg : Config} {s s₀ : State} {tr : List (State × Label)}

/-- A child that is not a zombie can go on. -/
theorem enabled_of_running {c : Child} (hc : c ∈ s.children) (hrun : c.status ≠ .zombie) :
    (machine cfg).Enabled s := by
  cases hst : c.status with
  | fresh => exact ⟨.childPrints c, _, if_pos ⟨hc, hst⟩⟩
  | asleep => exact ⟨.childExits c, _, if_pos ⟨hc, hst⟩⟩
  | zombie => exact absurd hst hrun

/-- A child can go on, or can be reaped. -/
theorem enabled_of_wait (hpc : s.pc = .wait) : (machine cfg).Enabled s := by
  cases hl : s.children with
  | nil => exact ⟨.noChild, _, if_pos ⟨hpc, hl⟩⟩
  | cons c l =>
    have hc : c ∈ s.children := hl ▸ List.mem_cons_self
    by_cases hst : c.status = .zombie
    · exact ⟨.reap c, _, if_pos ⟨hpc, hc, hst⟩⟩
    · exact enabled_of_running hc hst

/-- A parent that is asleep has a child, which wakes it in the end. -/
theorem enabled_of_asleep (hpc : s.pc = .asleep) (hsome : s.children ≠ []) :
    (machine cfg).Enabled s := by
  obtain ⟨c, hc⟩ := List.exists_mem_of_ne_nil _ hsome
  by_cases hst : c.status = .zombie
  · exact ⟨.wake, _, if_pos ⟨hpc, c, hc, hst⟩⟩
  · exact enabled_of_running hc hst

theorem enabled_of_test (hpc : s.pc = .test) : (machine cfg).Enabled s := by
  by_cases hsig : s.Deliverable cfg
  · exact ⟨.interrupt, _, if_pos ⟨hpc, hsig⟩⟩
  · exact ⟨.sleep, _, if_pos ⟨hpc, hsig⟩⟩

/-- What is pending is delivered, and then the parent goes on. -/
theorem enabled_of_back {r : Answer} (hpc : s.pc = .back r) : (machine cfg).Enabled s := by
  by_cases hsig : s.Deliverable cfg
  · obtain ⟨pid, q, hd⟩ := exists_dequeue (not_not.mp (mt values_eq_nil_iff.mpr hsig.2))
    have hhandles : s.pc.Handles := by simp [Pc.Handles, Pc.Live, hpc]
    exact ⟨.deliver, _, by simp [machine, State.step, hhandles, hsig.1, hd]; rfl⟩
  · exact ⟨.resume, _, by simp [machine, State.step, hpc, hsig]; rfl⟩

theorem enabled_of_live (hlive : s.pc.Live) (hasleep : s.pc = .asleep → s.children ≠ []) :
    (machine cfg).Enabled s := by
  cases hpc : s.pc with
  | fork i =>
    by_cases hi : i < cfg.numChildProc
    · exact ⟨.forkFails, _, by simp [machine, State.step, hpc, hi]; rfl⟩
    · exact ⟨.leaveLoop, _, by simp [machine, State.step, hpc, hi]; rfl⟩
  | wait => exact enabled_of_wait hpc
  | test => exact enabled_of_test hpc
  | asleep => exact enabled_of_asleep hpc (hasleep hpc)
  | back r => exact enabled_of_back hpc
  | print pid => exact ⟨.print, _, by simp [machine, State.step, hpc]; rfl⟩
  | finished => exact absurd hpc hlive.1
  | failed call => exact absurd hpc (hlive.2 call)

/-- Some number of children can be forked before any of them does anything. -/
theorem exists_forked {k : ℕ} (hk : k ≤ cfg.numChildProc) :
    ∃ s, (machine cfg).Reachable s ∧ s.pc = .fork k ∧ s.pending = [] ∧
      s.children.length = k ∧ ∀ c ∈ s.children, c.status = .fresh ∧ c.pid < k := by
  induction k with
  | zero => exact ⟨start, ⟨start, [], rfl, .nil⟩, rfl, rfl, rfl, nofun⟩
  | succ k ih =>
    obtain ⟨s, hs, hpc, hpend, hlen, hfresh⟩ := ih (by omega)
    have hnew : k ∉ s.children.map Child.pid := by
      intro hmem
      obtain ⟨c, hc, hpid⟩ := List.mem_map.mp hmem
      have := (hfresh c hc).2
      omega
    have hstep : (machine cfg).step s (.fork k) = some { s with
        pc := .fork (k + 1)
        children := ⟨k, k, .fresh⟩ :: s.children
        forked := s.forked ++ [(k, k)] } := by
      simp only [machine, State.step, hpc]
      rw [if_pos ⟨by omega, hnew⟩]
    refine ⟨_, hs.step hstep, rfl, hpend, by simp [hlen], ?_⟩
    simp only [List.mem_cons]
    rintro c (rfl | hc)
    · exact ⟨rfl, Nat.lt_succ_self k⟩
    · exact ⟨(hfresh c hc).1, Nat.lt_succ_of_lt (hfresh c hc).2⟩

/-- A child that exits between the two steps of `wait` makes it fail. -/
theorem exists_interrupted (hblk : cfg.sigblk = false) (hn : 0 < cfg.numChildProc) :
    ∃ s, (machine cfg).Reachable s ∧ s.pc = .failed .wait := by
  obtain ⟨s, hs, hpc, hpend, hlen, hfresh⟩ := exists_forked (Nat.le_refl cfg.numChildProc)
  obtain ⟨c, hc⟩ := List.exists_mem_of_length_pos (hlen ▸ hn)
  have hst : c.status = .fresh := (hfresh c hc).1
  have hnone : ∀ d ∈ s.children, d.status ≠ .zombie := fun d hd => by simp [(hfresh d hd).1]
  have hleave : (machine cfg).step s .leaveLoop = some { s with pc := .wait } := by
    simp [machine, State.step, hpc]
  have hlook : (machine cfg).step { s with pc := .wait } .look = some { s with pc := .test } :=
    if_pos ⟨rfl, List.ne_nil_of_mem hc, hnone⟩
  let c₁ : Child := { c with status := .asleep }
  let c₂ : Child := { c with status := .zombie }
  let s₁ : State := { s with
    pc := .test
    children := c₁ :: s.children.erase c
    out := s.out ++ if cfg.tty then [.child c.num c.pid] else [] }
  have hprints : (machine cfg).step { s with pc := .test } (.childPrints c) = some s₁ :=
    if_pos ⟨hc, hst⟩
  let s₂ : State := { s₁ with
    children := c₂ :: s₁.children.erase c₁
    pending := generate sigChld c.pid s.pending }
  have hexits : (machine cfg).step s₁ (.childExits c₁) = some s₂ :=
    if_pos ⟨List.mem_cons_self, rfl⟩
  have hvalues : values sigChld s₂.pending = [c.pid] := by
    rw [values_pending, hpend]
    rfl
  have hinterrupt : (machine cfg).step s₂ .interrupt = some { s₂ with pc := .back .eintr } :=
    if_pos ⟨rfl, hblk, by simp [hvalues]⟩
  obtain ⟨pid, q, hd⟩ :=
    exists_dequeue (not_not.mp (mt values_eq_nil_iff.mpr (by simp [hvalues] :
      values sigChld s₂.pending ≠ [])))
  let s₃ : State := { s₂ with
    pc := .back .eintr, pending := q, out := s₂.out ++ [.hand pid sigChld exitCode] }
  have hdeliver : (machine cfg).step { s₂ with pc := .back .eintr } .deliver = some s₃ := by
    simp [machine, State.step, Pc.Handles, Pc.Live, hblk, hd, s₃]
  have hquiet : ¬ s₃.Deliverable cfg := by
    have hrest := (values_of_dequeue hd).1
    rw [hvalues] at hrest
    exact fun hsig => hsig.2 (List.cons.inj hrest).2.symm
  have hresume : (machine cfg).step s₃ .resume = some { s₃ with pc := .failed .wait } :=
    if_neg hquiet
  exact ⟨_, ((((((hs.step hleave).step hlook).step hprints).step hexits).step hinterrupt).step
    hdeliver).step hresume, rfl⟩

/-- **The loop around `wait` completes.** No run is longer than ten steps a child, and six more.
However the exits of the children, the handler and the calls of the parent interleave, and whether
the signal is blocked or not, some step is possible until the program has ended, which it does by
waiting for all children, by a `fork` that fails, or by a `wait` that is interrupted. The latter can
happen exactly if the signal is not blocked and there are children. -/
theorem wait_loop_completes (cfg : Config) :
    (∀ s₀ tr s, (machine cfg).init s₀ → (machine cfg).Run s₀ tr s →
      tr.length ≤ 10 * cfg.numChildProc + 6 ∧
        (s.pc = .finished ∨ s.pc = .failed .fork ∨ s.pc = .failed .wait ∨
          (machine cfg).Enabled s)) ∧
    ((∃ s, (machine cfg).Reachable s ∧ s.pc = .failed .wait) ↔
      cfg.sigblk = false ∧ 0 < cfg.numChildProc) := by
  refine ⟨fun s₀ tr s hinit hrun => ⟨?_, ?_⟩, ?_, ?_⟩
  · have hlen := hrun.length_add_le left_lowers
    cases hinit
    have hstart : start.left cfg = 10 * cfg.numChildProc + 6 := rfl
    omega
  · have hinv := inv_of_reachable ⟨_, _, hinit, hrun⟩
    by_cases hlive : s.pc.Live
    · exact .inr (.inr (.inr (enabled_of_live hlive fun hpc => hinv.eintr.children (.inr hpc))))
    · simp only [Pc.Live, not_and_or, not_forall, not_not] at hlive
      rcases hlive with hpc | ⟨call, hpc⟩
      · exact .inl hpc
      · cases call with
        | fork => exact .inr (.inl hpc)
        | wait => exact .inr (.inr (.inl hpc))
  · rintro ⟨s, hs, hpc⟩
    have hinv := (inv_of_reachable hs).eintr
    exact ⟨hinv.unblocked (by simp [hpc]), hinv.some (by simp [hpc])⟩
  · rintro ⟨hblk, hn⟩
    exact exists_interrupted hblk hn

/-- Two children that exit before the handler runs, so that it runs once for both. -/
def coalesced : List Label :=
  [.fork 10, .fork 11, .leaveLoop, .childPrints ⟨0, 10, .fresh⟩, .childPrints ⟨1, 11, .fresh⟩,
    .childExits ⟨1, 11, .asleep⟩, .childExits ⟨0, 10, .asleep⟩, .reap ⟨0, 10, .zombie⟩, .deliver,
    .resume, .print, .reap ⟨1, 11, .zombie⟩, .resume, .print, .noChild, .resume]

theorem exec_coalesced : ∃ s, (machine ⟨2, false, true⟩).exec start coalesced = some s ∧
    s.pc = .finished ∧ s.forked = [(0, 10), (1, 11)] := ⟨_, rfl, rfl, rfl⟩

theorem wait_loop_completes_coalesced :
    (∃ tr s, (machine ⟨2, false, true⟩).Run start tr s ∧ s.pc = .finished ∧ tr.length ≤ 26) ∧
      ∃ s, (machine ⟨2, false, true⟩).Reachable s ∧ s.pc = .failed .wait := by
  obtain ⟨hends, hfails⟩ := wait_loop_completes ⟨2, false, true⟩
  obtain ⟨s, hexec, hpc, -⟩ := exec_coalesced
  have hrun := Machine.run_of_exec hexec
  exact ⟨⟨_, s, hrun, hpc, (hends _ _ s rfl hrun).1⟩, hfails.mpr ⟨rfl, by decide⟩⟩

/-- **What the program prints.** When it has ended, all children were forked under different
process numbers, and the loop has printed each of them once, with the status `256`. The handler has
printed some of them, each at most once and before the loop did; it has printed nothing exactly if
the signal is blocked or there are no children. On a terminal each child has printed its line. -/
theorem children_reported (h : (machine cfg).Reachable s) (hend : s.pc = .finished) :
    (s.forked.length = cfg.numChildProc ∧ (s.forked.map Prod.snd).Nodup) ∧
      (waitsIn s.out).Perm (s.forked.map fun c => (c.2, 256)) ∧
      ((handsIn s.out).Nodup ∧ (∀ l ∈ handsIn s.out, ∃ c ∈ s.forked, l = (c.2, 17, 1))) ∧
      (handsIn s.out = [] ↔ cfg.sigblk = true ∨ cfg.numChildProc = 0) ∧
      HandsFirst s.out ∧
      (childrenIn s.out).Perm (if cfg.tty then s.forked else []) := by
  obtain ⟨hpids, hsig, -, hhand⟩ := inv_of_reachable h
  have hchildren := hpids.gone (.inr hend)
  have hcount := hpids.count _ (by rw [hend]; rfl)
  have hwaits : (s.forked.map Prod.snd).Perm ((waitsIn s.out).map Prod.fst) := by
    simpa [State.open, hchildren, hend] using hpids.account
  refine ⟨⟨hcount, hpids.nodup⟩, ?_, ⟨hhand.nodup.of_map, fun l hl => ?_⟩, ⟨fun hnone => ?_, ?_⟩,
    hhand.order, ?_⟩
  · have hstatus : (waitsIn s.out).map (fun w => (w.1, 256)) = waitsIn s.out := by
      refine (List.map_congr_left fun w hw => ?_).trans (List.map_id _)
      exact Prod.ext rfl (hpids.status w hw).symm
    rw [← hstatus]
    have hmap := (hwaits.symm).map fun p => (p, 256)
    simpa [List.map_map, Function.comp_def] using hmap
  · obtain ⟨c, hc, hpid⟩ := List.mem_map.mp (hhand.forked l.1 (List.mem_map_of_mem hl))
    exact ⟨c, hc, Prod.ext hpid.symm (hhand.form l hl)⟩
  · -- some child exited, and its signal is not pending any more
    by_contra hcon
    simp only [not_or, Bool.not_eq_true] at hcon
    have hsome : waitsIn s.out ≠ [] := by
      intro hnil
      have hlen := hwaits.length_eq
      rw [hnil, List.length_map, hcount] at hlen
      exact hcon.2 hlen
    have hpend : values sigChld s.pending = [] := by
      refine List.eq_nil_iff_forall_not_mem.mpr fun p hp => ?_
      obtain ⟨z, hz, -⟩ := hsig.zombie (by simp [hend]) hcon.1 hp
      rw [hchildren] at hz
      cases hz
    exact (hhand.first (.inr (.inr hsome))).elim (· hpend) (· hnone)
  · rintro (hblk | hzero)
    · exact hhand.blocked hblk
    · refine List.eq_nil_iff_forall_not_mem.mpr fun l hl => ?_
      have hmem := hhand.forked l.1 (List.mem_map_of_mem hl)
      rw [List.eq_nil_of_length_eq_zero (hcount.trans hzero)] at hmem
      cases hmem
  · cases htty : cfg.tty with
    | false => rw [hpids.buffered htty]; exact .nil
    | true =>
      have hlines := hpids.lines htty
      rw [hchildren, freshIn, List.append_nil] at hlines
      exact hlines.symm

theorem children_reported_coalesced :
    ∃ s, (machine ⟨2, false, true⟩).Reachable s ∧ s.pc = .finished ∧
      (waitsIn s.out).Perm [(10, 256), (11, 256)] ∧ handsIn s.out ≠ [] := by
  obtain ⟨s, hexec, hpc, hforked⟩ := exec_coalesced
  have hreach : (machine ⟨2, false, true⟩).Reachable s := Machine.reachable_of_exec rfl hexec
  obtain ⟨-, hwaits, -, hnone, -⟩ := children_reported hreach hpc
  exact ⟨s, hreach, hpc, by simpa [hforked] using hwaits, by simp [hnone]⟩

end Runs

end ChildWait

end Tlpiexer
