import Mathlib.Data.Int.Notation
import Tlpiexer.Constants
import Tlpiexer.Foundations.Mutex

/-!
# One-time initialisation

`one_time_init` of `src/imp/31-01.c`, called by any number of threads on one `struct once_control`.
A call locks `control->mutex`, tests `control->called`, and if nobody was here before runs `init`,
sets `called` and unlocks.

The start and the end of `init` are separate steps, counted in `started` and `finished`, so that
other threads move while it runs. A mutex operation that reports an error is a step of its own
kind (`Label.fail`): `one_time_init` then returns `RET_FAILURE` on the spot.

## The two halves of the contract

That `init` runs once rests on mutual exclusion, which holds in every run, and on an invariant in
the usual form: what is true of the counters while the mutex is free (`Inv.free`), and what each
place in the protected code knows about them (`Pc.Knows`).

That the mutex is given back is a different matter. The call that finds `called` set returns
`RET_SUCCESS` with the mutex locked, so `mutex_eq_none_iff_called` has to exclude it.

## Main results

* `init_once` — `init` starts at most once, and is over when a call returns `RET_SUCCESS`
* `mutex_eq_none_iff_called` — when the mutex of an idle control is free
* `not_idle_unlocked_called` — it is not always free
-/

namespace Tlpiexer

namespace OnceInit

open Transition Mutex

/-! ### Threads -/

/-- Where a thread is in `one_time_init`. -/
inductive Pc
  /-- Not inside. -/
  | outside
  /-- At `pthread_mutex_lock`. -/
  | entered
  /-- At `if (control->called)`. -/
  | testing
  /-- At the call of `init`. -/
  | calling
  /-- Inside `init`. -/
  | running
  /-- At `control->called = 1`. -/
  | marking
  /-- At `pthread_mutex_unlock`. -/
  | unlocking
  /-- At a `return`. -/
  | returning (ret : ℤ)
  deriving DecidableEq

/-- Between a successful `pthread_mutex_lock` and leaving the code behind it. -/
def Pc.Locked : Pc → Prop
  | .testing | .calling | .running | .marking | .unlocking => True
  | _ => False

/-- The threads, `struct once_control`, and how often `init` was started and finished. -/
structure State (T : Type*) where
  called : ℤ
  /-- The holder of `control->mutex`. -/
  mutex : Option T
  started : ℕ
  finished : ℕ
  pc : T → Pc

/-- What happens next. -/
inductive Label (T : Type*)
  /-- A thread calls `one_time_init`. -/
  | call (t : T)
  /-- A thread executes the next piece of its code. -/
  | run (t : T)
  /-- The mutex operation a thread is at reports an error. -/
  | fail (t : T)

variable {T : Type*} [DecidableEq T]

/-- Thread `t` moves to `c`. -/
def State.goto (s : State T) (t : T) (c : Pc) : State T :=
  { s with pc := Function.update s.pc t c }

/-- One step of a thread. -/
def State.run (s : State T) (t : T) : Option (State T) :=
  match s.pc t with
  | .outside => none
  | .entered => if s.mutex = none then some { s.goto t .testing with mutex := some t } else none
  | .testing =>
    if s.called ≠ 0 then some (s.goto t (.returning retSuccess)) else some (s.goto t .calling)
  | .calling => some { s.goto t .running with started := s.started + 1 }
  | .running => some { s.goto t .marking with finished := s.finished + 1 }
  | .marking => some { s.goto t .unlocking with called := 1 }
  | .unlocking => some { s.goto t (.returning retSuccess) with mutex := none }
  | .returning _ => some (s.goto t .outside)

/-- One step of the program. -/
def State.step (s : State T) : Label T → Option (State T)
  | .call t => if s.pc t = .outside then some (s.goto t .entered) else none
  | .run t => s.run t
  | .fail t =>
    if s.pc t = .entered ∨ s.pc t = .unlocking then some (s.goto t (.returning retFailure))
    else none

/-- The program, with a fresh control and every thread still to make its calls. -/
def machine (T : Type*) [DecidableEq T] : Machine (State T) (Label T) where
  init s := s.called = 0 ∧ s.mutex = none ∧ s.started = 0 ∧ s.finished = 0 ∧
    ∀ t, s.pc t = .outside
  step := State.step

/-- No thread is inside `one_time_init`. -/
def State.Idle (s : State T) : Prop := ∀ t, s.pc t = .outside

/-- The mutex, and who is in the code it protects. -/
def view (T : Type*) : View (State T) T := .ofPc State.mutex State.pc Pc.Locked

/-! ### What one step can do -/

/-- The steps of thread `t` in state `s`. -/
inductive Move (s : State T) (t : T) : State T → Prop
  | lock (hpc : s.pc t = .entered) (free : s.mutex = none) :
      Move s t { s.goto t .testing with mutex := some t }
  | skip (hpc : s.pc t = .testing) (hcalled : s.called ≠ 0) :
      Move s t (s.goto t (.returning retSuccess))
  | test (hpc : s.pc t = .testing) (hcalled : s.called = 0) : Move s t (s.goto t .calling)
  | start (hpc : s.pc t = .calling) : Move s t { s.goto t .running with started := s.started + 1 }
  | finish (hpc : s.pc t = .running) :
      Move s t { s.goto t .marking with finished := s.finished + 1 }
  | mark (hpc : s.pc t = .marking) : Move s t { s.goto t .unlocking with called := 1 }
  | unlock (hpc : s.pc t = .unlocking) :
      Move s t { s.goto t (.returning retSuccess) with mutex := none }
  | ret {ret : ℤ} (hpc : s.pc t = .returning ret) : Move s t (s.goto t .outside)

theorem move_of_run {s s' : State T} {t : T} (h : s.run t = some s') : Move s t s' := by
  unfold State.run at h
  split at h
  case h_1 => cases h
  case h_2 hpc =>
    split at h
    case isTrue free => cases h; exact .lock hpc free
    case isFalse => cases h
  case h_3 hpc =>
    split at h
    case isTrue hcalled => cases h; exact .skip hpc hcalled
    case isFalse hcalled => cases h; exact .test hpc (not_not.mp hcalled)
  case h_4 hpc => cases h; exact .start hpc
  case h_5 hpc => cases h; exact .finish hpc
  case h_6 hpc => cases h; exact .mark hpc
  case h_7 hpc => cases h; exact .unlock hpc
  case h_8 hpc => cases h; exact .ret hpc

theorem call_step {s s' : State T} {t : T} (h : s.step (.call t) = some s') :
    s.pc t = .outside ∧ s' = s.goto t .entered := by
  rw [State.step] at h
  split at h
  case isTrue hpc => exact ⟨hpc, (Option.some.inj h).symm⟩
  case isFalse => cases h

theorem fail_step {s s' : State T} {t : T} (h : s.step (.fail t) = some s') :
    (s.pc t = .entered ∨ s.pc t = .unlocking) ∧ s' = s.goto t (.returning retFailure) := by
  rw [State.step] at h
  split at h
  case isTrue hpc => exact ⟨hpc, (Option.some.inj h).symm⟩
  case isFalse => cases h

/-! ### The mutex -/

/-- The step leaves the protected code with the mutex locked: a call that finds `called` set, or
an unlock that reports an error. -/
def KeepsMutex (s : State T) : Label T → Prop
  | .call _ => False
  | .run t => s.pc t = .testing ∧ s.called ≠ 0
  | .fail t => s.pc t = .unlocking

section Steps

variable {s s' : State T} {a : Label T}

theorem step_of_not_keepsMutex (hstep : (machine T).step s a = some s') (h : ¬ KeepsMutex s a) :
    (view T).Step s s' := by
  cases a with
  | call t =>
    obtain ⟨hpc, rfl⟩ := call_step hstep
    exact View.stay_of_update rfl rfl (by simp [hpc, Pc.Locked])
  | fail t =>
    obtain ⟨hpc | hpc, rfl⟩ := fail_step hstep
    · exact View.stay_of_update rfl rfl (by simp [hpc, Pc.Locked])
    · exact absurd hpc h
  | run t =>
    cases move_of_run hstep with
    | lock hpc free => exact View.acquire_of_update free rfl rfl trivial
    | skip hpc hcalled => exact absurd ⟨hpc, hcalled⟩ h
    | unlock hpc => exact View.release_of_update (by simp [hpc, Pc.Locked]) rfl rfl id
    | test hpc _ => exact View.stay_of_update rfl rfl (by simp [hpc, Pc.Locked])
    | start hpc => exact View.stay_of_update rfl rfl (by simp [hpc, Pc.Locked])
    | finish hpc => exact View.stay_of_update rfl rfl (by simp [hpc, Pc.Locked])
    | mark hpc => exact View.stay_of_update rfl rfl (by simp [hpc, Pc.Locked])
    | ret hpc => exact View.stay_of_update rfl rfl (by simp [hpc, Pc.Locked])

theorem leak_of_keepsMutex (hstep : (machine T).step s a = some s') (h : KeepsMutex s a) :
    ∃ t, (view T).Leak s s' t := by
  cases a with
  | call t => exact absurd h id
  | fail t =>
    have hpc : s.pc t = .unlocking := h
    obtain ⟨-, rfl⟩ := fail_step hstep
    exact ⟨t, View.leak_of_update rfl (by simp [hpc, Pc.Locked]) rfl id⟩
  | run t =>
    obtain ⟨hpc, hcalled⟩ := h
    obtain rfl : s' = s.goto t (.returning retSuccess) := by
      have hrun : s.run t = some s' := hstep
      simpa [State.run, hpc, hcalled] using hrun.symm
    exact ⟨t, View.leak_of_update rfl (by simp [hpc, Pc.Locked]) rfl id⟩

/-- Mutual exclusion is kept by every step. -/
theorem step_safe (hs : (view T).Safe s) (hstep : (machine T).step s a = some s') :
    (view T).Safe s' :=
  View.safe_step (fun _ _ _ hstep hkeep => step_of_not_keepsMutex hstep hkeep)
    (fun _ _ _ hstep hkeep => leak_of_keepsMutex hstep hkeep) hs hstep

end Steps

/-! ### `init` runs once -/

/-- What a thread at a place knows about the control and the counters. -/
def Pc.Knows (s : State T) : Pc → Prop
  | .testing => s.called = 0 → s.started = 0 ∧ s.finished = 0
  | .calling => s.called = 0 ∧ s.started = 0 ∧ s.finished = 0
  | .running => s.called = 0 ∧ s.started = 1 ∧ s.finished = 0
  | .marking => s.called = 0 ∧ s.started = 1 ∧ s.finished = 1
  | .unlocking => s.called ≠ 0
  | .returning ret => ret = retSuccess → s.called ≠ 0
  | _ => True

/-- The invariant of `one_time_init`. -/
structure Inv (s : State T) : Prop where
  /-- Mutual exclusion. -/
  safe : (view T).Safe s
  /-- Every thread knows what its place says. -/
  knows : ∀ t, (s.pc t).Knows s
  /-- With the mutex free, `init` either has not begun or is over. -/
  free : s.mutex = none → s.called = 0 → s.started = 0 ∧ s.finished = 0
  /-- `called` is set only after `init`. -/
  called : s.called ≠ 0 → s.started = 1 ∧ s.finished = 1
  once : s.started ≤ 1

omit [DecidableEq T] in
/-- Outside the protected code a thread knows at most that `called` is set, which stays so. -/
theorem Pc.Knows.of_not_locked {s s' : State T} {c : Pc} (h : c.Knows s) (hc : ¬ c.Locked)
    (hcalled : s.called ≠ 0 → s'.called ≠ 0) : c.Knows s' := by
  cases c with
  | returning ret => exact fun hr => hcalled (h hr)
  | outside => trivial
  | entered => trivial
  | _ => exact absurd trivial hc

section Invariant

variable {s s' : State T} {t : T} {c : Pc}

/-- The knowledge of all threads after a step that moves one thread and only lets `called` be
set. The other threads are outside the protected code if `t` is inside; if it is not, nothing they
know about changes. -/
theorem knows_of_update (h : Inv s) (hpc : s'.pc = Function.update s.pc t c) (hc : c.Knows s')
    (hcalled : s.called ≠ 0 → s'.called ≠ 0)
    (hinside : (s.pc t).Locked ∨
      (s'.called = s.called ∧ s'.started = s.started ∧ s'.finished = s.finished)) :
    ∀ u, (s'.pc u).Knows s' := by
  intro u
  by_cases hu : u = t
  · rw [hu, hpc, Function.update_self]
    exact hc
  · rw [hpc, Function.update_of_ne hu]
    rcases hinside with hin | ⟨h₁, h₂, h₃⟩
    · exact (h.knows u).of_not_locked (fun hin' => hu (h.safe.unique hin' hin)) hcalled
    · have hk := h.knows u
      revert hk
      cases s.pc u <;> simp [Pc.Knows, h₁, h₂, h₃]

theorem inv_of_move (h : Inv s) (hsafe : (view T).Safe s') (hmove : Move s t s') : Inv s' := by
  have hknows := h.knows t
  have hholder : (s.pc t).Locked → s.mutex = some t := h.safe t
  cases hmove with
  | lock hpc free =>
    exact ⟨hsafe, knows_of_update h rfl (h.free free) id (.inr ⟨rfl, rfl, rfl⟩), by simp,
      h.called, h.once⟩
  | skip hpc hcalled =>
    exact ⟨hsafe, knows_of_update h rfl (fun _ => hcalled) id (.inr ⟨rfl, rfl, rfl⟩), h.free,
      h.called, h.once⟩
  | test hpc hcalled =>
    rw [hpc] at hknows
    exact ⟨hsafe, knows_of_update h rfl ⟨hcalled, hknows hcalled⟩ id (.inr ⟨rfl, rfl, rfl⟩),
      h.free, h.called, h.once⟩
  | start hpc =>
    rw [hpc] at hknows hholder
    obtain ⟨hcalled, hstarted, hfinished⟩ := hknows
    have hone : s.started + 1 = 1 := by omega
    refine ⟨hsafe, knows_of_update h rfl ⟨hcalled, hone, hfinished⟩ id (.inl ?_), fun hfree => ?_,
      fun hne => absurd hcalled hne, Nat.le_of_eq hone⟩
    · simp [hpc, Pc.Locked]
    · cases hfree.symm.trans (hholder trivial)
  | finish hpc =>
    rw [hpc] at hknows hholder
    obtain ⟨hcalled, hstarted, hfinished⟩ := hknows
    have hone : s.finished + 1 = 1 := by omega
    refine ⟨hsafe, knows_of_update h rfl ⟨hcalled, hstarted, hone⟩ id (.inl ?_), fun hfree => ?_,
      fun hne => absurd hcalled hne, h.once⟩
    · simp [hpc, Pc.Locked]
    · cases hfree.symm.trans (hholder trivial)
  | mark hpc =>
    rw [hpc] at hknows
    refine ⟨hsafe, knows_of_update h rfl ?_ (fun _ => Int.one_ne_zero) (.inl ?_), fun _ hzero => ?_,
      fun _ => hknows.2, h.once⟩
    · exact Int.one_ne_zero
    · simp [hpc, Pc.Locked]
    · exact absurd hzero Int.one_ne_zero
  | unlock hpc =>
    rw [hpc] at hknows
    exact ⟨hsafe, knows_of_update h rfl (fun _ => hknows) id (.inr ⟨rfl, rfl, rfl⟩),
      fun _ hzero => absurd hzero hknows, h.called, h.once⟩
  | ret hpc =>
    exact ⟨hsafe, knows_of_update h rfl trivial id (.inr ⟨rfl, rfl, rfl⟩), h.free, h.called,
      h.once⟩

theorem inv_step {a : Label T} (h : Inv s) (hstep : (machine T).step s a = some s') : Inv s' := by
  have hsafe := step_safe h.safe hstep
  cases a with
  | call t =>
    obtain ⟨-, rfl⟩ := call_step hstep
    exact ⟨hsafe, knows_of_update h rfl trivial id (.inr ⟨rfl, rfl, rfl⟩), h.free, h.called,
      h.once⟩
  | fail t =>
    obtain ⟨-, rfl⟩ := fail_step hstep
    have hret : (Pc.returning retFailure).Knows (s.goto t (.returning retFailure)) := by
      intro hr
      exact absurd hr (by decide)
    exact ⟨hsafe, knows_of_update h rfl hret id (.inr ⟨rfl, rfl, rfl⟩), h.free, h.called, h.once⟩
  | run t => exact inv_of_move h hsafe (move_of_run hstep)

theorem inv_init (h : (machine T).init s) : Inv s := by
  obtain ⟨hcalled, -, hstarted, hfinished, hout⟩ := h
  refine ⟨fun t ht => ?_, fun t => ?_, fun _ _ => ⟨hstarted, hfinished⟩,
    fun hne => absurd hcalled hne, by omega⟩
  · exact absurd ht (View.not_holds_of_pc_eq id hout t)
  · rw [hout t]
    trivial

end Invariant

/-- **Exactly once.** In every interleaving, `init` is started at most once, and when a call is
about to return `RET_SUCCESS` it has run to completion. -/
theorem init_once {s : State T} (h : (machine T).Reachable s) :
    s.started ≤ 1 ∧ ∀ t, s.pc t = .returning retSuccess → s.finished = 1 := by
  have hinv : Inv s := h.invariant (fun _ h₀ => inv_init h₀) fun _ _ _ h hstep => inv_step h hstep
  refine ⟨hinv.once, fun t hpc => ?_⟩
  have hknows := hinv.knows t
  rw [hpc] at hknows
  exact (hinv.called (hknows rfl)).2

/-- An idle program with a fresh control and two threads. -/
def start : State Bool := ⟨0, none, 0, 0, fun _ => .outside⟩

theorem start_init : (machine Bool).init start := ⟨rfl, rfl, rfl, rfl, fun _ => rfl⟩

/-- A first call, up to its `return`: call, lock, test, start, finish, mark, unlock. -/
def firstCall (t : Bool) : List (Label Bool) :=
  [.call t, .run t, .run t, .run t, .run t, .run t, .run t]

/-- A later call: call, lock, test, return. -/
def laterCall (t : Bool) : List (Label Bool) := [.call t, .run t, .run t, .run t]

/-- Both threads are at their `return`: the one that has called `init`, and one that has not. -/
theorem init_once_twoCalls :
    ∃ s, (machine Bool).Reachable s ∧ (∀ t, s.pc t = .returning retSuccess) ∧ s.started ≤ 1 ∧
      s.finished = 1 := by
  obtain ⟨s, hexec, hpc⟩ :
      ∃ s, (machine Bool).exec start (firstCall true ++ (laterCall false).dropLast) = some s ∧
        ∀ t, s.pc t = .returning retSuccess :=
    ⟨_, rfl, fun t => by cases t <;> rfl⟩
  have hreach := Machine.reachable_of_exec start_init hexec
  exact ⟨s, hreach, hpc, (init_once hreach).1, (init_once hreach).2 false (hpc false)⟩

/-! ### The mutex is given back -/

/-- **When the mutex of an idle control is free.** Whatever the threads have called, once none of
them is inside `one_time_init` the mutex is unlocked if and only if no call of the run found
`called` set, and no unlock reported an error. -/
theorem mutex_eq_none_iff_called {s₀ s : State T} {tr : List (State T × Label T)}
    (h₀ : (machine T).init s₀) (hrun : (machine T).Run s₀ tr s) (hidle : s.Idle) :
    s.mutex = none ↔ ∀ p ∈ tr, ¬ KeepsMutex p.1 p.2 := by
  exact View.holder_eq_none_iff (V := view T)
    (fun s a s' hstep hkeep => step_of_not_keepsMutex hstep hkeep)
    (fun s a s' hstep hkeep => leak_of_keepsMutex hstep hkeep) hrun h₀.2.1
    (View.not_holds_of_pc_eq id h₀.2.2.2.2) (View.not_holds_of_pc_eq id hidle)

theorem mutex_eq_none_iff_firstCall :
    ∃ tr s, (machine Bool).init start ∧ (machine Bool).Run start tr s ∧ s.Idle ∧
      s.mutex = none ∧ ∀ p ∈ tr, ¬ KeepsMutex p.1 p.2 := by
  obtain ⟨s, hexec, hidle, hmutex⟩ :
      ∃ s, (machine Bool).exec start (firstCall true ++ [.run true]) = some s ∧ s.Idle ∧
        s.mutex = none :=
    ⟨_, rfl, fun t => by cases t <;> rfl, rfl⟩
  have hrun := Machine.run_of_exec hexec
  exact ⟨_, s, start_init, hrun, hidle, hmutex,
    (mutex_eq_none_iff_called start_init hrun hidle).1 hmutex⟩

/-- A second call, by another thread, leaves the control idle with its mutex locked. -/
theorem not_idle_unlocked_called :
    ¬ ∀ s : State Bool, (machine Bool).Reachable s → s.Idle → s.mutex = none := by
  intro h
  obtain ⟨s, hexec, hidle, hmutex⟩ :
      ∃ s, (machine Bool).exec start (firstCall true ++ .run true :: laterCall false) = some s ∧
        s.Idle ∧ s.mutex = some false :=
    ⟨_, rfl, fun t => by cases t <;> rfl, rfl⟩
  have hnone := h s (Machine.reachable_of_exec start_init hexec) hidle
  rw [hmutex] at hnone
  cases hnone

end OnceInit

end Tlpiexer
