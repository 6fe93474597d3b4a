import Mathlib.Data.Int.Notation
import Mathlib.Data.Nat.Notation
import Mathlib.Logic.Function.Basic
import Mathlib.Order.BooleanAlgebra.Defs
import Tlpiexer.Constants
import Tlpiexer.Foundations.Transition

/-!
# Two threads and one counter

`src/imp/30-01.c`. Two threads increment `glob_incvar` without a mutex, `ninc` times each: a round
shows the counter, loads it into `tmp`, and stores `tmp + 1`. `main` creates the threads, joins
them, and prints the counter.

The threads are the two values of `Bool`. A `tmp++` beyond `INT_MAX` is undefined and has no step;
no counter gets there when `2 * ninc` does not.

## What can be printed

The bounds are invariants. The counter is at most the number of stores so far. It is at least 1
once there was a store, so whoever loads it in a later round than its first loads at least 1, and
the last store of all, made in a last round, stores at least 2.

That every number between the bounds is printed by some schedule takes two families of schedules.
`reaches_high` lets one thread work alone, then both in lockstep, then the other alone.
`reaches_low` has each thread overwrite what the other one did meanwhile.

## Main results

* `bounds_of_reachable` — what is printed is between `min 2 ninc` and `2 * ninc`
* `printed_iff` — and every such number can be
-/

namespace Tlpiexer

namespace ThreadIncr

open Transition

/-- Where a thread is in `thread_entry`. -/
inductive Pc
  /-- The thread was not created yet. -/
  | absent
  /-- At the test of the loop. -/
  | loop (i : ℕ)
  /-- At `tmp = glob_incvar`. -/
  | load (i : ℕ)
  /-- At `glob_incvar = tmp`, before or after the `tmp++`. -/
  | store (i tmp : ℕ)
  | returned
  deriving DecidableEq

/-- Where `main` is. -/
inductive Main
  /-- At the `pthread_create` of a thread. -/
  | create (t : Bool)
  /-- At the `pthread_join` of a thread. -/
  | join (t : Bool)
  /-- At the last `printf`. -/
  | print
  /-- Returned, after it printed the counter. -/
  | finished (v : ℕ)
  /-- In `exit_err`. -/
  | failed
  deriving DecidableEq

/-- The threads, `main`, and what they share. -/
structure State where
  glob : ℕ
  /-- What the threads showed. -/
  out : List (Bool × ℕ)
  pc : Bool → Pc
  main : Main

/-- What happens next. -/
inductive Label
  /-- A step of `main`; its `pthread_create`s and `pthread_join`s succeed. -/
  | main
  /-- A `pthread_create` or `pthread_join` fails. -/
  | fail
  | thread (t : Bool)

/-- The process is still there. -/
def Main.alive : Main → Bool
  | .finished _ => false
  | .failed => false
  | _ => true

/-- One step of `main`. -/
def State.runMain (s : State) : Option State :=
  match s.main with
  | .create t =>
    some { s with
      pc := Function.update s.pc t (.loop 0)
      main := if t then .join false else .create true }
  | .join t =>
    if s.pc t = .returned then some { s with main := if t then .print else .join true } else none
  | .print => some { s with main := .finished s.glob }
  | _ => none

/-- One step of a thread. -/
def State.runThread (ninc : ℤ) (s : State) (t : Bool) : Option State :=
  match s.pc t with
  | .loop i =>
    if (i : ℤ) < ninc then
      some { s with out := s.out ++ [(t, s.glob)], pc := Function.update s.pc t (.load i) }
    else some { s with pc := Function.update s.pc t .returned }
  | .load i => some { s with pc := Function.update s.pc t (.store i s.glob) }
  | .store i tmp =>
    if tmp < intMax then
      some { s with glob := tmp + 1, pc := Function.update s.pc t (.loop (i + 1)) }
    else none
  | _ => none

/-- One step of the program. -/
def State.step (ninc : ℤ) (s : State) : Label → Option State
  | .main => s.runMain
  | .fail =>
    match s.main with
    | .create _ => some { s with main := .failed }
    | .join _ => some { s with main := .failed }
    | _ => none
  | .thread t => if s.main.alive then s.runThread ninc t else none

/-- `main` before its first `pthread_create`. -/
def start : State := ⟨0, [], fun _ => .absent, .create false⟩

/-- The program with its option `-t ninc`. For 0 it shows its help and creates no threads. -/
def machine (ninc : ℤ) : Machine State Label where
  init s := ninc ≠ 0 ∧ s = start
  step := State.step ninc

/-! ### What one step can do -/

/-- The steps of the program when the loops have `n` rounds. -/
inductive Move (n : ℕ) (s : State) : State → Prop
  | create {t : Bool} (hmain : s.main = .create t) :
      Move n s { s with
        pc := Function.update s.pc t (.loop 0)
        main := if t then .join false else .create true }
  | join {t : Bool} (hmain : s.main = .join t) (hpc : s.pc t = .returned) :
      Move n s { s with main := if t then .print else .join true }
  | print (hmain : s.main = .print) : Move n s { s with main := .finished s.glob }
  | fail : Move n s { s with main := .failed }
  | enter {t : Bool} {i : ℕ} (hpc : s.pc t = .loop i) (hi : i < n) (halive : s.main.alive) :
      Move n s { s with out := s.out ++ [(t, s.glob)], pc := Function.update s.pc t (.load i) }
  | leave {t : Bool} {i : ℕ} (hpc : s.pc t = .loop i) (hi : n ≤ i) (halive : s.main.alive) :
      Move n s { s with pc := Function.update s.pc t .returned }
  | load {t : Bool} {i : ℕ} (hpc : s.pc t = .load i) (halive : s.main.alive) :
      Move n s { s with pc := Function.update s.pc t (.store i s.glob) }
  | store {t : Bool} {i tmp : ℕ} (hpc : s.pc t = .store i tmp) (halive : s.main.alive) :
      Move n s { s with glob := tmp + 1, pc := Function.update s.pc t (.loop (i + 1)) }

section Steps

variable {ninc : ℤ} {s s' : State} {a : Label}

theorem move_of_step (h : s.step ninc a = some s') : Move ninc.toNat s s' := by
  cases a with
  | main =>
    rw [State.step, State.runMain] at h
    split at h
    case h_1 hmain => cases h; exact .create hmain
    case h_2 hmain =>
      split at h
      case isTrue hpc => cases h; exact .join hmain hpc
      case isFalse => cases h
    case h_3 hmain => cases h; exact .print hmain
    case h_4 => cases h
  | fail =>
    rw [State.step] at h
    split at h
    case h_1 => cases h; exact .fail
    case h_2 => cases h; exact .fail
    case h_3 => cases h
  | thread t =>
    rw [State.step] at h
    split at h
    case isFalse => cases h
    case isTrue halive =>
      rw [State.runThread] at h
      split at h
      case h_1 hpc =>
        split at h
        case isTrue hi => cases h; exact .enter hpc (by omega) halive
        case isFalse hi => cases h; exact .leave hpc (by omega) halive
      case h_2 hpc => cases h; exact .load hpc halive
      case h_3 hpc =>
        split at h
        case isTrue => cases h; exact .store hpc halive
        case isFalse => cases h
      case h_4 => cases h

end Steps

/-! ### The bounds -/

/-- The stores of a thread so far, when its loop has `n` rounds. -/
def Pc.stores (n : ℕ) : Pc → ℕ
  | .absent => 0
  | .loop i => i
  | .load i => i
  | .store i _ => i
  | .returned => n

/-- A thread in a round is not beyond the last one. -/
def Pc.InRange (n : ℕ) : Pc → Prop
  | .loop i => i ≤ n
  | .load i => i < n
  | .store i _ => i < n
  | _ => True

/-- The stores of both threads so far. -/
def total (n : ℕ) (f : Bool → Pc) : ℕ := (f false).stores n + (f true).stores n

theorem total_update (n : ℕ) (f : Bool → Pc) (t : Bool) (c : Pc) :
    total n (Function.update f t c) + (f t).stores n = total n f + c.stores n := by
  cases t <;> simp [total] <;> omega

/-- What holds of the counter and of the threads. -/
structure Inv (n : ℕ) (s : State) : Prop where
  range : ∀ t, (s.pc t).InRange n
  glob_le : s.glob ≤ total n s.pc
  tmp_le : ∀ t i tmp, s.pc t = .store i tmp → tmp ≤ total n s.pc
  /-- After a store the counter is not 0. -/
  glob_pos : ∀ t, 0 < (s.pc t).stores n → 0 < s.glob
  /-- Whoever is not in the first round has loaded something. -/
  tmp_pos : ∀ t i tmp, s.pc t = .store i tmp → 0 < i → 0 < tmp
  /-- The last store of all was made in a last round. -/
  last : (∀ t, (s.pc t).stores n = n) → min 2 n ≤ s.glob

/-- What `main` knows about the threads. -/
structure MainInv (s : State) : Prop where
  fresh : ∀ t u, s.main = .create t → t ≤ u → s.pc u = .absent
  joined : s.main = .join true → s.pc false = .returned
  printing : s.main = .print → ∀ t, s.pc t = .returned
  finished : ∀ v, s.main = .finished v → (∀ t, s.pc t = .returned) ∧ v = s.glob

section Bounds

variable {n : ℕ} {s s' : State}

/-- A step of a thread that has been created and has not returned. -/
theorem MainInv.thread (hs : MainInv s) (halive : s.main.alive) {t : Bool}
    (hthere : s.pc t ≠ .absent) (hrunning : s.pc t ≠ .returned) (c : Pc) (g : ℕ)
    (out : List (Bool × ℕ)) : MainInv ⟨g, out, Function.update s.pc t c, s.main⟩ := by
  refine ⟨fun t' u hmain hle => ?_, fun hmain => ?_, fun hmain u => ?_, fun v hmain => ?_⟩
  · have hu := hs.fresh t' u hmain hle
    have hne : u ≠ t := fun h => hthere (h ▸ hu)
    simpa [hne] using hu
  · have hu := hs.joined hmain
    have hne : false ≠ t := fun h => hrunning (h ▸ hu)
    simpa [hne] using hu
  · have hu := hs.printing hmain
    exact absurd (hu t) hrunning
  · change s.main = .finished v at hmain
    rw [hmain] at halive
    cases halive

theorem mainInv_step (hs : MainInv s) (h : Move n s s') : MainInv s' := by
  cases h with
  | @create t hmain =>
    cases t with
    | false =>
      refine ⟨fun t u ht hle => ?_, by simp, by simp, by simp⟩
      obtain rfl : true = t := by simpa using ht
      obtain rfl : u = true := Bool.eq_true_of_true_le hle
      exact hs.fresh false true hmain (Bool.false_le true)
    | true => exact ⟨by simp, by simp, by simp, by simp⟩
  | @join t hmain hpc =>
    cases t with
    | false => exact ⟨by simp, fun _ => hpc, by simp, by simp⟩
    | true =>
      refine ⟨by simp, by simp, fun _ u => ?_, by simp⟩
      cases u with
      | false => exact hs.joined hmain
      | true => exact hpc
  | print hmain =>
    refine ⟨by simp, by simp, by simp, fun v hv => ⟨hs.printing hmain, ?_⟩⟩
    exact (Main.finished.inj hv).symm
  | fail => exact ⟨by simp, by simp, by simp, by simp⟩
  | enter hpc _ halive => exact hs.thread halive (by simp [hpc]) (by simp [hpc]) _ _ _
  | leave hpc _ halive => exact hs.thread halive (by simp [hpc]) (by simp [hpc]) _ _ _
  | load hpc halive => exact hs.thread halive (by simp [hpc]) (by simp [hpc]) _ _ _
  | store hpc halive => exact hs.thread halive (by simp [hpc]) (by simp [hpc]) _ _ _

/-- A step of a thread that stores nothing, and so keeps the number of stores. -/
theorem Inv.goto (hs : Inv n s) {t : Bool} {c : Pc} (main : Main) (out : List (Bool × ℕ))
    (hstores : c.stores n = (s.pc t).stores n) (hrange : c.InRange n)
    (htmp : ∀ i tmp, c = .store i tmp → tmp = s.glob) :
    Inv n ⟨s.glob, out, Function.update s.pc t c, main⟩ := by
  have htotal : total n (Function.update s.pc t c) = total n s.pc := by
    have := total_update n s.pc t c
    omega
  have hsame : ∀ u, (Function.update s.pc t c u).stores n = (s.pc u).stores n := by
    intro u
    by_cases hu : u = t
    · rw [hu, Function.update_self, hstores]
    · rw [Function.update_of_ne hu]
  refine ⟨fun u => ?_, ?_, fun u i tmp hu => ?_, fun u hu => ?_, fun u i tmp hu hi => ?_,
    fun h => ?_⟩
  · by_cases hut : u = t
    · simpa [hut] using hrange
    · simpa [hut] using hs.range u
  · rw [htotal]
    exact hs.glob_le
  · rw [htotal]
    by_cases hut : u = t
    · subst hut
      rw [htmp i tmp (by simpa using hu)]
      exact hs.glob_le
    · exact hs.tmp_le u i tmp (by simpa [hut] using hu)
  · exact hs.glob_pos u (hsame u ▸ hu)
  · by_cases hut : u = t
    · subst hut
      have hc : c = .store i tmp := by simpa using hu
      rw [htmp i tmp hc]
      exact hs.glob_pos u (by rw [← hstores, hc]; exact hi)
    · exact hs.tmp_pos u i tmp (by simpa [hut] using hu) hi
  · exact hs.last fun u => (hsame u).symm.trans (h u)

/-- A store. -/
theorem Inv.store (hs : Inv n s) {t : Bool} {i tmp : ℕ} (hpc : s.pc t = .store i tmp) :
    Inv n { s with glob := tmp + 1, pc := Function.update s.pc t (.loop (i + 1)) } := by
  have hi : i < n := by simpa [hpc, Pc.InRange] using hs.range t
  have htotal : total n (Function.update s.pc t (.loop (i + 1))) = total n s.pc + 1 := by
    have := total_update n s.pc t (.loop (i + 1))
    simp only [hpc, Pc.stores] at this
    omega
  have htmp := hs.tmp_le t i tmp hpc
  refine ⟨fun u => ?_, ?_, fun u j tmp' hu => ?_, fun _ _ => Nat.succ_pos tmp,
    fun u j tmp' hu hj => ?_, fun h => ?_⟩
  · by_cases hut : u = t
    · simpa [hut, Pc.InRange] using Nat.succ_le_of_lt hi
    · simpa [hut] using hs.range u
  · simp only [htotal]
    omega
  · by_cases hut : u = t
    · simp [hut] at hu
    · have := hs.tmp_le u j tmp' (by simpa [hut] using hu)
      simp only [htotal]
      omega
  · by_cases hut : u = t
    · simp [hut] at hu
    · exact hs.tmp_pos u j tmp' (by simpa [hut] using hu) hj
  · -- this thread has just made its last store
    have hlast : i + 1 = n := by simpa [Pc.stores] using h t
    show min 2 n ≤ tmp + 1
    rcases Nat.eq_zero_or_pos i with rfl | hpos
    · omega
    · have := hs.tmp_pos t i tmp hpc hpos
      omega

theorem inv_step (hmain : MainInv s) (hs : Inv n s) (h : Move n s s') : Inv n s' := by
  cases h with
  | @create t hcreate =>
    have habsent := hmain.fresh t t hcreate le_rfl
    exact hs.goto _ _ (by rw [habsent]; rfl) (Nat.zero_le n) (by simp)
  | join => exact ⟨hs.range, hs.glob_le, hs.tmp_le, hs.glob_pos, hs.tmp_pos, hs.last⟩
  | print => exact ⟨hs.range, hs.glob_le, hs.tmp_le, hs.glob_pos, hs.tmp_pos, hs.last⟩
  | fail => exact ⟨hs.range, hs.glob_le, hs.tmp_le, hs.glob_pos, hs.tmp_pos, hs.last⟩
  | enter hpc hi _ => exact hs.goto _ _ (by rw [hpc]; rfl) hi (by simp)
  | @leave t i hpc hi _ =>
    have hle : i ≤ n := by simpa [hpc, Pc.InRange] using hs.range t
    exact hs.goto _ _ (by rw [hpc]; exact Nat.le_antisymm hi hle) trivial (by simp)
  | @load t i hpc _ =>
    have hi : i < n := by simpa [hpc, Pc.InRange] using hs.range t
    exact hs.goto _ _ (by rw [hpc]; rfl) hi (by simp)
  | store hpc _ => exact hs.store hpc

theorem inv_of_reachable {ninc : ℤ} (h : (machine ninc).Reachable s) :
    MainInv s ∧ Inv ninc.toNat s := by
  refine h.invariant (I := fun s => MainInv s ∧ Inv ninc.toNat s) ?_ ?_
  · rintro s ⟨-, rfl⟩
    refine ⟨⟨fun _ _ _ _ => rfl, by simp [start], by simp [start], by simp [start]⟩,
      fun _ => trivial, Nat.zero_le _, by simp [start], fun _ h => absurd h (Nat.lt_irrefl 0),
      by simp [start], fun h => ?_⟩
    obtain hzero : 0 = ninc.toNat := h true
    simp [← hzero]
  · rintro s a s' ⟨hmain, hs⟩ hstep
    have hmove := move_of_step hstep
    exact ⟨mainInv_step hmain hmove, inv_step hmain hs hmove⟩

/-- **What is printed is within the bounds.** -/
theorem bounds_of_reachable {ninc : ℤ} (h : (machine ninc).Reachable s) {v : ℕ}
    (hv : s.main = .finished v) : min 2 ninc.toNat ≤ v ∧ v ≤ 2 * ninc.toNat := by
  obtain ⟨hmain, hs⟩ := inv_of_reachable h
  obtain ⟨hret, rfl⟩ := hmain.finished v hv
  have hstores : ∀ t, (s.pc t).stores ninc.toNat = ninc.toNat := by
    intro t
    rw [hret t]
    rfl
  have hle := hs.glob_le
  rw [total, hstores, hstores] at hle
  exact ⟨hs.last hstores, by omega⟩

end Bounds

/-! ### Schedules -/

/-- From the start the program gets to where `main` joins the threads, thread `t` is at `p` and the
other one at `q`, and the counter is `g`. -/
def Reaches (ninc : ℤ) (t : Bool) (g : ℕ) (p q : Pc) : Prop :=
  ∃ s, (machine ninc).Reachable s ∧ s.glob = g ∧ s.pc t = p ∧ s.pc (!t) = q ∧ s.main = .join false

section Schedules

variable {ninc : ℤ} {t : Bool} {g i j k tmp : ℕ} {p q : Pc}

theorem Reaches.swap (h : Reaches ninc t g p q) : Reaches ninc (!t) g q p := by
  obtain ⟨s, hs, hg, hp, hq, hmain⟩ := h
  exact ⟨s, hs, hg, hq, by rw [Bool.not_not]; exact hp, hmain⟩

theorem reaches_start (hne : ninc ≠ 0) (t : Bool) : Reaches ninc t 0 (.loop 0) (.loop 0) := by
  have hexec : (machine ninc).exec start [.main, .main] =
      some ⟨0, [], Function.update (Function.update start.pc false (.loop 0)) true (.loop 0),
        .join false⟩ := rfl
  refine ⟨_, Machine.reachable_of_exec ⟨hne, rfl⟩ hexec, rfl, ?_, ?_, rfl⟩
  · cases t <;> rfl
  · cases t <;> rfl

/-- One step of thread `t`. -/
theorem Reaches.step (h : Reaches ninc t g p q) {g' : ℕ} {p' : Pc}
    (hstep : ∀ s : State, s.glob = g → s.pc t = p →
      ∃ out, s.runThread ninc t = some ⟨g', out, Function.update s.pc t p', s.main⟩) :
    Reaches ninc t g' p' q := by
  obtain ⟨s, hs, hg, hp, hq, hmain⟩ := h
  obtain ⟨out, hrun⟩ := hstep s hg hp
  obtain ⟨s₀, tr, h₀, htr⟩ := hs
  have hthread : (machine ninc).step s (.thread t) =
      some ⟨g', out, Function.update s.pc t p', s.main⟩ := by
    show (if s.main.alive then s.runThread ninc t else none) = _
    rw [if_pos (by rw [hmain]; rfl), hrun]
  refine ⟨_, ⟨s₀, _, h₀, htr.snoc hthread⟩, rfl, Function.update_self .., ?_, hmain⟩
  simpa using hq

/-- A thread shows the counter and loads it. -/
theorem Reaches.load (h : Reaches ninc t g (.loop i) q) (hi : i < ninc.toNat) :
    Reaches ninc t g (.store i g) q := by
  have hload : Reaches ninc t g (.load i) q := by
    refine h.step fun s hg hp => ⟨s.out ++ [(t, s.glob)], ?_⟩
    rw [State.runThread, hp]
    simp [show (i : ℤ) < ninc by omega, hg]
  refine hload.step fun s hg hp => ⟨s.out, ?_⟩
  rw [State.runThread, hp]
  simp [hg]

theorem Reaches.store (h : Reaches ninc t g (.store i tmp) q) (htmp : tmp < intMax) :
    Reaches ninc t (tmp + 1) (.loop (i + 1)) q := by
  refine h.step fun s hg hp => ⟨s.out, ?_⟩
  rw [State.runThread, hp]
  simp [htmp]

/-- Some rounds of thread `t` alone. -/
theorem Reaches.alone (h : Reaches ninc t g (.loop i) q) (hi : i + k ≤ ninc.toNat)
    (hg : g + k ≤ intMax) : Reaches ninc t (g + k) (.loop (i + k)) q := by
  induction k with
  | zero => exact h
  | succ k ih =>
    have hk := ih (by omega) (by omega)
    exact (hk.load (by omega)).store (by omega)

/-- Some rounds of both threads, in which both load the same. -/
theorem Reaches.lockstep (h : Reaches ninc t g (.loop i) (.loop j)) (hi : i + k ≤ ninc.toNat)
    (hj : j + k ≤ ninc.toNat) (hg : g + k ≤ intMax) :
    Reaches ninc t (g + k) (.loop (i + k)) (.loop (j + k)) := by
  induction k with
  | zero => exact h
  | succ k ih =>
    have hk := ih (by omega) (by omega) (by omega)
    have hloaded := ((hk.load (by omega)).swap.load (by omega)).swap
    have hstored := (hloaded.store (by omega)).swap.store (by omega)
    simpa [Nat.add_assoc] using hstored.swap

/-- Both threads are behind their last round. -/
theorem Reaches.finish (h : Reaches ninc t g (.loop ninc.toNat) (.loop ninc.toNat)) :
    ∃ s, (machine ninc).Reachable s ∧ s.main = .finished g := by
  have hleave : ∀ {t : Bool} {q : Pc}, Reaches ninc t g (.loop ninc.toNat) q →
      Reaches ninc t g .returned q := by
    intro t q h
    refine h.step fun s hg hp => ⟨s.out, ?_⟩
    rw [State.runThread, hp]
    simp [hg]
  obtain ⟨s, ⟨s₀, tr, h₀, htr⟩, hg, hp, hq, hmain⟩ := hleave (hleave h).swap
  have hret : ∀ u, s.pc u = .returned := by
    intro u
    rcases Bool.eq_or_eq_not u (!t) with rfl | rfl
    · exact hp
    · exact hq
  have hexec : (machine ninc).exec s [.main, .main, .main] =
      some { s with main := .finished g } := by
    simp [Machine.exec, machine, State.step, State.runMain, hmain, hret, hg]
  exact ⟨_, ⟨s₀, _, h₀, htr.append (Machine.run_of_exec hexec)⟩, rfl⟩

/-- The numbers from `ninc` on: one thread alone, both in lockstep, the other one alone. -/
theorem reaches_high (hne : ninc ≠ 0) (hj : j ≤ ninc.toNat) (hmax : ninc.toNat + j ≤ intMax) :
    Reaches ninc false (ninc.toNat + j) (.loop ninc.toNat) (.loop ninc.toNat) := by
  have h₁ := (reaches_start hne true).alone (k := j) (by omega) (by omega)
  have h₂ := h₁.lockstep (k := ninc.toNat - j) (by omega) (by omega) (by omega)
  have h₃ := h₂.swap.alone (k := j) (by omega) (by omega)
  have hn : j + (ninc.toNat - j) = ninc.toNat := by omega
  simpa [hn, Nat.sub_add_cancel hj] using h₃

/-- The numbers from 2 on: a thread keeps what it loaded while the other one works, first the one
and then the other. -/
theorem reaches_low (hk : k + 1 ≤ ninc.toNat) (hmax : ninc.toNat ≤ intMax) (hk2 : k + 2 ≤ intMax) :
    Reaches ninc true (2 + k) (.loop ninc.toNat) (.loop ninc.toNat) := by
  have hne : ninc ≠ 0 := by omega
  have h₁ := ((reaches_start hne false).load (by omega)).swap.alone (k := ninc.toNat - 1)
    (by omega) (by omega)
  have h₂ := (h₁.swap.store (by decide)).alone (k := k) (by omega) (by omega)
  have h₃ := (h₂.swap.load (by omega)).swap.alone (k := ninc.toNat - 1 - k) (by omega) (by omega)
  have h₄ := h₃.swap.store (by omega)
  have hone : ninc.toNat - 1 + 1 = ninc.toNat := by omega
  have hall : k + 1 + (ninc.toNat - 1 - k) = ninc.toNat := by omega
  simpa [hone, hall, Nat.add_comm, Nat.add_left_comm] using h₄

end Schedules

/-- **What can be printed.** Two threads that increment the counter `ninc` times each, without a
lock, can end with any number from `min 2 ninc` to `2 * ninc`, and with no other. For `ninc = 0` no
number is printed. -/
theorem printed_iff {ninc : ℤ} (h : 2 * ninc ≤ intMax) (v : ℕ) :
    (∃ s, (machine ninc).Reachable s ∧ s.main = .finished v) ↔
      ninc ≠ 0 ∧ min 2 ninc.toNat ≤ v ∧ v ≤ 2 * ninc.toNat := by
  have hmax : 2 * ninc.toNat ≤ intMax := by omega
  constructor
  · rintro ⟨s, hs, hv⟩
    have hbounds := bounds_of_reachable hs hv
    obtain ⟨s₀, tr, ⟨hne, -⟩, -⟩ := hs
    exact ⟨hne, hbounds⟩
  · rintro ⟨hne, hlow, hhigh⟩
    by_cases hv : ninc.toNat ≤ v
    · obtain ⟨j, rfl⟩ := Nat.exists_eq_add_of_le hv
      exact (reaches_high hne (by omega) (by omega)).finish
    · obtain ⟨k, rfl⟩ : ∃ k, v = 2 + k := Nat.exists_eq_add_of_le (by omega)
      exact (reaches_low (by omega) (by omega) (by omega)).finish

/-- With the default of `100000` rounds the program may print 2. -/
theorem printed_two : ∃ s, (machine 100000).Reachable s ∧ s.main = .finished 2 :=
  (printed_iff (by decide) 2).mpr (by decide)

end ThreadIncr

end Tlpiexer
