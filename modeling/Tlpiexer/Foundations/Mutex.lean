import Mathlib.Logic.Function.Basic
import Tlpiexer.Foundations.Transition

/-!
# Lock discipline

A mutex has a holder, and a program has a part of its code that is to be executed by the holder
only. The two are different things: the code between `lock` and `unlock` can be left without an
`unlock`, and then the mutex has a holder that is nowhere near it.

A `View` names the two for a given machine. Every step of a well-behaved program is a
`View.Step`: it acquires the free mutex on entering the protected code, releases it on leaving, or
does neither. A `View.Leak` leaves the protected code with the mutex still held.

## Main results

* `Mutex.View.Step.safe`, `Leak.safe` — whoever is in the protected code holds the mutex, leaks or
  not, so no two threads are in it together (`View.Safe.unique`)
* `Mutex.View.holder_eq_none_iff` — at the end of a run, with nobody in the protected code, the
  mutex is free if and only if no step of the run leaked it
-/

namespace Mutex

open Transition

variable {σ α T : Type*}

/-- Who holds the mutex, and who is in the code it protects. -/
structure View (σ T : Type*) where
  /-- The thread that locked the mutex last and has not unlocked it. -/
  holder : σ → Option T
  /-- The thread is between its `lock` and the place where it leaves the protected code. -/
  holds : σ → T → Prop

namespace View

variable {V : View σ T} {s s' : σ}

/-- Nobody but `t` enters or leaves the protected code. -/
def OthersStay (V : View σ T) (s s' : σ) (t : T) : Prop :=
  ∀ u, u ≠ t → (V.holds s' u ↔ V.holds s u)

/-- A step that respects the mutex. -/
inductive Step (V : View σ T) (s s' : σ) : Prop
  | acquire (t : T) (free : V.holder s = none) (got : V.holder s' = some t)
      (inside : V.holds s' t) (others : V.OthersStay s s' t)
  | release (t : T) (inside : V.holds s t) (free : V.holder s' = none) (left : ¬ V.holds s' t)
      (others : V.OthersStay s s' t)
  | stay (same : V.holder s' = V.holder s) (all : ∀ u, V.holds s' u ↔ V.holds s u)

/-- A step that leaves the protected code and keeps the mutex. -/
structure Leak (V : View σ T) (s s' : σ) (t : T) : Prop where
  same : V.holder s' = V.holder s
  inside : V.holds s t
  left : ¬ V.holds s' t
  others : V.OthersStay s s' t

/-- Only the holder is in the protected code. -/
def Safe (V : View σ T) (s : σ) : Prop := ∀ t, V.holds s t → V.holder s = some t

/-- The holder is in the protected code. -/
def Tight (V : View σ T) (s : σ) : Prop := ∀ t, V.holder s = some t → V.holds s t

/-- The holder is not in the protected code. -/
def Leaked (V : View σ T) (s : σ) : Prop := ∃ t, V.holder s = some t ∧ ¬ V.holds s t

/-- **Mutual exclusion.** -/
theorem Safe.unique (h : V.Safe s) {t u : T} (ht : V.holds s t) (hu : V.holds s u) : t = u :=
  Option.some.inj ((h t ht).symm.trans (h u hu))

/-! ### What one step keeps -/

theorem Step.safe (h : V.Step s s') (hs : V.Safe s) : V.Safe s' := by
  intro u hu
  cases h with
  | acquire t free got inside others =>
    by_cases hut : u = t
    · rw [hut]; exact got
    · have := hs u ((others u hut).mp hu)
      rw [free] at this
      cases this
  | release t inside free left others =>
    by_cases hut : u = t
    · subst hut; exact absurd hu left
    · exact absurd (hs.unique ((others u hut).mp hu) inside) hut
  | stay same all => rw [same]; exact hs u ((all u).mp hu)

theorem Leak.safe {t : T} (h : V.Leak s s' t) (hs : V.Safe s) : V.Safe s' := by
  intro u hu
  by_cases hut : u = t
  · subst hut; exact absurd hu h.left
  · rw [h.same]; exact hs u ((h.others u hut).mp hu)

theorem Step.tight (h : V.Step s s') (ht : V.Tight s) : V.Tight s' := by
  intro u hu
  cases h with
  | acquire t free got inside others =>
    obtain rfl : t = u := Option.some.inj (got.symm.trans hu)
    exact inside
  | release t inside free left others => rw [free] at hu; cases hu
  | stay same all => rw [same] at hu; exact (all u).mpr (ht u hu)

theorem Leak.leaked {t : T} (h : V.Leak s s' t) (hs : V.Safe s) : V.Leaked s' :=
  ⟨t, by rw [h.same]; exact hs t h.inside, h.left⟩

/-- The mutex is lost for good: to release it a thread would have to be inside. -/
theorem Step.leaked (h : V.Step s s') (hs : V.Safe s) (hl : V.Leaked s) : V.Leaked s' := by
  obtain ⟨u, hu, hout⟩ := hl
  cases h with
  | acquire t free got inside others => rw [free] at hu; cases hu
  | release t inside free left others =>
    obtain rfl : t = u := Option.some.inj ((hs t inside).symm.trans hu)
    exact absurd inside hout
  | stay same all => exact ⟨u, by rw [same]; exact hu, fun h => hout ((all u).mp h)⟩

/-! ### What a run keeps -/

section Runs

variable {M : Machine σ α} {L : σ → α → Prop}

/-- Mutual exclusion is kept by every step of a machine whose steps respect the mutex or leak
it. -/
theorem safe_step (hgood : ∀ s a s', M.step s a = some s' → ¬ L s a → V.Step s s')
    (hbad : ∀ s a s', M.step s a = some s' → L s a → ∃ t, V.Leak s s' t) {a : α}
    (hs : V.Safe s) (hstep : M.step s a = some s') : V.Safe s' := by
  by_cases hL : L s a
  · obtain ⟨t, hl⟩ := hbad s a s' hstep hL
    exact hl.safe hs
  · exact (hgood s a s' hstep hL).safe hs

/-- A leaked mutex stays leaked. -/
theorem leaked_step (hgood : ∀ s a s', M.step s a = some s' → ¬ L s a → V.Step s s')
    (hbad : ∀ s a s', M.step s a = some s' → L s a → ∃ t, V.Leak s s' t) {a : α}
    (hs : V.Safe s) (hl : V.Leaked s) (hstep : M.step s a = some s') : V.Leaked s' := by
  by_cases hL : L s a
  · obtain ⟨t, hl'⟩ := hbad s a s' hstep hL
    exact hl'.leaked hs
  · exact (hgood s a s' hstep hL).leaked hs hl

/-- **When the mutex is free.** `L` tells the steps that leak the mutex from those that respect
it. After a run that started with the mutex free, and once nobody is in the protected code, the
mutex is free if and only if no step of the run leaked it. -/
theorem holder_eq_none_iff (hgood : ∀ s a s', M.step s a = some s' → ¬ L s a → V.Step s s')
    (hbad : ∀ s a s', M.step s a = some s' → L s a → ∃ t, V.Leak s s' t)
    {s₀ s : σ} {tr : List (σ × α)} (hrun : M.Run s₀ tr s) (hfree : V.holder s₀ = none)
    (hout₀ : ∀ t, ¬ V.holds s₀ t) (hout : ∀ t, ¬ V.holds s t) :
    V.holder s = none ↔ ∀ p ∈ tr, ¬ L p.1 p.2 := by
  have hsafe₀ : V.Safe s₀ := fun t ht => absurd ht (hout₀ t)
  constructor
  · intro hnone p hp hpL
    have hleaked : V.Leaked s := by
      refine hrun.absorb (G := fun s a => ¬ L s a)
        (fun s a s' hs hstep => safe_step hgood hbad hs hstep) (fun s a s' hs hL hstep => ?_)
        (fun s a s' hs hl hstep => leaked_step hgood hbad hs hl hstep) hsafe₀
        ⟨p, hp, not_not.mpr hpL⟩
      obtain ⟨t, hl⟩ := hbad s a s' hstep (not_not.mp hL)
      exact hl.leaked hs
    obtain ⟨t, ht, -⟩ := hleaked
    rw [hnone] at ht
    cases ht
  · intro hall
    have htight : V.Tight s := by
      refine hrun.invariant_of_forall (G := fun s a => ¬ L s a)
        (fun s a s' ht hL hstep => ?_) hall ?_
      · exact (hgood s a s' hstep hL).tight ht
      · intro t ht
        rw [hfree] at ht
        cases ht
    cases hh : V.holder s with
    | none => rfl
    | some t => exact absurd (htight t hh) (hout t)

end Runs

/-! ### Threads with program counters

In most machines a thread is in the protected code when its program counter is, and a step moves
the program counter of one thread. -/

section Counters

variable {P : Type*} [DecidableEq T] {holder : σ → Option T} {pc : σ → T → P} {crit : P → Prop}
  {t : T} {c : P}

/-- The protected code is the set `crit` of places. -/
def ofPc (holder : σ → Option T) (pc : σ → T → P) (crit : P → Prop) : View σ T where
  holder := holder
  holds s t := crit (pc s t)

omit [DecidableEq T] in
/-- Nobody is in the protected code when everybody is at a place outside it. -/
theorem not_holds_of_pc_eq (hc : ¬ crit c) (h : ∀ t, pc s t = c) (t : T) :
    ¬ (ofPc holder pc crit).holds s t := by
  show ¬ crit (pc s t)
  rw [h t]
  exact hc

theorem othersStay_of_update (hpc : pc s' = Function.update (pc s) t c) :
    (ofPc holder pc crit).OthersStay s s' t := by
  intro u hu
  simp [ofPc, hpc, Function.update_of_ne hu]

theorem holds_of_update (hpc : pc s' = Function.update (pc s) t c) :
    (ofPc holder pc crit).holds s' t ↔ crit c := by
  simp [ofPc, hpc]

theorem acquire_of_update (free : holder s = none) (got : holder s' = some t)
    (hpc : pc s' = Function.update (pc s) t c) (hc : crit c) :
    (ofPc holder pc crit).Step s s' :=
  .acquire t free got ((holds_of_update hpc).mpr hc) (othersStay_of_update hpc)

theorem release_of_update (inside : crit (pc s t)) (free : holder s' = none)
    (hpc : pc s' = Function.update (pc s) t c) (hc : ¬ crit c) :
    (ofPc holder pc crit).Step s s' :=
  .release t inside free (fun h => hc ((holds_of_update hpc).mp h)) (othersStay_of_update hpc)

theorem stay_of_update (same : holder s' = holder s)
    (hpc : pc s' = Function.update (pc s) t c) (hc : crit c ↔ crit (pc s t)) :
    (ofPc holder pc crit).Step s s' := by
  refine .stay same fun u => ?_
  by_cases hu : u = t
  · rw [hu]
    exact (holds_of_update hpc).trans hc
  · exact othersStay_of_update hpc u hu

theorem leak_of_update (same : holder s' = holder s) (inside : crit (pc s t))
    (hpc : pc s' = Function.update (pc s) t c) (hc : ¬ crit c) :
    (ofPc holder pc crit).Leak s s' t :=
  ⟨same, inside, fun h => hc ((holds_of_update hpc).mp h), othersStay_of_update hpc⟩

end Counters

end View

end Mutex
