import Mathlib.Data.Nat.Notation
import Mathlib.Logic.Basic

/-!
# Labelled machines and their runs

A machine is a set of initial states and a partial step function. All nondeterminism — which
thread moves, what the environment answers — sits in the label, so that a step is computed and a
particular execution can be evaluated, while "every interleaving" is "every list of labels".

## Runs remember where each step was taken

`Machine.Run s tr t` lists in `tr` the state *before* every step next to its label. A condition on
the steps of a run ("no call found the flag set") is then a statement about the members of `tr`,
and needs no second, restricted step relation.

## Main results

* `Machine.Run.invariant` — what holds at the start and is kept by every step holds at the end
* `Machine.Run.invariant_of_forall` — the same, for steps that meet a condition
* `Machine.Run.absorb` — one step that breaks the condition is never repaired
* `Machine.Run.forall_iff` — a property that exactly the steps outside a condition break
* `Machine.run_of_exec` — executing a list of labels gives a run
-/

namespace Transition

variable {σ α : Type*}

/-- Initial states and a partial step function. -/
structure Machine (σ α : Type*) where
  /-- The states a run may start in. -/
  init : σ → Prop
  /-- The step a label stands for; `none` when it is not enabled. -/
  step : σ → α → Option σ

namespace Machine

variable {M : Machine σ α}

/-! ### Runs -/

/-- `M.Run s tr t`: the machine gets from `s` to `t`, and `tr` lists each step taken as the state
it was taken in and its label. -/
inductive Run (M : Machine σ α) (s : σ) : List (σ × α) → σ → Prop
  | nil : Run M s [] s
  | snoc {tr : List (σ × α)} {t u : σ} {a : α} :
      Run M s tr t → M.step t a = some u → Run M s (tr ++ [(t, a)]) u

/-- `t` is reached by some run from an initial state. -/
def Reachable (M : Machine σ α) (t : σ) : Prop := ∃ s tr, M.init s ∧ M.Run s tr t

/-- Some step can be taken in `s`. -/
def Enabled (M : Machine σ α) (s : σ) : Prop := ∃ a t, M.step s a = some t

theorem step_eq_none_of_not_enabled {s : σ} (h : ¬ M.Enabled s) (a : α) : M.step s a = none := by
  cases hstep : M.step s a with
  | none => rfl
  | some t => exact absurd ⟨a, t, hstep⟩ h

theorem Run.append {s t u : σ} {tr tr' : List (σ × α)} (h : M.Run s tr t)
    (h' : M.Run t tr' u) : M.Run s (tr ++ tr') u := by
  induction h' with
  | nil => simpa using h
  | snoc _ hstep ih =>
    rw [← List.append_assoc]
    exact ih.snoc hstep

/-- **The invariant rule.** -/
theorem Run.invariant {I : σ → Prop} (hI : ∀ s a t, I s → M.step s a = some t → I t)
    {s t : σ} {tr : List (σ × α)} (h : M.Run s tr t) (hs : I s) : I t := by
  induction h with
  | nil => exact hs
  | snoc _ hstep ih => exact hI _ _ _ ih hstep

/-- The invariant holds in every state a run goes through. -/
theorem Run.invariant_trace {I : σ → Prop} (hI : ∀ s a t, I s → M.step s a = some t → I t)
    {s t : σ} {tr : List (σ × α)} (h : M.Run s tr t) (hs : I s) : ∀ p ∈ tr, I p.1 := by
  induction h with
  | nil => simp
  | snoc hrun hstep ih =>
    simp only [List.forall_mem_append, List.forall_mem_singleton]
    exact ⟨ih, hrun.invariant hI hs⟩

/-- **The invariant rule for runs whose steps all meet a condition.** -/
theorem Run.invariant_of_forall {I : σ → Prop} {G : σ → α → Prop}
    (hI : ∀ s a t, I s → G s a → M.step s a = some t → I t) {s t : σ} {tr : List (σ × α)}
    (h : M.Run s tr t) (hG : ∀ p ∈ tr, G p.1 p.2) (hs : I s) : I t := by
  induction h with
  | nil => exact hs
  | @snoc _ u _ a _ hstep ih =>
    exact hI _ _ _ (ih fun p hp => hG p (by simp [hp])) (hG (u, a) (by simp)) hstep

/-- **A broken condition is not repaired.** If every step that fails `G` leads into `D` and no
step leaves `D`, then a run with such a step ends in `D`. -/
theorem Run.absorb {I D : σ → Prop} {G : σ → α → Prop}
    (hI : ∀ s a t, I s → M.step s a = some t → I t)
    (hbad : ∀ s a t, I s → ¬ G s a → M.step s a = some t → D t)
    (hD : ∀ s a t, I s → D s → M.step s a = some t → D t) {s t : σ} {tr : List (σ × α)}
    (h : M.Run s tr t) (hs : I s) (hex : ∃ p ∈ tr, ¬ G p.1 p.2) : D t := by
  induction h with
  | nil => simp at hex
  | snoc hrun hstep ih =>
    have hIt := hrun.invariant hI hs
    obtain ⟨p, hp, hpG⟩ := hex
    rcases List.mem_append.mp hp with hold | hlast
    · exact hD _ _ _ hIt (ih ⟨p, hold, hpG⟩) hstep
    · rw [List.mem_singleton.mp hlast] at hpG
      exact hbad _ _ _ hIt hpG hstep

/-- **A property that exactly the steps outside a condition break.** Steps that meet `G` keep `J`,
which implies `I`, and a step that does not breaks `I`: then `I` holds all along a run if and only
if all its steps meet `G`. -/
theorem Run.forall_iff {I J : σ → Prop} {G : σ → α → Prop} (hJ : ∀ s, J s → I s)
    (hgood : ∀ s a t, J s → G s a → M.step s a = some t → J t)
    (hbad : ∀ s a t, J s → ¬ G s a → M.step s a = some t → ¬ I t) {s t : σ}
    {tr : List (σ × α)} (h : M.Run s tr t) (hs : J s) :
    ((∀ p ∈ tr, I p.1) ∧ I t) ↔ ∀ p ∈ tr, G p.1 p.2 := by
  induction h with
  | nil => simp [hJ s hs]
  | @snoc tr t u a hrun hstep ih =>
    have hJt : (∀ p ∈ tr, G p.1 p.2) → J t := fun hG => hrun.invariant_of_forall hgood hG hs
    simp only [List.forall_mem_append, List.forall_mem_singleton]
    constructor
    · rintro ⟨hI, hu⟩
      have hG := ih.mp hI
      exact ⟨hG, by_contra fun hbad' => hbad t a u (hJt hG) hbad' hstep hu⟩
    · rintro ⟨hG, ha⟩
      exact ⟨ih.mpr hG, hJ u (hgood t a u (hJt hG) ha hstep)⟩

theorem Reachable.invariant {I : σ → Prop} (h0 : ∀ s, M.init s → I s)
    (hI : ∀ s a t, I s → M.step s a = some t → I t) {t : σ} (h : M.Reachable t) : I t := by
  obtain ⟨s, tr, hs, hrun⟩ := h
  exact hrun.invariant hI (h0 s hs)

/-! ### Executing labels -/

/-- Take the steps of a list of labels, one after the other. -/
def exec (M : Machine σ α) : σ → List α → Option σ
  | s, [] => some s
  | s, a :: as => (M.step s a).bind fun t => M.exec t as

/-- The steps `exec` takes, with the states they are taken in. -/
def trace (M : Machine σ α) : σ → List α → List (σ × α)
  | _, [] => []
  | s, a :: as => (s, a) :: ((M.step s a).elim [] fun t => M.trace t as)

theorem exec_of_step {s t : σ} {a : α} (h : M.step s a = some t) : M.exec s [a] = some t :=
  Option.bind_eq_some_iff.mpr ⟨t, h, rfl⟩

theorem exec_append {as bs : List α} : ∀ s : σ,
    M.exec s (as ++ bs) = (M.exec s as).bind fun t => M.exec t bs := by
  induction as with
  | nil => intro s; rfl
  | cons a as ih =>
    intro s
    cases hstep : M.step s a with
    | none => simp [exec, hstep]
    | some t => simp [exec, hstep, ih t]

theorem run_of_exec {as : List α} : ∀ {s t : σ}, M.exec s as = some t →
    M.Run s (M.trace s as) t := by
  induction as with
  | nil => intro s t h; cases h; exact .nil
  | cons a as ih =>
    intro s t h
    obtain ⟨u, hu, hrest⟩ := Option.bind_eq_some_iff.mp h
    have hone : M.Run s [(s, a)] u := Run.nil.snoc hu
    simpa [trace, hu] using hone.append (ih hrest)

theorem map_snd_trace {as : List α} : ∀ {s t : σ}, M.exec s as = some t →
    (M.trace s as).map Prod.snd = as := by
  induction as with
  | nil => intros; rfl
  | cons a as ih =>
    intro s t h
    obtain ⟨u, hu, hrest⟩ := Option.bind_eq_some_iff.mp h
    rw [trace, hu, Option.elim_some, List.map_cons, ih hrest]

theorem reachable_of_exec {s t : σ} {as : List α} (hs : M.init s)
    (h : M.exec s as = some t) : M.Reachable t :=
  ⟨s, _, hs, run_of_exec h⟩

end Machine

end Transition
