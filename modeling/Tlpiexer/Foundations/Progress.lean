import Tlpiexer.Foundations.Transition

/-!
# Runs that come to an end

A measure that every step lowers bounds the length of every run, so that every run can be
continued until no step is enabled. What a program achieves is then what holds in the states
without a step.

A schedule is chosen by restricting the machine to the steps one wants: a final run of the
restricted machine is a run of the machine itself.

## Main results

* `Machine.Run.length_add_le` — the length of a run
* `Machine.exists_final` — every state has a run to a state without a step
* `Machine.exists_final_restrict` — the same along the steps that meet a condition
-/

namespace Transition

namespace Machine

variable {σ α : Type*} {M : Machine σ α} {μ : σ → ℕ}

theorem Reachable.step {s t : σ} {a : α} (h : M.Reachable s) (hstep : M.step s a = some t) :
    M.Reachable t := by
  obtain ⟨s₀, tr, h₀, hrun⟩ := h
  exact ⟨s₀, _, h₀, hrun.snoc hstep⟩

/-- Every step lowers `μ`. -/
def Lowers (M : Machine σ α) (μ : σ → ℕ) : Prop := ∀ s a t, M.step s a = some t → μ t < μ s

theorem Run.length_add_le (hμ : M.Lowers μ) {s t : σ} {tr : List (σ × α)} (h : M.Run s tr t) :
    tr.length + μ t ≤ μ s := by
  induction h with
  | nil => simp
  | snoc _ hstep ih =>
    have hlt := hμ _ _ _ hstep
    rw [List.length_append, List.length_singleton]
    omega

/-- **Every state has a run to a state without a step.** -/
theorem exists_final (hμ : M.Lowers μ) (s : σ) : ∃ tr t, M.Run s tr t ∧ ¬ M.Enabled t := by
  induction hn : μ s using Nat.strongRecOn generalizing s with
  | ind n ih =>
    by_cases h : M.Enabled s
    · obtain ⟨a, t, hstep⟩ := h
      obtain ⟨tr, u, hrun, hfinal⟩ := ih (μ t) (hn ▸ hμ s a t hstep) t rfl
      exact ⟨_, u, (Run.nil.snoc hstep).append hrun, hfinal⟩
    · exact ⟨[], s, .nil, h⟩

open Classical in
/-- The machine that takes the steps that meet `G` only. -/
noncomputable def restrict (M : Machine σ α) (G : σ → α → Prop) : Machine σ α where
  init := M.init
  step s a := if G s a then M.step s a else none

theorem restrict_step {G : σ → α → Prop} {s t : σ} {a : α} :
    (M.restrict G).step s a = some t ↔ G s a ∧ M.step s a = some t := by
  simp [restrict]

/-- **A schedule.** Along steps that meet `G`, which all lower `μ`, the machine keeps `I` and gets
to a state where no such step is enabled. -/
theorem exists_final_restrict {I : σ → Prop} {G : σ → α → Prop}
    (hμ : ∀ s a t, G s a → M.step s a = some t → μ t < μ s)
    (hI : ∀ s a t, I s → G s a → M.step s a = some t → I t) {s : σ} (hs : I s) :
    ∃ tr t, M.Run s tr t ∧ I t ∧ ∀ a, G t a → M.step t a = none := by
  have hlowers : (M.restrict G).Lowers μ := by
    intro s a t h
    obtain ⟨hG, hstep⟩ := restrict_step.mp h
    exact hμ s a t hG hstep
  obtain ⟨tr, t, hrun, hfinal⟩ := exists_final hlowers s
  have hboth : M.Run s tr t ∧ I t := by
    refine ⟨?_, hrun.invariant (fun s a t hs h => ?_) hs⟩
    · clear hfinal
      induction hrun with
      | nil => exact .nil
      | snoc _ hstep ih => exact ih.snoc (restrict_step.mp hstep).2
    · obtain ⟨hG, hstep⟩ := restrict_step.mp h
      exact hI s a t hs hG hstep
  refine ⟨tr, t, hboth.1, hboth.2, fun a hG => ?_⟩
  cases hstep : M.step t a with
  | none => rfl
  | some u => exact absurd ⟨a, u, restrict_step.mpr ⟨hG, hstep⟩⟩ hfinal

end Machine

end Transition
