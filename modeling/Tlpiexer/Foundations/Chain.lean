import Mathlib.Data.Set.Finite.Basic
import Mathlib.Logic.Relation
import Mathlib.Order.WellFounded

/-!
# Chains

A partial function on a set, followed from a point: the chain ends where the function is not
defined, and it need not end at all. Over a finite set there is only one way not to end, which is to
come to a cycle.

`Ends` is accessibility, so that what holds along a chain is proved by induction on it and a loop
that follows the chain has a bound.

## Main results

* `Chain.ends_iff` — one element at a time
* `Chain.ends_iff_not_cyclic` — a chain among finitely many elements
-/

namespace Chain

open Relation

variable {α : Type*} (f : α → Option α)

/-- The next element of the chain. -/
def Step (a b : α) : Prop := f a = some b

/-- The chain from `a` ends. -/
def Ends (a : α) : Prop := Acc (fun b a => Step f a b) a

/-- The chain from `a` ends with `b`. -/
def EndsAt (a b : α) : Prop := ReflTransGen (Step f) a b ∧ f b = none

/-- The chain from `a` comes to a cycle. -/
def Cyclic (a : α) : Prop := ∃ b, ReflTransGen (Step f) a b ∧ TransGen (Step f) b b

variable {f} {a b : α}

theorem Ends.step (h : Ends f a) (hab : Step f a b) : Ends f b := h.inv hab

theorem ends_iff : Ends f a ↔ ∀ b, f a = some b → Ends f b :=
  ⟨fun h _ hab => h.step hab, fun h => Acc.intro a h⟩

theorem ends_of_eq_none (h : f a = none) : Ends f a :=
  ends_iff.mpr fun _ hab => by rw [h] at hab; cases hab

theorem EndsAt.eq (h : EndsAt f a b) (ha : f a = none) : b = a := by
  rcases h.1.cases_head with rfl | ⟨c, hac, -⟩
  · rfl
  · rw [Step, ha] at hac
    cases hac

theorem EndsAt.of_step {c : α} (h : EndsAt f a b) (hac : f a = some c) : EndsAt f c b := by
  rcases h.1.cases_head with rfl | ⟨c', hac', hcb⟩
  · rw [h.2] at hac
    cases hac
  · rw [Step, hac] at hac'
    exact ⟨Option.some.inj hac' ▸ hcb, h.2⟩

theorem Cyclic.exists_step (h : Cyclic f a) : ∃ b, Step f a b ∧ Cyclic f b := by
  obtain ⟨c, hac, hcc⟩ := h
  rcases hac.cases_head with rfl | ⟨b, hab, hbc⟩
  · obtain ⟨b, hab, hba⟩ := TransGen.head'_iff.mp hcc
    exact ⟨b, hab, a, hba, hcc⟩
  · exact ⟨b, hab, c, hbc, hcc⟩

theorem Ends.not_cyclic (h : Ends f a) : ¬ Cyclic f a := by
  induction h with
  | intro a _ ih =>
    intro hcyc
    obtain ⟨b, hab, hb⟩ := hcyc.exists_step
    exact ih b hab hb

/-- **A chain among finitely many elements** ends unless it comes to a cycle. -/
theorem ends_iff_not_cyclic (hfin : {b | ReflTransGen (Step f) a b}.Finite) :
    Ends f a ↔ ¬ Cyclic f a := by
  refine ⟨Ends.not_cyclic, fun hacyc => ?_⟩
  -- "comes later" is a well-founded order on what the chain reaches
  let S := {b // ReflTransGen (Step f) a b}
  let later : S → S → Prop := fun y x => TransGen (Step f) x.1 y.1
  have : Finite S := hfin
  have : IsTrans S later := ⟨fun _ _ _ hyx hzy => hzy.trans hyx⟩
  have : Std.Irrefl later := ⟨fun x hx => hacyc ⟨x.1, x.2, hx⟩⟩
  have hwf : WellFounded later := Finite.wellFounded_of_trans_of_irrefl later
  have hends : ∀ x : S, Ends f x.1 := by
    intro x
    induction x using hwf.induction with
    | _ x ih =>
      refine ends_iff.mpr fun b hb => ?_
      exact ih ⟨b, x.2.tail hb⟩ (.single hb)
  exact hends ⟨a, .refl⟩

end Chain
