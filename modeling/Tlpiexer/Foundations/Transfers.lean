import Mathlib.Data.List.Basic
import Mathlib.Data.Nat.Notation

/-!
# Transfers over several buffers

A buffer is transferred up to a count; what is behind the count is skipped. Over several buffers the
parts that are transferred, put together, are a first part of the buffers put together as long as
nothing is skipped in between.

## Main results

* `Transfers.transferred_isPrefix_iff` — when they are
* `Transfers.transferred_eq_contents_iff` — when nothing is skipped at all
-/

namespace Transfers

variable {α : Type*} {l : List (List α × ℕ)} {c : List α} {k : ℕ}

/-- What is transferred of buffers with their counts. -/
def transferred (l : List (List α × ℕ)) : List α := l.flatMap fun e => e.1.take e.2

/-- The buffers, put together. -/
def contents (l : List (List α × ℕ)) : List α := l.flatMap Prod.fst

/-- Nothing is skipped in between: what is transferred behind the first buffer that is not complete
is what follows there, nothing at all for instance. -/
def NoGap (l : List (List α × ℕ)) : Prop :=
  ∀ pre c k post, l = pre ++ (c, k) :: post → (∀ e ∈ pre, e.1.length ≤ e.2) → k < c.length →
    transferred post <+: c.drop k ++ contents post

theorem noGap_nil : NoGap ([] : List (List α × ℕ)) := by
  intro pre c k post h
  simp at h

theorem noGap_cons_of_le (h : c.length ≤ k) : NoGap ((c, k) :: l) ↔ NoGap l := by
  constructor
  · intro hgap pre c' k' post hl hpre hlt
    refine hgap ((c, k) :: pre) c' k' post (by rw [hl, List.cons_append]) ?_ hlt
    exact List.forall_mem_cons.mpr ⟨h, hpre⟩
  · intro hgap pre c' k' post hl hpre hlt
    cases pre with
    | nil =>
      obtain ⟨rfl, rfl⟩ := Prod.mk.inj (List.cons.inj hl).1
      exact absurd h (Nat.not_le.mpr hlt)
    | cons e pre =>
      exact hgap pre c' k' post (List.cons.inj hl).2 (List.forall_mem_cons.mp hpre).2 hlt

theorem noGap_cons_of_lt (h : k < c.length) :
    NoGap ((c, k) :: l) ↔ transferred l <+: c.drop k ++ contents l := by
  constructor
  · exact fun hgap => hgap [] c k l rfl (by simp) h
  · intro hpost pre c' k' post hl hpre hlt
    cases pre with
    | nil =>
      obtain ⟨he, rfl⟩ := List.cons.inj hl
      obtain ⟨rfl, rfl⟩ := Prod.mk.inj he
      exact hpost
    | cons e pre =>
      obtain ⟨rfl, -⟩ := List.cons.inj hl
      exact absurd ((List.forall_mem_cons.mp hpre).1) (Nat.not_le.mpr h)

/-- **The transferred parts are a first part of the buffers if and only if nothing is skipped in
between.** -/
theorem transferred_isPrefix_iff : transferred l <+: contents l ↔ NoGap l := by
  induction l with
  | nil => exact iff_of_true List.prefix_rfl noGap_nil
  | cons e l ih =>
    obtain ⟨c, k⟩ := e
    have hsplit : transferred ((c, k) :: l) = c.take k ++ transferred l := List.flatMap_cons
    have hcontents : contents ((c, k) :: l) = c ++ contents l := List.flatMap_cons
    rw [hsplit, hcontents]
    by_cases h : c.length ≤ k
    · rw [noGap_cons_of_le h, List.take_of_length_le h, List.prefix_append_right_inj, ih]
    · have hlt := Nat.lt_of_not_le h
      rw [noGap_cons_of_lt hlt]
      nth_rewrite 2 [← List.take_append_drop k c]
      rw [List.append_assoc, List.prefix_append_right_inj]

theorem length_transferred_le (l : List (List α × ℕ)) :
    (transferred l).length ≤ (contents l).length := by
  induction l with
  | nil => exact Nat.le_refl 0
  | cons e l ih =>
    rw [transferred, contents, List.flatMap_cons, List.flatMap_cons, List.length_append,
      List.length_append]
    exact Nat.add_le_add (List.length_take_le' ..) ih

/-- **Everything is transferred if and only if every buffer is.** -/
theorem transferred_eq_contents_iff : transferred l = contents l ↔ ∀ e ∈ l, e.1.length ≤ e.2 := by
  induction l with
  | nil => exact iff_of_true rfl (by simp)
  | cons e l ih =>
    obtain ⟨c, k⟩ := e
    have hsplit : transferred ((c, k) :: l) = c.take k ++ transferred l := List.flatMap_cons
    have hcontents : contents ((c, k) :: l) = c ++ contents l := List.flatMap_cons
    rw [hsplit, hcontents, List.forall_mem_cons, ← ih]
    constructor
    · intro heq
      have hlen := congrArg List.length heq
      have hle := length_transferred_le l
      rw [List.length_append, List.length_append, List.length_take] at hlen
      have hk : c.length ≤ k := by omega
      rw [List.take_of_length_le hk] at heq
      exact ⟨hk, List.append_cancel_left heq⟩
    · rintro ⟨hk, heq⟩
      rw [List.take_of_length_le hk, heq]

end Transfers
