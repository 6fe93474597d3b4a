import Mathlib.Data.Finset.Card
import Mathlib.Data.Finset.Range

/-!
# The descriptors of a process

The table of descriptors is the set of those that are open. A call that opens one gets the lowest
that is not.

## Main results

* `Descriptors.lowest_notMem` — a new descriptor was not open
* `Descriptors.lowest_eq_zero_iff`, `Descriptors.zero_mem_insert_lowest` — when it is 0
-/

namespace Descriptors

/-- The lowest descriptor that is not open. -/
def lowest (table : Finset ℕ) : ℕ :=
  ((List.range (table.card + 1)).find? (· ∉ table)).getD 0

/-- One of the first numbers is not in the table. -/
theorem exists_notMem_range (table : Finset ℕ) : ∃ i ∈ List.range (table.card + 1), i ∉ table := by
  by_contra hall
  push Not at hall
  have hsub : Finset.range (table.card + 1) ⊆ table := fun i hi =>
    hall i (List.mem_range.mpr (Finset.mem_range.mp hi))
  have hcard := Finset.card_le_card hsub
  rw [Finset.card_range] at hcard
  exact absurd hcard (Nat.not_succ_le_self _)

/-- A new descriptor was not open. -/
theorem lowest_notMem (table : Finset ℕ) : lowest table ∉ table := by
  rw [lowest]
  cases hfind : (List.range (table.card + 1)).find? (· ∉ table) with
  | none =>
    obtain ⟨i, hi, hnot⟩ := exists_notMem_range table
    exact absurd (List.find?_eq_none.mp hfind i hi) (by simpa using hnot)
  | some i => simpa using List.find?_some hfind

/-- The new descriptor is 0 exactly when 0 is not open. -/
theorem lowest_eq_zero_iff (table : Finset ℕ) : lowest table = 0 ↔ 0 ∉ table := by
  constructor
  · intro h
    have := lowest_notMem table
    rwa [h] at this
  · intro h
    rw [lowest, List.range_succ_eq_map, List.find?_cons_of_pos (by simpa using h)]
    rfl

/-- Behind a first new descriptor, 0 is open. -/
theorem zero_mem_insert_lowest (table : Finset ℕ) : 0 ∈ insert (lowest table) table := by
  by_cases h : 0 ∈ table
  · exact Finset.mem_insert_of_mem h
  · rw [(lowest_eq_zero_iff table).mpr h]
    exact Finset.mem_insert_self 0 table

theorem lowest_pos {table : Finset ℕ} (h : 0 ∈ table) : 0 < lowest table :=
  Nat.pos_of_ne_zero fun hzero => (lowest_eq_zero_iff table).mp hzero h

end Descriptors
