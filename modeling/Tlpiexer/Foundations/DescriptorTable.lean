import Mathlib.Data.Finmap
import Mathlib.Data.Nat.Cast.Order.Ring
import Tlpiexer.Foundations.Descriptors

/-!
# Descriptors and what they refer to

A table maps the open descriptors of a process to open files. The calls take an `int`, which may be
negative, and answer `-1` when they fail; a failing call leaves the table as it was.

`Table.dup2` is the behaviour the standard gives to `dup2`. `Table.dupFrom` is `fcntl` with
`F_DUPFD`: it takes the lowest descriptor that is free from a given one on.

## Main results

* `Descriptors.lowestFrom_eq_self` — a free descriptor is the lowest from itself on
* `Descriptors.Table.dupFrom_erase` — and a descriptor that has just been closed is opened again
-/

namespace Descriptors

variable {φ : Type*}

/-- What the open descriptors refer to. -/
abbrev Table (φ : Type*) := Finmap fun _ : ℕ => φ

/-- The lowest descriptor from `n` on that is not open. -/
def lowestFrom (table : Finset ℕ) (n : ℕ) : ℕ :=
  ((List.range' n (table.card + 1)).find? (· ∉ table)).getD n

theorem lowestFrom_eq_self {table : Finset ℕ} {n : ℕ} (h : n ∉ table) : lowestFrom table n = n := by
  rw [lowestFrom, List.range'_succ, List.find?_cons_of_pos (by simpa using h), Option.getD_some]

theorem lowestFrom_zero (table : Finset ℕ) : lowestFrom table 0 = lowest table := by
  rw [lowestFrom, lowest, List.range_eq_range']

namespace Table

/-- The open file behind an `int`. -/
def ref (t : Table φ) (fd : ℤ) : Option φ := if fd < 0 then none else t.lookup fd.toNat

/-- `close`. -/
def close (t : Table φ) (fd : ℤ) : ℤ × Table φ :=
  match t.ref fd with
  | none => (-1, t)
  | some _ => (0, t.erase fd.toNat)

/-- A new descriptor, as `open` or `pipe` makes it. -/
def alloc (t : Table φ) (f : φ) : ℕ × Table φ := (lowest t.keys, t.insert (lowest t.keys) f)

/-- `fcntl(fd, F_DUPFD, n)`, in a process that may open the descriptors below `limit`. -/
def dupFrom (limit : ℕ) (t : Table φ) (fd n : ℤ) : ℤ × Table φ :=
  match t.ref fd with
  | none => (-1, t)
  | some f =>
    if n < 0 ∨ (limit : ℤ) ≤ n then (-1, t)
    else if limit ≤ lowestFrom t.keys n.toNat then (-1, t)
    else (lowestFrom t.keys n.toNat, t.insert (lowestFrom t.keys n.toNat) f)

/-- `dup2` as it is specified. -/
def dup2 (limit : ℕ) (t : Table φ) (oldfd newfd : ℤ) : ℤ × Table φ :=
  match t.ref oldfd with
  | none => (-1, t)
  | some f =>
    if newfd < 0 ∨ (limit : ℤ) ≤ newfd then (-1, t)
    else if oldfd = newfd then (newfd, t)
    else (newfd, t.insert newfd.toNat f)

theorem ref_natCast (t : Table φ) (fd : ℕ) : t.ref fd = t.lookup fd := by
  rw [ref, if_neg (Int.not_lt.mpr (Int.natCast_nonneg fd)), Int.toNat_natCast]

/-- Closing a descriptor takes it out of the table, whether or not it is open. -/
theorem close_natCast (t : Table φ) (fd : ℕ) : (t.close fd).2 = t.erase fd := by
  rw [close, ref_natCast]
  cases h : t.lookup fd with
  | some f => rw [Int.toNat_natCast]
  | none =>
    refine Finmap.ext_lookup fun x => ?_
    by_cases hx : x = fd
    · rw [hx, Finmap.lookup_erase, h]
    · rw [Finmap.lookup_erase_ne hx]

theorem ref_erase_of_ne {t : Table φ} {fd : ℤ} {n : ℕ} (h : fd ≠ n) :
    Table.ref (t.erase n) fd = t.ref fd := by
  rw [ref, ref]
  by_cases hneg : fd < 0
  · rw [if_pos hneg, if_pos hneg]
  · rw [if_neg hneg, if_neg hneg]
    refine Finmap.lookup_erase_ne ?_
    rintro rfl
    exact h (Int.toNat_of_nonneg (Int.not_lt.mp hneg)).symm

theorem insert_erase (t : Table φ) (fd : ℕ) (f : φ) : (t.erase fd).insert fd f = t.insert fd f := by
  refine Finmap.ext_lookup fun x => ?_
  by_cases hx : x = fd
  · rw [hx, Finmap.lookup_insert, Finmap.lookup_insert]
  · rw [Finmap.lookup_insert_of_ne _ hx, Finmap.lookup_insert_of_ne _ hx, Finmap.lookup_erase_ne hx]

/-- A new descriptor was not open. -/
theorem lookup_alloc_fst (t : Table φ) (f : φ) : t.lookup (t.alloc f).1 = none := by
  rw [Finmap.lookup_eq_none, ← Finmap.mem_keys]
  exact lowest_notMem t.keys

/-- A descriptor that is open keeps what it refers to. -/
theorem lookup_alloc_of_some {t : Table φ} {fd : ℕ} {g : φ} (h : t.lookup fd = some g) (f : φ) :
    (t.alloc f).2.lookup fd = some g := by
  refine (Finmap.lookup_insert_of_ne _ ?_).trans h
  rintro rfl
  have hnone := lookup_alloc_fst t f
  rw [alloc, h] at hnone
  cases hnone

/-- A descriptor that has just been closed is the one that `F_DUPFD` gives from itself on. -/
theorem dupFrom_erase {t : Table φ} {limit n : ℕ} {fd : ℤ} {f : φ} (hfd : t.ref fd = some f)
    (hne : fd ≠ n) (hn : n < limit) :
    Table.dupFrom limit (t.erase n) fd n = ((n : ℤ), t.insert n f) := by
  have hfree : n ∉ (t.erase n).keys := by
    rw [Finmap.mem_keys]
    exact Finmap.notMem_erase_self
  have hin : ¬ ((n : ℤ) < 0 ∨ (limit : ℤ) ≤ n) := by omega
  rw [dupFrom, ref_erase_of_ne hne, hfd]
  dsimp only
  rw [if_neg hin, Int.toNat_natCast, lowestFrom_eq_self hfree, if_neg (Nat.not_le.mpr hn),
    insert_erase]

/-- `dup2` changes nothing but its second argument. -/
theorem lookup_dup2_of_ne {t : Table φ} {limit fd : ℕ} {oldfd newfd : ℤ} (h : (fd : ℤ) ≠ newfd) :
    (t.dup2 limit oldfd newfd).2.lookup fd = t.lookup fd := by
  rw [dup2]
  cases t.ref oldfd with
  | none => rfl
  | some f =>
    dsimp only
    split_ifs with hout
    · rfl
    · rfl
    · refine Finmap.lookup_insert_of_ne _ ?_
      rintro rfl
      exact h (Int.toNat_of_nonneg (Int.not_lt.mp (not_or.mp hout).1))

end Table

end Descriptors
