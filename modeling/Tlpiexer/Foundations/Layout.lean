import Mathlib.Algebra.Group.Nat.Defs
import Mathlib.Data.Nat.Notation

/-!
# Integers in memory

A fixed-width integer is stored as the bytes of its value, the lowest first. Reading is total: any
bytes are the bytes of some integer, and what is said about them is what comes back after writing.

## Main results

* `Layout.leValue_leBytes` — reading `k` bytes gives back the value modulo `256 ^ k`
* `Layout.ofBytes_toBytes` — reading back a bit vector of `k` bytes
-/

namespace Layout

/-- The lowest `k` bytes of `n`, the lowest first. -/
def leBytes : ℕ → ℕ → List UInt8
  | 0, _ => []
  | k + 1, n => UInt8.ofNat n :: leBytes k (n / 256)

/-- The number whose bytes these are, the lowest first. -/
def leValue : List UInt8 → ℕ
  | [] => 0
  | b :: bs => b.toNat + 256 * leValue bs

@[simp] theorem length_leBytes (k : ℕ) : ∀ n : ℕ, (leBytes k n).length = k := by
  induction k with
  | zero => intro n; rfl
  | succ k ih => intro n; rw [leBytes, List.length_cons, ih]

theorem leValue_leBytes (k : ℕ) : ∀ n : ℕ, leValue (leBytes k n) = n % 256 ^ k := by
  induction k with
  | zero => intro n; rw [leBytes, leValue, pow_zero, Nat.mod_one]
  | succ k ih =>
    intro n
    have hbyte : (UInt8.ofNat n).toNat = n % 256 := rfl
    rw [leBytes, leValue, hbyte, ih, pow_succ, Nat.mul_comm (256 ^ k), Nat.mod_mul]

/-- The bytes of an integer of `k` bytes. -/
def toBytes (k : ℕ) (x : BitVec (8 * k)) : List UInt8 := leBytes k x.toNat

/-- The integer of `k` bytes that is stored in `bs`. -/
def ofBytes (k : ℕ) (bs : List UInt8) : BitVec (8 * k) := BitVec.ofNat _ (leValue bs)

@[simp] theorem length_toBytes (k : ℕ) (x : BitVec (8 * k)) : (toBytes k x).length = k :=
  length_leBytes k _

@[simp] theorem ofBytes_toBytes (k : ℕ) (x : BitVec (8 * k)) : ofBytes k (toBytes k x) = x := by
  have hlt : x.toNat < 256 ^ k := by
    have hx := x.isLt
    rwa [pow_mul] at hx
  rw [ofBytes, toBytes, leValue_leBytes, Nat.mod_eq_of_lt hlt, BitVec.ofNat_toNat,
    BitVec.setWidth_eq]

end Layout
