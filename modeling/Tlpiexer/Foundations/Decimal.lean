import Mathlib.Algebra.Group.Nat.Defs
import Mathlib.Algebra.Ring.Int.Defs
import Tlpiexer.Foundations.CString

/-!
# Decimal numbers in character arrays

`strtol` does not look for the end of a string. It stops at the first byte that can not belong to
the number, and where an array has no such byte it leaves the array. `strtol` and `atoi` below
have no answer in that case, and their specification (`atoi_numeral`) is about an array that
begins with a numeral and goes on with a byte that stops it: whatever lies behind does not matter,
and the stopping byte does.

## Machine integers

`long` has 64 bits and `int` has 32. `strtol` saturates, and `atoi` converts the result to `int`
by taking it modulo `2 ^ 32`.

## Main definitions

* `Decimal.strtol`, `Decimal.atoi` — reading a number
* `Decimal.Numeral` — an optional sign and at least one digit
* `Decimal.printLong` — the conversion `%li`

## Main results

* `Decimal.scanDigits_append` — the digits loop on a row of digits
* `Decimal.atoi_numeral` — the number at the start of an array
-/

namespace Decimal

open CString

/-! ### Reading -/

/-- `isdigit`. -/
def isDigit (b : UInt8) : Bool := 48 ≤ b ∧ b ≤ 57

/-- `isspace`. -/
def isSpace (b : UInt8) : Bool := b = 32 ∨ (9 ≤ b ∧ b ≤ 13)

/-- The number after one more digit. -/
def pushDigit (n : ℕ) (b : UInt8) : ℕ := 10 * n + (b.toNat - 48)

/-- The value of a row of digits. -/
def digitsValue (ds : Bytes) : ℕ := ds.foldl pushDigit 0

/-- The digits loop of `strtol`. -/
def scanDigits : ℕ → Bytes → Option ℕ
  | _, [] => none
  | n, b :: s => if isDigit b then scanDigits (pushDigit n b) s else some n

/-- `strtol` behind the white space: an optional sign, then digits. -/
def scanSigned : Bytes → Option ℤ
  | [] => none
  | b :: s =>
    if b = 45 then (scanDigits 0 s).map fun n => -(n : ℤ)
    else if b = 43 then (scanDigits 0 s).map fun n => (n : ℤ)
    else (scanDigits 0 (b :: s)).map fun n => (n : ℤ)

/-- The nearest `long`. -/
def toLong (x : ℤ) : ℤ := max (-2 ^ 63) (min (2 ^ 63 - 1) x)

/-- The conversion to `int`. -/
def toInt (x : ℤ) : ℤ := x.bmod (2 ^ 32)

/-- `strtol(s, NULL, 10)`. -/
def strtol (s : Bytes) : Option ℤ := (scanSigned (s.dropWhile isSpace)).map toLong

/-- How many bytes `strtol` takes before the one that stops it. -/
def strtolLength (s : Bytes) : ℕ :=
  let t := s.dropWhile isSpace
  let sign := if t.head? = some 45 ∨ t.head? = some 43 then 1 else 0
  (s.takeWhile isSpace).length + sign + ((t.drop sign).takeWhile isDigit).length

/-- `atoi`. -/
def atoi (s : Bytes) : Option ℤ := (strtol s).map toInt

/-! ### Printing -/

/-- The decimal digits of a number. -/
def digits (n : ℕ) : Bytes := (Nat.toDigits 10 n).map fun c => UInt8.ofNat c.toNat

/-- `%li`. -/
def printLong (x : ℤ) : Bytes := if x < 0 then 45 :: digits x.natAbs else digits x.natAbs

/-! ### Numerals -/

/-- The sign of a numeral. -/
inductive Sign
  | none
  | plus
  | minus
  deriving DecidableEq

/-- How a sign is written. -/
def Sign.bytes : Sign → Bytes
  | .none => []
  | .plus => [43]
  | .minus => [45]

/-- A number with its sign. -/
def Sign.apply : Sign → ℕ → ℤ
  | .minus, n => -n
  | _, n => n

/-- A written number: an optional sign and at least one digit. -/
structure Numeral where
  sign : Sign
  digits : Bytes
  ne_nil : digits ≠ []
  isDigit : ∀ b ∈ digits, isDigit b

namespace Numeral

/-- The bytes of a numeral. -/
def text (x : Numeral) : Bytes := x.sign.bytes ++ x.digits

/-- The number it stands for. -/
def value (x : Numeral) : ℤ := x.sign.apply (digitsValue x.digits)

end Numeral

/-! ### What `atoi` reads -/

theorem isDigit_toNat {b : UInt8} (h : isDigit b) : 48 ≤ b.toNat ∧ b.toNat ≤ 57 := by
  simpa [isDigit, UInt8.le_iff_toNat_le] using h

theorem isDigit_ne {b c : UInt8} (hb : isDigit b) (hc : isDigit c = false) : b ≠ c := by
  rintro rfl
  rw [hb] at hc
  cases hc

theorem scanDigits_append {ds : Bytes} (h : ∀ b ∈ ds, isDigit b) {c : UInt8}
    (hc : isDigit c = false) (n : ℕ) (t : Bytes) :
    scanDigits n (ds ++ c :: t) = some (ds.foldl pushDigit n) := by
  induction ds generalizing n with
  | nil => simp [scanDigits, hc]
  | cons b ds ih =>
    rw [List.cons_append, scanDigits, if_pos (h b (by simp)), List.foldl_cons]
    exact ih (fun d hd => h d (List.mem_cons_of_mem _ hd)) _

/-- No byte of a numeral is a space or a newline. -/
theorem Numeral.isSpace_eq_false (x : Numeral) {b : UInt8} (hb : b ∈ x.text) :
    isSpace b = false := by
  rcases List.mem_append.mp hb with hs | hd
  · revert hs
    cases x.sign <;> simp +contextual [Sign.bytes, isSpace]
  · have hlo := (isDigit_toNat (x.isDigit b hd)).1
    simp only [isSpace, decide_eq_false_iff_not, not_or, not_and, ← UInt8.toNat_inj,
      UInt8.le_iff_toNat_le, UInt8.reduceToNat]
    omega

theorem scanSigned_numeral (x : Numeral) {c : UInt8} (hc : isDigit c = false) (t : Bytes) :
    scanSigned (x.text ++ c :: t) = some x.value := by
  have hscan := scanDigits_append x.isDigit hc 0 t
  cases hs : x.sign with
  | minus => simp [Numeral.text, Numeral.value, hs, Sign.bytes, Sign.apply, scanSigned, hscan,
      digitsValue]
  | plus => simp [Numeral.text, Numeral.value, hs, Sign.bytes, Sign.apply, scanSigned, hscan,
      digitsValue]
  | none =>
    obtain ⟨b, ds, hds⟩ := List.exists_cons_of_ne_nil x.ne_nil
    have hb : isDigit b := x.isDigit b (by simp [hds])
    rw [Numeral.text, hs, Sign.bytes, List.nil_append, Numeral.value, hs]
    rw [hds] at hscan ⊢
    rw [List.cons_append, scanSigned, if_neg (isDigit_ne hb (by decide)),
      if_neg (isDigit_ne hb (by decide)), ← List.cons_append, hscan]
    rfl

/-- The first byte of a numeral. -/
theorem Numeral.text_ne_nil (x : Numeral) : x.text ≠ [] := by
  simp [Numeral.text, x.ne_nil]

/-- White space that `strtol` skips does not stand at the start of a numeral. -/
theorem Numeral.exists_cons (x : Numeral) (t : Bytes) :
    ∃ b s, x.text ++ t = b :: s ∧ isSpace b = false := by
  obtain ⟨b, s, hbs⟩ := List.exists_cons_of_ne_nil x.text_ne_nil
  exact ⟨b, s ++ t, by rw [hbs, List.cons_append], x.isSpace_eq_false (by simp [hbs])⟩

theorem strtol_numeral (x : Numeral) {c : UInt8} (hc : isDigit c = false) (t : Bytes) :
    strtol (x.text ++ c :: t) = some (toLong x.value) := by
  obtain ⟨b, s, hbs, hspace⟩ := x.exists_cons (c :: t)
  have hdrop : (x.text ++ c :: t).dropWhile isSpace = x.text ++ c :: t := by
    rw [hbs, List.dropWhile_cons_of_neg (by simp [hspace])]
  rw [strtol, hdrop, scanSigned_numeral x hc, Option.map_some]

/-- The byte behind a row of digits is the one that stops `strtol`. -/
theorem strtolLength_digits {ds : Bytes} (hne : ds ≠ []) (h : ∀ b ∈ ds, isDigit b) {c : UInt8}
    (hc : isDigit c = false) (t : Bytes) : strtolLength (ds ++ c :: t) = ds.length := by
  obtain ⟨b, s, hbs, hspace⟩ := Numeral.exists_cons ⟨.none, ds, hne, h⟩ (c :: t)
  have hb : isDigit b := by
    obtain ⟨b', ds', rfl⟩ := List.exists_cons_of_ne_nil hne
    obtain rfl := (List.cons.inj hbs).1
    exact h b' List.mem_cons_self
  change ds ++ c :: t = b :: s at hbs
  have hrun : (b :: s).takeWhile isDigit = ds := by
    rw [← hbs, List.takeWhile_append_of_pos h, List.takeWhile_cons_of_neg (by simp [hc]),
      List.append_nil]
  rw [strtolLength, hbs, List.dropWhile_cons_of_neg (by simp [hspace]),
    List.takeWhile_cons_of_neg (by simp [hspace])]
  simp [isDigit_ne hb (show isDigit 45 = false by decide),
    isDigit_ne hb (show isDigit 43 = false by decide), hrun]

/-- **Reading a number.** An array that begins with a numeral that fits in an `int`, and goes on
with a byte that is no digit, is read as that number. -/
theorem atoi_numeral (x : Numeral) (hlo : -2 ^ 31 ≤ x.value) (hhi : x.value < 2 ^ 31) {c : UInt8}
    (hc : isDigit c = false) (t : Bytes) : atoi (x.text ++ c :: t) = some x.value := by
  have hlong : toLong x.value = x.value := by
    rw [toLong]
    omega
  have hint : toInt x.value = x.value := Int.bmod_eq_of_le (by omega) (by omega)
  rw [atoi, strtol_numeral x hc, hlong, Option.map_some, hint]

end Decimal
