import Mathlib.Algebra.Ring.Int.Defs
import Tlpiexer.Constants
import Tlpiexer.Foundations.CString

/-!
# Thread identifiers as text

`tid_to_hexstr` of `src/imp/31-01.c`, which prints the bytes of a thread identifier in hexadecimal.

Each byte is printed with two digits, but one position behind the byte before. So the second digit
of a byte is overwritten by the first digit of the next one, and the second digit of the last byte
by the NUL: half of the identifier is lost.

## Main results

* `ThreadId.cstr_tidToHexstr` — the string that is produced
* `ThreadId.hexstr_never` — it is never the one that is meant
-/

namespace Tlpiexer

namespace ThreadId

open CString

/-- A `pthread_t`, by its bytes in memory order. -/
abbrev Tid := CharArray 8

/-- A hexadecimal digit. -/
def hexDigit (n : ℕ) : UInt8 := if n < 10 then .ofNat (48 + n) else .ofNat (87 + n)

/-- `"%02x"`. -/
def hexByte (b : UInt8) : Bytes := [hexDigit (b.toNat / 16), hexDigit (b.toNat % 16)]

/-- `sprintf(hex + off, ...)` printing `text`. There is no answer if it leaves the array. -/
def sprintf (hex : Bytes) (off : ℕ) (text : Bytes) : Option Bytes :=
  if off + text.length < hex.length then
    some (hex.take off ++ overlay (hex.drop off) (text ++ [0]))
  else none

/-- The loop over the bytes of the identifier. -/
def printLoop : ℕ → Bytes → Bytes → Option Bytes
  | _, [], hex => some hex
  | off, b :: mem, hex => do
    let hex ← sprintf hex off (hexByte b)
    printLoop (off + 1) mem hex

/-- `size < sizeof(tid) + 3`, where `size` is converted to an unsigned type. -/
def tooSmall (size : ℤ) : Prop := size % 2 ^ 64 < 8 + 3

instance (size : ℤ) : Decidable (tooSmall size) := inferInstanceAs (Decidable (_ < _))

/-- `tid_to_hexstr`: the result and the array. -/
def tidToHexstr (tid : Tid) (hex : Bytes) (size : ℤ) : Option (ℤ × Bytes) :=
  if tooSmall size then some (retFailure, hex)
  else do
    let hex ← sprintf hex 0 [48, 120]
    let hex ← printLoop 2 tid.val hex
    if 10 < hex.length then some (retSuccess, hex.set 10 0) else none

/-! ### What is produced -/

/-- The string that is meant: `"0x"` and two digits for each byte. -/
def hexstr (tid : Tid) : Bytes := [48, 120] ++ tid.val.flatMap hexByte

theorem hexDigit_ne_zero {n : ℕ} (h : n < 16) : hexDigit n ≠ 0 := by
  decide +revert

/-- **The loop** leaves the first digit of each byte. -/
theorem exists_of_printLoop {mem front rest out : Bytes}
    (h : printLoop front.length mem (front ++ rest) = some out) :
    ∃ tail, out = front ++ mem.map (fun b => hexDigit (b.toNat / 16)) ++ tail ∧
      tail.length + mem.length = rest.length := by
  induction mem generalizing front rest with
  | nil => exact ⟨rest, by simpa [printLoop, eq_comm] using h, by simp⟩
  | cons b mem ih =>
    obtain ⟨hex, hprint, h⟩ := Option.bind_eq_some_iff.mp h
    rw [sprintf] at hprint
    split at hprint
    case isFalse => cases hprint
    case isTrue hlen =>
      obtain rfl := Option.some.inj hprint
      rw [List.length_append] at hlen
      have hhex : (front ++ rest).take front.length ++
          overlay ((front ++ rest).drop front.length) (hexByte b ++ [0]) =
          (front ++ [hexDigit (b.toNat / 16)]) ++
            (hexDigit (b.toNat % 16) :: 0 :: rest.drop 3) := by
        simp [overlay, hexByte]
      rw [hhex, ← List.length_singleton (a := hexDigit (b.toNat / 16)), ← List.length_append] at h
      obtain ⟨tail, rfl, htail⟩ := ih h
      refine ⟨tail, by simp, ?_⟩
      simp only [hexByte, List.length_cons, List.length_nil, List.length_drop] at hlen htail ⊢
      omega

/-- The first digit of each byte. -/
def firstDigits (tid : Tid) : Bytes := tid.val.map fun b => hexDigit (b.toNat / 16)

theorem zero_notMem_firstDigits (tid : Tid) : (0 : UInt8) ∉ firstDigits tid := by
  intro h
  obtain ⟨b, -, hb⟩ := List.mem_map.mp h
  have hlt := b.toNat_lt
  exact hexDigit_ne_zero (by omega : b.toNat / 16 < 16) hb

/-- **The string that is produced** has the first digit of each byte only. -/
theorem cstr_tidToHexstr {tid : Tid} {hex out : Bytes} {size : ℤ}
    (h : tidToHexstr tid hex size = some (retSuccess, out)) :
    cstr out = [48, 120] ++ firstDigits tid := by
  rw [tidToHexstr] at h
  split at h
  case isTrue => simp [retSuccess, retFailure] at h
  case isFalse =>
    obtain ⟨hex₁, hprint, h⟩ := Option.bind_eq_some_iff.mp h
    obtain ⟨hex₂, hloop, h⟩ := Option.bind_eq_some_iff.mp h
    rw [sprintf] at hprint
    split at hprint
    case isFalse => cases hprint
    case isTrue =>
      obtain rfl := Option.some.inj hprint
      have hfront : hex.take 0 ++ overlay (hex.drop 0) ([48, 120] ++ [0]) =
          [48, 120] ++ 0 :: hex.drop 3 := by simp [overlay]
      rw [hfront] at hloop
      obtain ⟨tail, rfl, -⟩ := @exists_of_printLoop _ [48, 120] _ _ hloop
      change (if 10 < ([48, 120] ++ firstDigits tid ++ tail).length then _ else _) = _ at h
      have hlen : ([48, 120] ++ firstDigits tid).length = 10 := by
        simp [firstDigits, tid.property]
      split at h
      case isFalse => cases h
      case isTrue hlt =>
        rw [List.length_append, hlen] at hlt
        obtain ⟨x, tail', rfl⟩ := List.exists_cons_of_ne_nil
          (List.length_pos_iff.mp (by omega : 0 < tail.length))
        obtain rfl := (Prod.mk.inj (Option.some.inj h)).2
        have hset : (([48, 120] ++ firstDigits tid) ++ x :: tail').set 10 0 =
            ([48, 120] ++ firstDigits tid) ++ 0 :: tail' := by
          rw [← hlen, List.set_append_right _ _ (Nat.le_refl _)]
          simp
        have hzero : (0 : UInt8) ∉ [48, 120] ++ firstDigits tid := by
          simp [zero_notMem_firstDigits]
        exact (congrArg cstr hset).trans (cstr_append_zero hzero tail')

theorem length_flatMap_hexByte (s : Bytes) : (s.flatMap hexByte).length = 2 * s.length := by
  induction s with
  | nil => rfl
  | cons b s ih =>
    rw [List.flatMap_cons, List.length_append, ih, List.length_cons, hexByte, List.length_cons,
      List.length_singleton]
    omega

/-- **It is never the string that is meant**, and so not a different one for different
identifiers. -/
theorem hexstr_never (tid tid' : Tid) (hex hex' : Bytes) (size : ℤ) :
    ¬ ∃ out out', tidToHexstr tid hex size = some (retSuccess, out) ∧
      tidToHexstr tid' hex' size = some (retSuccess, out') ∧
      cstr out = hexstr tid ∧ cstr out' = hexstr tid' ∧ (tid ≠ tid' → cstr out ≠ cstr out') := by
  rintro ⟨out, out', hout, -, hstr, -, -⟩
  have hlen := congrArg List.length hstr
  rw [cstr_tidToHexstr hout, hexstr, List.length_append, List.length_append,
    length_flatMap_hexByte, firstDigits, List.length_map, tid.property] at hlen
  omega

/-- Two identifiers that are printed as `"0x00000000"`, and an array of the least size that is
admitted, which is left. -/
theorem hexstr_collision :
    (tidToHexstr ⟨[1, 0, 0, 0, 0, 0, 0, 0], rfl⟩ (List.replicate 128 0) 128).map (cstr ·.2) =
        some [48, 120, 48, 48, 48, 48, 48, 48, 48, 48] ∧
      (tidToHexstr ⟨[2, 0, 0, 0, 0, 0, 0, 0], rfl⟩ (List.replicate 128 0) 128).map (cstr ·.2) =
        some [48, 120, 48, 48, 48, 48, 48, 48, 48, 48] ∧
      tidToHexstr ⟨[1, 0, 0, 0, 0, 0, 0, 0], rfl⟩ (List.replicate 11 0) 11 = none := by
  decide +kernel

end ThreadId

end Tlpiexer
