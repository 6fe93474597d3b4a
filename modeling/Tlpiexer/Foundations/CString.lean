import Mathlib.Data.List.TakeWhile
import Mathlib.Data.Nat.Notation

/-!
# Strings in character arrays

A C string is not a type of its own: it is the part of a character array before the first NUL,
and whatever lies behind that byte is still there and still readable. Functions that disagree
about where a string ends are the usual source of surprises, so an array is modelled as the whole
list of its bytes and the string it holds is *computed* from it by `cstr`.

## The end of an array

The library functions below only look at bytes the array has. Where a C function would read on
behind the array (a copy from an array without a NUL) the model answers `none` instead of
inventing a byte. Comparison is the exception: `strcmp` and `strncmp` treat the end of the list
like a NUL, which is what the bound of `strncmp` asks for.

## Main definitions

* `CString.CharArray` — an array of a fixed size
* `CString.cstr` — the string an array holds
* `CString.strcmp`, `CString.strncmp`, `CString.strcpy`, `CString.strncpy`, `CString.snprintf`
* `CString.overlay` — the effect of `memcpy` or `read` on the start of an array

## Main results

* `CString.strcmp_eq_zero_iff`, `strncmp_eq_zero_iff` — comparison decides equality of strings
* `CString.strcpy_append` — a copy that finds its NUL does not leave its array
* `CString.cstr_snprintf` — what a bounded print leaves in its buffer
-/

namespace CString

/-- The contents of a character array, in memory order. -/
abbrev Bytes := List UInt8

/-- `char a[n]`: an array of exactly `n` bytes. -/
abbrev CharArray (n : ℕ) := { s : Bytes // s.length = n }

/-- The array of `n` bytes that starts with `s`, cut off or filled up with NULs. -/
def CharArray.ofBytes (n : ℕ) (s : Bytes) : CharArray n :=
  ⟨(s ++ List.replicate n 0).take n, by simp⟩

theorem CharArray.val_ofBytes {n : ℕ} {s : Bytes} (h : s.length = n) :
    (CharArray.ofBytes n s).val = s := by
  simp [CharArray.ofBytes, ← h]

/-- `a[i] = b`. There is no effect outside the array. -/
def CharArray.set {n : ℕ} (a : CharArray n) (i : ℕ) (b : UInt8) : CharArray n :=
  ⟨a.val.set i b, by rw [List.length_set, a.property]⟩

/-! ### The string an array holds -/

/-- The bytes before the first NUL; the whole array when it has none. -/
def cstr (s : Bytes) : Bytes := s.takeWhile (· ≠ 0)

@[simp] theorem cstr_nil : cstr [] = [] := rfl

@[simp] theorem cstr_zero_cons (s : Bytes) : cstr (0 :: s) = [] := by simp [cstr]

theorem cstr_cons_of_ne {b : UInt8} (hb : b ≠ 0) (s : Bytes) : cstr (b :: s) = b :: cstr s := by
  simp [cstr, hb]

theorem zero_notMem_cstr (s : Bytes) : (0 : UInt8) ∉ cstr s := by
  intro h
  have := List.mem_takeWhile_imp h
  simp at this

/-- Behind a NUL nothing counts. -/
theorem cstr_append_of_mem {s : Bytes} (h : (0 : UInt8) ∈ s) (t : Bytes) :
    cstr (s ++ t) = cstr s := by
  induction s with
  | nil => simp at h
  | cons b s ih =>
    by_cases hb : b = 0
    · subst hb; simp
    · have hs : (0 : UInt8) ∈ s := by simpa [Ne.symm hb] using h
      rw [List.cons_append, cstr_cons_of_ne hb, cstr_cons_of_ne hb, ih hs]

/-- A NUL-free text is followed by the string behind it. -/
theorem cstr_append_of_notMem {s : Bytes} (h : (0 : UInt8) ∉ s) (t : Bytes) :
    cstr (s ++ t) = s ++ cstr t := by
  induction s with
  | nil => rfl
  | cons b s ih =>
    have hb : b ≠ 0 := fun hb => h (by simp [hb])
    have hs : (0 : UInt8) ∉ s := fun hs => h (by simp [hs])
    rw [List.cons_append, cstr_cons_of_ne hb, ih hs, List.cons_append]

/-- A NUL-free text followed by a NUL holds exactly that text. -/
theorem cstr_append_zero {s : Bytes} (h : (0 : UInt8) ∉ s) (t : Bytes) :
    cstr (s ++ 0 :: t) = s := by
  rw [cstr_append_of_notMem h, cstr_zero_cons, List.append_nil]

theorem cstr_eq_self {s : Bytes} (h : (0 : UInt8) ∉ s) : cstr s = s := by
  simpa using cstr_append_of_notMem h []

/-- A NUL ends the string, wherever else there is one. -/
theorem cstr_append_zero_cons (s t : Bytes) : cstr (s ++ 0 :: t) = cstr s := by
  by_cases h : (0 : UInt8) ∈ s
  · exact cstr_append_of_mem h _
  · rw [cstr_append_zero h, cstr_eq_self h]

/-- An array with a NUL is its string, the NUL, and the rest. -/
theorem exists_eq_cstr_append {s : Bytes} (h : (0 : UInt8) ∈ s) : ∃ t, s = cstr s ++ 0 :: t := by
  induction s with
  | nil => simp at h
  | cons b s ih =>
    by_cases hb : b = 0
    · subst hb; exact ⟨s, by simp⟩
    · obtain ⟨t, ht⟩ := ih (by simpa [Ne.symm hb] using h)
      refine ⟨t, ?_⟩
      rw [cstr_cons_of_ne hb, List.cons_append, ← ht]

theorem cstr_length_lt {s : Bytes} (h : (0 : UInt8) ∈ s) : (cstr s).length < s.length := by
  obtain ⟨t, ht⟩ := exists_eq_cstr_append h
  have := congrArg List.length ht
  simp only [List.length_append, List.length_cons] at this
  omega

/-! ### Comparison -/

/-- `strcmp`: the difference of the first two bytes that differ, `0` when a NUL (or the end of
both arrays) comes first. -/
def strcmp : Bytes → Bytes → ℤ
  | [], [] => 0
  | [], b :: _ => -(b.toNat : ℤ)
  | a :: _, [] => a.toNat
  | a :: s, b :: t =>
    if a ≠ b then (a.toNat : ℤ) - b.toNat
    else if a = 0 then 0
    else strcmp s t

/-- `strncmp`: as `strcmp`, looking at no more than `n` bytes. -/
def strncmp (s t : Bytes) (n : ℕ) : ℤ := strcmp (s.take n) (t.take n)

private theorem toNat_sub_ne_zero {a b : UInt8} (h : a ≠ b) : (a.toNat : ℤ) - b.toNat ≠ 0 := by
  intro hz
  have hn : a.toNat = b.toNat := by omega
  exact h (UInt8.toNat_inj.mp hn)

/-- **Comparison decides equality of the strings.** -/
theorem strcmp_eq_zero_iff : ∀ s t : Bytes, strcmp s t = 0 ↔ cstr s = cstr t
  | [], [] => by simp [strcmp]
  | [], b :: t => by
    by_cases hb : b = 0
    · subst hb; simp [strcmp]
    · have hn : b.toNat ≠ 0 := fun h => hb (UInt8.toNat_inj.mp (by simpa using h))
      simp only [strcmp, cstr_nil, cstr_cons_of_ne hb, reduceCtorEq, iff_false]
      omega
  | a :: s, [] => by
    by_cases ha : a = 0
    · subst ha; simp [strcmp]
    · have hn : a.toNat ≠ 0 := fun h => ha (UInt8.toNat_inj.mp (by simpa using h))
      simp only [strcmp, cstr_nil, cstr_cons_of_ne ha, reduceCtorEq, iff_false]
      omega
  | a :: s, b :: t => by
    rw [strcmp]
    by_cases hab : a = b
    · subst hab
      by_cases ha : a = 0
      · subst ha; simp
      · rw [if_neg (by simp), if_neg ha, cstr_cons_of_ne ha, cstr_cons_of_ne ha,
          strcmp_eq_zero_iff s t]
        simp
    · rw [if_pos hab]
      refine iff_of_false (toNat_sub_ne_zero hab) fun h => hab ?_
      -- the first bytes differ, so the strings can only agree if both are empty
      by_cases ha : a = 0
      · by_cases hb : b = 0
        · rw [ha, hb]
        · rw [ha, cstr_zero_cons, cstr_cons_of_ne hb] at h; cases h
      · by_cases hb : b = 0
        · rw [hb, cstr_zero_cons, cstr_cons_of_ne ha] at h; cases h
        · rw [cstr_cons_of_ne ha, cstr_cons_of_ne hb] at h
          exact (List.cons.inj h).1

theorem strncmp_eq_zero_iff (s t : Bytes) (n : ℕ) :
    strncmp s t n = 0 ↔ cstr (s.take n) = cstr (t.take n) :=
  strcmp_eq_zero_iff _ _

/-- Against a string without a NUL that fills its bytes, a bounded comparison is exact. -/
theorem strncmp_eq_zero_iff_of_notMem {s t : Bytes} {n : ℕ} (hlen : s.length ≤ n)
    (htlen : t.length = n) (ht : (0 : UInt8) ∉ t) : strncmp s t n = 0 ↔ s = t := by
  rw [strncmp_eq_zero_iff, List.take_of_length_le hlen, List.take_of_length_le htlen.le,
    cstr_eq_self ht]
  refine ⟨fun h => ?_, fun h => by rw [h, cstr_eq_self ht]⟩
  -- the string that `s` holds is already as long as `s` may be
  have hsub : (cstr s).Sublist s := List.takeWhile_sublist _
  have hcstr : cstr s = s := by
    refine hsub.eq_of_length_le ?_
    rw [h, htlen]
    exact hlen
  rw [← h, hcstr]

/-! ### Copying and printing -/

/-- `dst` with its first bytes replaced by `src`. -/
def overlay (dst src : Bytes) : Bytes := src ++ dst.drop src.length

theorem length_overlay {dst src : Bytes} (h : src.length ≤ dst.length) :
    (overlay dst src).length = dst.length := by
  simp only [overlay, List.length_append, List.length_drop]
  omega

@[simp] theorem take_overlay (dst src : Bytes) : (overlay dst src).take src.length = src := by
  simp [overlay]

theorem CharArray.val_ofBytes_overlay {n : ℕ} (dst : CharArray n) {src : Bytes}
    (h : src.length ≤ n) : (ofBytes n (overlay dst.val src)).val = overlay dst.val src :=
  val_ofBytes ((length_overlay (by rw [dst.property]; exact h)).trans dst.property)

/-- Bytes that fit are found at the start of the array they were put into. -/
theorem CharArray.take_ofBytes_overlay {n : ℕ} (dst : CharArray n) {src : Bytes}
    (h : src.length ≤ n) : (ofBytes n (overlay dst.val src)).val.take src.length = src := by
  rw [val_ofBytes_overlay dst h, CString.take_overlay]

/-- `strcpy`: the bytes of `src` through its first NUL go over the start of `dst`. There is no
answer when `src` has no NUL to stop at or when they do not fit. -/
def strcpy (dst src : Bytes) : Option Bytes :=
  if (0 : UInt8) ∈ src ∧ (cstr src).length < dst.length then
    some (overlay dst (cstr src ++ [0]))
  else none

theorem cstr_overlay_zero {s : Bytes} (h : (0 : UInt8) ∉ s) (dst : Bytes) :
    cstr (overlay dst (s ++ [0])) = s := by
  rw [overlay, List.append_assoc, List.singleton_append]
  exact cstr_append_zero h _

/-- A copy that finds its NUL inside `src` stays inside `dst`, whatever lies behind the two. -/
theorem strcpy_append {dst src : Bytes} (h : (0 : UInt8) ∈ src) (hlen : src.length ≤ dst.length)
    (dst' src' : Bytes) :
    strcpy (dst ++ dst') (src ++ src') = some (overlay dst (cstr src ++ [0]) ++ dst') := by
  have hlt : (cstr src).length + 1 ≤ dst.length := Nat.le_trans (cstr_length_lt h) hlen
  have hfit : (cstr src).length < (dst ++ dst').length := by
    rw [List.length_append]; omega
  rw [strcpy, cstr_append_of_mem h, if_pos ⟨List.mem_append_left _ h, hfit⟩, overlay, overlay,
    List.drop_append_of_le_length (by rw [List.length_append]; exact hlt), ← List.append_assoc]

/-- A copy that finds no NUL in `src` fills `dst` and goes on behind it. -/
theorem strcpy_append_of_notMem {dst src : Bytes} (h : (0 : UInt8) ∉ src)
    (hlen : src.length = dst.length) (dst' src' : Bytes) :
    strcpy (dst ++ dst') (src ++ src') = (strcpy dst' src').map (src ++ ·) := by
  have hmem : (0 : UInt8) ∈ src ++ src' ↔ (0 : UInt8) ∈ src' := by simp [h]
  have hcstr : cstr (src ++ src') = src ++ cstr src' := by
    rw [cstr, List.takeWhile_append_of_pos fun b hb => ?_]
    · rfl
    · have hb0 : b ≠ 0 := fun h0 => h (h0 ▸ hb)
      simpa using hb0
  have hlt : (src ++ cstr src').length < (dst ++ dst').length ↔
      (cstr src').length < dst'.length := by
    simp only [List.length_append]
    omega
  simp only [strcpy, hmem, hcstr, hlt]
  split
  · have hdrop : (dst ++ dst').drop (src ++ cstr src' ++ [0]).length =
        dst'.drop (cstr src' ++ [0]).length := by
      rw [List.append_assoc, List.length_append, hlen, ← List.drop_drop, List.drop_left]
    rw [Option.map_some, overlay, hdrop, overlay]
    simp only [List.append_assoc]
  · rfl

/-- Copying a string over the same string changes nothing. -/
theorem strcpy_eq_self {dst src : Bytes} (h : (0 : UInt8) ∈ src) (hlen : src.length = dst.length)
    (heq : cstr dst = cstr src) : strcpy dst src = some dst := by
  have hlt : (cstr src).length < dst.length := hlen ▸ cstr_length_lt h
  have hdst : (0 : UInt8) ∈ dst := by
    by_contra hn
    rw [← heq, cstr_eq_self hn] at hlt
    exact Nat.lt_irrefl _ hlt
  obtain ⟨t, ht⟩ := exists_eq_cstr_append hdst
  have hdrop : dst.drop (cstr dst ++ [0]).length = t := by
    have hsplit : dst = (cstr dst ++ [0]) ++ t := by simpa using ht
    exact (congrArg (List.drop _) hsplit).trans (List.drop_left ..)
  rw [strcpy, if_pos ⟨h, hlt⟩, ← heq, overlay, hdrop, List.append_assoc, List.singleton_append,
    ← ht]

theorem strcpy_eq_none {src : Bytes} (h : (0 : UInt8) ∉ src) (dst : Bytes) :
    strcpy dst src = none :=
  if_neg fun hc => h hc.1

/-- `strncpy(dst, src, n)`: the string in the first `n` bytes of `src`, filled up to `n` bytes with
NULs. -/
def strncpy (dst src : Bytes) (n : ℕ) : Bytes :=
  overlay dst (cstr (src.take n) ++ List.replicate (n - (cstr (src.take n)).length) 0)

/-- `snprintf(dst, n, ...)` printing `text`: at most `n - 1` bytes of it and a NUL, nothing at
all when `n` is `0`. -/
def snprintf (dst : Bytes) (n : ℕ) (text : Bytes) : Bytes :=
  if n = 0 then dst else overlay dst (text.take (n - 1) ++ [0])

theorem length_snprintf {dst : Bytes} {n : ℕ} (hn : n ≤ dst.length) (text : Bytes) :
    (snprintf dst n text).length = dst.length := by
  rw [snprintf]
  split
  · rfl
  · refine length_overlay ?_
    simp only [List.length_append, List.length_take, List.length_singleton]
    omega

/-- After a bounded print the buffer holds the text cut off at `n - 1` bytes. -/
theorem cstr_snprintf {n : ℕ} (hn : 0 < n) (dst : Bytes) {text : Bytes}
    (h : (0 : UInt8) ∉ text) : cstr (snprintf dst n text) = text.take (n - 1) := by
  rw [snprintf, if_neg (by omega)]
  exact cstr_overlay_zero (fun hz => h (List.mem_of_mem_take hz)) dst

/-- What `%s` prints from the start of these bytes, if there is a NUL to stop at. -/
def printed (s : Bytes) : Option Bytes := if (0 : UInt8) ∈ s then some (cstr s) else none

theorem printed_append {s : Bytes} (h : (0 : UInt8) ∈ s) (t : Bytes) :
    printed (s ++ t) = some (cstr s) := by
  rw [printed, if_pos (List.mem_append_left t h), cstr_append_of_mem h]

/-- An array is terminated if its string is shorter than the array. -/
theorem zero_mem_of_length_lt {n : ℕ} {c : CharArray n} (h : (cstr c.val).length < n) :
    (0 : UInt8) ∈ c.val := by
  by_cases hz : (0 : UInt8) ∈ c.val
  · exact hz
  · rw [cstr_eq_self hz, c.property] at h
    exact absurd h (Nat.lt_irrefl n)

end CString
