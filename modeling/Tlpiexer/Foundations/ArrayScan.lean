import Mathlib.Data.List.Infix
import Tlpiexer.Foundations.CString

/-!
# Loops that walk through an array

A loop such as `while (data[i] != '\n') i += 1;` has no bound of its own. Whether it stays inside
an array, or inside the part of an array that means something, depends on what it finds there. A
`Scan` is what such code computes together with the positions it has looked at; it has no value when
the code has left the array, and the position where that happened is the last one it has looked at.

## Staying below a bound

`Scan.Within n x a` says that `x` computes `a` and looks at no position from `n` on. It has a rule
for each way of building a scan, and every rule is an equivalence. So the same rules show that code
stays below a bound and that it does not.

## Main definitions

* `ArrayScan.Scan`, `ArrayScan.Cursor` — a computation with a record, a place in an array
* `ArrayScan.skipWhile`, `ArrayScan.startsWith` — a loop over bytes, a bounded comparison

## Main results

* `ArrayScan.Scan.within_bind` — the rule for one computation after another
* `ArrayScan.within_skipWhile` — when a loop ends below the bound
* `ArrayScan.startsWith_delim` — a comparison does not get past a byte that the string has not
* `ArrayScan.startsWith_eq_true_iff` — the comparison is that of `strncmp`
* `ArrayScan.Upto.within_skipWhile` — a loop over the part of an array below a bound
-/

namespace ArrayScan

open CString

variable {α β : Type} {n : ℕ}

/-! ### Computations with a record -/

/-- What code that reads an array computes, and the positions it looks at. -/
structure Scan (α : Type) where
  value : Option α
  seen : List ℕ

namespace Scan

/-- One computation after another. -/
def andThen (x : Scan α) (f : α → Scan β) : Scan β :=
  match x.value with
  | none => ⟨none, x.seen⟩
  | some a => ⟨(f a).value, x.seen ++ (f a).seen⟩

instance : Monad Scan where
  pure a := ⟨some a, []⟩
  bind := andThen

/-- The scan computes `a` and looks at positions below `n` only. -/
def Within (n : ℕ) (x : Scan α) (a : α) : Prop := x.value = some a ∧ ∀ i ∈ x.seen, i < n

/-- Code that looks at position `i` and then goes on with `x`. -/
def see (i : ℕ) (x : Scan α) : Scan α := ⟨x.value, i :: x.seen⟩

/-- The scan computes something and looks at positions below `n` only. -/
def Below (n : ℕ) (x : Scan α) : Prop := x.value.isSome ∧ ∀ i ∈ x.seen, i < n

instance (x : Scan α) : Decidable (Below n x) := inferInstanceAs (Decidable (_ ∧ _))

@[simp] theorem value_pure (a : α) : (pure a : Scan α).value = some a := rfl

@[simp] theorem value_bind (x : Scan α) (f : α → Scan β) :
    (x >>= f).value = x.value.bind fun a => (f a).value := by
  change (andThen x f).value = _
  rw [andThen]
  cases x.value <;> rfl

@[simp] theorem value_see (i : ℕ) (x : Scan α) : (see i x).value = x.value := rfl

@[simp] theorem within_pure {a b : α} : Within n (pure a : Scan α) b ↔ a = b := by
  simp [Within, Pure.pure]

theorem within_see {x : Scan α} {a : α} {i : ℕ} :
    Within n (see i x) a ↔ i < n ∧ Within n x a := by
  simp only [Within, see, List.mem_cons, forall_eq_or_imp]
  tauto

/-- **One computation after another** stays below a bound when both do. -/
theorem within_bind {x : Scan α} {f : α → Scan β} {b : β} :
    Within n (x >>= f) b ↔ ∃ a, Within n x a ∧ Within n (f a) b := by
  change Within n (andThen x f) b ↔ _
  rw [andThen]
  cases hx : x.value with
  | none => simp [Within, hx]
  | some a =>
    simp only [Within, hx, List.mem_append, Option.some.injEq]
    constructor
    · rintro ⟨hval, hseen⟩
      exact ⟨a, ⟨rfl, fun i hi => hseen i (.inl hi)⟩, hval, fun i hi => hseen i (.inr hi)⟩
    · rintro ⟨a', ⟨rfl, hx'⟩, hval, hf⟩
      exact ⟨hval, fun i hi => hi.elim (hx' i) (hf i)⟩

theorem below_iff {x : Scan α} : Below n x ↔ ∃ a, Within n x a := by
  simp only [Below, Within, Option.isSome_iff_exists, exists_and_right]

theorem Within.mono {x : Scan α} {a : α} {m : ℕ} (h : Within n x a) (hle : n ≤ m) :
    Within m x a :=
  ⟨h.1, fun i hi => Nat.lt_of_lt_of_le (h.2 i hi) hle⟩

theorem Within.unique {x : Scan α} {a b : α} {m : ℕ} (h : Within n x a) (h' : Within m x b) :
    a = b :=
  Option.some.inj (h.1.symm.trans h'.1)

end Scan

open Scan

/-- A place in an array: its index, and the bytes from there on. -/
structure Cursor where
  pos : ℕ
  rest : Bytes
  deriving DecidableEq

/-- The place `k` bytes further on. -/
def Cursor.advance (c : Cursor) (k : ℕ) : Cursor := ⟨c.pos + k, c.rest.drop k⟩

/-! ### Loops -/

/-- The loop that goes on as long as the bytes satisfy `p`. -/
def skipWhile (p : UInt8 → Bool) : ℕ → Bytes → Scan Cursor
  | i, [] => see i ⟨none, []⟩
  | i, b :: s => see i (if p b then skipWhile p (i + 1) s else pure ⟨i, b :: s⟩)

variable {p : UInt8 → Bool} {i : ℕ} {s t run : Bytes} {b : UInt8}

/-- Either all bytes satisfy `p`, or there is a first one that does not. -/
theorem forall_or_exists_append (p : UInt8 → Bool) (s : Bytes) :
    (∀ x ∈ s, p x) ∨ ∃ run b t, s = run ++ b :: t ∧ (∀ x ∈ run, p x) ∧ p b = false := by
  induction s with
  | nil => simp
  | cons a s ih =>
    by_cases ha : p a
    · rcases ih with hall | ⟨run, b, t, rfl, hrun, hb⟩
      · exact .inl (by simpa [ha] using hall)
      · exact .inr ⟨a :: run, b, t, rfl, by simpa [ha] using hrun, hb⟩
    · exact .inr ⟨[], a, s, rfl, by simp, by simpa using ha⟩

theorem value_skipWhile_of_forall (h : ∀ x ∈ s, p x) (i : ℕ) : (skipWhile p i s).value = none := by
  induction s generalizing i with
  | nil => rfl
  | cons a s ih =>
    rw [skipWhile, if_pos (h a List.mem_cons_self)]
    exact ih (fun x hx => h x (List.mem_cons_of_mem _ hx)) _

theorem value_skipWhile_append (hrun : ∀ x ∈ run, p x) (hb : p b = false) (i : ℕ) (t : Bytes) :
    (skipWhile p i (run ++ b :: t)).value = some ⟨i + run.length, b :: t⟩ := by
  induction run generalizing i with
  | nil => simp [skipWhile, hb]
  | cons a run ih =>
    rw [List.cons_append, skipWhile, if_pos (hrun a List.mem_cons_self), value_see,
      ih (fun x hx => hrun x (List.mem_cons_of_mem _ hx)), List.length_cons]
    simp only [Nat.add_assoc, Nat.add_comm 1]

theorem within_skipWhile_append (hrun : ∀ x ∈ run, p x) (hb : p b = false) {c : Cursor} :
    Within n (skipWhile p i (run ++ b :: t)) c ↔
      c = ⟨i + run.length, b :: t⟩ ∧ i + run.length < n := by
  induction run generalizing i with
  | nil =>
    rw [List.nil_append, skipWhile, hb, if_neg Bool.false_ne_true, within_see, within_pure]
    exact ⟨fun h => ⟨h.2.symm, h.1⟩, fun h => ⟨h.2, h.1.symm⟩⟩
  | cons a run ih =>
    rw [List.cons_append, skipWhile, if_pos (hrun a List.mem_cons_self), within_see,
      ih fun x hx => hrun x (List.mem_cons_of_mem _ hx), List.length_cons,
      Nat.add_right_comm i 1, ← Nat.add_assoc]
    constructor
    · exact fun h => h.2
    · exact fun h => ⟨by omega, h⟩

/-- **A loop ends below a bound** at the first byte that stops it, if that stands there. -/
theorem within_skipWhile {c : Cursor} :
    Within n (skipWhile p i s) c ↔ ∃ run b t, s = run ++ b :: t ∧ (∀ x ∈ run, p x) ∧
      p b = false ∧ c = ⟨i + run.length, b :: t⟩ ∧ i + run.length < n := by
  constructor
  · intro h
    rcases forall_or_exists_append p s with hall | ⟨run, b, t, rfl, hrun, hb⟩
    · have hnone := value_skipWhile_of_forall hall i
      rw [h.1] at hnone
      cases hnone
    · exact ⟨run, b, t, rfl, hrun, hb, (within_skipWhile_append hrun hb).mp h⟩
  · rintro ⟨run, b, t, rfl, hrun, hb, h⟩
    exact (within_skipWhile_append hrun hb).mpr h

/-! ### Comparison -/

/-- `strncmp(&data[i], t, n) == 0`, for a string `t` of `n` bytes without a NUL: it looks at the
bytes through the first one that differs. -/
def startsWith : Bytes → ℕ → Bytes → Scan Bool
  | [], _, _ => pure true
  | _ :: _, i, [] => see i ⟨none, []⟩
  | a :: t, i, b :: s => see i (if b = a then startsWith t (i + 1) s else pure false)

/-- A comparison that finds the string has looked at the bytes of the string. -/
theorem within_startsWith_true (hi : i ≤ n) :
    Within n (startsWith t i s) true ↔ t <+: s ∧ i + t.length ≤ n := by
  induction t generalizing i s with
  | nil => simp [startsWith, hi]
  | cons a t ih =>
    cases s with
    | nil => simp [startsWith, Within]
    | cons b s =>
      rw [startsWith, within_see, List.length_cons]
      by_cases hab : b = a
      · rw [if_pos hab, hab, List.prefix_cons_inj]
        constructor
        · rintro ⟨hlt, h⟩
          obtain ⟨hpre, hle⟩ := (ih hlt).mp h
          exact ⟨hpre, by omega⟩
        · rintro ⟨hpre, hle⟩
          exact ⟨by omega, (ih (by omega)).mpr ⟨hpre, by omega⟩⟩
      · simp [if_neg hab, List.cons_prefix_cons, Ne.symm hab]

/-- **A comparison does not get past a byte that the string has not.** -/
theorem startsWith_delim (hb : b ∉ t) (i : ℕ) (s rest : Bytes) :
    Within (i + s.length + 1) (startsWith t i (s ++ b :: rest)) (decide (t <+: s)) := by
  induction t generalizing i s with
  | nil => simp [startsWith]
  | cons a t ih =>
    have hba : b ≠ a := fun h => hb (h ▸ List.mem_cons_self)
    cases s with
    | nil => simp [startsWith, hba, within_see]
    | cons c s =>
      rw [List.cons_append, startsWith, within_see, List.length_cons]
      refine ⟨by omega, ?_⟩
      by_cases hca : c = a
      · have h := ih (fun h => hb (List.mem_cons_of_mem _ h)) (i + 1) s
        simpa [hca, List.prefix_cons_inj] using h.mono (by omega)
      · simp [hca, List.cons_prefix_cons, Ne.symm hca]

theorem value_startsWith {r : Bool} (h : (startsWith t i s).value = some r) :
    r = decide (t <+: s) := by
  induction t generalizing i s with
  | nil => simpa [startsWith, eq_comm] using h
  | cons a t ih =>
    cases s with
    | nil => cases h
    | cons b s =>
      rw [startsWith, value_see] at h
      by_cases hab : b = a
      · rw [if_pos hab] at h
        simpa [hab, List.prefix_cons_inj] using ih h
      · rw [if_neg hab] at h
        simpa [List.cons_prefix_cons, Ne.symm hab, eq_comm] using h

/-- The comparison is that of `strncmp`. -/
theorem startsWith_eq_true_iff (ht : (0 : UInt8) ∉ t) {r : Bool}
    (h : (startsWith t i s).value = some r) : r = true ↔ strncmp s t t.length = 0 := by
  have htake : strncmp s t t.length = strncmp (s.take t.length) t t.length := by
    rw [strncmp, strncmp, List.take_take, Nat.min_self]
  rw [value_startsWith h, decide_eq_true_iff, htake,
    strncmp_eq_zero_iff_of_notMem (List.length_take_le _ _) rfl ht, List.prefix_iff_eq_take,
    eq_comm]

/-! ### The part of an array below the bound -/

/-- From place `i` on, the array has the bytes `s` below the bound `n`, and `t` behind it; `t` is
nothing where the array ends below the bound. -/
def Upto (n i : ℕ) (s t : Bytes) : Prop := i + s.length = n ∨ t = [] ∧ i + s.length < n

namespace Upto

theorem le (h : Upto n i s t) : i + s.length ≤ n := by
  rcases h with h | ⟨-, h⟩ <;> omega

theorem of_append {u : Bytes} (h : Upto n i (u ++ s) t) : Upto n (i + u.length) s t := by
  rw [Upto, List.length_append, ← Nat.add_assoc] at h
  exact h

theorem take_drop (n : ℕ) (s : Bytes) : Upto n 0 (s.take n) (s.drop n) := by
  rcases Nat.lt_or_ge s.length n with h | h
  · exact .inr ⟨List.drop_of_length_le h.le, by rw [List.length_take]; omega⟩
  · exact .inl (by rw [List.length_take]; omega)

/-- A byte below the bound is one of `s`. -/
theorem exists_append (h : Upto n i s t) {run v : Bytes} (heq : s ++ t = run ++ b :: v)
    (hlt : i + run.length < n) : ∃ w, s = run ++ b :: w ∧ v = w ++ t := by
  rcases List.append_eq_append_iff.mp heq with ⟨u, hrun, ht⟩ | ⟨u, hs, hv⟩
  · rcases h with h | ⟨rfl, -⟩
    · rw [hrun, List.length_append] at hlt
      omega
    · simp at ht
  · cases u with
    | nil =>
      rcases h with h | ⟨rfl, -⟩
      · rw [hs, List.append_nil] at h
        omega
      · simp at hv
    | cons a u =>
      obtain ⟨rfl, rfl⟩ := List.cons.inj hv
      exact ⟨u, hs, rfl⟩

/-- **A loop ends below the bound** if it is stopped by a byte of `s`. -/
theorem within_skipWhile (h : Upto n i s t) {c : Cursor} :
    Within n (skipWhile p i (s ++ t)) c ↔ ∃ run b w, s = run ++ b :: w ∧ (∀ x ∈ run, p x) ∧
      p b = false ∧ c = ⟨i + run.length, b :: w ++ t⟩ := by
  rw [ArrayScan.within_skipWhile]
  constructor
  · rintro ⟨run, b, v, heq, hrun, hb, rfl, hlt⟩
    obtain ⟨w, hs, rfl⟩ := h.exists_append heq hlt
    exact ⟨run, b, w, hs, hrun, hb, rfl⟩
  · rintro ⟨run, b, w, rfl, hrun, hb, rfl⟩
    have hle := h.le
    rw [List.length_append, List.length_cons] at hle
    exact ⟨run, b, w ++ t, by simp, hrun, hb, by simp, by omega⟩

/-- A string is found below the bound if `s` starts with it. -/
theorem within_startsWith_true (h : Upto n i s t) {u : Bytes} :
    Within n (startsWith u i (s ++ t)) true ↔ u <+: s := by
  have hle := h.le
  rw [ArrayScan.within_startsWith_true (by omega)]
  constructor
  · rintro ⟨hpre, hlen⟩
    rcases h with h | ⟨rfl, -⟩
    · exact List.prefix_of_prefix_length_le hpre (List.prefix_append s t) (by omega)
    · simpa using hpre
  · intro hpre
    exact ⟨hpre.trans (List.prefix_append s t), by have := hpre.length_le; omega⟩

end Upto

/-! ### Places given by what is left -/

/-- The place in the array `s ++ t` where `w` begins, the last bytes of `s`. -/
def lastPlace (s t w : Bytes) : Cursor := ⟨s.length - w.length, w ++ t⟩

theorem advance_lastPlace {w : Bytes} (h : b :: w <:+ s) :
    (lastPlace s t (b :: w)).advance 1 = lastPlace s t w := by
  have hle := h.length_le
  rw [List.length_cons] at hle
  have hpos : s.length - (b :: w).length + 1 = s.length - w.length := by
    rw [List.length_cons]
    omega
  rw [lastPlace, Cursor.advance, hpos]
  rfl

/-- A loop from such a place ends at such a place. -/
theorem Upto.within_skipWhile_lastPlace (h : Upto n 0 s t) {w : Bytes} (hw : w <:+ s)
    {c : Cursor} : Within n (skipWhile p (lastPlace s t w).pos (lastPlace s t w).rest) c ↔
      ∃ run b v, w = run ++ b :: v ∧ (∀ x ∈ run, p x) ∧ p b = false ∧
        c = lastPlace s t (b :: v) := by
  obtain ⟨pre, rfl⟩ := hw
  have hpos : (pre ++ w).length - w.length = 0 + pre.length := by
    rw [List.length_append]
    omega
  rw [lastPlace, hpos, h.of_append.within_skipWhile]
  refine exists_congr fun run => exists_congr fun b => exists_congr fun v => ?_
  refine and_congr_right fun hw => and_congr_right fun _ => and_congr_right fun _ => ?_
  have hrun : 0 + pre.length + run.length = (pre ++ w).length - (b :: v).length := by
    rw [hw]
    simp only [List.length_append]
    omega
  rw [hrun, lastPlace]

end ArrayScan
