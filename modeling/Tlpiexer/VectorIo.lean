import Tlpiexer.Foundations.CString
import Tlpiexer.Foundations.Transfers

/-!
# `readv` and `writev`

`src/imp/05-07.c`. An element of the vector is a buffer together with the answer of the one call
that is made for it: what `read` delivers, or how many bytes `write` takes. Both are cut to the
length of the buffer, and `none` is a call that fails. The two functions are one loop (`transferv`)
around different calls.

## Short transfers

The loop adds up what the calls return and goes on after a short one. What is transferred later then
belongs behind a part that was skipped, while the returned total counts it as if it followed
(`Transfers.NoGap` is when this makes no difference).

## Main results

* `first_bytes_iff` — when the transferred bytes are the first bytes of the buffers
-/

namespace Tlpiexer

namespace VectorIo

open CString Transfers

/-! ### The functions -/

/-- A buffer of the vector, and the answer of the call for it. -/
structure Elem (β : Type*) where
  base : Bytes
  answer : Option β

/-- A system call on a buffer, by what it is answered. -/
structure Call (β : Type*) where
  /-- The bytes it transfers. -/
  moved : Bytes → β → Bytes
  /-- The buffer behind it. -/
  after : Bytes → β → Bytes

/-- What a function returns, the buffers behind it, and what was transferred from or to the
descriptor. -/
structure Result where
  value : ℤ
  bufs : List Bytes
  moved : Bytes
  deriving DecidableEq

/-- The loop of both functions, with the total so far. -/
def transferv {β : Type*} (call : Call β) (total : ℕ) : List (Elem β) → Result
  | [] => ⟨total, [], []⟩
  | e :: iov =>
    match e.answer with
    | none => ⟨-1, (e :: iov).map Elem.base, []⟩
    | some x =>
      let r := transferv call (total + (call.moved e.base x).length) iov
      ⟨r.value, call.after e.base x :: r.bufs, call.moved e.base x ++ r.moved⟩

/-- `read` delivers `data`, up to the length of the buffer. -/
def read : Call Bytes where
  moved base data := data.take base.length
  after base data := overlay base (data.take base.length)

/-- `write` takes `count` bytes, up to the length of the buffer. -/
def write : Call ℕ where
  moved base count := base.take count
  after base _ := base

/-- `readv`. -/
def readv (iov : List (Elem Bytes)) : Result := transferv read 0 iov

/-- `writev`. -/
def writev (iov : List (Elem ℕ)) : Result := transferv write 0 iov

/-! ### The loop -/

section Loop

variable {β : Type*} {call : Call β}

/-- The elements of buffers whose calls answer what stands next to them. -/
def answered (l : List (Bytes × β)) : List (Elem β) := l.map fun e => ⟨e.1, some e.2⟩

theorem answered_injective {l l' : List (Bytes × β)} (h : answered l = answered l') : l = l' := by
  refine List.map_injective_iff.mpr ?_ h
  rintro ⟨b, x⟩ ⟨b', x'⟩ heq
  simpa using heq

/-- Either some call fails, or all of them have answers. -/
theorem fails_or_answered (iov : List (Elem β)) :
    (∃ e ∈ iov, e.answer = none) ∨ ∃ l, iov = answered l := by
  induction iov with
  | nil => exact .inr ⟨[], rfl⟩
  | cons e iov ih =>
    rcases ih with ⟨e', he', hnone⟩ | ⟨l, rfl⟩
    · exact .inl ⟨e', List.mem_cons_of_mem _ he', hnone⟩
    · obtain ⟨base, answer⟩ := e
      cases answer with
      | none => exact .inl ⟨_, List.mem_cons_self, rfl⟩
      | some x => exact .inr ⟨(base, x) :: l, rfl⟩

theorem ne_answered_of_fails {iov : List (Elem β)} (h : ∃ e ∈ iov, e.answer = none)
    (l : List (Bytes × β)) : iov ≠ answered l := by
  rintro rfl
  obtain ⟨e, he, hnone⟩ := h
  obtain ⟨x, -, rfl⟩ := List.mem_map.mp he
  cases hnone

/-- A call that fails ends the loop. -/
theorem transferv_value_of_fails {iov : List (Elem β)} (h : ∃ e ∈ iov, e.answer = none) :
    ∀ n : ℕ, (transferv call n iov).value = -1 := by
  induction iov with
  | nil => simp at h
  | cons e iov ih =>
    intro n
    obtain ⟨base, answer⟩ := e
    cases answer with
    | none => rfl
    | some x =>
      obtain ⟨e', he', hnone⟩ := h
      rcases List.mem_cons.mp he' with rfl | hmem
      · cases hnone
      · exact ih ⟨e', hmem, hnone⟩ _

/-- What a buffer holds behind its call, with the count of the call. -/
def Call.transfer (call : Call β) (count : β → ℕ) (e : Bytes × β) : Bytes × ℕ :=
  (call.after e.1 e.2, count e.2)

/-- The call transfers the first `count` bytes of the buffer as it is behind it. -/
def Call.Counts (call : Call β) (count : β → ℕ) : Prop :=
  ∀ base x, (call.after base x).take (count x) = call.moved base x

/-- **The loop when no call fails.** -/
theorem transferv_answered {count : β → ℕ} (hcall : call.Counts count) (l : List (Bytes × β)) :
    ∀ n : ℕ, transferv call n (answered l) =
      ⟨(n + (transferred (l.map (call.transfer count))).length : ℕ),
        l.map fun e => call.after e.1 e.2, transferred (l.map (call.transfer count))⟩ := by
  induction l with
  | nil => intro n; rfl
  | cons e l ih =>
    intro n
    obtain ⟨base, x⟩ := e
    have hpiece : transferred (((base, x) :: l).map (call.transfer count)) =
        call.moved base x ++ transferred (l.map (call.transfer count)) := by
      rw [List.map_cons, transferred, List.flatMap_cons]
      exact congrArg (· ++ _) (hcall base x)
    rw [hpiece, List.length_append, ← Nat.add_assoc]
    have hloop := ih (n + (call.moved base x).length)
    simp only [answered, List.map_cons, transferv] at hloop ⊢
    rw [hloop]

end Loop

/-! ### The first bytes -/

/-- If a call returned `n ≥ 0`, then the bytes it transferred are the first `n` bytes of the
buffers. -/
def Result.First (r : Result) : Prop := 0 ≤ r.value → r.moved = r.bufs.flatten.take r.value.toNat

theorem first_iff {β : Type*} {call : Call β} {count : β → ℕ} (hcall : call.Counts count)
    (iov : List (Elem β)) : (transferv call 0 iov).First ↔
      ∀ l, iov = answered l → NoGap (l.map (call.transfer count)) := by
  rcases fails_or_answered iov with hfails | ⟨l, rfl⟩
  · refine iff_of_true (fun h => ?_) fun l hl => absurd hl (ne_answered_of_fails hfails l)
    rw [transferv_value_of_fails hfails] at h
    exact absurd h (by decide)
  have hbufs : (l.map fun e => call.after e.1 e.2).flatten =
      contents (l.map (call.transfer count)) := by
    rw [contents, List.flatMap_def, List.map_map]
    rfl
  have hfirst : (transferv call 0 (answered l)).First ↔ NoGap (l.map (call.transfer count)) := by
    rw [← transferred_isPrefix_iff, List.prefix_iff_eq_take, Result.First, transferv_answered hcall,
      Nat.zero_add, Int.toNat_natCast, hbufs]
    exact ⟨fun h => h (Int.natCast_nonneg _), fun h _ => h⟩
  rw [hfirst]
  exact ⟨fun h l' hl' => answered_injective hl' ▸ h, fun h => h l rfl⟩

theorem write_counts : write.Counts id := fun _ _ => rfl

theorem read_counts : read.Counts List.length := by
  intro base data
  change (overlay base (data.take base.length)).take data.length = data.take base.length
  rw [overlay]
  by_cases h : data.length ≤ base.length
  · rw [List.take_of_length_le h, List.take_left]
  · have hle := Nat.le_of_not_le h
    rw [List.length_take_of_le hle, List.drop_length, List.append_nil, List.take_take,
      Nat.min_eq_right hle]

/-- **When the transferred bytes are the first bytes of the buffers.** A call fails, or nothing is
skipped in between. -/
theorem first_bytes_iff (riov : List (Elem Bytes)) (wiov : List (Elem ℕ)) :
    ((readv riov).First ↔ ∀ l, riov = answered l → NoGap (l.map (read.transfer List.length))) ∧
    ((writev wiov).First ↔ ∀ l, wiov = answered l → NoGap (l.map (write.transfer id))) :=
  ⟨first_iff read_counts riov, first_iff write_counts wiov⟩

/-- Two buffers of two bytes. The first call delivers or takes one byte, the second two: `readv`
returns 3 with an old byte in the middle, `writev` returns 3 and has written the first, third and
fourth byte. -/
theorem first_bytes_short :
    ¬ (readv [⟨[0, 0], some [1]⟩, ⟨[0, 0], some [2, 3]⟩]).First ∧
      ¬ (writev [⟨[1, 2], some 1⟩, ⟨[3, 4], some 2⟩]).First := by
  constructor
  · intro h
    exact absurd (h (by decide)) (by decide)
  · intro h
    exact absurd (h (by decide)) (by decide)

end VectorIo

end Tlpiexer
