import Mathlib.Data.List.Induction
import Tlpiexer.Constants
import Tlpiexer.Foundations.CString
import Tlpiexer.Foundations.Segments

/-!
# The last lines of a file

`showline` of `src/imp/13-5.c`. The function looks for the place where the last `numline` lines of a
file begin, reading it backwards in blocks of `BUF_SIZE` and counting newlines, and then prints the
file from there.

## What the model makes of C

* The system calls are numbered in the order they are made and answered by an `Env`. On a regular
  file none of them fails and every `read` delivers what it is asked for (`regular`).
* `numlf` is an `int`. That it would pass `INT_MAX` is an outcome of its own, and so is a write
  outside of `buf`. As long as `numlf` is not negative, comparing it with the `size_t` `numline` is
  comparing numbers.
* `rsize` is a `size_t`, so that a failed `read` counts as `SIZE_MAX` bytes where it is compared
  with `0`.
* Sizes and offsets are natural numbers: an `off_t` holds the size of any file.

## Main results

* `findStart_regular` — the scan in blocks finds what a scan of the whole file finds
* `showline_prints_iff` — for which files the last lines are printed
-/

namespace Tlpiexer

namespace Tail

open CString Segments

/-- `'\n'`. -/
def lf : UInt8 := 10

/-! ### The environment -/

/-- The answers of the system calls, numbered in the order they are made. -/
structure Env where
  /-- The call fails. -/
  fails : ℕ → Bool
  /-- How many of the bytes that are there for it a call of `read` delivers. -/
  delivers : ℕ → ℕ → ℕ

/-- `read(fd, buf, n)` at the file offset `pos`, as call number `t`. -/
def Env.read (env : Env) (t : ℕ) (content : Bytes) (pos n : ℕ) : Option Bytes :=
  let ready := (content.drop pos).take n
  if env.fails t then none else some (ready.take (env.delivers t ready.length))

/-- The calls on a regular file. -/
def regular : Env where
  fails _ := false
  delivers _ n := n

@[simp] theorem regular_read (t : ℕ) (content : Bytes) (pos n : ℕ) :
    regular.read t content pos n = some ((content.drop pos).take n) := by
  rw [Env.read, if_neg (by simp [regular])]
  exact congrArg some (List.take_length ..)

/-! ### Looking for the start -/

/-- The `for` loop over `buf[i - 1]`, ..., `buf[0]`: `numlf` behind it, and the index at which it is
left by `break`. There is no answer when `numlf` would pass `INT_MAX`. -/
def scanBlock (numline : ℕ) (buf : Bytes) : ℕ → ℕ → Option (ℕ × Option ℕ)
  | 0, numlf => some (numlf, none)
  | i + 1, numlf =>
    let numlf' := if buf[i]? = some lf then numlf + 1 else numlf
    if numlf' ≤ intMax then
      if numlf' > numline then some (numlf', some i) else scanBlock numline buf i numlf'
    else none

/-- How the search ends. -/
inductive Scan
  /-- The offset that is found, and the number of the next system call. -/
  | found (offset calls : ℕ)
  | failed
  | overflow
  deriving DecidableEq

/-- Where the block in front of `preoff` begins. -/
def blockStart (preoff : ℕ) : ℕ := if preoff > bufSize then preoff - bufSize else 0

/-- The `while` loop that goes back block by block. The first argument bounds the number of rounds,
the second is the number of the next system call. -/
def findStart (env : Env) (content : Bytes) (numline : ℕ) : ℕ → ℕ → ℕ → ℕ → Option Scan
  | 0, _, _, _ => none
  | fuel + 1, t, preoff, numlf =>
    let offset := blockStart preoff
    if env.fails t then some .failed
    else match env.read (t + 1) content offset (preoff - offset) with
      | none => some .failed
      | some buf =>
        if env.fails (t + 2) then some .failed
        else match scanBlock numline buf buf.length numlf with
          | none => some .overflow
          | some (numlf', stop) =>
            let offset' := offset + stop.elim 0 (· + 1)
            if offset' = 0 ∨ numlf' > numline then some (.found offset' (t + 3))
            else findStart env content numline fuel (t + 3) offset numlf'

/-! ### Printing -/

/-- How `showline` ends, and what it has printed. -/
inductive Outcome
  | exit (status : ℤ) (out : Bytes)
  /-- `buf[index]` is written, and there is no such element. -/
  | outOfBounds (index : ℕ) (out : Bytes)
  /-- `numlf` passes `INT_MAX`. -/
  | overflow
  deriving DecidableEq

/-- The loop that prints the file from `pos` on, and `close`. A failed `read` does not end it. -/
def display (env : Env) (content : Bytes) : ℕ → ℕ → ℕ → Bytes → Option Outcome
  | 0, _, _, _ => none
  | fuel + 1, t, pos, out =>
    match env.read t content pos bufSize with
    | none => some (.outOfBounds sizeMax out)
    | some data =>
      if data.length = 0 then
        -- `rsize` is 0 here, so the check for -1 behind the loop never applies
        some (.exit (if env.fails (t + 1) then exitFailure else exitSuccess) out)
      else if data.length < bufSize then
        display env content fuel (t + 1) (pos + data.length) (out ++ cstr (data ++ [0]))
      else some (.outOfBounds data.length out)

/-- `showline(filepath, numline)` for a file with the given content. No loop makes more rounds than
there are bytes. -/
def showline (env : Env) (content : Bytes) (numline : ℕ) : Option Outcome :=
  -- call 0 is `open`, call 1 is `lseek` to the end
  if env.fails 0 then some (.exit exitFailure [])
  else if env.fails 1 then some (.exit exitFailure [])
  else match findStart env content numline (content.length + 1) 2 content.length 0 with
    | none => none
    | some .failed => some (.exit exitFailure [])
    | some .overflow => some .overflow
    | some (.found offset t) =>
      if env.fails t then some (.exit exitFailure [])
      else display env content (content.length + 1) (t + 1) offset []

/-! ### A scan in parts -/

section Scan

variable {n i m m' : ℕ} {stop : Option ℕ}

theorem scanBlock_append_left {s : Bytes} (t : Bytes) :
    ∀ {i : ℕ}, i ≤ s.length → ∀ m, scanBlock n (s ++ t) i m = scanBlock n s i m
  | 0, _, _ => rfl
  | i + 1, hi, m => by
    simp only [scanBlock, List.getElem?_append_left hi,
      scanBlock_append_left t (Nat.le_of_succ_le hi)]

/-- One step of the scan, at the last byte. -/
theorem scanBlock_concat (s : Bytes) (b : UInt8) (m : ℕ) :
    scanBlock n (s ++ [b]) (s ++ [b]).length m =
      if m + [b].count lf ≤ intMax then
        if m + [b].count lf > n then some (m + [b].count lf, some s.length)
        else scanBlock n s s.length (m + [b].count lf)
      else none := by
  have hcount : (if (s ++ [b])[s.length]? = some lf then m + 1 else m) = m + [b].count lf := by
    by_cases hb : b = lf <;> simp [hb]
  rw [List.length_append, List.length_singleton, scanBlock, hcount,
    scanBlock_append_left [b] (Nat.le_refl _)]

/-- **A scan in two parts**: the part at the end first, then what is before it. -/
theorem scanBlock_append (s t : Bytes) (m : ℕ) :
    scanBlock n (s ++ t) (s ++ t).length m =
      (scanBlock n t t.length m).bind fun r =>
        r.2.elim (scanBlock n s s.length r.1) fun i => some (r.1, some (s.length + i)) := by
  induction t using List.reverseRecOn generalizing m with
  | nil => simp [scanBlock]
  | append_singleton t b ih =>
    rw [← List.append_assoc, scanBlock_concat, scanBlock_concat]
    split
    · split
      · simp
      · exact ih _
    · rfl

theorem scanBlock_append_of_none {t : Bytes} (s : Bytes)
    (h : scanBlock n t t.length m = some (m', none)) :
    scanBlock n (s ++ t) (s ++ t).length m = scanBlock n s s.length m' := by
  rw [scanBlock_append, h]
  rfl

/-- Without enough newlines the scan reaches the start. -/
theorem scanBlock_of_le {s : Bytes} (hn : m + s.count lf ≤ n) (hmax : m + s.count lf ≤ intMax) :
    scanBlock n s s.length m = some (m + s.count lf, none) := by
  induction s using List.reverseRecOn generalizing m with
  | nil => rfl
  | append_singleton s b ih =>
    rw [List.count_append] at hn hmax ⊢
    rw [scanBlock_concat, if_pos (by omega), if_neg (by omega), ih (by omega) (by omega)]
    congr 2
    omega

/-- The scan stops at the newline that is one too many. -/
theorem scanBlock_of_split {s t : Bytes} (hn : m + t.count lf = n) (hmax : n < intMax) :
    scanBlock n (s ++ lf :: t) (s ++ lf :: t).length m = some (n + 1, some s.length) := by
  have ht := scanBlock_of_le (Nat.le_of_eq hn) (show m + t.count lf ≤ intMax by omega)
  rw [List.append_cons, scanBlock_append_of_none _ ht, scanBlock_concat,
    List.count_singleton_self, hn, if_pos (Nat.succ_le_of_lt hmax), if_pos (Nat.lt_succ_self n)]

/-- The scan goes wrong when it counts more newlines than an `int` can hold. -/
theorem scanBlock_overflow {s : Bytes} (hm : m ≤ intMax) (hs : intMax < m + s.count lf)
    (hn : intMax ≤ n) : scanBlock n s s.length m = none := by
  obtain ⟨pre, post, rfl, hpost⟩ :=
    exists_split_of_lt_count (show intMax - m < s.count lf by omega)
  have hsum : m + post.count lf = intMax := by omega
  have hscan := scanBlock_of_le (show m + post.count lf ≤ n by omega) (Nat.le_of_eq hsum)
  rw [List.append_cons, scanBlock_append_of_none _ hscan, scanBlock_concat,
    List.count_singleton_self, hsum, if_neg (by omega)]

/-- The scan is left by `break` exactly when there are too many newlines. -/
theorem scanBlock_stop_iff {s : Bytes} (hm : m ≤ n)
    (h : scanBlock n s s.length m = some (m', stop)) : stop.isSome ↔ n < m' := by
  induction s using List.reverseRecOn generalizing m with
  | nil =>
    cases h
    simpa using hm
  | append_singleton s b ih =>
    rw [scanBlock_concat] at h
    by_cases hmax : m + [b].count lf ≤ intMax
    · rw [if_pos hmax] at h
      by_cases hn : m + [b].count lf > n
      · rw [if_pos hn] at h
        cases h
        simpa using hn
      · rw [if_neg hn] at h
        exact ih (Nat.le_of_not_lt hn) h
    · rw [if_neg hmax] at h
      cases h

end Scan

/-! ### The blocks of a file -/

/-- What a scan of the whole file finds. -/
def Scan.ofResult (calls : ℕ) : Option (ℕ × Option ℕ) → Scan
  | none => .overflow
  | some r => .found (r.2.elim 0 (· + 1)) calls

theorem blockStart_le (preoff : ℕ) : blockStart preoff ≤ preoff := by
  rw [blockStart]
  split <;> omega

/-- The part of the file in front of `preoff` is what is in front of the block, and the block. -/
theorem take_eq_append_block (content : Bytes) {offset preoff : ℕ} (h : offset ≤ preoff) :
    content.take preoff =
      content.take offset ++ (content.drop offset).take (preoff - offset) := by
  rw [← List.take_add, Nat.add_sub_cancel' h]

/-- Unless it is the first block of the file, a block is full. -/
theorem blockStart_of_ne_zero {preoff : ℕ} (h : blockStart preoff ≠ 0) :
    blockStart preoff + 1024 = preoff := by
  rw [blockStart] at h ⊢
  split at h
  · rw [if_pos ‹_›]
    exact Nat.sub_add_cancel (Nat.le_of_lt ‹_›)
  · exact absurd rfl h

/-- A scan of what is in front of `preoff` is one of the block, and then one of what is in front of
the block. -/
theorem scanBlock_take_eq {content : Bytes} {numline offset preoff : ℕ} (hle : offset ≤ preoff)
    (hpre : preoff ≤ content.length) (numlf : ℕ) :
    scanBlock numline (content.take preoff) preoff numlf =
      (scanBlock numline ((content.drop offset).take (preoff - offset))
        ((content.drop offset).take (preoff - offset)).length numlf).bind fun r =>
          r.2.elim (scanBlock numline (content.take offset) offset r.1)
            fun i => some (r.1, some (offset + i)) := by
  have happ := scanBlock_append (n := numline) (content.take offset)
    ((content.drop offset).take (preoff - offset)) numlf
  rw [← take_eq_append_block content hle, List.length_take_of_le hpre,
    List.length_take_of_le (Nat.le_trans hle hpre)] at happ
  exact happ

/-- **The scan in blocks finds what a scan in one go finds**, in front of any offset. -/
theorem findStart_eq_scanBlock (content : Bytes) (numline : ℕ) :
    ∀ {fuel : ℕ} (t preoff numlf : ℕ), preoff / bufSize < fuel → preoff ≤ content.length →
      numlf ≤ numline →
      ∃ calls, findStart regular content numline fuel t preoff numlf =
        some (.ofResult calls (scanBlock numline (content.take preoff) preoff numlf)) := by
  intro fuel
  induction fuel with
  | zero => intro t preoff numlf hfuel; exact absurd hfuel (Nat.not_lt_zero _)
  | succ fuel ih =>
    intro t preoff numlf hfuel hpre hnumlf
    have hle := blockStart_le preoff
    have hfull := @blockStart_of_ne_zero preoff
    rw [scanBlock_take_eq hle hpre, findStart]
    simp only [regular_read]
    rw [if_neg (by simp [regular]), if_neg (by simp [regular])]
    set offset := blockStart preoff
    set block := (content.drop offset).take (preoff - offset)
    cases hscan : scanBlock numline block block.length numlf with
    | none => exact ⟨0, rfl⟩
    | some r =>
      obtain ⟨numlf', stop⟩ := r
      have hstop := scanBlock_stop_iff hnumlf hscan
      cases stop with
      | some i =>
        exact ⟨t + 3, if_pos (.inr (hstop.mp rfl))⟩
      | none =>
        have hn : ¬ numline < numlf' := fun h => by simpa using hstop.mpr h
        by_cases hzero : offset = 0
        · rw [hzero]
          exact ⟨t + 3, if_pos (.inl rfl)⟩
        · have hrounds : preoff / 1024 < fuel + 1 := hfuel
          have hblock := hfull hzero
          obtain ⟨calls, hcalls⟩ := ih (t + 3) offset numlf'
            (show offset / 1024 < fuel by omega) (by omega) (by omega)
          exact ⟨calls, Eq.trans (if_neg (not_or.mpr ⟨hzero, hn⟩)) hcalls⟩

/-- The search finds the right place unless it has to count more newlines than an `int` holds. -/
theorem findStart_of_fits {content : Bytes} {numline fuel : ℕ}
    (hfits : ¬ (intMax ≤ numline ∧ intMax < content.count lf))
    (hfuel : content.length / bufSize < fuel) :
    ∃ calls, findStart regular content numline fuel 2 content.length 0 =
      some (.found (afterNthLast lf numline content) calls) := by
  obtain ⟨calls, hcalls⟩ := findStart_eq_scanBlock content numline 2 content.length 0 hfuel
    (Nat.le_refl _) (Nat.zero_le _)
  rw [List.take_length] at hcalls
  refine ⟨calls, hcalls.trans ?_⟩
  by_cases hle : content.count lf ≤ numline
  · rw [scanBlock_of_le (by omega) (by omega), afterNthLast_of_count_le hle]
    rfl
  · obtain ⟨pre, post, rfl, hpost⟩ := exists_split_of_lt_count (Nat.lt_of_not_le hle)
    rw [scanBlock_of_split (by omega) (by omega), afterNthLast_of_split hpost]
    rfl

theorem findStart_of_overflow {content : Bytes} {numline fuel : ℕ} (hnum : intMax ≤ numline)
    (hlf : intMax < content.count lf) (hfuel : content.length / bufSize < fuel) :
    findStart regular content numline fuel 2 content.length 0 = some .overflow := by
  obtain ⟨calls, hcalls⟩ := findStart_eq_scanBlock content numline 2 content.length 0 hfuel
    (Nat.le_refl _) (Nat.zero_le _)
  rw [List.take_length, scanBlock_overflow (Nat.zero_le _) (by omega) hnum] at hcalls
  exact hcalls

/-- **The search ends, and finds the place that a scan of the whole file finds**: just behind the
`(numline + 1)`-th newline counted from the end, or the start of the file. -/
theorem findStart_regular (content : Bytes) (numline fuel : ℕ)
    (hlf : content.count lf < 2 ^ 31) (hfuel : content.length / bufSize < fuel) :
    ∃ calls, findStart regular content numline fuel 2 content.length 0 =
      some (.found (afterNthLast lf numline content) calls) := by
  have hle : content.count lf ≤ 2147483647 := by omega
  exact findStart_of_fits (fun h => Nat.not_lt.mpr hle h.2) hfuel

/-- A line of two bytes, and one of 1501 bytes. -/
def longLine : Bytes := 97 :: lf :: (List.replicate 1500 98 ++ [lf])

/-- The last line begins in front of the last block, and is found in the second round. -/
theorem findStart_regular_longLine :
    longLine.length = 1503 ∧
      ∃ calls, findStart regular longLine 1 2 2 1503 0 = some (.found 2 calls) := by
  have hlen : longLine.length = 1503 := by
    rw [longLine, List.length_cons, List.length_cons, List.length_append, List.length_replicate,
      List.length_singleton]
  have hone : (List.replicate 1500 98 ++ [lf]).count lf = 1 := by
    rw [List.count_append, List.count_replicate, List.count_singleton]
    rfl
  have hcount : longLine.count lf = 2 := by
    rw [longLine, List.count_cons_of_ne (by decide), List.count_cons_self, hone]
  have hplace : afterNthLast lf 1 longLine = 2 := afterNthLast_of_split (s := [97]) hone
  obtain ⟨calls, hfound⟩ := findStart_regular longLine 1 2 (by omega) (by rw [hlen]; decide)
  rw [hplace, hlen] at hfound
  exact ⟨hlen, calls, hfound⟩

/-! ### Printing the rest of a file -/

theorem display_of_drop_eq_nil {content : Bytes} {pos : ℕ} (h : content.drop pos = [])
    (fuel t : ℕ) (out : Bytes) :
    display regular content (fuel + 1) t pos out = some (.exit exitSuccess out) := by
  rw [display, regular_read, h]
  rfl

/-- A rest that does not fill the buffer is printed up to its first NUL. -/
theorem display_of_lt {content : Bytes} {pos : ℕ} (h : (content.drop pos).length < bufSize)
    (t : ℕ) (out : Bytes) :
    display regular content (content.length + 1) t pos out =
      some (.exit exitSuccess (out ++ cstr (content.drop pos))) := by
  by_cases hnil : content.drop pos = []
  · rw [display_of_drop_eq_nil hnil, hnil, cstr_nil, List.append_nil]
  · have hpos : 0 < (content.drop pos).length := List.length_pos_iff.mpr hnil
    have hlen : content.length = content.length - 1 + 1 := by
      rw [List.length_drop] at hpos
      omega
    have hend : content.drop (pos + (content.drop pos).length) = [] := by
      rw [← List.drop_drop, List.drop_length]
    rw [display, regular_read, List.take_of_length_le (Nat.le_of_lt h)]
    simp only
    rw [if_neg (Nat.ne_of_gt hpos), if_pos h, hlen, display_of_drop_eq_nil hend,
      cstr_append_zero_cons]

/-- A rest that fills the buffer leads to a write behind its end. -/
theorem display_of_le {content : Bytes} {pos : ℕ} (h : bufSize ≤ (content.drop pos).length)
    (t : ℕ) (out : Bytes) :
    display regular content (content.length + 1) t pos out = some (.outOfBounds bufSize out) := by
  rw [display, regular_read]
  simp only
  rw [List.length_take_of_le h]
  rfl

/-- What `showline` does with a regular file. -/
theorem showline_regular (content : Bytes) (numline : ℕ) :
    showline regular content numline =
      if intMax ≤ numline ∧ intMax < content.count lf then some .overflow
      else if (content.drop (afterNthLast lf numline content)).length < bufSize then
        some (.exit exitSuccess (cstr (content.drop (afterNthLast lf numline content))))
      else some (.outOfBounds bufSize []) := by
  have hrounds : content.length / bufSize < content.length + 1 :=
    Nat.lt_succ_of_le (Nat.div_le_self _ _)
  rw [showline, if_neg (by simp [regular]), if_neg (by simp [regular])]
  by_cases hover : intMax ≤ numline ∧ intMax < content.count lf
  · rw [if_pos hover, findStart_of_overflow hover.1 hover.2 hrounds]
  · obtain ⟨calls, hcalls⟩ := findStart_of_fits hover hrounds
    rw [if_neg hover, hcalls]
    simp only
    rw [if_neg (by simp [regular])]
    by_cases hlt : (content.drop (afterNthLast lf numline content)).length < bufSize
    · rw [if_pos hlt, display_of_lt hlt, List.nil_append]
    · rw [if_neg hlt, display_of_le (Nat.le_of_not_lt hlt)]

/-! ### The last lines -/

/-- The last `numline` lines of the file fit the buffer and contain no NUL, and no line is without
its newline unless the whole file is to be printed. -/
def Plain (content : Bytes) (numline : ℕ) : Prop :=
  (Closed lf content ∨ (segments lf content).length ≤ numline) ∧
    (lastSegments lf numline content).length < bufSize ∧
    (0 : UInt8) ∉ lastSegments lf numline content

/-- The last line has no newline, and the line before it consists of the same bytes, a NUL and
whatever else: `showline` starts one line too early and does not get any further than the NUL. -/
def Coincidence (content : Bytes) (numline : ℕ) : Prop :=
  numline = 1 ∧ ∃ pre last junk, content = pre ++ (last ++ 0 :: junk ++ lf :: last) ∧
    Closed lf pre ∧ last ≠ [] ∧ lf ∉ last ∧ lf ∉ junk ∧ (0 : UInt8) ∉ last ∧
    (last ++ 0 :: junk ++ lf :: last).length < bufSize

theorem showline_eq_exit_iff {content : Bytes} {numline : ℕ}
    (hfits : ¬ (intMax ≤ numline ∧ intMax < content.count lf)) (out : Bytes) :
    showline regular content numline = some (.exit exitSuccess out) ↔
      (content.drop (afterNthLast lf numline content)).length < bufSize ∧
        cstr (content.drop (afterNthLast lf numline content)) = out := by
  rw [showline_regular, if_neg hfits]
  by_cases hlt : (content.drop (afterNthLast lf numline content)).length < bufSize
  · rw [if_pos hlt]
    simp only [Option.some.injEq, Outcome.exit.injEq, true_and, hlt]
  · rw [if_neg hlt]
    exact iff_of_false nofun fun h => hlt h.1

/-- Where `numlf` passes `INT_MAX`, the last lines do not fit the buffer. -/
theorem not_plain_of_overflow {content : Bytes} {numline : ℕ} (hnum : intMax ≤ numline)
    (hlf : intMax < content.count lf) : ¬ Plain content numline := by
  rintro ⟨-, hlen, -⟩
  have hmin := min_le_length_lastSegments lf numline content
  have hsegs := length_segments lf content
  simp only [intMax, bufSize] at hnum hlf hlen
  omega

/-- The last lines are what follows the place that is found, unless the last of them has no newline
and there is more than is to be printed. -/
theorem drop_afterNthLast_eq {content : Bytes} {numline : ℕ}
    (h : Closed lf content ∨ (segments lf content).length ≤ numline) :
    content.drop (afterNthLast lf numline content) = lastSegments lf numline content := by
  by_cases hclosed : Closed lf content
  · exact drop_afterNthLast_of_closed hclosed
  · have hle := h.resolve_left hclosed
    rw [drop_afterNthLast_of_open hclosed, lastSegments_of_length_le hle,
      lastSegments_of_length_le (Nat.le_succ_of_le hle)]

theorem Coincidence.exit {content : Bytes} {numline : ℕ} (h : Coincidence content numline) :
    showline regular content numline =
      some (.exit exitSuccess (lastSegments lf numline content)) := by
  obtain ⟨rfl, pre, last, junk, rfl, hpre, hne, hlast, hjunk, hzero, hlen⟩ := h
  have hseg : segments lf last = [last] := segments_of_notMem hlast hne
  have hline : lf ∉ last ++ 0 :: junk := by
    simp only [List.mem_append, List.mem_cons, not_or]
    exact ⟨hlast, by decide, hjunk⟩
  have hopen : ¬ Closed lf (pre ++ (last ++ 0 :: junk ++ lf :: last)) := by
    rw [List.append_cons _ lf, ← List.append_assoc, closed_append_iff hne]
    rintro (hnil | hend)
    · exact hne hnil
    · exact hlast (List.mem_of_getLast? hend)
  have htwo : (segments lf (last ++ 0 :: junk ++ lf :: last)).length = 2 := by
    rw [segments_append, segments_line hline, hseg]
    rfl
  have hshown := drop_afterNthLast_of_open (n := 1) hopen
  rw [lastSegments_append hpre htwo] at hshown
  have hexpected : lastSegments lf 1 (pre ++ (last ++ 0 :: junk ++ lf :: last)) = last := by
    rw [← List.append_assoc]
    exact lastSegments_append_delim (by rw [hseg]; rfl)
  rw [showline_eq_exit_iff (fun h => absurd h.1 (by decide)), hshown, hexpected]
  refine ⟨hlen, ?_⟩
  rw [List.append_assoc, List.cons_append, cstr_append_zero hzero]

/-- A line too many is only invisible behind a NUL. -/
theorem coincidence_of_cstr_eq {content : Bytes} {numline : ℕ} (hnum : 1 ≤ numline)
    (hopen : ¬ Closed lf content) (hmore : numline < (segments lf content).length)
    (hlen : (content.drop (afterNthLast lf numline content)).length < bufSize)
    (heq : cstr (content.drop (afterNthLast lf numline content)) =
      lastSegments lf numline content) : Coincidence content numline := by
  obtain ⟨pre, line, hcontent, hpre, hline, hcount, hdrop⟩ :=
    exists_line_of_open hopen hnum hmore
  rw [hdrop] at hlen heq
  set last := lastSegments lf numline content with hlast
  have hzlast : (0 : UInt8) ∉ last := heq ▸ zero_notMem_cstr _
  have hzline : (0 : UInt8) ∈ line := by
    by_contra hz
    have hnone : (0 : UInt8) ∉ line ++ lf :: last := by
      simp only [List.mem_append, List.mem_cons, not_or]
      exact ⟨hz, by decide, hzlast⟩
    have hlength := congrArg List.length (cstr_eq_self hnone ▸ heq)
    simp only [List.length_append, List.length_cons] at hlength
    omega
  rw [cstr_append_of_mem hzline] at heq
  obtain ⟨junk, hjunk⟩ := exists_eq_cstr_append hzline
  rw [heq] at hjunk
  have hlflast : lf ∉ last := fun h => hline (hjunk ▸ List.mem_append_left _ h)
  have hlfjunk : lf ∉ junk := fun h =>
    hline (hjunk ▸ List.mem_append_right _ (List.mem_cons_of_mem _ h))
  have hlastne : last ≠ [] := fun hnil => hopen (by
    rw [hcontent, hnil, ← List.append_assoc]
    exact closed_line _)
  rw [List.count_eq_zero.mpr hlflast] at hcount
  exact ⟨hcount.symm, pre, last, junk, hjunk ▸ hcontent, hpre, hlastne, hlflast, hlfjunk, hzlast,
    hjunk ▸ hlen⟩

/-- **The last lines are printed**, and nothing outside of `buf` is written, exactly when they fit
the buffer, contain no NUL and end with a newline or make up the whole file, or when the line before
the last hides itself. -/
theorem showline_prints_iff (content : Bytes) (numline : ℕ) (hnum : 1 ≤ numline) :
    showline regular content numline =
        some (.exit exitSuccess (lastSegments lf numline content)) ↔
      Plain content numline ∨ Coincidence content numline := by
  constructor
  · intro h
    have hfits : ¬ (intMax ≤ numline ∧ intMax < content.count lf) := fun hover => by
      rw [showline_regular, if_pos hover] at h
      cases h
    obtain ⟨hlen, heq⟩ := (showline_eq_exit_iff hfits _).mp h
    by_cases hright : Closed lf content ∨ (segments lf content).length ≤ numline
    · rw [drop_afterNthLast_eq hright] at hlen heq
      exact .inl ⟨hright, hlen, heq ▸ zero_notMem_cstr _⟩
    · rw [not_or, Nat.not_le] at hright
      exact .inr (coincidence_of_cstr_eq hnum hright.1 hright.2 hlen heq)
  · rintro (h | h)
    · have hfits : ¬ (intMax ≤ numline ∧ intMax < content.count lf) := fun hover =>
        not_plain_of_overflow hover.1 hover.2 h
      obtain ⟨hright, hlen, hzero⟩ := h
      rw [showline_eq_exit_iff hfits, drop_afterNthLast_eq hright]
      exact ⟨hlen, cstr_eq_self hzero⟩
    · exact h.exit

/-- Two lines of three bytes and one of two. -/
def threeLines : Bytes := [97, 97, 10, 98, 98, 10, 99, 10]

theorem showline_prints_iff_threeLines :
    showline regular threeLines 2 = some (.exit exitSuccess [98, 98, 10, 99, 10]) :=
  (showline_prints_iff threeLines 2 (by decide)).mpr
    (.inl ⟨.inl (by decide), by decide, by decide⟩)

/-- Two lines, the second without a newline: both are printed when one is asked for. -/
theorem showline_open :
    showline regular [97, 10, 98] 1 = some (.exit exitSuccess [97, 10, 98]) ∧
      lastSegments lf 1 [97, 10, 98] = [98] := by
  decide

end Tail

end Tlpiexer
