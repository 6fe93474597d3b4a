import Tlpiexer.Constants
import Tlpiexer.Foundations.ArrayScan
import Tlpiexer.Foundations.Decimal
import Tlpiexer.Foundations.Segments

/-!
# The fields of a status file

The functions of `src/imp/12-01.c`, `src/imp/12-02.c` and `src/imp/12-03.c` that look for a field in
the data of `/proc/<pid>/status`. Each walks through the data with an index, from one line to the
next, until a line starts with its tag.

## The index and the size

Only the outer loop compares the index with the size of the data. The inner loops stop at a newline
or behind blanks and trust that there is one. The data is an array that may go on behind its size,
and the functions are `Scan`s, which record every position they look at; those of `strncmp` and
`strtol` included. The index is an `int` in the source and a natural number here: it never gets
further than one position behind the array, which is far below `INT_MAX` for the arrays of 4096
bytes that the programs have, so that the `int` neither overflows nor changes its value when it is
compared with the `size_t`.

## Main definitions

* `StatusFile.findTag`, `StatusFile.findValue` — the loops that the functions share
* `StatusFile.fromTag` — the data from the first line on that starts with a tag

## Main results

* `StatusFile.within_findTag` — what the loop over the lines finds, and when it stays below the size
* `StatusFile.number_extracted` — the numbers of well formed lines
* `StatusFile.loops_below_iff` — when the loops of a function stay below the size
-/

namespace Tlpiexer

namespace StatusFile

open CString Decimal ArrayScan ArrayScan.Scan Segments

/-- `"Uid:"`. -/
def uidTag : Bytes := [85, 105, 100, 58]

/-- `PID_TAG`, that is `"Pid:"`. -/
def pidTag : Bytes := [80, 105, 100, 58]

/-- `PPID_TAG`, that is `"PPid:"`. -/
def ppidTag : Bytes := [80, 80, 105, 100, 58]

/-- `PNAME_TAG`, that is `"Name:"`. -/
def pnameTag : Bytes := [78, 97, 109, 101, 58]

/-! ### The functions -/

/-- The outer loop: it compares the start of a line with the tag, and goes to the next line if they
differ. Behind the last line there is no place to return. The number bounds the rounds. -/
def findTag (tag : Bytes) (size : ℕ) : ℕ → Cursor → Scan (Option Cursor)
  | 0, _ => ⟨none, []⟩
  | fuel + 1, c =>
    if c.pos < size then do
      let same ← startsWith tag c.pos c.rest
      if same then pure (some (c.advance tag.length))
      else do
        let e ← skipWhile (· ≠ 10) c.pos c.rest
        findTag tag size fuel (e.advance 1)
    else pure none

/-- The place of a value: behind the tag, blanks and one more byte. -/
def findValue (tag data : Bytes) (size : ℕ) : Scan (Option Cursor) := do
  match ← findTag tag size (data.length + 1) ⟨0, data⟩ with
  | none => pure none
  | some c => do
    let e ← skipWhile (· = 32) c.pos c.rest
    pure (some (e.advance 1))

/-- `strtol(&data[i], NULL, 10)`. -/
def strtolAt (c : Cursor) : Scan ℤ :=
  ⟨strtol c.rest, List.range' c.pos (strtolLength c.rest + 1)⟩

/-- A function that returns the number of a field, converted to its type. -/
def numberOf (convert : ℤ → ℤ) (tag data : Bytes) (size : ℕ) : Scan ℤ := do
  match ← findValue tag data size with
  | none => pure exitFailure
  | some c => do
    let x ← strtolAt c
    pure (convert x)

/-- The conversion to `uid_t`. -/
def toUid (x : ℤ) : ℤ := x % 2 ^ 32

/-- `uid_from_sfile` of `12-01.c`. -/
def uidFromSfile : Bytes → ℕ → Scan ℤ := numberOf toUid uidTag

/-- `pid_from_sfile` of `12-01.c`. -/
def pidFromSfile : Bytes → ℕ → Scan ℤ := numberOf toInt pidTag

/-- `pidfstatus` of `12-02.c`. -/
def pidfstatus : Bytes → ℕ → Scan ℤ := numberOf toInt pidTag

/-- `ppidfstatus` of `12-02.c`. -/
def ppidfstatus : Bytes → ℕ → Scan ℤ := numberOf toInt ppidTag

/-- The loops of the functions that return a name: the bytes of the value through the end of its
line. -/
def findName (data : Bytes) (size : ℕ) : Scan (Option Bytes) := do
  match ← findValue pnameTag data size with
  | none => pure none
  | some c => do
    let e ← skipWhile (· ≠ 10) c.pos c.rest
    pure (some (c.rest.take (e.pos - c.pos)))

/-! ### The first line with a tag -/

/-- The data from the first line on that starts with the tag; nothing if there is no such line. -/
def fromTag (tag s : Bytes) : Bytes :=
  ((segments 10 s).dropWhile fun line => ¬ tag <+: line).flatten

section Lines

variable {tag line s t : Bytes} {size i fuel : ℕ}

theorem forall_ne_of_notMem (h : (10 : UInt8) ∉ s) : ∀ b ∈ s, decide (b ≠ 10) = true := by
  intro b hb
  simpa using ne_of_mem_of_not_mem hb h

/-- A tag without a newline does not reach over the end of a line. -/
theorem prefix_line_iff (htag : (10 : UInt8) ∉ tag) : tag <+: line ++ 10 :: s ↔ tag <+: line := by
  refine ⟨?_, fun h => h.trans (List.prefix_append ..)⟩
  rintro ⟨v, hv⟩
  rcases List.append_eq_append_iff.mp hv with ⟨a, hline, -⟩ | ⟨c, htag', hc⟩
  · exact ⟨a, hline.symm⟩
  · cases c with
    | nil => exact ⟨[], by simpa using htag'⟩
    | cons x c =>
      obtain ⟨rfl, -⟩ := List.cons.inj hc
      exact absurd (by simp [htag']) htag

theorem fromTag_line (htag : (10 : UInt8) ∉ tag) (hline : (10 : UInt8) ∉ line) (s : Bytes) :
    fromTag tag (line ++ 10 :: s) = if tag <+: line then line ++ 10 :: s else fromTag tag s := by
  rw [fromTag, segments_append, segments_line hline, List.singleton_append, List.dropWhile_cons]
  by_cases h : tag <+: line
  · simp [prefix_line_iff htag, h]
  · simp [prefix_line_iff htag, h, fromTag]

/-- The last line may have no newline. -/
theorem fromTag_open (hline : (10 : UInt8) ∉ line) :
    fromTag tag line = if tag <+: line then line else [] := by
  by_cases hnil : line = []
  · simp [hnil, fromTag]
  · rw [fromTag, segments_of_notMem hline hnil, List.dropWhile_cons]
    by_cases h : tag <+: line <;> simp [h]

/-- Data begins with a line, or it is a line without a newline. -/
theorem exists_line (s : Bytes) :
    (10 : UInt8) ∉ s ∨ ∃ line s', s = line ++ 10 :: s' ∧ (10 : UInt8) ∉ line := by
  by_cases h : (10 : UInt8) ∈ s
  · obtain ⟨line, s', hs, hline⟩ := List.eq_append_cons_of_mem h
    exact .inr ⟨line, s', hs, hline⟩
  · exact .inl h

/-- What starts with the tag is found at once. -/
theorem fromTag_of_prefix (htag : (10 : UInt8) ∉ tag) (h : tag <+: s) : fromTag tag s = s := by
  rcases exists_line s with hs | ⟨line, s', rfl, hline⟩
  · rw [fromTag_open hs, if_pos h]
  · rw [fromTag_line htag hline, if_pos ((prefix_line_iff htag).mp h)]

theorem fromTag_suffix (tag s : Bytes) : fromTag tag s <:+ s := by
  obtain ⟨pre, hpre⟩ := List.dropWhile_suffix (fun line => decide ¬ tag <+: line)
    (l := segments 10 s)
  refine ⟨pre.flatten, ?_⟩
  rw [fromTag, ← List.flatten_append, hpre, flatten_segments]

theorem not_closed_of_notMem (hs : (10 : UInt8) ∉ s) (hne : s ≠ []) : ¬ Closed 10 s := by
  rintro (h | h)
  · exact hne h
  · exact hs (List.mem_of_getLast? h)

theorem closed_line_append : Closed (10 : UInt8) (line ++ 10 :: s) ↔ Closed 10 s := by
  by_cases hs : s = []
  · subst hs
    exact iff_of_true (closed_line line) (.inl rfl)
  · rw [List.append_cons]
    exact closed_append_iff hs

/-! ### The loop over the lines -/

/-- One round of the outer loop. -/
theorem within_findTag_succ (hi : i < size) {r : Option Cursor} :
    Within size (findTag tag size (fuel + 1) ⟨i, s⟩) r ↔
      Within size (startsWith tag i s) true ∧ r = some ⟨i + tag.length, s.drop tag.length⟩ ∨
      Within size (startsWith tag i s) false ∧ ∃ e, Within size (skipWhile (· ≠ 10) i s) e ∧
        Within size (findTag tag size fuel (e.advance 1)) r := by
  rw [findTag, if_pos hi, within_bind]
  constructor
  · rintro ⟨same, hsame, h⟩
    cases same with
    | true => exact .inl ⟨hsame, (within_pure.mp h).symm⟩
    | false => exact .inr ⟨hsame, within_bind.mp h⟩
  · rintro (⟨hsame, rfl⟩ | ⟨hsame, h⟩)
    · exact ⟨true, hsame, within_pure.mpr rfl⟩
    · exact ⟨false, hsame, within_bind.mpr h⟩

/-- A whole line without the tag is skipped. -/
theorem within_findTag_line (htag : (10 : UInt8) ∉ tag) (hline : (10 : UInt8) ∉ line)
    (hnot : ¬ tag <+: line) (hi : i + line.length < size) {r : Option Cursor} :
    Within size (findTag tag size (fuel + 1) ⟨i, line ++ 10 :: s⟩) r ↔
      Within size (findTag tag size fuel ⟨i + line.length + 1, s⟩) r := by
  have hcmp := (startsWith_delim htag i line s).mono (show i + line.length + 1 ≤ size by omega)
  rw [decide_eq_false hnot] at hcmp
  have hskip : ∀ e, Within size (skipWhile (· ≠ 10) i (line ++ 10 :: s)) e ↔
      e = ⟨i + line.length, 10 :: s⟩ := by
    intro e
    rw [within_skipWhile_append (forall_ne_of_notMem hline) (by simp)]
    exact and_iff_left hi
  rw [within_findTag_succ (by omega)]
  constructor
  · rintro (⟨hsame, -⟩ | ⟨-, e, he, h⟩)
    · cases hcmp.unique hsame
    · rw [hskip] at he
      subst he
      exact h
  · exact fun h => .inr ⟨hcmp, _, (hskip _).mpr rfl, h⟩

/-- A line that starts with the tag ends the loop. -/
theorem within_findTag_tag (hs : Upto size i (tag ++ s) t) (hi : i < size) {r : Option Cursor} :
    Within size (findTag tag size (fuel + 1) ⟨i, tag ++ s ++ t⟩) r ↔
      r = some ⟨i + tag.length, s ++ t⟩ := by
  have hsame := hs.within_startsWith_true.mpr (List.prefix_append tag s)
  have hdrop : (tag ++ s ++ t).drop tag.length = s ++ t := by
    rw [List.append_assoc, List.drop_left]
  rw [within_findTag_succ hi, hdrop]
  constructor
  · rintro (⟨-, hr⟩ | ⟨hsame', -⟩)
    · exact hr
    · cases hsame.unique hsame'
  · exact fun hr => .inl ⟨hsame, hr⟩

/-- A line that has neither the tag nor a newline below the size leads behind it. -/
theorem not_within_findTag_open (hs : Upto size i s t) (hi : i < size) (hopen : (10 : UInt8) ∉ s)
    (hnot : ¬ tag <+: s) {r : Option Cursor} :
    ¬ Within size (findTag tag size (fuel + 1) ⟨i, s ++ t⟩) r := by
  rw [within_findTag_succ hi]
  rintro (⟨hsame, -⟩ | ⟨-, e, he, -⟩)
  · exact hnot (hs.within_startsWith_true.mp hsame)
  · obtain ⟨run, b, w, rfl, -, hb, -⟩ := hs.within_skipWhile.mp he
    have hb' : b = 10 := by simpa using hb
    exact hopen (by simp [hb'])

/-- **The loop over the lines.** On the data `s` below the size it ends at the first line that
starts with the tag, or behind the last line. In the second case it stays below the size only if
that line has a newline and the array is not shorter than the size. -/
theorem within_findTag (htag : (10 : UInt8) ∉ tag) (hne : tag ≠ []) (hfuel : s.length < fuel)
    (hs : Upto size i s t) {r : Option Cursor} :
    Within size (findTag tag size fuel ⟨i, s ++ t⟩) r ↔
      fromTag tag s = [] ∧ Closed 10 s ∧ i + s.length = size ∧ r = none ∨
      ∃ u, fromTag tag s = tag ++ u ∧ r = some ⟨i + s.length - u.length, u ++ t⟩ := by
  -- along the rounds, each of which leaves less of the data
  induction fuel generalizing s i with
  | zero => omega
  | succ fuel ih =>
    have hle := hs.le
    by_cases hi : i < size
    case neg =>
      have hnil : s = [] := List.length_eq_zero_iff.mp (by omega)
      have hend : i = size := by
        rcases hs with h | ⟨-, h⟩ <;> rw [hnil, List.length_nil] at h <;> omega
      rw [findTag, if_neg hi, within_pure, hnil]
      simp [fromTag, Closed, hne, hend, eq_comm]
    case pos =>
      by_cases hpre : tag <+: s
      · obtain ⟨u, rfl⟩ := hpre
        have hpos : i + (tag ++ u).length - u.length = i + tag.length := by
          rw [List.length_append]
          omega
        rw [within_findTag_tag hs hi, fromTag_of_prefix htag (List.prefix_append tag u)]
        constructor
        · exact fun hr => .inr ⟨u, rfl, by rw [hpos, hr]⟩
        · rintro (⟨hnil, -⟩ | ⟨u', heq, hr⟩)
          · exact absurd (List.append_eq_nil_iff.mp hnil).1 hne
          · obtain rfl := List.append_cancel_left heq
            rw [hr, hpos]
      · rcases exists_line s with hopen | ⟨line, s', rfl, hline⟩
        · refine iff_of_false (not_within_findTag_open hs hi hopen hpre) ?_
          rw [fromTag_open hopen, if_neg hpre]
          rintro (⟨-, hclosed, hend, -⟩ | ⟨u, heq, -⟩)
          · refine not_closed_of_notMem hopen ?_ hclosed
            rintro rfl
            rw [List.length_nil] at hend
            omega
          · exact hne (List.append_eq_nil_iff.mp heq.symm).1
        · have hnot : ¬ tag <+: line := fun h => hpre ((prefix_line_iff htag).mpr h)
          rw [List.length_append, List.length_cons] at hfuel hle
          have hs' : Upto size (i + line.length + 1) s' t := by
            rw [List.append_cons] at hs
            simpa [Nat.add_assoc] using hs.of_append
          have hpos : i + (line ++ 10 :: s').length = i + line.length + 1 + s'.length := by
            rw [List.length_append, List.length_cons]
            omega
          rw [List.append_assoc, List.cons_append, within_findTag_line htag hline hnot (by omega),
            ih (by omega) hs', fromTag_line htag hline, if_neg hnot, closed_line_append, hpos]

/-! ### The place of a value -/

/-- What the functions take for the value of a field: the data behind the first tag, blanks and one
more byte. -/
def valueText (tag s : Bytes) : Bytes :=
  (((fromTag tag s).drop tag.length).dropWhile (· = 32)).drop 1

/-- The byte that ends the loop over the blanks. -/
theorem exists_blanks_iff : (∃ b ∈ s, b ≠ 32) ↔
    ∃ u b w, s = u ++ b :: w ∧ (∀ x ∈ u, x = 32) ∧ b ≠ (32 : UInt8) := by
  constructor
  · rintro ⟨b, hb, hne⟩
    rcases forall_or_exists_append (· = 32) s with hall | ⟨u, c, w, rfl, hu, hc⟩
    · exact absurd (by simpa using hall b hb) hne
    · exact ⟨u, c, w, rfl, by simpa using hu, by simpa using hc⟩
  · rintro ⟨u, b, w, rfl, -, hb⟩
    exact ⟨b, by simp, hb⟩

/-- What is taken for a value, behind the byte that ends the loop over the blanks. -/
theorem valueText_eq {u w : Bytes} {b : UInt8} (h : fromTag tag s = tag ++ (u ++ b :: w))
    (hu : ∀ x ∈ u, x = 32) (hb : b ≠ 32) : valueText tag s = w := by
  rw [valueText, h, List.drop_left, List.dropWhile_append_of_pos (by simpa using hu),
    List.dropWhile_cons_of_neg (by simpa using hb), List.drop_one, List.tail_cons]

/-- From the first line with the tag on, data starts with the tag. -/
theorem prefix_fromTag (h : fromTag tag s ≠ []) : tag <+: fromTag tag s := by
  have hne : (segments 10 s).dropWhile (fun line => ¬ tag <+: line) ≠ [] := by
    intro hnil
    exact h (by rw [fromTag, hnil, List.flatten_nil])
  have hhead := List.head_dropWhile_not _ hne
  obtain ⟨line, lines, hs⟩ := List.exists_cons_of_ne_nil hne
  simp only [hs, List.head_cons] at hhead
  rw [fromTag, hs, List.flatten_cons]
  exact (show tag <+: line by simpa using hhead).trans (List.prefix_append ..)

/-- There is something that is taken for a value if the line goes on behind the tag and blanks. -/
theorem exists_fromTag_iff :
    (∃ u b w, fromTag tag s = tag ++ (u ++ b :: w) ∧ (∀ x ∈ u, x = 32) ∧ b ≠ 32) ↔
      ∃ b ∈ (fromTag tag s).drop tag.length, b ≠ 32 := by
  rw [exists_blanks_iff]
  refine exists_congr fun u => exists_congr fun b => exists_congr fun w => ?_
  refine and_congr_left fun _ => ?_
  constructor
  · exact fun h => by rw [h, List.drop_left]
  · intro h
    have hcons : fromTag tag s ≠ [] := fun hnil => by simp [hnil] at h
    obtain ⟨v, hv⟩ := prefix_fromTag hcons
    rw [← hv, List.drop_left] at h
    rw [← hv, h]

/-- The data behind the first tag, to the end of the data. -/
theorem suffix_of_fromTag {u : Bytes} (h : fromTag tag s = tag ++ u) : u <:+ s :=
  (List.suffix_append tag u).trans (h ▸ fromTag_suffix tag s)

theorem valueText_suffix (tag s : Bytes) : valueText tag s <:+ s :=
  (List.drop_suffix ..).trans ((List.dropWhile_suffix _).trans
    ((List.drop_suffix ..).trans (fromTag_suffix tag s)))

/-- **The place of a value.** It is found below the size if a byte other than a blank is there to
end the loop over the blanks. -/
theorem within_findValue (htag : (10 : UInt8) ∉ tag) (hne : tag ≠ []) (data : Bytes)
    {r : Option Cursor} :
    Within size (findValue tag data size) r ↔
      (fromTag tag (data.take size) = [] ∧ Closed 10 (data.take size) ∧ size ≤ data.length) ∧
        r = none ∨
      (∃ b ∈ (fromTag tag (data.take size)).drop tag.length, b ≠ 32) ∧
        r =
          some (lastPlace (data.take size) (data.drop size) (valueText tag (data.take size))) := by
  have hupto := Upto.take_drop size data
  have hfind := @within_findTag tag (data.take size) (data.drop size) size 0 (data.length + 1) htag
    hne (Nat.lt_succ_of_le (List.length_take_le' ..)) hupto
  simp only [List.take_append_drop, Nat.zero_add] at hfind
  have hlen : (data.take size).length = size ↔ size ≤ data.length := by
    rw [List.length_take]
    omega
  rw [findValue, within_bind]
  constructor
  · rintro ⟨found, hfound, h⟩
    rcases hfind.mp hfound with ⟨hnil, hclosed, hsize, rfl⟩ | ⟨u, htext, rfl⟩
    · exact .inl ⟨⟨hnil, hclosed, hlen.mp hsize⟩, (within_pure.mp h).symm⟩
    · obtain ⟨e, he, h⟩ := within_bind.mp h
      have hu := suffix_of_fromTag htext
      obtain ⟨run, b, w, rfl, hrun, hb, rfl⟩ := (hupto.within_skipWhile_lastPlace hu).mp he
      have hb' : b ≠ 32 := by simpa using hb
      rw [within_pure, advance_lastPlace ((List.suffix_append run _).trans hu),
        ← valueText_eq htext (by simpa using hrun) hb'] at h
      exact .inr ⟨⟨b, by simp [htext], hb'⟩, h.symm⟩
  · rintro (⟨⟨hnil, hclosed, hsize⟩, rfl⟩ | ⟨hbyte, rfl⟩)
    · exact ⟨none, hfind.mpr (.inl ⟨hnil, hclosed, hlen.mpr hsize, rfl⟩), within_pure.mpr rfl⟩
    · obtain ⟨u, b, w, htext, hu, hb⟩ := exists_fromTag_iff.mpr hbyte
      have hsuffix := suffix_of_fromTag htext
      have hskip := (hupto.within_skipWhile_lastPlace (p := (· = 32)) hsuffix).mpr
        ⟨u, b, w, rfl, by simpa using hu, by simpa using hb, rfl⟩
      refine ⟨_, hfind.mpr (.inr ⟨_, htext, rfl⟩), within_bind.mpr ⟨_, hskip, ?_⟩⟩
      rw [within_pure, advance_lastPlace ((List.suffix_append u _).trans hsuffix),
        valueText_eq htext hu hb]

/-- The first part of an array, up to a place in it. -/
theorem take_lastPlace {name w : Bytes} (hw : name ++ w <:+ s) :
    (lastPlace s t (name ++ w)).rest.take
      ((lastPlace s t w).pos - (lastPlace s t (name ++ w)).pos) = name := by
  have hle := hw.length_le
  rw [List.length_append] at hle
  have hlen : (lastPlace s t w).pos - (lastPlace s t (name ++ w)).pos = name.length := by
    simp only [lastPlace, List.length_append]
    omega
  rw [hlen, lastPlace, List.append_assoc, List.take_left]

/-- What the functions take for a name: the value, through the end of its line. -/
def nameText (s : Bytes) : Bytes := (valueText pnameTag s).takeWhile (· ≠ 10)

theorem nameText_eq {name w : Bytes} (h : valueText pnameTag s = name ++ 10 :: w)
    (hname : (10 : UInt8) ∉ name) : nameText s = name := by
  rw [nameText, h, List.takeWhile_append_of_pos (forall_ne_of_notMem hname),
    List.takeWhile_cons_of_neg (by simp), List.append_nil]

/-- **The name** is found below the size if there is a newline to end it. -/
theorem within_findName (data : Bytes) {r : Option Bytes} :
    Within size (findName data size) r ↔
      (fromTag pnameTag (data.take size) = [] ∧ Closed 10 (data.take size) ∧ size ≤ data.length) ∧
        r = none ∨
      (10 : UInt8) ∈ valueText pnameTag (data.take size) ∧
        r = some (nameText (data.take size)) := by
  have hsuffix := valueText_suffix pnameTag (data.take size)
  have hskip :=
    @Upto.within_skipWhile_lastPlace size (· ≠ 10) _ _ (Upto.take_drop size data) _ hsuffix
  have hfind := @within_findValue pnameTag size (by decide) (by decide) data
  rw [findName, within_bind]
  constructor
  · rintro ⟨found, hfound, h⟩
    rcases hfind.mp hfound with ⟨hmissing, rfl⟩ | ⟨-, rfl⟩
    · exact .inl ⟨hmissing, (within_pure.mp h).symm⟩
    · obtain ⟨e, he, h⟩ := within_bind.mp h
      obtain ⟨name, c, w, hvalue, hname, hc, rfl⟩ := hskip.mp he
      obtain rfl : c = 10 := by simpa using hc
      have hname' : (10 : UInt8) ∉ name := fun hmem => by simpa using hname _ hmem
      rw [hvalue] at h hsuffix
      rw [within_pure, take_lastPlace hsuffix] at h
      exact .inr ⟨by simp [hvalue], by rw [nameText_eq hvalue hname', h]⟩
  · rintro (⟨hmissing, rfl⟩ | ⟨hmem, rfl⟩)
    · exact ⟨none, hfind.mpr (.inl ⟨hmissing, rfl⟩), within_pure.mpr rfl⟩
    · -- a value with a newline is not empty, so that a byte has ended the loop over the blanks
      have hbyte : ∃ b ∈ (fromTag pnameTag (data.take size)).drop pnameTag.length, b ≠ 32 :=
        ⟨10, (List.dropWhile_suffix _).subset (List.mem_of_mem_drop hmem), by decide⟩
      obtain ⟨name, w, hvalue, hname⟩ := List.eq_append_cons_of_mem hmem
      have he := hskip.mpr
        ⟨name, 10, w, hvalue, forall_ne_of_notMem hname, by simp, rfl⟩
      refine ⟨_, hfind.mpr (.inr ⟨hbyte, rfl⟩), within_bind.mpr ⟨_, he, ?_⟩⟩
      rw [hvalue] at hsuffix
      rw [within_pure, nameText_eq hvalue hname, hvalue, take_lastPlace hsuffix]

end Lines

/-! ### Numbers of well formed lines -/

/-- A text of lines. -/
def text (lines : List Bytes) : Bytes := lines.flatMap (· ++ [10])

/-- The functions that return a number, each with its tag. -/
def numberFunctions : List (Bytes × (Bytes → ℕ → Scan ℤ)) :=
  [(uidTag, uidFromSfile), (pidTag, pidFromSfile), (pidTag, pidfstatus), (ppidTag, ppidfstatus)]

theorem text_cons (line : Bytes) (lines : List Bytes) :
    text (line :: lines) = line ++ 10 :: text lines := by
  rw [text, List.flatMap_cons, List.append_assoc, List.singleton_append]
  rfl

theorem closed_text (lines : List Bytes) : Closed 10 (text lines) := by
  induction lines with
  | nil => exact .inl rfl
  | cons line lines ih => rw [text_cons, closed_line_append]; exact ih

/-- The lines from the first one on that starts with the tag. -/
theorem fromTag_text {tag : Bytes} (htag : (10 : UInt8) ∉ tag) {lines : List Bytes}
    (hlines : ∀ l ∈ lines, (10 : UInt8) ∉ l) :
    fromTag tag (text lines) = text (lines.dropWhile fun l => ¬ tag <+: l) := by
  induction lines with
  | nil => rfl
  | cons line lines ih =>
    rw [text_cons, fromTag_line htag (hlines line List.mem_cons_self), List.dropWhile_cons]
    by_cases h : tag <+: line
    · simp [h, text_cons]
    · simpa [h] using ih fun l hl => hlines l (List.mem_cons_of_mem _ hl)

theorem exists_fromTag_text {tag line : Bytes} (htag : (10 : UInt8) ∉ tag) {lines : List Bytes}
    (hlines : ∀ l ∈ lines, (10 : UInt8) ∉ l)
    (hfirst : lines.find? (fun l => tag <+: l) = some line) :
    ∃ rest, fromTag tag (text lines) = line ++ 10 :: text rest ∧
      ∀ l ∈ lines, tag <+: l → l ∈ line :: rest := by
  obtain ⟨hpre, before, rest, rfl, hbefore⟩ := List.find?_eq_some_iff_append.mp hfirst
  refine ⟨rest, ?_, fun l hl htagl => ?_⟩
  · rw [fromTag_text htag hlines, List.dropWhile_append_of_pos (by simpa using hbefore),
      List.dropWhile_cons_of_neg (by simpa using hpre), text_cons]
  · rcases List.mem_append.mp hl with hl | hl
    · exact absurd htagl (by simpa using hbefore l hl)
    · exact hl

/-- A tag, a tab and a number. -/
theorem within_numberOf {convert : ℤ → ℤ} {tag ds tail data : Bytes} {size : ℕ} {c : UInt8}
    (htag : (10 : UInt8) ∉ tag) (hnil : tag ≠ [])
    (htext : fromTag tag (data.take size) = tag ++ 9 :: (ds ++ c :: tail)) (hne : ds ≠ [])
    (hds : ∀ b ∈ ds, isDigit b) (hc : isDigit c = false) :
    Within size (numberOf convert tag data size) (convert (toLong (digitsValue ds))) := by
  have hfound : Within size (findValue tag data size)
      (some (lastPlace (data.take size) (data.drop size) (ds ++ c :: tail))) := by
    have hvalue : valueText tag (data.take size) = ds ++ c :: tail :=
      valueText_eq (u := []) htext (by simp) (by decide)
    exact (within_findValue htag hnil data).mpr
      (.inr ⟨⟨9, by simp [htext], by decide⟩, by rw [hvalue]⟩)
  have hrest : (lastPlace (data.take size) (data.drop size) (ds ++ c :: tail)).rest =
      ds ++ c :: (tail ++ data.drop size) := by
    simp [lastPlace]
  have hlen := (fromTag_suffix tag (data.take size)).length_le
  rw [htext] at hlen
  refine within_bind.mpr ⟨_, hfound, within_bind.mpr ⟨toLong (digitsValue ds), ⟨?_, ?_⟩, ?_⟩⟩
  · rw [strtolAt, hrest]
    exact strtol_numeral ⟨.none, ds, hne, hds⟩ hc _
  · intro i hi
    rw [strtolAt, hrest, strtolLength_digits hne hds hc, List.mem_range'_1] at hi
    have htake := List.length_take_le size data
    simp only [lastPlace, List.length_append, List.length_cons] at hi hlen
    omega
  · exact within_pure.mpr rfl

/-- **Numbers are extracted.** In a text of lines whose first line with the tag is the tag, a tab
and a number, the functions return that number and look at nothing behind the text. -/
theorem number_extracted {tag : Bytes} {f : Bytes → ℕ → Scan ℤ} (hf : (tag, f) ∈ numberFunctions)
    {lines : List Bytes} (hlines : ∀ l ∈ lines, (10 : UInt8) ∉ l) {line ds tail : Bytes} {c : UInt8}
    (hfirst : lines.find? (fun l => tag <+: l) = some line)
    (hline : line ++ [10] = tag ++ 9 :: (ds ++ c :: tail)) (hne : ds ≠ [])
    (hds : ∀ b ∈ ds, isDigit b) (hc : isDigit c = false) (hlt : digitsValue ds < 2 ^ 31)
    (behind : Bytes) :
    Within (text lines).length (f (text lines ++ behind) (text lines).length) (digitsValue ds) := by
  have key : ∀ convert : ℤ → ℤ, convert (digitsValue ds) = digitsValue ds → (10 : UInt8) ∉ tag →
      tag ≠ [] → Within (text lines).length
        (numberOf convert tag (text lines ++ behind) (text lines).length) (digitsValue ds) := by
    intro convert hconvert htag hnil
    obtain ⟨rest, htext, -⟩ := exists_fromTag_text htag hlines hfirst
    have hlong : toLong (digitsValue ds) = digitsValue ds := by
      rw [toLong]
      omega
    have hdata : fromTag tag ((text lines ++ behind).take (text lines).length) =
        tag ++ 9 :: (ds ++ c :: (tail ++ text rest)) := by
      rw [List.take_left, htext, List.append_cons, hline]
      simp
    have h : Within _ (numberOf convert tag _ _) _ := within_numberOf htag hnil hdata hne hds hc
    rwa [hlong, hconvert] at h
  have huid : toUid (digitsValue ds) = digitsValue ds := Int.emod_eq_of_lt (by omega) (by omega)
  have hpid : toInt (digitsValue ds) = digitsValue ds := Int.bmod_eq_of_le (by omega) (by omega)
  simp only [numberFunctions, List.mem_cons, Prod.mk.injEq, List.not_mem_nil, or_false] at hf
  rcases hf with ⟨rfl, rfl⟩ | ⟨rfl, rfl⟩ | ⟨rfl, rfl⟩ | ⟨rfl, rfl⟩
  · exact key toUid huid (by decide) (by decide)
  · exact key toInt hpid (by decide) (by decide)
  · exact key toInt hpid (by decide) (by decide)
  · exact key toInt hpid (by decide) (by decide)

/-- `"Name:\tPid:\nPPid:\t1\nPid:\t42 \n"`: the tag `"Pid:"` also stands in the middle of the lines
before. -/
theorem number_extracted_pid : Within 28 (pidfstatus
    (text [pnameTag ++ 9 :: pidTag, ppidTag ++ [9, 49], pidTag ++ [9, 52, 50, 32]] ++ [49, 50]) 28)
    42 :=
  @number_extracted pidTag pidfstatus (by simp [numberFunctions]) _ (by decide)
    (pidTag ++ [9, 52, 50, 32]) [52, 50] [10] 32 (by decide) (by decide) (by decide)
    (by simp [isDigit]) (by decide) (by decide) [49, 50]

/-! ### Data of any kind -/

/-- The functions that look for a field. -/
inductive Scanner
  | uidFromSfile
  | pidFromSfile
  | nameFromSfile
  | pidfstatus
  | ppidfstatus
  /-- `pnamefstatus` of `12-02.c`. -/
  | pnamefstatus02
  /-- `pnamefstatus` of `12-03.c`. -/
  | pnamefstatus03
  deriving DecidableEq

namespace Scanner

/-- The tag that a function looks for. -/
def tag : Scanner → Bytes
  | uidFromSfile => uidTag
  | pidFromSfile | pidfstatus => pidTag
  | ppidfstatus => ppidTag
  | nameFromSfile | pnamefstatus02 | pnamefstatus03 => pnameTag

/-- The function returns a name. -/
def isName : Scanner → Bool
  | nameFromSfile | pnamefstatus02 | pnamefstatus03 => true
  | _ => false

/-- The loops of a function end and look at positions below the size only. -/
def LoopsBelow (f : Scanner) (data : Bytes) (size : ℕ) : Prop :=
  if f.isName then Below size (findName data size) else Below size (findValue f.tag data size)

instance (f : Scanner) (data : Bytes) (size : ℕ) : Decidable (f.LoopsBelow data size) :=
  inferInstanceAs (Decidable (ite ..))

/-- Behind the tag there is what ends the loops: a newline behind the start of the name, or any byte
other than a blank. -/
def Ends (f : Scanner) (content : Bytes) : Prop :=
  if f.isName then (10 : UInt8) ∈ valueText f.tag content
  else ∃ b ∈ (fromTag f.tag content).drop f.tag.length, b ≠ 32

end Scanner

section Loops

variable {tag s : Bytes} {size : ℕ}

theorem below_findValue_iff (htag : (10 : UInt8) ∉ tag) (hne : tag ≠ []) (data : Bytes) :
    Below size (findValue tag data size) ↔
      fromTag tag (data.take size) = [] ∧ Closed 10 (data.take size) ∧ size ≤ data.length ∨
      ∃ b ∈ (fromTag tag (data.take size)).drop tag.length, b ≠ 32 := by
  simp only [below_iff, within_findValue htag hne, exists_or, exists_and_left, exists_eq, and_true]

theorem below_findName_iff (data : Bytes) :
    Below size (findName data size) ↔
      fromTag pnameTag (data.take size) = [] ∧ Closed 10 (data.take size) ∧ size ≤ data.length ∨
      (10 : UInt8) ∈ valueText pnameTag (data.take size) := by
  simp only [below_iff, within_findName, exists_or, exists_and_left, exists_eq, and_true]

end Loops

/-- **When the loops stay below the size.** If no line below the size starts with the tag, the last
of them must have its newline; otherwise, what ends the loops must stand behind the tag. -/
theorem loops_below_iff (f : Scanner) (data : Bytes) (size : ℕ) :
    f.LoopsBelow data size ↔
      fromTag f.tag (data.take size) = [] ∧ Closed 10 (data.take size) ∧ size ≤ data.length ∨
      f.Ends (data.take size) := by
  have htag : (10 : UInt8) ∉ f.tag := by cases f <;> decide
  have hne : f.tag ≠ [] := by cases f <;> decide
  rw [Scanner.LoopsBelow, Scanner.Ends]
  by_cases hname : f.isName
  · have hpname : f.tag = pnameTag := by cases f <;> first | rfl | cases hname
    rw [if_pos hname, if_pos hname, hpname]
    exact below_findName_iff data
  · rw [if_neg hname, if_neg hname]
    exact below_findValue_iff htag hne data

/-- `"Stat"`, the part of a status file that was read, with a newline behind it that was not: the
loop over the line looks behind the size. -/
theorem loops_not_below : ¬ Scanner.uidFromSfile.LoopsBelow [83, 116, 97, 116, 101, 10] 4 := by
  decide

end StatusFile

end Tlpiexer
