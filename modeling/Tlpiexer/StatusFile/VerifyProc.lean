import Tlpiexer.StatusFile.Names

/-!
# The processes of a user

`verifyproc` of `src/imp/12-01.c`, which prints a process if its status file says that it belongs to
a user.

## Errors

The functions that look for a field return `EXIT_FAILURE`, which is 1, when they do not find it, and
`verifyproc` compares their results with -1. So a missing field is not noticed: a process without a
user belongs to user 1, a process without a pid has pid 1, and a process without a name has the name
that is left in the buffer.

## Main results

* `VerifyProc.verifyproc_exact` — when a process is printed as it should be
-/

namespace Tlpiexer

namespace VerifyProc

open CString Decimal ArrayScan ArrayScan.Scan Segments StatusFile

/-- `STATUS_FILE_SIZE`. -/
abbrev statusFileSize : ℕ := 4096

/-- `isnumber`. -/
def isnumber (str : Bytes) : Bool := str.all isDigit

/-- What the system calls for a process do. -/
structure Calls where
  /-- `open` does not fail. -/
  opened : Bool
  /-- What `read` delivers, if it does not fail. -/
  read : Option Bytes
  read_le : ∀ content, read = some content → content.length ≤ statusFileSize
  /-- `close` does not fail. -/
  closed : Bool
  /-- What `pcmd_from_proc` prints. -/
  cmd : Bytes

/-- `verifyproc` behind the system calls: what it prints. There is no answer if it leaves an array;
so does `"%s"` if there is no NUL in `pname`. -/
def display (data : Bytes) (datasize : ℕ) (uid : ℤ) (pname : CharArray nameMax) (cmd : Bytes) :
    Option Bytes := do
  let puid ← (uidFromSfile data datasize).value
  -- the constant `-1` is converted to the type of `puid`
  if puid = toUid (-1) then return []
  if puid ≠ uid then return []
  let pid ← (pidFromSfile data datasize).value
  let (status, pname) ← (nameFromSfile data datasize pname).value
  if status = -1 then return []
  if (0 : UInt8) ∈ pname.val then
    return printLong pid ++ [32, 45, 32] ++ cstr pname.val ++ [10] ++ cmd ++ [10]
  else none

/-- `verifyproc`, with what is in its buffers before. -/
def verifyproc (dirname : Bytes) (uid : ℤ) (calls : Calls) (data : CharArray statusFileSize)
    (pname : CharArray nameMax) : Option Bytes :=
  if isnumber dirname = false then some []
  else if calls.opened = false then some []
  else match calls.read with
    | none => some []
    | some content =>
      if calls.closed = false then some []
      else display (overlay data.val content) content.length uid pname calls.cmd

/-! ### What is to be printed -/

/-- A line starts with the tag. -/
def HasLine (tag : Bytes) (lines : List Bytes) : Prop := ∃ l ∈ lines, tag <+: l

instance (tag : Bytes) (lines : List Bytes) : Decidable (HasLine tag lines) :=
  inferInstanceAs (Decidable (∃ l ∈ lines, tag <+: l))

/-- The first number in a text. -/
def firstNumber (s : Bytes) : Option ℕ :=
  let ds := (s.dropWhile fun b => !isDigit b).takeWhile isDigit
  if ds = [] then none else some (digitsValue ds)

/-- There is a line for the user. -/
def OwnedBy (lines : List Bytes) (uid : ℤ) : Prop :=
  ∃ l ∈ lines, uidTag <+: l ∧ ∃ n, firstNumber (l.drop uidTag.length) = some n ∧ (n : ℤ) = uid

/-- The status file has a line for the user, one with a pid and one with a name. -/
def Listed (lines : List Bytes) (uid : ℤ) : Prop :=
  OwnedBy lines uid ∧ HasLine pidTag lines ∧ HasLine pnameTag lines

/-! ### What the functions find in a text -/

section Text

variable {tag : Bytes} {lines : List Bytes}

theorem fromTag_text_eq_nil_iff (htag : (10 : UInt8) ∉ tag)
    (hlines : ∀ l ∈ lines, (10 : UInt8) ∉ l) :
    fromTag tag (text lines) = [] ↔ ¬ HasLine tag lines := by
  have hnil : ∀ ls, text ls = [] ↔ ls = [] := fun ls => by cases ls <;> simp [text]
  rw [fromTag_text htag hlines, hnil, List.dropWhile_eq_nil_iff]
  simp [HasLine]

theorem value_findValue_missing (htag : (10 : UInt8) ∉ tag) (hne : tag ≠ [])
    (hlines : ∀ l ∈ lines, (10 : UInt8) ∉ l) (h : ¬ HasLine tag lines) (behind : Bytes) :
    (findValue tag (text lines ++ behind) (text lines).length).value = some none := by
  refine ((within_findValue htag hne _).mpr (.inl ⟨?_, rfl⟩)).1
  rw [List.take_left]
  exact ⟨(fromTag_text_eq_nil_iff htag hlines).mpr h, closed_text lines, by simp⟩

theorem value_findValue (htag : (10 : UInt8) ∉ tag) (hne : tag ≠ [])
    (hlines : ∀ l ∈ lines, (10 : UInt8) ∉ l) (h : HasLine tag lines) (behind : Bytes) :
    (findValue tag (text lines ++ behind) (text lines).length).value =
      some (some (lastPlace (text lines) behind (valueText tag (text lines)))) := by
  obtain ⟨line, hline⟩ : ∃ line, lines.find? (fun l => tag <+: l) = some line := by
    rw [← Option.isSome_iff_exists, List.find?_isSome]
    simpa [HasLine] using h
  obtain ⟨rest, htext, -⟩ := exists_fromTag_text htag hlines hline
  obtain ⟨u, rfl⟩ : tag <+: line := by simpa using List.find?_some hline
  have hnewline : (10 : UInt8) ∈
      (fromTag tag ((text lines ++ behind).take (text lines).length)).drop tag.length := by
    rw [List.take_left, htext, List.append_assoc, List.drop_left]
    simp
  have hfound := (within_findValue htag hne (text lines ++ behind)).mpr
    (.inr ⟨⟨10, hnewline, by decide⟩, rfl⟩)
  rw [List.take_left, List.drop_left] at hfound
  exact hfound.1

theorem value_findName (hlines : ∀ l ∈ lines, (10 : UInt8) ∉ l) (h : HasLine pnameTag lines)
    (behind : Bytes) :
    (findName (text lines ++ behind) (text lines).length).value =
      if (10 : UInt8) ∈ valueText pnameTag (text lines) ++ behind then
        some (some ((valueText pnameTag (text lines) ++ behind).takeWhile (· ≠ 10)))
      else none := by
  rw [findName, value_bind, value_findValue (by decide) (by decide) hlines h, Option.bind_some]
  dsimp only [lastPlace]
  rw [value_bind]
  rcases forall_or_exists_append (· ≠ 10) (valueText pnameTag (text lines) ++ behind) with
    hall | ⟨run, b, t, heq, hrun, hb⟩
  · rw [value_skipWhile_of_forall hall, if_neg fun hmem => by simpa using hall 10 hmem]
    rfl
  · obtain rfl : b = 10 := by simpa using hb
    rw [heq, value_skipWhile_append hrun hb, if_pos (by simp), Option.bind_some, value_pure,
      Nat.add_sub_cancel_left, List.take_left, List.takeWhile_append_of_pos hrun,
      List.takeWhile_cons_of_neg (by simp), List.append_nil]

end Text

/-! ### What is printed -/

/-- What `strtol` makes of the value of a field. -/
def fieldNumber (tag : Bytes) (lines : List Bytes) (behind : Bytes) : Option ℤ :=
  strtol (valueText tag (text lines) ++ behind)

/-- The line of the name ends, and the name and two more bytes fit into the buffer. -/
def NameFits (lines : List Bytes) (behind : Bytes) : Prop :=
  let value := valueText pnameTag (text lines) ++ behind
  (10 : UInt8) ∈ value ∧ (value.takeWhile (· ≠ 10)).length + 1 < nameMax

/-- The number is read as `uid`, and this is not the one that stands for an error. -/
def ReadAs (x uid : ℤ) : Prop := toUid x = uid ∧ uid ≠ toUid (-1)

section Display

variable {data : Bytes} {size : ℕ} {uid puid : ℤ} (pname : CharArray nameMax) (cmd : Bytes)

/-- Nothing is printed for another user. -/
theorem display_of_not_readAs (h : (uidFromSfile data size).value = some puid)
    (hne : ¬ (puid = uid ∧ uid ≠ toUid (-1))) : display data size uid pname cmd = some [] := by
  rw [display, h]
  by_cases herr : puid = toUid (-1)
  · simp [herr]
  · have huid : puid ≠ uid := fun heq => hne ⟨heq, heq ▸ herr⟩
    simp [herr, huid]

/-- The results of `name_from_sfile` are never the one that `verifyproc` looks for. -/
theorem nameFromSfile_ne {pname : CharArray nameMax} {r : ℤ × CharArray nameMax}
    (h : (nameFromSfile data size pname).value = some r) : r.1 ≠ -1 := by
  rw [nameFromSfile, nameOf, value_bind, Option.bind_eq_some_iff] at h
  obtain ⟨found, -, h⟩ := h
  cases found with
  | none =>
    rw [← Option.some.inj h]
    exact (by decide : exitFailure ≠ -1)
  | some value =>
    obtain ⟨name, -, rfl⟩ := Option.map_eq_some_iff.mp h
    exact (by decide : exitSuccess ≠ -1)

/-- For the user there is always a line, unless an array is left. -/
theorem display_of_readAs (h : (uidFromSfile data size).value = some uid)
    (hne : uid ≠ toUid (-1)) :
    (∀ out, display data size uid pname cmd = some out → out ≠ []) ∧
      ((display data size uid pname cmd).isSome ↔ (pidFromSfile data size).value.isSome ∧
        ∃ r, (nameFromSfile data size pname).value = some r ∧ (0 : UInt8) ∈ r.2.val) := by
  rw [display, h]
  cases hpid : (pidFromSfile data size).value with
  | none => simp [hne]
  | some pid =>
    cases hname : (nameFromSfile data size pname).value with
    | none => simp [hne]
    | some r =>
      have hr := nameFromSfile_ne hname
      by_cases hzero : (0 : UInt8) ∈ r.2.val <;> simp [hne, hr, hzero]

end Display

section Fields

variable {lines : List Bytes} (hlines : ∀ l ∈ lines, (10 : UInt8) ∉ l) (behind : Bytes)
include hlines

theorem value_numberOf {tag : Bytes} (convert : ℤ → ℤ) (htag : (10 : UInt8) ∉ tag)
    (hne : tag ≠ []) :
    (numberOf convert tag (text lines ++ behind) (text lines).length).value =
      if HasLine tag lines then (fieldNumber tag lines behind).map convert
      else some exitFailure := by
  rw [numberOf, value_bind]
  by_cases h : HasLine tag lines
  · rw [value_findValue htag hne hlines h, if_pos h, Option.bind_some]
    dsimp only
    rw [value_bind, Option.map_eq_bind]
    rfl
  · rw [value_findValue_missing htag hne hlines h, if_neg h]
    rfl

theorem nameFromSfile_iff (h : HasLine pnameTag lines) (pname : CharArray nameMax) :
    (∃ r, (nameFromSfile (text lines ++ behind) (text lines).length pname).value = some r ∧
      (0 : UInt8) ∈ r.2.val) ↔ NameFits lines behind := by
  rw [nameFromSfile, nameOf, value_bind, value_findName hlines h, NameFits]
  set value := valueText pnameTag (text lines) ++ behind
  by_cases hmem : (10 : UInt8) ∈ value
  case neg => simp [hmem]
  case pos =>
    rw [if_pos hmem, Option.bind_some]
    dsimp only
    by_cases hlen : (value.takeWhile (· ≠ 10)).length + 1 < nameMax
    · obtain ⟨a, x, rest, hcopy, -, hval⟩ := memcpyPast_eq hlen pname
      refine iff_of_true ⟨(exitSuccess, a), by rw [hcopy]; rfl, ?_⟩ ⟨hmem, hlen⟩
      rw [hval]
      simp
    · refine iff_of_false ?_ fun hfits => hlen hfits.2
      rw [memcpyPast, if_neg hlen]
      simp

end Fields

/-- The output for a text of lines, with what is behind it in memory, is as it should be. -/
def Exact (lines : List Bytes) (behind : Bytes) (uid : ℤ) (pname : CharArray nameMax)
    (cmd : Bytes) : Prop :=
  ∃ out, display (text lines ++ behind) (text lines).length uid pname cmd = some out ∧
    (out ≠ [] ↔ Listed lines uid)

section Exact

variable {lines : List Bytes} (hlines : ∀ l ∈ lines, (10 : UInt8) ∉ l) {behind : Bytes} {uid x : ℤ}
  (pname : CharArray nameMax) (cmd : Bytes)
include hlines

theorem value_uidFromSfile (h : fieldNumber uidTag lines behind = some x)
    (hline : HasLine uidTag lines) :
    (uidFromSfile (text lines ++ behind) (text lines).length).value = some (toUid x) := by
  have hvalue := value_numberOf hlines behind toUid (by decide : (10 : UInt8) ∉ uidTag) (by decide)
  rwa [if_pos hline, h] at hvalue

/-- Without a line for a user, the result for the missing line is taken for user 1. -/
theorem exact_of_missing_iff (hline : ¬ HasLine uidTag lines) :
    Exact lines behind uid pname cmd ↔ uid ≠ 1 := by
  have huid : (uidFromSfile (text lines ++ behind) (text lines).length).value = some 1 := by
    have hvalue :=
      value_numberOf hlines behind toUid (by decide : (10 : UInt8) ∉ uidTag) (by decide)
    rwa [if_neg hline] at hvalue
  have hnot : ¬ Listed lines uid := by
    rintro ⟨⟨l, hl, hpre, -⟩, -⟩
    exact hline ⟨l, hl, hpre⟩
  by_cases hone : uid = 1
  · subst hone
    have hprinted := (display_of_readAs pname cmd huid (by decide)).1
    refine iff_of_false ?_ fun h => h rfl
    rintro ⟨out, hout, hiff⟩
    exact hnot (hiff.mp (hprinted out hout))
  · refine iff_of_true ⟨[], display_of_not_readAs _ _ huid fun h => hone h.1.symm, ?_⟩ hone
    simp [hnot]

/-- If the first line for a user is read as the user, the process has to be listed, and its other
fields have to be readable. -/
theorem exact_of_readAs_iff (hline : HasLine uidTag lines)
    (hx : fieldNumber uidTag lines behind = some x) (hread : ReadAs x uid) :
    Exact lines behind uid pname cmd ↔
      Listed lines uid ∧ (fieldNumber pidTag lines behind).isSome ∧ NameFits lines behind := by
  obtain ⟨rfl, hne⟩ := hread
  obtain ⟨hprinted, hdefined⟩ :=
    display_of_readAs pname cmd (value_uidFromSfile hlines hx hline) hne
  have hfields : Listed lines (toUid x) →
      ((display (text lines ++ behind) (text lines).length (toUid x) pname cmd).isSome ↔
        (fieldNumber pidTag lines behind).isSome ∧ NameFits lines behind) := by
    rintro ⟨-, hpidLine, hnameLine⟩
    have hpid : (pidFromSfile (text lines ++ behind) (text lines).length).value = _ :=
      value_numberOf hlines behind toInt (by decide) (by decide)
    rw [hdefined, hpid, if_pos hpidLine, nameFromSfile_iff hlines behind hnameLine,
      Option.isSome_map]
  constructor
  · rintro ⟨out, hout, hiff⟩
    have hlisted := hiff.mp (hprinted out hout)
    exact ⟨hlisted, (hfields hlisted).mp (by rw [hout]; rfl)⟩
  · rintro ⟨hlisted, hreadable⟩
    obtain ⟨out, hout⟩ := Option.isSome_iff_exists.mp ((hfields hlisted).mpr hreadable)
    exact ⟨out, hout, iff_of_true (hprinted out hout) hlisted⟩

/-- If it is read as another user, the process must not be listed. -/
theorem exact_of_not_readAs_iff (hline : HasLine uidTag lines)
    (hx : fieldNumber uidTag lines behind = some x) (hread : ¬ ReadAs x uid) :
    Exact lines behind uid pname cmd ↔ ¬ Listed lines uid := by
  rw [Exact, display_of_not_readAs pname cmd (value_uidFromSfile hlines hx hline) hread]
  simp

end Exact

/-! ### Contents -/

/-- The line is the tag, blanks, one more byte, and a number. -/
def Numbered (tag line : Bytes) (n : ℕ) : Prop :=
  ∃ blanks sep ds tail, line = tag ++ (blanks ++ sep :: (ds ++ tail)) ∧ (∀ b ∈ blanks, b = 32) ∧
    sep ≠ 32 ∧ isDigit sep = false ∧ ds ≠ [] ∧ (∀ b ∈ ds, isDigit b) ∧
    (∀ b ∈ tail.head?, isDigit b = false) ∧ digitsValue ds = n

section Numbered

variable {tag line : Bytes} {n : ℕ}

theorem Numbered.firstNumber (h : Numbered tag line n) :
    firstNumber (line.drop tag.length) = some n := by
  obtain ⟨blanks, sep, ds, tail, rfl, hblanks, -, hsep, hne, hds, htail, rfl⟩ := h
  have hdrop : (blanks ++ sep :: (ds ++ tail)).dropWhile (fun b => !isDigit b) = ds ++ tail := by
    rw [List.dropWhile_append_of_pos (fun b hb => by rw [hblanks b hb]; decide),
      List.dropWhile_cons_of_pos (by simp [hsep])]
    obtain ⟨d, ds, rfl⟩ := List.exists_cons_of_ne_nil hne
    rw [List.cons_append, List.dropWhile_cons_of_neg (by simp [hds d List.mem_cons_self])]
  have htake : (ds ++ tail).takeWhile isDigit = ds := by
    rw [List.takeWhile_append_of_pos hds]
    cases tail with
    | nil => simp
    | cons c tail =>
      rw [List.takeWhile_cons_of_neg (by simp [htail c rfl]), List.append_nil]
  rw [VerifyProc.firstNumber, List.drop_left, hdrop, htake, if_neg hne]

/-- `strtol` reads the number. -/
theorem Numbered.fieldNumber {lines : List Bytes} (htag : (10 : UInt8) ∉ tag)
    (hlines : ∀ l ∈ lines, (10 : UInt8) ∉ l) (hfirst : lines.find? (fun l => tag <+: l) = some line)
    (h : Numbered tag line n) (hlt : n < 2 ^ 63) (behind : Bytes) :
    fieldNumber tag lines behind = some (n : ℤ) := by
  obtain ⟨blanks, sep, ds, tail, rfl, hblanks, hsep, -, hne, hds, htail, rfl⟩ := h
  obtain ⟨rest, htext, -⟩ := exists_fromTag_text htag hlines hfirst
  have hvalue : valueText tag (text lines) = ds ++ (tail ++ 10 :: text rest) := by
    refine valueText_eq (u := blanks) (b := sep) ?_ hblanks hsep
    rw [htext]
    simp
  -- the byte behind the digits is one of the line, or the newline
  obtain ⟨c, t, hct, hc⟩ : ∃ c t, tail ++ 10 :: text rest ++ behind = c :: t ∧
      isDigit c = false := by
    cases tail with
    | nil => exact ⟨10, text rest ++ behind, rfl, by decide⟩
    | cons c tail => exact ⟨c, tail ++ 10 :: text rest ++ behind, rfl, htail c rfl⟩
  have hlong : toLong (digitsValue ds) = digitsValue ds := by
    rw [toLong]
    omega
  rw [VerifyProc.fieldNumber, hvalue, List.append_assoc, hct, ← hlong]
  exact strtol_numeral ⟨.none, ds, hne, hds⟩ hc t

end Numbered

/-- **The contents that `verifyproc` takes for what they are.** There is no line for a user, and it
is not user 1 that is asked for. Or the first such line is well formed; if it is for the user, there
are lines with a pid and a name, of which the pid ends and the name fits, and if it is for another
one, there is no further line for the user, or no pid or no name. -/
def Fair (lines : List Bytes) (behind : Bytes) (uid : ℤ) : Prop :=
  (¬ HasLine uidTag lines ∧ uid ≠ 1) ∨
  ∃ line n, lines.find? (fun l => uidTag <+: l) = some line ∧ Numbered uidTag line n ∧
    n < 2 ^ 32 - 1 ∧
    if (n : ℤ) = uid then
      HasLine pidTag lines ∧ HasLine pnameTag lines ∧ (fieldNumber pidTag lines behind).isSome ∧
        NameFits lines behind
    else ¬ OwnedBy lines uid ∨ ¬ HasLine pidTag lines ∨ ¬ HasLine pnameTag lines

theorem hasLine_of_find {tag line : Bytes} {lines : List Bytes}
    (h : lines.find? (fun l => tag <+: l) = some line) : line ∈ lines ∧ tag <+: line :=
  ⟨List.mem_of_find?_eq_some h, by simpa using List.find?_some h⟩

/-- The condition for a content whose first line for a user is well formed. -/
theorem exact_of_numbered_iff {lines : List Bytes} (hlines : ∀ l ∈ lines, (10 : UInt8) ∉ l)
    {behind line : Bytes} {uid : ℤ} {n : ℕ} (pname : CharArray nameMax) (cmd : Bytes)
    (hfirst : lines.find? (fun l => uidTag <+: l) = some line) (hn : Numbered uidTag line n)
    (hlt : n < 2 ^ 32 - 1) :
    Exact lines behind uid pname cmd ↔
      if (n : ℤ) = uid then
        HasLine pidTag lines ∧ HasLine pnameTag lines ∧ (fieldNumber pidTag lines behind).isSome ∧
          NameFits lines behind
      else ¬ OwnedBy lines uid ∨ ¬ HasLine pidTag lines ∨ ¬ HasLine pnameTag lines := by
  obtain ⟨hmem, hpre⟩ := hasLine_of_find hfirst
  have hx := hn.fieldNumber (by decide) hlines hfirst (by omega) behind
  have hread : ReadAs (n : ℤ) uid ↔ (n : ℤ) = uid := by
    have htoUid : toUid n = n := Int.emod_eq_of_lt (by omega) (by omega)
    have herr : toUid (-1) = 2 ^ 32 - 1 := by decide
    rw [ReadAs, htoUid, herr]
    constructor
    · exact fun h => h.1
    · exact fun h => ⟨h, by omega⟩
  have howned : (n : ℤ) = uid → OwnedBy lines uid := fun h =>
    ⟨line, hmem, hpre, n, hn.firstNumber, h⟩
  by_cases huid : (n : ℤ) = uid
  · rw [exact_of_readAs_iff hlines pname cmd ⟨line, hmem, hpre⟩ hx (hread.mpr huid), if_pos huid,
      Listed, and_iff_right (howned huid), and_assoc]
  · rw [exact_of_not_readAs_iff hlines pname cmd ⟨line, hmem, hpre⟩ hx (mt hread.mp huid),
      if_neg huid, Listed, not_and_or, not_and_or]

/-- A status file that is read without errors, of a process without a command line. -/
def readable (content : Bytes) (h : content.length ≤ statusFileSize) : Calls :=
  ⟨true, some content, fun _ hread => Option.some.inj hread ▸ h, true, []⟩

/-- `"Name:\tcat\nPid:\t7\n"`. -/
def catLines : List Bytes := [pnameTag ++ [9, 99, 97, 116], pidTag ++ [9, 55]]

end VerifyProc

end Tlpiexer
