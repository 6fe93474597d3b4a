import Tlpiexer.StatusFile.Fields

/-!
# The name of a process

`name_from_sfile` of `src/imp/12-01.c` and `pnamefstatus` of `src/imp/12-02.c` and of
`src/imp/12-03.c`. They find the name in the same way and differ in the way they copy it: two of
them put the NUL one byte too far, so that the byte behind the name is the one that was there
before.

## Main results

* `StatusFile.names_exact_iff` — when all three leave the name in the buffer
-/

namespace Tlpiexer

namespace StatusFile

open CString ArrayScan ArrayScan.Scan Segments

/-- `PROCESS_NAME_MAX` of `12-01.c` and `12-02.c`, `PNAME_MAX` of `12-03.c`. -/
abbrev nameMax : ℕ := 128

/-! ### The functions -/

/-- A function that copies a name to a buffer. -/
def nameOf (copy : Bytes → CharArray nameMax → Option (CharArray nameMax)) (data : Bytes) (size : ℕ)
    (name : CharArray nameMax) : Scan (ℤ × CharArray nameMax) := do
  match ← findName data size with
  | none => pure (exitFailure, name)
  | some value => ⟨(copy value name).map fun name => (exitSuccess, name), []⟩

/-- `memcpy(name, value, n)`, then `name[n + 1] = '\0'`. -/
def memcpyPast (value : Bytes) (name : CharArray nameMax) : Option (CharArray nameMax) :=
  if value.length + 1 < nameMax then
    some ((CharArray.ofBytes nameMax (overlay name.val value)).set (value.length + 1) 0)
  else none

/-- `strncpy(name, value, n)`, then `name[n + 1] = '\0'`. -/
def strncpyPast (value : Bytes) (name : CharArray nameMax) : Option (CharArray nameMax) :=
  if value.length + 1 < nameMax then
    some ((CharArray.ofBytes nameMax (strncpy name.val value value.length)).set
      (value.length + 1) 0)
  else none

/-- `memcpy(name, value, n)`, then `name[n] = '\0'`. -/
def memcpyEnd (value : Bytes) (name : CharArray nameMax) : Option (CharArray nameMax) :=
  if value.length < nameMax then
    some ((CharArray.ofBytes nameMax (overlay name.val value)).set value.length 0)
  else none

/-- `name_from_sfile` of `12-01.c`. -/
def nameFromSfile : Bytes → ℕ → CharArray nameMax → Scan (ℤ × CharArray nameMax) :=
  nameOf memcpyPast

/-- `pnamefstatus` of `12-02.c`. -/
def pnamefstatus02 : Bytes → ℕ → CharArray nameMax → Scan (ℤ × CharArray nameMax) :=
  nameOf strncpyPast

/-- `pnamefstatus` of `12-03.c`. -/
def pnamefstatus03 : Bytes → ℕ → CharArray nameMax → Scan (ℤ × CharArray nameMax) :=
  nameOf memcpyEnd

/-- The three functions. -/
def nameFunctions : List (Bytes → ℕ → CharArray nameMax → Scan (ℤ × CharArray nameMax)) :=
  [nameFromSfile, pnamefstatus02, pnamefstatus03]

/-! ### The copies -/

/-- The copy succeeds and leaves the string `v`, with its NUL. -/
def Leaves (name : Option (CharArray nameMax)) (v : Bytes) : Prop :=
  ∃ a, name = some a ∧ (0 : UInt8) ∈ a.val ∧ cstr a.val = v

section Copies

variable {value v s : Bytes} {old : CharArray nameMax}

/-- A buffer with room for a value and two more bytes. -/
theorem exists_drop (h : value.length + 1 < nameMax) (old : CharArray nameMax) :
    ∃ x y rest, old.val.drop value.length = x :: y :: rest ∧ old.val[value.length]? = some x := by
  have hlen := old.property
  have hget : value.length + 1 < old.val.length := by omega
  refine ⟨old.val[value.length], old.val[value.length + 1], old.val.drop (value.length + 2), ?_, ?_⟩
  · rw [List.drop_eq_getElem_cons (by omega), List.drop_eq_getElem_cons hget]
  · exact List.getElem?_eq_getElem _

/-- A byte that does not belong to the value counts unless a NUL comes before it. -/
theorem cstr_concat_eq_iff {x : UInt8} :
    cstr (s ++ [x]) = cstr s ↔ (0 : UInt8) ∈ s ∨ x = 0 := by
  by_cases hs : (0 : UInt8) ∈ s
  · simp [cstr_append_of_mem hs, hs]
  · rw [cstr_append_of_notMem hs, cstr_eq_self hs]
    by_cases hx : x = 0
    · simp [hx]
    · simp [cstr_cons_of_ne hx, hs, hx]

/-- With its NUL one byte too far, a copy leaves one byte as it was. -/
theorem memcpyPast_eq (h : value.length + 1 < nameMax) (old : CharArray nameMax) :
    ∃ a x rest, memcpyPast value old = some a ∧ old.val[value.length]? = some x ∧
      a.val = value ++ [x] ++ 0 :: rest := by
  obtain ⟨x, y, rest, hdrop, hx⟩ := exists_drop h old
  refine ⟨_, x, rest, if_pos h, hx, ?_⟩
  change (CharArray.ofBytes nameMax (overlay old.val value)).val.set (value.length + 1) 0 = _
  rw [CharArray.val_ofBytes_overlay old (by omega), overlay, hdrop,
    List.set_append_right _ _ (by omega)]
  simp

theorem leaves_memcpyPast_iff (hv : cstr value = v) :
    Leaves (memcpyPast value old) v ↔
      value.length + 1 < nameMax ∧ ((0 : UInt8) ∈ value ∨ old.val[value.length]? = some 0) := by
  by_cases h : value.length + 1 < nameMax
  case neg => simp [Leaves, memcpyPast, h]
  case pos =>
    obtain ⟨a, x, rest, hcopy, hx, hval⟩ := memcpyPast_eq h old
    have hleaves : Leaves (memcpyPast value old) v ↔ cstr (value ++ [x]) = v := by
      rw [hcopy, Leaves]
      constructor
      · rintro ⟨a', ha, -, hcstr⟩
        rw [← Option.some.inj ha, hval, cstr_append_zero_cons] at hcstr
        exact hcstr
      · intro hcstr
        exact ⟨a, rfl, by rw [hval]; simp, by rw [hval, cstr_append_zero_cons, hcstr]⟩
    rw [hleaves, ← hv, cstr_concat_eq_iff, hx, Option.some.injEq]
    exact (and_iff_right h).symm

theorem leaves_memcpyEnd_iff :
    Leaves (memcpyEnd value old) v ↔ value.length < nameMax ∧ cstr value = v := by
  by_cases h : value.length < nameMax
  case neg => simp [Leaves, memcpyEnd, h]
  case pos =>
    have hlen := old.property
    obtain ⟨x, rest, hdrop⟩ : ∃ x rest, old.val.drop value.length = x :: rest :=
      ⟨_, _, List.drop_eq_getElem_cons (by omega)⟩
    have hval : ((CharArray.ofBytes nameMax (overlay old.val value)).set value.length 0).val =
        value ++ 0 :: rest := by
      change (CharArray.ofBytes nameMax (overlay old.val value)).val.set value.length 0 = _
      rw [CharArray.val_ofBytes_overlay old (by omega), overlay, hdrop,
        List.set_append_right _ _ (by omega)]
      simp
    rw [memcpyEnd, if_pos h, Leaves]
    constructor
    · rintro ⟨a, ha, -, hcstr⟩
      rw [← Option.some.inj ha, hval, cstr_append_zero_cons] at hcstr
      exact ⟨h, hcstr⟩
    · rintro ⟨-, hcstr⟩
      exact ⟨_, rfl, by rw [hval]; simp, by rw [hval, cstr_append_zero_cons, hcstr]⟩

/-- What `strncpy` copies of a value: its string, filled up with NULs. -/
def padded (value : Bytes) : Bytes :=
  cstr value ++ List.replicate (value.length - (cstr value).length) 0

theorem length_padded (value : Bytes) : (padded value).length = value.length := by
  have hle : (cstr value).length ≤ value.length := (List.takeWhile_sublist _).length_le
  simp [padded, hle]

theorem cstr_padded (value : Bytes) : cstr (padded value) = cstr value := by
  rw [padded, cstr_append_of_notMem (zero_notMem_cstr value)]
  cases value.length - (cstr value).length <;> simp [List.replicate_succ]

theorem zero_mem_padded_iff : (0 : UInt8) ∈ padded value ↔ (0 : UInt8) ∈ value := by
  constructor
  · intro h
    by_contra hn
    rw [padded, cstr_eq_self hn, Nat.sub_self] at h
    simp [hn] at h
  · intro h
    have hlt := cstr_length_lt h
    rw [padded, List.mem_append, List.mem_replicate]
    exact .inr ⟨by omega, rfl⟩

theorem strncpyPast_eq : strncpyPast value old = memcpyPast (padded value) old := by
  rw [strncpyPast, memcpyPast, length_padded, strncpy, List.take_length]
  rfl

theorem leaves_strncpyPast_iff (hv : cstr value = v) :
    Leaves (strncpyPast value old) v ↔
      value.length + 1 < nameMax ∧ ((0 : UInt8) ∈ value ∨ old.val[value.length]? = some 0) := by
  rw [strncpyPast_eq, leaves_memcpyPast_iff ((cstr_padded value).trans hv), length_padded,
    zero_mem_padded_iff]

/-- **The three copies** leave the same string if it is the one that is wanted, there is room for
it, and the byte behind it is a NUL already. -/
theorem leaves_all_iff :
    Leaves (memcpyPast value old) v ∧ Leaves (strncpyPast value old) v ∧
        Leaves (memcpyEnd value old) v ↔
      value.length + 1 < nameMax ∧ cstr value = v ∧
        ((0 : UInt8) ∈ value ∨ old.val[value.length]? = some 0) := by
  rw [leaves_memcpyEnd_iff]
  constructor
  · rintro ⟨hpast, -, -, hv⟩
    obtain ⟨hlen, hbyte⟩ := (leaves_memcpyPast_iff hv).mp hpast
    exact ⟨hlen, hv, hbyte⟩
  · rintro ⟨hlen, hv, hbyte⟩
    exact ⟨(leaves_memcpyPast_iff hv).mpr ⟨hlen, hbyte⟩,
      (leaves_strncpyPast_iff hv).mpr ⟨hlen, hbyte⟩, by omega, hv⟩

end Copies

/-! ### Lines with a name -/

/-- A line that is the tag, a tab and a value of less than 126 bytes without a NUL. -/
def IsNameLine (line : Bytes) : Prop :=
  pnameTag ++ [9] <+: line ∧ (line.drop 6).length < 126 ∧ (0 : UInt8) ∉ line.drop 6

instance : DecidablePred IsNameLine := fun _ => inferInstanceAs (Decidable (_ ∧ _))

/-- What a call leaves in the buffer. -/
def written (r : Scan (ℤ × CharArray nameMax)) : Option (CharArray nameMax) := r.value.map (·.2)

section Lines

variable {lines : List Bytes} {v : Bytes}

/-- Where there is a line with a name, the first line with the tag has a value below the size: if
nothing stands in it behind the tag, the value is the next line. -/
theorem newline_mem_valueText (hlines : ∀ l ∈ lines, (10 : UInt8) ∉ l)
    (hfirst : lines.find? IsNameLine = some (pnameTag ++ 9 :: v)) :
    (10 : UInt8) ∈ valueText pnameTag (text lines) := by
  have hmem := List.mem_of_find?_eq_some hfirst
  obtain ⟨line, hline⟩ : ∃ line, lines.find? (fun l => pnameTag <+: l) = some line := by
    rw [← Option.isSome_iff_exists, List.find?_isSome]
    exact ⟨_, hmem, by simp⟩
  obtain ⟨rest, htext, hrest⟩ := exists_fromTag_text (by decide) hlines hline
  obtain ⟨t, rfl⟩ : pnameTag <+: line := by simpa using List.find?_some hline
  rw [List.append_assoc] at htext
  rcases forall_or_exists_append (· = 32) t with hblank | ⟨u, b, w, rfl, hu, hb⟩
  · -- the line ends behind blanks: the line with the name is another one, behind it
    rw [valueText_eq htext (by simpa using hblank) (by decide)]
    rcases List.mem_cons.mp (hrest _ hmem (List.prefix_append ..)) with heq | hmem
    · have ht := List.append_cancel_left heq
      exact absurd (hblank 9 (by simp [← ht])) (by decide)
    · exact List.mem_flatMap.mpr ⟨_, hmem, by simp⟩
  · rw [List.append_assoc, List.cons_append] at htext
    rw [valueText_eq htext (by simpa using hu) (by simpa using hb)]
    simp

theorem written_nameOf {copy : Bytes → CharArray nameMax → Option (CharArray nameMax)}
    {data : Bytes} {size : ℕ} (h : (10 : UInt8) ∈ valueText pnameTag (data.take size))
    (old : CharArray nameMax) :
    written (nameOf copy data size old) = copy (nameText (data.take size)) old := by
  have hfound := ((within_findName data).mpr (.inr ⟨h, rfl⟩)).1
  rw [written, nameOf, value_bind, hfound]
  simp [Option.map_map, Function.comp_def]

/-- **The names agree** on a text with a line `"Name:"`, tab and value if the text behind the first
`"Name:"` is that value, and if the old buffer happens to have a NUL right behind it. -/
theorem names_exact_iff (hlines : ∀ l ∈ lines, (10 : UInt8) ∉ l)
    (hfirst : lines.find? IsNameLine = some (pnameTag ++ 9 :: v)) (behind : Bytes)
    (old : CharArray nameMax) :
    (∀ f ∈ nameFunctions, Leaves (written (f (text lines ++ behind) (text lines).length old)) v) ↔
      (nameText (text lines)).length + 1 < nameMax ∧ cstr (nameText (text lines)) = v ∧
        ((0 : UInt8) ∈ nameText (text lines) ∨
          old.val[(nameText (text lines)).length]? = some 0) := by
  have htake : (text lines ++ behind).take (text lines).length = text lines := List.take_left ..
  have hmem := newline_mem_valueText hlines hfirst
  rw [← htake] at hmem
  simp only [nameFunctions, List.forall_mem_cons, List.not_mem_nil, IsEmpty.forall_iff,
    implies_true, and_true, nameFromSfile, pnamefstatus02, pnamefstatus03, written_nameOf hmem,
    htake]
  exact leaves_all_iff

/-- `"cat"`, in a buffer of NULs. -/
theorem names_exact_cat :
    IsNameLine (pnameTag ++ [9, 99, 97, 116]) ∧
      ∀ f ∈ nameFunctions,
        Leaves (written (f (text [pnameTag ++ [9, 99, 97, 116]] ++ []) 10 (.ofBytes nameMax [])))
          [99, 97, 116] :=
  ⟨by decide, (names_exact_iff (by decide) (by decide) [] (.ofBytes nameMax [])).mpr (by decide)⟩

/-- `"cat"` after `"systemd"`: two of the functions leave `"catt"`. -/
theorem names_differ :
    let old := CharArray.ofBytes nameMax [115, 121, 115, 116, 101, 109, 100]
    let data := text [pnameTag ++ [9, 99, 97, 116]]
    (nameFunctions.map fun f => (written (f data 10 old)).map fun name => cstr name.val) =
      [some [99, 97, 116, 116], some [99, 97, 116, 116], some [99, 97, 116]] := by
  decide

end Lines

end StatusFile

end Tlpiexer
