import Mathlib.Logic.Function.Basic
import Tlpiexer.Constants
import Tlpiexer.StatusFile.Names

/-!
# The table of processes

`main` and `parseproc` of `src/imp/12-02.c`, which fill a table with the processes found in `/proc`
and hand it over to `ptree`.

## The slots

The table is the memory that `malloc` returns, `pmax` slots with anything in them. The model keeps
what is written to a slot also when it lies behind the table, and records the slots that are written
to and those that are filled. `numproc` is a `size_t` that is increased before the root entry is put
into the table: the entry is two slots behind the last process, and the slot between them belongs to
what `ptree` is given.

## The buffer

`buf` keeps what was read before. A failing `read` is not noticed, because `rsize` is unsigned and
compared with 0, and the name is looked for in as many bytes as the table has slots. What one
directory leads to therefore depends on those before it, through the buffer, but not on the table
(`visit_eq_blank`).

## Main definitions

* `ProcTable.visit`, `ProcTable.parseproc`, `ProcTable.main`
* `ProcTable.outcomes` — what the directories lead to, one after the other

## Main results

* `ProcTable.table_safe_iff` — when the slots are used as they should be
-/

namespace Tlpiexer

namespace ProcTable

open CString Decimal ArrayScan StatusFile

/-- `STATUSSIZE_MAX`. -/
abbrev statusSizeMax : ℕ := 4096

/-- `maxpid`. -/
abbrev maxpid : ℕ := 4096

/-- `struct pinfo_t`. -/
structure PInfo where
  pid : ℤ
  ppid : ℤ
  name : CharArray nameMax

/-- `isnumberic`. -/
def isnumberic (str : Bytes) : Bool := str.all isDigit

/-- An entry of `/proc`, and what the system calls for it do. -/
structure Entry where
  name : Bytes
  /-- `open` does not fail. -/
  opened : Bool
  /-- What `read` delivers, if it does not fail. -/
  read : Option Bytes
  read_le : ∀ content, read = some content → content.length ≤ statusSizeMax
  /-- `close` does not fail. -/
  closed : Bool

/-- The status file of the entry is opened. -/
def Entry.isProcess (e : Entry) : Bool := isnumberic e.name && e.opened

/-- How a round of the loop ends. -/
inductive Then
  /-- `continue` -/
  | skip
  /-- The slot is filled, and the next one is used. -/
  | next
  /-- `return RET_FAILURE`, where the slot may have been written to. -/
  | fail (touched : Bool)
  deriving DecidableEq

/-- The buffer after an entry. -/
def fill (buf : CharArray statusSizeMax) (e : Entry) : CharArray statusSizeMax :=
  if e.isProcess then
    match e.read with
    | none => buf
    | some content => .ofBytes statusSizeMax (overlay buf.val content)
  else buf

/-- The part of the loop body that fills a slot. -/
def fillSlot (size rsize : ℕ) (data : Bytes) (slot : PInfo) : Option (PInfo × Then) := do
  let pid ← (pidfstatus data rsize).value
  let slot := { slot with pid }
  if pid = -1 then return (slot, .fail true)
  let ppid ← (ppidfstatus data rsize).value
  let slot := { slot with ppid }
  if ppid = -1 then return (slot, .fail true)
  let (status, name) ← (pnamefstatus02 data size slot.name).value
  let slot := { slot with name }
  if status ≠ 0 then return (slot, .fail true)
  return (slot, .next)

/-- The loop body behind the test of the number of slots, with the contents of the slot before.
There is no answer if it leaves an array. -/
def visit (size : ℕ) (buf : CharArray statusSizeMax) (slot : PInfo) (e : Entry) :
    Option (PInfo × Then) :=
  if e.isProcess = false then some (slot, .skip)
  else if e.closed = false then some (slot, .fail false)
  else fillSlot size ((e.read.map List.length).getD sizeMax) (fill buf e).val slot

/-- What `parseproc` returns, the number of processes or `RET_FAILURE`, and leaves; with the slots
it has written to and those it has filled. -/
structure Parsed where
  count : Option ℕ
  table : ℕ → PInfo
  written : List ℕ
  filled : List ℕ

/-- `parseproc` behind `opendir`, from slot `i` on. -/
def parseproc (size : ℕ) : List Entry → ℕ → CharArray statusSizeMax → (ℕ → PInfo) → Option Parsed
  | [], i, _, table => some ⟨some i, table, [], []⟩
  | e :: es, i, buf, table =>
    if i > size then some ⟨none, table, [], []⟩
    else do
      let (slot, ended) ← visit size buf (table i) e
      match ended with
      | .skip => parseproc size es i (fill buf e) table
      | .fail touched =>
        some ⟨none, Function.update table i slot, if touched then [i] else [], []⟩
      | .next =>
        let r ← parseproc size es (i + 1) (fill buf e) (Function.update table i slot)
        some { r with written := i :: r.written, filled := i :: r.filled }

/-- What `main` returns and leaves; `root` is the slot of the root entry and `scanned` the number of
slots that `ptree` is given, if it is called. -/
structure Outcome where
  status : ℤ
  table : ℕ → PInfo
  written : List ℕ
  filled : List ℕ
  root : Option ℕ
  scanned : ℕ

/-- `"init"`. -/
def initName : Bytes := [105, 110, 105, 116]

/-- `main`. The arguments say whether `malloc` and `opendir` succeed, and what is in the buffer and
in the table before. -/
def main (malloc opendir : Bool) (entries : List Entry) (buf : CharArray statusSizeMax)
    (table : ℕ → PInfo) : Option Outcome :=
  if malloc = false then some ⟨exitFailure, table, [], [], none, 0⟩
  else if opendir = false then some ⟨exitFailure, table, [], [], none, 0⟩
  else do
    let r ← parseproc maxpid entries 0 buf table
    match r.count with
    | none => some ⟨exitFailure, r.table, r.written, r.filled, none, 0⟩
    | some count =>
      let numproc := count + 1
      let name := (r.table numproc).name
      let slot := ⟨0, 0, .ofBytes nameMax (overlay name.val (initName ++ [0]))⟩
      some ⟨exitSuccess, Function.update r.table numproc slot, r.written ++ [numproc], r.filled,
        some numproc, numproc⟩

/-- Only slots of the table are written to, and what `ptree` is given are slots with a process and
the root entry. -/
def Outcome.Safe (r : Outcome) : Prop :=
  (∀ i ∈ r.written, i < maxpid) ∧ ∀ i < r.scanned, i ∈ r.filled ∨ r.root = some i

/-! ### What the directories lead to -/

/-- A slot of zeros. -/
def blank : PInfo := ⟨0, 0, .ofBytes nameMax []⟩

/-- How the round for an entry ends. -/
def outcome (size : ℕ) (buf : CharArray statusSizeMax) (e : Entry) : Option Then :=
  (visit size buf blank e).map Prod.snd

/-- How the rounds for the entries end, one after the other. -/
def outcomes (size : ℕ) : CharArray statusSizeMax → List Entry → List (Option Then)
  | _, [] => []
  | buf, e :: es => outcome size buf e :: outcomes size (fill buf e) es

/-- Whether a name is found and fits does not depend on the buffer for it. -/
theorem status_pnamefstatus02 (data : Bytes) (size : ℕ) (name name' : CharArray nameMax) :
    (pnamefstatus02 data size name).value.map Prod.fst =
      (pnamefstatus02 data size name').value.map Prod.fst := by
  rw [pnamefstatus02, nameOf, nameOf, Scan.value_bind, Scan.value_bind]
  cases (findName data size).value with
  | none => rfl
  | some found =>
    cases found with
    | none => rfl
    | some value =>
      by_cases h : value.length + 1 < nameMax <;> simp [strncpyPast, h]

theorem fillSlot_eq_blank (size rsize : ℕ) (data : Bytes) (slot : PInfo) :
    (fillSlot size rsize data slot).map Prod.snd =
      (fillSlot size rsize data blank).map Prod.snd := by
  have hstatus := status_pnamefstatus02 data size slot.name blank.name
  rw [fillSlot, fillSlot]
  cases hpid : (pidfstatus data rsize).value with
  | none => rfl
  | some pid =>
    by_cases hpid' : pid = -1
    · simp [hpid']
    cases hppid : (ppidfstatus data rsize).value with
    | none => simp [hpid']
    | some ppid =>
      by_cases hppid' : ppid = -1
      · simp [hpid', hppid']
      cases hname : (pnamefstatus02 data size slot.name).value with
      | none =>
        rw [hname, Option.map_none, eq_comm, Option.map_eq_none_iff] at hstatus
        simp [hpid', hppid', hname, hstatus]
      | some r =>
        rw [hname, Option.map_some, eq_comm, Option.map_eq_some_iff] at hstatus
        obtain ⟨r', hname', hfst⟩ := hstatus
        by_cases hr : r.1 = 0 <;> simp [hpid', hppid', hname, hname', hfst, hr]

/-- How a round ends does not depend on the table. -/
theorem visit_eq_blank (size : ℕ) (buf : CharArray statusSizeMax) (slot : PInfo) (e : Entry) :
    (visit size buf slot e).map Prod.snd = outcome size buf e := by
  rw [outcome, visit, visit]
  by_cases hproc : e.isProcess = false
  · simp [hproc]
  by_cases hclosed : e.closed = false
  · simp [hproc, hclosed]
  rw [if_neg hproc, if_neg hproc, if_neg hclosed, if_neg hclosed]
  exact fillSlot_eq_blank ..

/-! ### Slots -/

section Slots

variable {e : Entry} {entries : List Entry} {i size : ℕ} {buf : CharArray statusSizeMax}
  {table : ℕ → PInfo}

/-- The loop ends at an entry that makes it fail, before it has used a slot behind the table. -/
def Stops (size i : ℕ) (os : List (Option Then)) : Prop :=
  ∃ before touched after, os = before ++ some (.fail touched) :: after ∧
    (∀ o ∈ before, o = some .skip ∨ o = some .next) ∧
    i + before.count (some .next) ≤ size ∧
    (touched = true → i + before.count (some .next) < size)

theorem exists_visit {o : Then} (h : outcome size buf e = some o) (slot : PInfo) :
    ∃ slot', visit size buf slot e = some (slot', o) := by
  rw [← visit_eq_blank size buf slot, Option.map_eq_some_iff] at h
  obtain ⟨⟨slot', o'⟩, hvisit, rfl⟩ := h
  exact ⟨slot', hvisit⟩

theorem visit_eq_none (h : outcome size buf e = none) (slot : PInfo) :
    visit size buf slot e = none := by
  rwa [← visit_eq_blank size buf slot, Option.map_eq_none_iff] at h

/-- One round of the loop. -/
theorem parseproc_cons (hi : i ≤ size) : parseproc size (e :: entries) i buf table =
    (visit size buf (table i) e).bind fun v => match v.2 with
      | .skip => parseproc size entries i (fill buf e) table
      | .fail touched =>
        some ⟨none, Function.update table i v.1, if touched then [i] else [], []⟩
      | .next =>
        (parseproc size entries (i + 1) (fill buf e) (Function.update table i v.1)).map fun r =>
          { r with written := i :: r.written, filled := i :: r.filled } := by
  rw [parseproc, if_neg (by omega)]
  cases visit size buf (table i) e with
  | none => rfl
  | some v =>
    obtain ⟨slot, o⟩ := v
    cases o with
    | skip => rfl
    | fail touched => rfl
    | next => rw [Option.bind_some, Option.map_eq_bind]; rfl

/-- Slots are filled one after the other. -/
theorem filled_lt_count {r : Parsed} (h : parseproc size entries i buf table = some r) {n : ℕ}
    (hn : r.count = some n) : i ≤ n ∧ ∀ j ∈ r.filled, j < n := by
  induction entries generalizing i buf table r with
  | nil =>
    rw [parseproc, Option.some.injEq] at h
    subst h
    obtain rfl := Option.some.inj hn
    simp
  | cons e es ih =>
    by_cases hi : i ≤ size
    case neg =>
      rw [parseproc, if_pos (by omega), Option.some.injEq] at h
      subst h
      cases hn
    case pos =>
      rw [parseproc_cons hi, Option.bind_eq_some_iff] at h
      obtain ⟨⟨slot, o⟩, -, h⟩ := h
      cases o with
      | skip => exact ih h hn
      | fail touched =>
        rw [← Option.some.inj h] at hn
        cases hn
      | next =>
        obtain ⟨r', hr', rfl⟩ := Option.map_eq_some_iff.mp h
        obtain ⟨hle, hlt⟩ := ih hr' hn
        exact ⟨by omega, by simpa using ⟨by omega, hlt⟩⟩

/-- One entry more in front. -/
theorem stops_cons_iff {o : Option Then} {os : List (Option Then)} :
    Stops size i (o :: os) ↔
      (∃ touched, o = some (.fail touched) ∧ i ≤ size ∧ (touched = true → i < size)) ∨
      o = some .skip ∧ Stops size i os ∨ o = some .next ∧ Stops size (i + 1) os := by
  constructor
  · rintro ⟨before, touched, after, hos, hbefore, hle, hlt⟩
    cases before with
    | nil =>
      obtain ⟨rfl, rfl⟩ := List.cons.inj hos
      exact .inl ⟨touched, rfl, by simpa using hle, by simpa using hlt⟩
    | cons o' before =>
      obtain ⟨rfl, rfl⟩ := List.cons.inj hos
      obtain ⟨ho, hrest⟩ := List.forall_mem_cons.mp hbefore
      rcases ho with rfl | rfl
      · exact .inr (.inl ⟨rfl, before, touched, after, rfl, hrest, by simpa using hle,
          by simpa using hlt⟩)
      · rw [List.count_cons_self] at hle hlt
        refine .inr (.inr ⟨rfl, before, touched, after, rfl, hrest, by omega, fun ht => ?_⟩)
        have := hlt ht
        omega
  · rintro (⟨touched, rfl, hle, hlt⟩ | ⟨rfl, before, touched, after, rfl, hbefore, hle, hlt⟩ |
      ⟨rfl, before, touched, after, rfl, hbefore, hle, hlt⟩)
    · exact ⟨[], touched, os, rfl, by simp, by simpa using hle, by simpa using hlt⟩
    · exact ⟨some .skip :: before, touched, after, rfl, by simpa using hbefore, by simpa using hle,
        by simpa using hlt⟩
    · refine ⟨some .next :: before, touched, after, rfl, by simpa using hbefore, ?_, ?_⟩
      · rw [List.count_cons_self]
        omega
      · rw [List.count_cons_self]
        intro ht
        have := hlt ht
        omega

/-- **`parseproc` fails in time** if the entries make it fail in time. -/
theorem parseproc_fails_iff (hi : i ≤ size) :
    (∃ r, parseproc size entries i buf table = some r ∧ r.count = none ∧
      ∀ j ∈ r.written, j < size) ↔ Stops size i (outcomes size buf entries) := by
  induction entries generalizing i buf table with
  | nil => simp [parseproc, outcomes, Stops]
  | cons e es ih =>
    rw [parseproc_cons hi, outcomes, stops_cons_iff]
    cases ho : outcome size buf e with
    | none => simp [visit_eq_none ho]
    | some o =>
      obtain ⟨slot, hvisit⟩ := exists_visit ho (table i)
      rw [hvisit, Option.bind_some]
      cases o with
      | skip => simpa using ih hi
      | fail touched => cases touched <;> simp [hi]
      | next =>
        -- slot `i` is written to, so that it must be one of the table
        by_cases hlt : i < size
        · rw [← @ih (i + 1) (fill buf e) (Function.update table i slot) hlt]
          simp [hlt]
        · have hnot : ¬ Stops size (i + 1) (outcomes size (fill buf e) es) := by
            rintro ⟨before, -, -, -, -, hle, -⟩
            omega
          simp [hlt, hnot]

end Slots

/-- **When the slots are used as they should be**: only if `ptree` is not called, because its last
slot is never filled; and if no slot behind the table has been used before the error. -/
theorem table_safe_iff (malloc opendir : Bool) (entries : List Entry)
    (buf : CharArray statusSizeMax) (table : ℕ → PInfo) :
    (∃ r, main malloc opendir entries buf table = some r ∧ r.Safe) ↔
      malloc = false ∨ opendir = false ∨ Stops maxpid 0 (outcomes maxpid buf entries) := by
  rw [main]
  by_cases hmalloc : malloc = false
  · simp [hmalloc, Outcome.Safe]
  by_cases hopendir : opendir = false
  · simp [hmalloc, hopendir, Outcome.Safe]
  rw [if_neg hmalloc, if_neg hopendir, or_iff_right hmalloc, or_iff_right hopendir,
    ← @parseproc_fails_iff entries 0 maxpid buf table (Nat.zero_le _)]
  constructor
  · rintro ⟨r, hr, hsafe⟩
    obtain ⟨parsed, hparsed, hr⟩ := Option.bind_eq_some_iff.mp hr
    cases hcount : parsed.count with
    | none =>
      rw [hcount, Option.some.injEq] at hr
      subst hr
      exact ⟨parsed, hparsed, hcount, hsafe.1⟩
    | some n =>
      -- slot `n` is behind the last process and before the root entry
      rw [hcount, Option.some.injEq] at hr
      subst hr
      rcases hsafe.2 n (Nat.lt_succ_self n) with hfilled | hroot
      · exact absurd ((filled_lt_count hparsed hcount).2 n hfilled) (Nat.lt_irrefl n)
      · exact absurd (Option.some.inj hroot) (Nat.succ_ne_self n)
  · rintro ⟨parsed, hparsed, hcount, hwritten⟩
    refine ⟨_, Option.bind_eq_some_iff.mpr ⟨parsed, hparsed, by rw [hcount]⟩, hwritten, ?_⟩
    intro i hi
    exact absurd hi (Nat.not_lt_zero i)

/-- `/proc` with the single process `"Name:\tcat\nPid:\t7\nPPid:\t1\n"`: slot 1 is given to `ptree`,
which is neither its slot nor that of the root entry. -/
theorem table_unfilled_slot :
    let content := text [pnameTag ++ [9, 99, 97, 116], pidTag ++ [9, 55], ppidTag ++ [9, 49]]
    let e : Entry := ⟨[55], true, some content, fun _ h => Option.some.inj h ▸ by decide, true⟩
    (main true true [e] (.ofBytes statusSizeMax []) fun _ => blank).map
      (fun r => (r.filled, r.root, r.scanned)) = some ([0], some 2, 2) := by
  decide +kernel

end ProcTable

end Tlpiexer
