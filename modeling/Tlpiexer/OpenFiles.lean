import Tlpiexer.Constants
import Tlpiexer.StatusFile.Names

/-!
# Who has a file open

`main` and `fdfproc` of `src/imp/12-03.c`. The program goes through `/proc`; of each process it
compares the links in `/proc/<pid>/fd` with the path of the file, and when one of them is that path
it prints the name from the status file and the number of the process.

## Descriptors

Nothing is ever closed. A process whose links can be listed costs a descriptor for the directory,
and one that has the file open another for its status file. At the limit of open descriptors
`opendir` and `open` fail, which looks like a process that is gone or that may not be inspected: it
is left out, and so are all that follow.

## Reading the status file

The result of `read` is kept in an unsigned variable, so the test for an error never succeeds. What
follows then is what the functions make of the data that is left from another process.

## Main results

* `lists_all_iff` — which processes are listed, and when these are all
-/

namespace Tlpiexer

namespace OpenFiles

open CString Decimal StatusFile

/-! ### The program -/

/-- `PSTATUS_MAX`. -/
abbrev pstatusMax : ℕ := 4096

/-- An entry of `/proc/<pid>/fd`. -/
structure FdEntry where
  /-- `d_type` is `DT_LNK`. -/
  isLink : Bool
  /-- What `readlink` delivers, if it does not fail. -/
  link : Option Bytes

/-- An entry of `/proc`, and what the calls for it deliver while there are descriptors. -/
structure Proc where
  name : Bytes
  /-- The directory of its descriptors, if it can be opened. -/
  fds : Option (List FdEntry)
  /-- The status file can be opened. -/
  opened : Bool
  /-- What is read from it, if `read` does not fail. -/
  status : Option Bytes
  status_le : ∀ content, status = some content → content.length ≤ pstatusMax

/-- `isnumberic`. -/
def isnumberic (str : Bytes) : Bool := str.all isDigit

/-- The loop of `fdfproc`. There is no answer when a link leaves no room for its NUL. -/
def scanLinks (path : Bytes) : List FdEntry → Option ℤ
  | [] => some 0
  | e :: es =>
    if e.isLink = false then scanLinks path es
    else match e.link with
      | none => some (-1)
      | some link =>
        if link.length < pathMax then
          if strcmp link path = 0 then some 1 else scanLinks path es
        else none

/-- `fdfproc`, where `used` of `limit` descriptors are in use: what it returns, and how many there
are afterwards. -/
def fdfproc (limit : ℕ) (path : Bytes) (p : Proc) (used : ℕ) : Option (ℤ × ℕ) :=
  match p.fds with
  | none => some (-1, used)
  | some es =>
    if used < limit then (scanLinks path es).map fun r => (r, used + 1) else some (-1, used)

/-- The variables of `main`, and what it has printed. -/
structure State where
  used : ℕ
  data : CharArray pstatusMax
  pname : CharArray nameMax
  out : List Bytes

/-- `printf("%s - %s\n", pname, d_name)`, for the string in `pname`. -/
def line (pname name : Bytes) : Bytes := pname ++ [32, 45, 32] ++ name ++ [10]

/-- `main` from the `read` of a status file on; `size` is the value of `rsize`. -/
def State.show (s : State) (name : Bytes) (data : CharArray pstatusMax) (size : ℕ) :
    Option State := do
  let (status, pname) ← (pnamefstatus03 data.val size s.pname).value
  let s := { s with data := data, pname := pname }
  if status = -1 then return s
  if (0 : UInt8) ∈ pname.val then return { s with out := s.out ++ [line (cstr pname.val) name] }
  else none

/-- One round of the loop of `main`. There is no answer if an array is left. -/
def State.visit (limit : ℕ) (path : Bytes) (s : State) (p : Proc) : Option State :=
  if isnumberic p.name = false then some s
  else match fdfproc limit path p s.used with
    | none => none
    | some (r, used) =>
      if r ≠ 1 then some { s with used := used }
      else if p.opened = false ∨ ¬ used < limit then some { s with used := used }
      else match p.status with
        -- `rsize` is the largest value of its type
        | none => State.show { s with used := used + 1 } p.name s.data (2 ^ 64 - 1)
        | some content => State.show { s with used := used + 1 } p.name
            (.ofBytes pstatusMax (overlay s.data.val content)) content.length

/-- The loop of `main`. -/
def State.visitAll (limit : ℕ) (path : Bytes) (s : State) : List Proc → Option State
  | [] => some s
  | p :: ps => (s.visit limit path p).bind fun s => s.visitAll limit path ps

/-- The state behind `opendir`: the standard streams and `/proc` are open. -/
def start (data : CharArray pstatusMax) (pname : CharArray nameMax) : State := ⟨4, data, pname, []⟩

/-! ### What is to be listed -/

/-- The links of the process can be listed. -/
def Proc.inspected (p : Proc) : Bool := isnumberic p.name && p.fds.isSome

/-- One of its links is the path. -/
def Proc.holds (path : Bytes) (p : Proc) : Bool :=
  isnumberic p.name && p.fds.any fun es => es.any fun e => e.isLink && e.link == some path

/-- What its status file says. -/
def Proc.statusName (p : Proc) : Bytes := cstr (nameText (p.status.getD []))

/-- The descriptors that a list of processes takes. -/
def cost (path : Bytes) (ps : List Proc) : ℕ :=
  ps.countP Proc.inspected + ps.countP (Proc.holds path)

/-- The links can be read and have room for a NUL; and if the process is to be listed, its status
file can be read and has a name that fits. -/
structure Proc.Proper (path : Bytes) (p : Proc) : Prop where
  links : ∀ es, p.fds = some es → ∀ e ∈ es, e.isLink = true →
    ∃ link, e.link = some link ∧ link.length < pathMax ∧ (0 : UInt8) ∉ link
  status : p.holds path = true → p.opened = true ∧ ∃ content, p.status = some content ∧
    (10 : UInt8) ∈ valueText pnameTag content ∧ (nameText content).length < nameMax

/-! ### One process -/

section Visit

variable {limit : ℕ} {path : Bytes} {p : Proc} {s : State}

theorem inspected_of_holds (h : p.holds path = true) : p.inspected = true := by
  rw [Proc.holds, Bool.and_eq_true] at h
  rw [Proc.inspected, h.1, Bool.true_and]
  cases hfds : p.fds with
  | none => simp [hfds] at h
  | some es => rfl

/-- The loop over the links finds the path if it is there. -/
theorem scanLinks_eq (hpath : (0 : UInt8) ∉ path) {es : List FdEntry}
    (hes : ∀ e ∈ es, e.isLink = true →
      ∃ link, e.link = some link ∧ link.length < pathMax ∧ (0 : UInt8) ∉ link) :
    scanLinks path es =
      some (if es.any fun e => e.isLink && e.link == some path then 1 else 0) := by
  induction es with
  | nil => rfl
  | cons e es ih =>
    have hrest := ih fun e' he' => hes e' (List.mem_cons_of_mem e he')
    rw [scanLinks, List.any_cons]
    cases hlink : e.isLink with
    | false => simpa using hrest
    | true =>
      obtain ⟨link, hsome, hlen, hnul⟩ := hes e List.mem_cons_self hlink
      have hcmp : strcmp link path = 0 ↔ link = path := by
        rw [strcmp_eq_zero_iff, cstr_eq_self hnul, cstr_eq_self hpath]
      by_cases heq : link = path
      · subst heq
        simp [hsome, hlen, hcmp]
      · simp [hsome, hlen, hcmp, heq, hrest]

/-- What `fdfproc` returns for a process whose links can be listed. -/
theorem fdfproc_eq (hpath : (0 : UInt8) ∉ path) (hp : p.Proper path)
    (hins : p.inspected = true) {used : ℕ} (hlt : used < limit) :
    fdfproc limit path p used = some (if p.holds path then 1 else 0, used + 1) := by
  rw [Proc.inspected, Bool.and_eq_true, Option.isSome_iff_exists] at hins
  obtain ⟨hnum, es, hes⟩ := hins
  simp [fdfproc, hes, hlt, scanLinks_eq hpath (hp.links es hes), Proc.holds, hnum]

/-- The name that is found. -/
theorem value_nameOf {copy : Bytes → CharArray nameMax → Option (CharArray nameMax)} {data : Bytes}
    {size : ℕ} (h : (10 : UInt8) ∈ valueText pnameTag (data.take size)) (old : CharArray nameMax) :
    (nameOf copy data size old).value =
      (copy (nameText (data.take size)) old).map fun name => (exitSuccess, name) := by
  have hfound := ((within_findName data).mpr (.inr ⟨h, rfl⟩)).1
  rw [nameOf, ArrayScan.Scan.value_bind, hfound]
  rfl

theorem show_eq {content : Bytes} (hlen : content.length ≤ pstatusMax)
    (hvalue : (10 : UInt8) ∈ valueText pnameTag content)
    (hname : (nameText content).length < nameMax) (s : State) (name : Bytes) :
    ∃ s', s.show name (.ofBytes pstatusMax (overlay s.data.val content)) content.length = some s' ∧
      s'.used = s.used ∧ s'.out = s.out ++ [line (cstr (nameText content)) name] := by
  have htake := CharArray.take_ofBytes_overlay s.data hlen
  have hleaves : Leaves (memcpyEnd (nameText content) s.pname) (cstr (nameText content)) :=
    leaves_memcpyEnd_iff.mpr ⟨hname, rfl⟩
  obtain ⟨a, ha, hzero, hcstr⟩ := hleaves
  have hval : (pnamefstatus03 (CharArray.ofBytes pstatusMax (overlay s.data.val content)).val
      content.length s.pname).value = some (exitSuccess, a) := by
    rw [pnamefstatus03, value_nameOf (by rwa [htake]), htake, ha]
    rfl
  refine ⟨{ s with
    data := .ofBytes pstatusMax (overlay s.data.val content)
    pname := a
    out := s.out ++ [line (cstr a.val) name] }, ?_, rfl, by rw [hcstr]⟩
  simp [State.show, hval, exitSuccess, hzero]

/-- The process is listed, where `used` descriptors are in use. -/
def Proc.shown (limit : ℕ) (path : Bytes) (used : ℕ) (p : Proc) : Bool :=
  p.holds path && used + 1 < limit

/-- The descriptors in use after a process. -/
def usedAfter (limit : ℕ) (path : Bytes) (used : ℕ) (p : Proc) : ℕ :=
  if p.inspected = false ∨ limit ≤ used then used
  else if p.shown limit path used then used + 2 else used + 1

/-- The line of a process. -/
def Proc.line (p : Proc) : Bytes := OpenFiles.line p.statusName p.name

/-- **One round.** -/
theorem visit_eq (limit : ℕ) (hpath : (0 : UInt8) ∉ path) (hp : p.Proper path) (s : State) :
    ∃ s', s.visit limit path p = some s' ∧ s'.used = usedAfter limit path s.used p ∧
      s'.out = s.out ++ if p.shown limit path s.used then [p.line] else [] := by
  by_cases hins : p.inspected = true
  case neg =>
    have hholds : p.holds path = false := Bool.eq_false_iff.mpr fun h => hins (inspected_of_holds h)
    rw [Bool.not_eq_true] at hins
    refine ⟨s, ?_, by simp [usedAfter, hins], by simp [Proc.shown, hholds]⟩
    rw [State.visit]
    split
    · rfl
    next hnum =>
      have hfds : p.fds = none := by
        simpa [Proc.inspected, (Bool.not_eq_false _).mp hnum] using hins
      simp [fdfproc, hfds]
  case pos =>
    have hnum : isnumberic p.name = true := (Bool.and_eq_true _ _ ▸ hins).1
    by_cases hlt : s.used < limit
    case neg =>
      have hshown : p.shown limit path s.used = false := by
        rw [Proc.shown, decide_eq_false (by omega), Bool.and_false]
      refine ⟨s, ?_, by simp [usedAfter, Nat.not_lt.mp hlt], by simp [hshown]⟩
      have hfd : fdfproc limit path p s.used = some (-1, s.used) := by
        rw [fdfproc]
        cases p.fds <;> simp [hlt]
      simp [State.visit, hnum, hfd]
    case pos =>
      have hfd := fdfproc_eq hpath hp hins hlt
      rw [State.visit, if_neg (by simp [hnum]), hfd]
      cases hholds : p.holds path with
      | false =>
        exact ⟨{ s with used := s.used + 1 }, by simp,
          by simp [usedAfter, hins, hlt, Proc.shown, hholds], by simp [Proc.shown, hholds]⟩
      | true =>
        obtain ⟨hopened, content, hstatus, hvalue, hname⟩ := hp.status hholds
        by_cases hroom : s.used + 1 < limit
        · obtain ⟨s', hshow, hused, hout⟩ := show_eq (p.status_le content hstatus) hvalue hname
            { s with used := s.used + 1 + 1 } p.name
          refine ⟨s', by simpa [hopened, hroom, hstatus] using hshow, ?_, ?_⟩
          · simp [hused, usedAfter, hins, Nat.not_le.mpr hlt, Proc.shown, hholds, hroom]
          · simp [hout, Proc.shown, hholds, hroom, Proc.line, Proc.statusName, hstatus]
        · exact ⟨{ s with used := s.used + 1 }, by simp [hroom],
            by simp [usedAfter, hins, hlt, Proc.shown, hholds, hroom],
            by simp [Proc.shown, hroom]⟩

end Visit

/-! ### All processes -/

section All

variable {limit used : ℕ} {path : Bytes} {p : Proc} {ps : List Proc} {s : State}

/-- Each process that has the file open is met with two descriptors left, where `used` of them are
in use in front of the list. -/
def Enough (limit : ℕ) (path : Bytes) (used : ℕ) (ps : List Proc) : Prop :=
  ∀ pre p post, ps = pre ++ p :: post → p.holds path = true → used + cost path pre + 2 ≤ limit

theorem cost_cons (path : Bytes) (p : Proc) (ps : List Proc) :
    cost path (p :: ps) = cost path [p] + cost path ps := by
  simp only [cost, List.countP_cons, List.countP_nil]
  omega

theorem enough_cons : Enough limit path used (p :: ps) ↔
    (p.holds path = true → used + 2 ≤ limit) ∧ Enough limit path (used + cost path [p]) ps := by
  constructor
  · intro h
    refine ⟨fun hp => h [] p ps rfl hp, fun pre q post hps hq => ?_⟩
    have hle := h (p :: pre) q post (by rw [hps, List.cons_append]) hq
    rw [cost_cons] at hle
    omega
  · rintro ⟨hfirst, hrest⟩ pre q post hps hq
    cases pre with
    | nil =>
      cases hps
      exact hfirst hq
    | cons q' pre =>
      cases hps
      have hle := hrest pre q post rfl hq
      rw [cost_cons]
      omega

/-- Without two descriptors left nothing may have the file open. -/
theorem enough_of_lt (hlt : limit < used + 2) :
    Enough limit path used ps ↔ ps.filter (Proc.holds path) = [] := by
  rw [List.filter_eq_nil_iff]
  constructor
  · intro h p hp hholds
    obtain ⟨pre, post, hps⟩ := List.append_of_mem hp
    have hle := h pre p post hps hholds
    omega
  · rintro h pre p post rfl hholds
    exact absurd hholds (h p (by simp))

/-- Without two descriptors left nothing is listed any more. -/
theorem visitAll_of_lt (hpath : (0 : UInt8) ∉ path) (hps : ∀ p ∈ ps, p.Proper path)
    (hlt : limit < s.used + 2) :
    ∃ s', s.visitAll limit path ps = some s' ∧ s'.out = s.out := by
  induction ps generalizing s with
  | nil => exact ⟨s, rfl, rfl⟩
  | cons p ps ih =>
    obtain ⟨s₁, hvisit, hused, hout⟩ := visit_eq limit hpath
      (hps p List.mem_cons_self) s
    have hle : s.used ≤ s₁.used := by
      rw [hused, usedAfter]
      split_ifs <;> omega
    have hshown : p.shown limit path s.used = false := by
      rw [Proc.shown, decide_eq_false (by omega), Bool.and_false]
    obtain ⟨s', hall, hout'⟩ := ih (s := s₁) (fun q hq => hps q (List.mem_cons_of_mem p hq))
      (by omega)
    refine ⟨s', by rw [State.visitAll, hvisit]; exact hall, ?_⟩
    rw [hout', hout, hshown, if_neg Bool.false_ne_true, List.append_nil]

/-- **The loop** lists the first of the processes that have the file open, and all of them exactly
if there are descriptors enough. -/
theorem visitAll_eq (limit : ℕ) (hpath : (0 : UInt8) ∉ path) (hps : ∀ p ∈ ps, p.Proper path)
    (s : State) :
    ∃ s' qs, s.visitAll limit path ps = some s' ∧ s'.out = s.out ++ qs.map Proc.line ∧
      qs <+: ps.filter (Proc.holds path) ∧
      (qs = ps.filter (Proc.holds path) ↔ Enough limit path s.used ps) := by
  induction ps generalizing s with
  | nil => exact ⟨s, [], rfl, by simp, List.prefix_refl _, by simp [Enough]⟩
  | cons p ps ih =>
    have hrest : ∀ q ∈ ps, q.Proper path := fun q hq => hps q (List.mem_cons_of_mem p hq)
    by_cases hlt : limit < s.used + 2
    · obtain ⟨s', hall, hout⟩ := visitAll_of_lt hpath hps hlt
      refine ⟨s', [], hall, by simp [hout], List.nil_prefix, ?_⟩
      rw [enough_of_lt hlt, eq_comm]
    obtain ⟨s₁, hvisit, hused, hout⟩ := visit_eq limit hpath
      (hps p List.mem_cons_self) s
    obtain ⟨s', qs, hall, hout', hprefix, hiff⟩ := ih hrest s₁
    have hroom : s.used + 1 < limit := by omega
    have hcost : s₁.used = s.used + cost path [p] := by
      have hle : ¬ limit ≤ s.used := by omega
      rw [hused, usedAfter, cost]
      cases hins : p.inspected with
      | false =>
        have hholds : p.holds path = false :=
          Bool.eq_false_iff.mpr fun h => by simp [inspected_of_holds h] at hins
        simp [hins, hholds]
      | true => cases hholds : p.holds path <;> simp [hle, Proc.shown, hins, hholds, hroom]
    rw [hcost] at hiff
    have hrun : s.visitAll limit path (p :: ps) = some s' := by
      rw [State.visitAll, hvisit]
      exact hall
    rw [enough_cons, ← hiff, List.filter_cons]
    cases hholds : p.holds path with
    | false =>
      refine ⟨s', qs, hrun, ?_, hprefix, by simp⟩
      simp [hout', hout, Proc.shown, hholds]
    | true =>
      refine ⟨s', p :: qs, hrun, ?_, ?_, ?_⟩
      · simp [hout', hout, Proc.shown, hholds, hroom]
      · simpa using hprefix
      · simp
        omega

/-- **Who is listed.** For every content of `/proc`, if the links and the status files can be read,
the program lists the processes that have the file open from the first one on, and all of them
exactly if each is met before the descriptors run out: two are left for it when each process in
front of it whose links can be listed has taken one, and each that has the file open another. -/
theorem lists_all_iff (limit : ℕ) (hpath : (0 : UInt8) ∉ path) (hps : ∀ p ∈ ps, p.Proper path)
    (data : CharArray pstatusMax) (pname : CharArray nameMax) :
    ∃ s, (start data pname).visitAll limit path ps = some s ∧
      s.out <+: (ps.filter (Proc.holds path)).map Proc.line ∧
      (s.out = (ps.filter (Proc.holds path)).map Proc.line ↔
        ∀ pre p post, ps = pre ++ p :: post → p.holds path = true →
          4 + cost path pre + 2 ≤ limit) := by
  obtain ⟨s, qs, hrun, hout, hprefix, hiff⟩ := visitAll_eq limit hpath hps (start data pname)
  rw [show (start data pname).out = [] from rfl, List.nil_append] at hout
  refine ⟨s, hrun, hout ▸ hprefix.map _, ?_⟩
  rw [hout]
  refine Iff.trans ⟨fun heq => ?_, fun heq => by rw [heq]⟩ hiff
  exact hprefix.eq_of_length (by simpa using congrArg List.length heq)

/-- A process `cat` that has `/x` open. -/
def cat (name : Bytes) : Proc where
  name := name
  fds := some [⟨true, some [47, 120]⟩]
  opened := true
  status := some (pnameTag ++ [9, 99, 97, 116, 10])
  status_le := by
    rintro _ ⟨⟩
    decide

theorem proper_cat (name : Bytes) : (cat name).Proper [47, 120] where
  links := by
    rintro _ ⟨⟩ e he _
    exact ⟨[47, 120], by rw [List.mem_singleton.mp he], by decide, by decide⟩
  status _ := ⟨rfl, _, rfl, by decide, by decide⟩

/-- With seven descriptors, the second of two processes is left out. -/
theorem lists_all_iff_seven :
    ∃ s, (start (.ofBytes _ []) (.ofBytes _ [])).visitAll 7 [47, 120] [cat [49], cat [50]] =
        some s ∧
      s.out ≠ ([cat [49], cat [50]].filter (Proc.holds [47, 120])).map Proc.line := by
  have hps : ∀ p ∈ [cat [49], cat [50]], p.Proper [47, 120] := by simp [proper_cat]
  obtain ⟨s, hrun, -, hiff⟩ :=
    lists_all_iff 7 (by decide) hps (.ofBytes _ []) (.ofBytes _ [])
  refine ⟨s, hrun, fun heq => ?_⟩
  have hle := hiff.mp heq [cat [49]] (cat [50]) [] rfl (by decide)
  exact absurd hle (by decide)

end All

end OpenFiles

end Tlpiexer
