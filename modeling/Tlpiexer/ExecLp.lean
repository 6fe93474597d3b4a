import Tlpiexer.Constants
import Tlpiexer.Foundations.Path

/-!
# The search of `execlp`

`execlp` of `src/imp/27-02.c`. Strings are byte lists without their NUL. Everything the function is
given by the system is in `World`: the files with their modes, the environment, what `malloc`,
`strdup` and `execve` answer.

## Directories and colons

The loop over `PATH` collects bytes and does something only at a colon, so a directory is tried when
the colon behind it is read. `search_directory` is one directory of the loop and
`search_eq_of_scannable` all of them. What follows the last colon (`openDir`) is read and never
tried.

## What may go wrong on the way

`path` has `PATH_MAX` bytes and `argv` 127 elements, and neither is checked; the loop counts in an
`int`; the result of `malloc` for the environment is not looked at. These calls end in `.undefined`.

## Main results

* `execlp_first_match_iff` — when the first executable candidate is run
* `execlp_skips_last` — the last directory of `/bin` is not tried
-/

namespace Tlpiexer

namespace ExecLp

open CString Path

/-! ### The function -/

/-- The elements of `argv`. -/
def argvSize : ℕ := 127

/-- `':'`. -/
def colon : UInt8 := 58

/-- What the function gets from the system. -/
structure World where
  /-- `stat`: the mode of the file, if there is one. -/
  stat : Bytes → Option ℕ
  /-- `getenv("PATH")`. -/
  envPath : Option Bytes
  /-- `confstr(_CS_PATH, ..)`. -/
  csPath : Bytes
  /-- `malloc` for `csPath` succeeds. -/
  mallocPath : Bool
  /-- `environ`. -/
  environ : List Bytes
  /-- `malloc` for `envp` succeeds. -/
  mallocEnvp : Bool
  /-- `strdup` of the entry at an index succeeds. -/
  strdup : ℕ → Bool
  /-- `execve` replaces the process. -/
  execve : Bytes → List Bytes → List Bytes → Bool

/-- `st_mode & S_IXUSR || st_mode & S_IXGRP || st_mode & S_IXOTH`. -/
def isExe (mode : ℕ) : Bool :=
  mode &&& 0o100 ≠ 0 || mode &&& 0o10 ≠ 0 || mode &&& 0o1 ≠ 0

/-- `stat` finds the file, and it has an execute bit. -/
def World.executable (w : World) (path : Bytes) : Bool := (w.stat path).any isExe

/-- What becomes of `path`. -/
inductive Resolved
  /-- It is written past its end, or `i` is. -/
  | undefined
  /-- `exit_err("malloc")`. -/
  | exited
  /-- No executable file has been found. -/
  | missing
  | found (path : Bytes)
  deriving DecidableEq

/-- The loop over `epath`: `rest` is what is left of it at `i`, and `dir` is what stands between
`pstart` and `epath + i`. -/
def search (w : World) (filename : Bytes) : (rest : Bytes) → (i : ℕ) → (dir : Bytes) → Resolved
  | [], i, _ => if intMax < i then .undefined else .missing
  | c :: rest, i, dir =>
    if intMax < i then .undefined
    -- skip until match split character
    else if c ≠ colon then search w filename rest (i + 1) (dir ++ [c])
    else if pathMax < (dir ++ slash :: filename).length + 1 then .undefined
    else if w.executable (dir ++ slash :: filename) then .found (dir ++ slash :: filename)
    else search w filename rest (i + 1) []

/-- The first half of `execlp`: `path`. -/
def resolve (w : World) (filename : Bytes) : Resolved :=
  if slash ∈ filename then
    if pathMax < filename.length + 1 then .undefined else .found filename
  else match w.envPath with
    | some epath => search w filename epath 0 []
    | none => if w.mallocPath then search w filename w.csPath 0 [] else .exited

/-- A call of `execve`. -/
structure Execve where
  path : Bytes
  argv : List Bytes
  envp : List Bytes
  deriving DecidableEq

/-- How a call of `execlp` ends. -/
inductive Ending
  | undefined
  | exited
  | replaced
  | returns (value : ℤ)
  deriving DecidableEq

/-- The call of `execve` that has been made, and the end. -/
structure Result where
  call : Option Execve
  ending : Ending
  deriving DecidableEq

/-- The copies of the environment, up to the first that `strdup` did not make. -/
def World.envp (w : World) : List Bytes :=
  (w.environ.zipIdx.takeWhile fun e => w.strdup e.2).map Prod.fst

/-- The second half: the arguments, the environment and `execve`. -/
def run (w : World) (path : Bytes) (args : List Bytes) : Result :=
  -- `argv` takes the arguments and a NULL
  if argvSize < args.length + 1 then ⟨none, .undefined⟩
  else if w.mallocEnvp = false then ⟨none, .undefined⟩
  else
    let call : Execve := ⟨path, args, w.envp⟩
    if w.execve path args w.envp then ⟨some call, .replaced⟩
    -- the arguments are given to `free`, and none of them is from `malloc`
    else if args ≠ [] then ⟨some call, .undefined⟩
    else ⟨some call, .returns retFailure⟩

/-- `execlp`; `args` are the arguments before the NULL. -/
def execlp (w : World) (filename : Bytes) (args : List Bytes) : Result :=
  match resolve w filename with
  | .undefined => ⟨none, .undefined⟩
  | .exited => ⟨none, .exited⟩
  | .missing => ⟨none, .returns retFailure⟩
  | .found path => run w path args

/-! ### One directory after the other -/

/-- The file that is looked for in a directory. -/
def candidate (filename dir : Bytes) : Bytes := dir ++ slash :: filename

/-- There is such a file, and it has an execute bit. -/
def World.executableIn (w : World) (filename dir : Bytes) : Bool :=
  w.executable (candidate filename dir)

/-- Directories, with a colon behind each. -/
def closed (dirs : List Bytes) : Bytes := dirs.flatMap (· ++ [colon])

@[simp] theorem closed_nil : closed [] = [] := rfl

@[simp] theorem closed_cons (d : Bytes) (ds : List Bytes) :
    closed (d :: ds) = d ++ colon :: closed ds := by
  simp [closed]

section Search

variable {w : World} {filename rest d : Bytes} {ds : List Bytes} {i : ℕ}

theorem search_of_intMax_lt (h : intMax < i) (rest dir : Bytes) :
    search w filename rest i dir = .undefined := by
  cases rest with
  | nil => rw [search, if_pos h]
  | cons c rest => rw [search, if_pos h]

/-- Text without a colon is collected. -/
theorem search_append {s : Bytes} (hs : colon ∉ s) : ∀ (i : ℕ) (dir : Bytes),
    search w filename (s ++ rest) i dir = search w filename rest (i + s.length) (dir ++ s) := by
  induction s with
  | nil => intro i dir; simp
  | cons c s ih =>
    intro i dir
    have hc : c ≠ colon := fun hc => hs (hc ▸ List.mem_cons_self)
    by_cases hi : intMax < i
    · rw [search_of_intMax_lt hi, search_of_intMax_lt (Nat.lt_add_right _ hi)]
    · rw [List.cons_append, search, if_neg hi, if_pos hc, ih fun h => hs (List.mem_cons_of_mem _ h),
        List.append_assoc, List.singleton_append, List.length_cons, Nat.add_assoc,
        Nat.add_comm 1]

/-- The candidate fits into `path`, and its colon is reached. -/
def Fits (filename : Bytes) (i : ℕ) (dir : Bytes) : Prop :=
  (candidate filename dir).length + 1 ≤ pathMax ∧ i + dir.length ≤ intMax

/-- **One directory.** -/
theorem search_directory (hd : colon ∉ d) (hfits : Fits filename i d) :
    search w filename (d ++ colon :: rest) i [] =
      if w.executableIn filename d then .found (candidate filename d)
      else search w filename rest (i + d.length + 1) [] := by
  rw [search_append hd, search, if_neg (Nat.not_lt.mpr hfits.2), if_neg (not_not.mpr rfl),
    List.nil_append]
  exact if_neg (Nat.not_lt.mpr hfits.1)

theorem search_directory_undefined (hd : colon ∉ d) (hfits : ¬ Fits filename i d) :
    search w filename (d ++ colon :: rest) i [] = .undefined := by
  rw [search_append hd, search]
  by_cases hi : intMax < i + d.length
  · rw [if_pos hi]
  · have hlong : pathMax < (candidate filename d).length + 1 :=
      Nat.lt_of_not_le fun h => hfits ⟨h, Nat.le_of_not_lt hi⟩
    rw [if_neg hi, if_neg (not_not.mpr rfl), List.nil_append]
    exact if_pos hlong

/-- The loop from `i` on, over directories with a colon behind each and an open end: each directory
it gets to fits, and if it gets to the end it can count so far. It gets to a directory when no
candidate before it is executable. -/
structure Scannable (w : World) (filename : Bytes) (i : ℕ) (ds : List Bytes) (rest : Bytes) :
    Prop where
  dirs : ∀ pre d post, ds = pre ++ d :: post →
    (∀ e ∈ pre, w.executableIn filename e = false) →
    Fits filename (i + (closed pre).length) d
  last : (∀ e ∈ ds, w.executableIn filename e = false) →
    i + (closed ds ++ rest).length ≤ intMax

theorem scannable_cons : Scannable w filename i (d :: ds) rest ↔ Fits filename i d ∧
    (w.executableIn filename d = false →
      Scannable w filename (i + d.length + 1) ds rest) := by
  have hlen : ∀ l : Bytes, i + (d ++ colon :: l).length = i + d.length + 1 + l.length := by
    intro l
    rw [List.length_append, List.length_cons]
    omega
  constructor
  · intro h
    refine ⟨by simpa using h.dirs [] d ds rfl (by simp), fun hd => ⟨?_, ?_⟩⟩
    · intro pre e post hds hpre
      have := h.dirs (d :: pre) e post (by rw [hds, List.cons_append])
        (List.forall_mem_cons.mpr ⟨hd, hpre⟩)
      rwa [closed_cons, hlen] at this
    · intro hds
      have := h.last (List.forall_mem_cons.mpr ⟨hd, hds⟩)
      rwa [closed_cons, List.append_assoc, List.cons_append, hlen] at this
  · rintro ⟨hfits, h⟩
    refine ⟨?_, ?_⟩
    · intro pre e post hds hpre
      cases pre with
      | nil =>
        obtain ⟨rfl, -⟩ := List.cons.inj hds
        simpa using hfits
      | cons d' pre =>
        obtain ⟨rfl, hds'⟩ := List.cons.inj hds
        obtain ⟨hd, hpre⟩ := List.forall_mem_cons.mp hpre
        rw [closed_cons, hlen]
        exact (h hd).dirs pre e post hds' hpre
    · intro hds
      obtain ⟨hd, hds⟩ := List.forall_mem_cons.mp hds
      rw [closed_cons, List.append_assoc, List.cons_append, hlen]
      exact (h hd).last hds

/-- **The whole loop** finds the first executable candidate in front of a colon. -/
theorem search_eq_of_scannable (hrest : colon ∉ rest) (hds : ∀ d ∈ ds, colon ∉ d)
    (h : Scannable w filename i ds rest) :
    search w filename (closed ds ++ rest) i [] =
      (ds.find? (w.executableIn filename)).elim .missing
        fun d => .found (candidate filename d) := by
  induction ds generalizing i with
  | nil =>
    have hi : i + rest.length ≤ intMax := by simpa using h.last (by simp)
    rw [closed_nil, List.nil_append, ← List.append_nil rest, search_append hrest, search,
      if_neg (Nat.not_lt.mpr hi)]
    rfl
  | cons d ds ih =>
    obtain ⟨hfits, hnext⟩ := scannable_cons.mp h
    obtain ⟨hd, hds⟩ := List.forall_mem_cons.mp hds
    rw [closed_cons, List.append_assoc, List.cons_append, search_directory hd hfits]
    cases hexe : w.executableIn filename d with
    | true => rw [List.find?_cons_of_pos hexe, if_pos rfl, Option.elim_some]
    | false =>
      rw [List.find?_cons_of_neg (by simp [hexe]), if_neg Bool.false_ne_true,
        ih hds (hnext hexe)]

theorem search_eq_undefined (hrest : colon ∉ rest) (hds : ∀ d ∈ ds, colon ∉ d)
    (h : ¬ Scannable w filename i ds rest) :
    search w filename (closed ds ++ rest) i [] = .undefined := by
  induction ds generalizing i with
  | nil =>
    have hi : intMax < i + rest.length := by
      by_contra hi
      exact h ⟨by simp, fun _ => by simpa using hi⟩
    rw [closed_nil, List.nil_append, ← List.append_nil rest, search_append hrest,
      search_of_intMax_lt hi]
  | cons d ds ih =>
    obtain ⟨hd, hds⟩ := List.forall_mem_cons.mp hds
    rw [closed_cons, List.append_assoc, List.cons_append]
    by_cases hfits : Fits filename i d
    · rw [scannable_cons, not_and] at h
      obtain ⟨hexe, hnext⟩ := Classical.not_imp.mp (h hfits)
      rw [search_directory hd hfits, hexe, if_neg Bool.false_ne_true, ih hds hnext]
    · exact search_directory_undefined hd hfits

end Search

/-! ### Values of `PATH` -/

/-- Directories separated by colons, with or without one at the end. -/
def pathOf (dirs : List Bytes) (trailing : Bool) : Bytes :=
  if trailing then closed dirs else [colon].intercalate dirs

/-- The directories with a colon behind them. -/
def closedDirs (dirs : List Bytes) (trailing : Bool) : List Bytes :=
  if trailing then dirs else dirs.dropLast

/-- What follows the last colon. -/
def openDir (dirs : List Bytes) (trailing : Bool) : Bytes :=
  if trailing then [] else dirs.getLast?.getD []

theorem intercalate_eq (dirs : List Bytes) :
    [colon].intercalate dirs = closed dirs.dropLast ++ dirs.getLast?.getD [] := by
  induction dirs with
  | nil => rfl
  | cons d ds ih =>
    cases ds with
    | nil => simp [List.intercalate]
    | cons e ds =>
      rw [List.intercalate_cons_cons, ih, List.dropLast_cons_cons, closed_cons,
        List.getLast?_cons_cons]
      simp

theorem pathOf_eq (dirs : List Bytes) (trailing : Bool) :
    pathOf dirs trailing = closed (closedDirs dirs trailing) ++ openDir dirs trailing := by
  cases trailing with
  | true => simp [pathOf, closedDirs, openDir]
  | false => exact intercalate_eq dirs

theorem closedDirs_append (dirs : List Bytes) (trailing : Bool) :
    ∃ post, dirs = closedDirs dirs trailing ++ post := by
  cases trailing with
  | true => exact ⟨[], (List.append_nil dirs).symm⟩
  | false =>
    obtain ⟨post, hpost⟩ := List.dropLast_prefix dirs
    exact ⟨post, hpost.symm⟩

theorem openDir_eq (dirs : List Bytes) (trailing : Bool) :
    openDir dirs trailing = [] ∨ openDir dirs trailing ∈ dirs := by
  cases trailing with
  | true => exact .inl rfl
  | false =>
    rw [openDir, if_neg Bool.false_ne_true]
    cases h : dirs.getLast? with
    | none => exact .inl rfl
    | some d => exact .inr (List.mem_of_getLast? h)

/-- `execve` is called for the first directory whose candidate is executable; if there is none, the
function returns `RET_FAILURE` and has not called it. -/
def PicksFirst (w : World) (filename : Bytes) (args dirs : List Bytes) : Prop :=
  match dirs.find? (w.executableIn filename) with
  | some d => ∃ call, (execlp w filename args).call = some call ∧ call.path = candidate filename d
  | none => execlp w filename args = ⟨none, .returns retFailure⟩

section PicksFirst

variable {w : World} {filename path : Bytes} {args dirs : List Bytes} {trailing : Bool}

/-- The second half gets to `execve` when `argv` is long enough and there is memory for `envp`. -/
theorem run_call_iff : (∃ call, (run w path args).call = some call ∧ call.path = path) ↔
    args.length < argvSize ∧ w.mallocEnvp = true := by
  by_cases hargs : argvSize < args.length + 1
  · rw [run, if_pos hargs]
    simp only [reduceCtorEq, false_and, exists_false, false_iff, not_and]
    intro h
    omega
  rw [run, if_neg hargs]
  cases hmalloc : w.mallocEnvp with
  | false => simp
  | true =>
    rw [if_neg Bool.true_eq_false.mp]
    refine iff_of_true ⟨⟨path, args, w.envp⟩, ?_, rfl⟩ ⟨by omega, rfl⟩
    dsimp only
    split_ifs <;> rfl

theorem resolve_eq (hslash : slash ∉ filename) (hpath : w.envPath = some (pathOf dirs trailing)) :
    resolve w filename =
      search w filename (closed (closedDirs dirs trailing) ++ openDir dirs trailing) 0 [] := by
  rw [resolve, if_neg hslash, hpath, ← pathOf_eq]

theorem not_picksFirst_of_undefined (h : resolve w filename = .undefined) :
    ¬ PicksFirst w filename args dirs := by
  rw [PicksFirst, execlp, h]
  split <;> simp

/-- The loop has found the first directory. -/
theorem picksFirst_found_iff {d : Bytes} (h : resolve w filename = .found (candidate filename d))
    (hfirst : dirs.find? (w.executableIn filename) = some d) :
    PicksFirst w filename args dirs ↔ args.length < argvSize ∧ w.mallocEnvp = true := by
  rw [PicksFirst, hfirst, execlp, h]
  exact run_call_iff

/-- The loop has found nothing, which is right when there is nothing. -/
theorem picksFirst_missing_iff (h : resolve w filename = .missing) :
    PicksFirst w filename args dirs ↔ ¬ ∃ d ∈ dirs, w.executableIn filename d := by
  rw [PicksFirst, execlp, h]
  cases hall : dirs.find? (w.executableIn filename) with
  | none =>
    refine iff_of_true rfl ?_
    rintro ⟨d, hd, hexe⟩
    exact absurd hexe (List.find?_eq_none.mp hall d hd)
  | some d =>
    refine iff_of_false (by simp) fun h => h ⟨d, ?_, List.find?_some hall⟩
    exact List.mem_of_find?_eq_some hall

end PicksFirst

/-- **When the first executable candidate is run.** For every `PATH` of directories without a colon
and every file name without a slash: what the loop gets to fits, and if there is an executable
candidate, then there is one in a directory with a colon behind it, the arguments fit into `argv`
and there is memory for the environment. -/
theorem execlp_first_match_iff (w : World) {filename : Bytes} (hslash : slash ∉ filename)
    (args : List Bytes) {dirs : List Bytes} (hdirs : ∀ d ∈ dirs, colon ∉ d) {trailing : Bool}
    (hpath : w.envPath = some (pathOf dirs trailing)) :
    PicksFirst w filename args dirs ↔
      Scannable w filename 0 (closedDirs dirs trailing) (openDir dirs trailing) ∧
      ((∃ d ∈ dirs, w.executableIn filename d) →
        (∃ d ∈ closedDirs dirs trailing, w.executableIn filename d) ∧
        args.length < argvSize ∧ w.mallocEnvp = true) := by
  obtain ⟨post, hpost⟩ := closedDirs_append dirs trailing
  have hclosed : ∀ d ∈ closedDirs dirs trailing, colon ∉ d := fun d hd =>
    hdirs d (hpost ▸ List.mem_append_left post hd)
  have hopen : colon ∉ openDir dirs trailing := by
    rcases openDir_eq dirs trailing with hnil | hmem
    · rw [hnil]
      exact List.not_mem_nil
    · exact hdirs _ hmem
  have hresolve := resolve_eq hslash hpath
  by_cases hscan : Scannable w filename 0 (closedDirs dirs trailing) (openDir dirs trailing)
  case neg =>
    rw [search_eq_undefined hopen hclosed hscan] at hresolve
    exact iff_of_false (not_picksFirst_of_undefined hresolve) fun h => hscan h.1
  rw [search_eq_of_scannable hopen hclosed hscan] at hresolve
  simp only [hscan, true_and]
  cases hfind : (closedDirs dirs trailing).find? (w.executableIn filename) with
  | some d =>
    -- the loop stops at `d`, which is the first of all directories too
    have hfirst : dirs.find? (w.executableIn filename) = some d := by
      rw [hpost, List.find?_append, hfind, Option.some_or]
    have hexe : w.executableIn filename d = true := List.find?_some hfind
    have hmem := List.mem_of_find?_eq_some hfind
    rw [hfind] at hresolve
    rw [picksFirst_found_iff hresolve hfirst]
    refine ⟨fun h _ => ⟨⟨d, hmem, hexe⟩, h⟩, fun h => (h ⟨d, ?_, hexe⟩).2⟩
    exact List.mem_of_find?_eq_some hfirst
  | none =>
    -- the loop gets to the end, and an executable candidate can only be in the open directory
    have hnone : ¬ ∃ d ∈ closedDirs dirs trailing, w.executableIn filename d := by
      rintro ⟨d, hd, hexe⟩
      exact List.find?_eq_none.mp hfind d hd hexe
    rw [hfind] at hresolve
    rw [picksFirst_missing_iff hresolve]
    exact ⟨fun h hex => absurd hex h, fun h hex => hnone (h hex).1⟩

/-- `/bin`. -/
def bin : Bytes := [47, 98, 105, 110]

/-- `ls`. -/
def ls : Bytes := [108, 115]

/-- A system with the file `/bin/ls` and nothing else. -/
def lsWorld (path : Bytes) : World where
  stat p := if p = candidate ls bin then some 0o755 else none
  envPath := some path
  csPath := []
  mallocPath := true
  environ := []
  mallocEnvp := true
  strdup _ := true
  execve _ _ _ := true

/-- `execlp("ls", "ls", NULL)` with `PATH=/:/bin:`. -/
theorem execlp_first_match_ls :
    PicksFirst (lsWorld (pathOf [[slash], bin] true)) ls [ls] [[slash], bin] := by
  let w := lsWorld (pathOf [[slash], bin] true)
  have hscan : Scannable w ls 0 (closedDirs [[slash], bin] true) (openDir [[slash], bin] true) := by
    refine scannable_cons.mpr ⟨⟨by decide, by decide⟩, fun _ => ?_⟩
    refine scannable_cons.mpr ⟨⟨by decide, by decide⟩, fun hnot => ?_⟩
    exact absurd hnot (by decide)
  exact (execlp_first_match_iff w (by decide) [ls] (by decide) rfl).mpr
    ⟨hscan, fun _ => ⟨by decide, by decide, rfl⟩⟩

/-- With `PATH=/bin` the same call finds nothing. -/
theorem execlp_skips_last : ¬ PicksFirst (lsWorld (pathOf [bin] false)) ls [ls] [bin] := by
  have hnone : (execlp (lsWorld (pathOf [bin] false)) ls [ls]).call = none := by decide
  rintro ⟨call, hcall, -⟩
  rw [hnone] at hcall
  cases hcall

end ExecLp

end Tlpiexer
