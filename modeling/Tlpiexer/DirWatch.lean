import Mathlib.Data.List.Nodup
import Mathlib.Logic.Function.Basic
import Tlpiexer.Foundations.Path
import Tlpiexer.Foundations.Transition

/-!
# Watching a directory tree

`entrycb` and `eventcb` of `src/imp/19-01.c`, with the watches the kernel keeps for the process. The
first walk over the tree puts a watch on every directory and notes its path in `dpath`, under the
watch descriptor; afterwards `eventcb` is to do the same for every subdirectory that is created,
and to undo it for every one that is deleted.

## What an event says

An event for a subdirectory comes from the watch on its *parent*: `e->wd` is the parent's
descriptor. When a directory is deleted its own watch vanishes by itself, so the call
`inotify_rm_watch(ifd, e->wd)` takes the watch off the parent. And `nwd` gets the value of the
comparison with `-1`, not the new descriptor, so the new path goes to `dpath[0]`.

## What the model leaves out

Paths are values: the lengths of the blocks `dpath` points to and of `ndpath` are not modelled here
(`Tlpiexer.DirWatch.Stream` has them). The index into `dpath` is. The creation of a subdirectory and
the call of `eventcb` for it are one step, and so are a deletion and its event. The fresh descriptor
that the kernel hands out for a new watch is part of the label.

## Main results

* `DirWatch.exact_iff` — which events the watcher survives
* `DirWatch.not_exact` — one deletion
-/

namespace Tlpiexer

namespace DirWatch

open CString Path Transition

/-- `MAX_WD`. -/
def maxWd : ℕ := 82192

/-- How the process ends. -/
inductive Stop
  /-- It used a NULL pointer as a string, or an index outside `dpath`. -/
  | fault
  /-- `exit_err("nftw")` -/
  | nftw
  /-- `exit_err("inotify_add_watch")` -/
  | addWatch
  /-- `exit_err("inotify_rm_watch")` -/
  | rmWatch
  deriving DecidableEq

/-- The tree, the watches of the process, and the process. -/
structure State where
  /-- The directories of the tree that exist. -/
  dirs : List Dir
  /-- The kernel's watches: a descriptor and the directory it is for. -/
  watches : List (ℕ × Dir)
  dpath : ℕ → Option Bytes
  stopped : Option Stop

/-! ### The kernel -/

/-- The descriptor of the watch on a directory. -/
def State.wdOf (s : State) (d : Dir) : Option ℕ := (s.watches.find? fun w => w.2 = d).map Prod.fst

/-- `inotify_add_watch`: a directory that is watched already keeps its descriptor. -/
def State.addWatch (s : State) (path : Bytes) (fresh : ℕ) : ℤ × State :=
  match s.dirs.find? fun d => Names path d with
  | none => (-1, s)
  | some d =>
    match s.wdOf d with
    | some wd => (wd, s)
    | none => (fresh, { s with watches := s.watches ++ [(fresh, d)] })

/-- `inotify_rm_watch`. -/
def State.rmWatch (s : State) (wd : ℕ) : ℤ × State :=
  if ∃ w ∈ s.watches, w.1 = wd then (0, { s with watches := s.watches.filter fun w => w.1 ≠ wd })
  else (-1, s)

/-! ### The program -/

/-- `dpath[wd]` as a string; there is none when it is NULL or `wd` is outside the array. -/
def State.pathOf (s : State) (wd : ℕ) : Option Bytes := if wd < maxWd then s.dpath wd else none

/-- What `nftw` reports: a directory, with the descriptor a new watch on it will get, or something
else. -/
inductive Entry
  | dir (d : Dir) (wd : ℕ)
  | file

/-- `entrycb`. -/
def State.entrycb (s : State) : Entry → State
  | .file => s
  | .dir d wd =>
    let (ret, s) := s.addWatch (render d) wd
    if ret = -1 then { s with stopped := some .nftw }
    else if ret < maxWd then { s with dpath := Function.update s.dpath ret.toNat (some (render d)) }
    else { s with stopped := some .fault }

/-- The branch of `eventcb` for a new subdirectory, `e->wd` and `e->name`. -/
def State.created (s : State) (wd : ℕ) (name : Name) (fresh : ℕ) : State :=
  match s.pathOf wd with
  | none => { s with stopped := some .fault }
  | some path =>
    let ndpath := path ++ slash :: name.val
    let (ret, s) := s.addWatch ndpath fresh
    -- `nwd = inotify_add_watch(..) == -1`
    let nwd := if ret = -1 then 1 else 0
    if nwd ≠ 0 then { s with stopped := some .addWatch }
    else { s with dpath := Function.update s.dpath nwd (some ndpath) }

/-- The branch of `eventcb` for a deleted subdirectory. -/
def State.deleted (s : State) (wd : ℕ) : State :=
  let (ret, s) := s.rmWatch wd
  if ret = -1 then { s with stopped := some .rmWatch }
  else if wd < maxWd then { s with dpath := Function.update s.dpath wd none }
  else { s with stopped := some .fault }

/-! ### The system -/

/-- What happens in the tree. -/
inductive Label
  /-- A subdirectory is created; a new watch will get the descriptor `fresh`. -/
  | create (parent : Dir) (name : Name) (fresh : ℕ)
  /-- A subdirectory without subdirectories is deleted. -/
  | delete (parent : Dir) (name : Name)

/-- A change of the tree and the event it causes, if the parent is watched. -/
def State.step (s : State) : Label → Option State
  | .create parent name fresh =>
    let d := parent ++ [name]
    if s.stopped = none ∧ parent ∈ s.dirs ∧ d ∉ s.dirs ∧ ∀ w ∈ s.watches, w.1 ≠ fresh then
      let t := { s with dirs := s.dirs ++ [d] }
      some ((t.wdOf parent).elim t fun wd => t.created wd name fresh)
    else none
  | .delete parent name =>
    let d := parent ++ [name]
    if s.stopped = none ∧ parent ∈ s.dirs ∧ d ∈ s.dirs ∧ ∀ e ∈ s.dirs, d <+: e → e = d then
      -- the watch on the directory itself is gone
      let t := { s with
        dirs := s.dirs.filter fun e => e ≠ d
        watches := s.watches.filter fun w => w.2 ≠ d }
      some ((t.wdOf parent).elim t fun wd => t.deleted wd)
    else none

/-- The directories among the entries. -/
def dirsOf (es : List Entry) : List (ℕ × Dir) :=
  es.filterMap fun
    | .dir d wd => some (wd, d)
    | .file => none

/-- What the kernel and `nftw` guarantee for the first walk: a directory is reported once, and the
descriptors are fresh. -/
structure Listing (es : List Entry) : Prop where
  dirs : ((dirsOf es).map Prod.snd).Nodup
  fresh : ((dirsOf es).map Prod.fst).Nodup

/-- The process before its walk over the directories `dirs`. -/
def blank (dirs : List Dir) : State := ⟨dirs, [], fun _ => none, none⟩

/-- One entry of the walk; `nftw` stops where the process does. -/
def State.visit (s : State) (e : Entry) : State := if s.stopped = none then s.entrycb e else s

/-- The process after the walk. -/
def walk (es : List Entry) : State := es.foldl State.visit (blank ((dirsOf es).map Prod.snd))

/-- The system. -/
def machine : Machine State Label where
  init s := ∃ es, Listing es ∧ s = walk es
  step := State.step

/-- The watched directories are the existing ones, and the path of each stands in `dpath` under its
descriptor. -/
structure Exact (s : State) : Prop where
  running : s.stopped = none
  watched : ∀ d, d ∈ s.dirs ↔ ∃ wd, (wd, d) ∈ s.watches
  paths : ∀ wd d, (wd, d) ∈ s.watches → ∃ p, s.pathOf wd = some p ∧ Names p d

/-- The step is the creation of a subdirectory whose watch gets the descriptor `0`. -/
def Label.IndexedAtZero : Label → Prop
  | .create _ _ fresh => fresh = 0
  | .delete _ _ => False

/-! ### Looking up watches and directories -/

section Steps

variable {s t : State} {d parent : Dir} {wd fresh : ℕ} {name : Name}

theorem mem_of_wdOf (h : s.wdOf d = some wd) : (wd, d) ∈ s.watches := by
  obtain ⟨⟨wd', d'⟩, hfind, rfl⟩ := Option.map_eq_some_iff.mp h
  have hd : d' = d := by simpa using List.find?_some hfind
  exact hd ▸ List.mem_of_find?_eq_some hfind

theorem exists_wdOf (h : (wd, d) ∈ s.watches) : ∃ wd', s.wdOf d = some wd' := by
  cases hfind : s.watches.find? fun w => w.2 = d with
  | none =>
    have hnot := List.find?_eq_none.mp hfind (wd, d) h
    simp at hnot
  | some w => exact ⟨w.1, by rw [State.wdOf, hfind]; rfl⟩

theorem wdOf_eq_none (h : ∀ wd, (wd, d) ∉ s.watches) : s.wdOf d = none := by
  cases hwd : s.wdOf d with
  | none => rfl
  | some wd => exact absurd (mem_of_wdOf hwd) (h wd)

/-- A path to an existing directory that is not watched gets the fresh descriptor. -/
theorem addWatch_new {p : Bytes} (hd : d ∈ s.dirs) (hp : Names p d)
    (hnew : ∀ wd, (wd, d) ∉ s.watches) (fresh : ℕ) :
    s.addWatch p fresh = ((fresh : ℤ), { s with watches := s.watches ++ [(fresh, d)] }) := by
  have hfind : s.dirs.find? (fun d => Names p d) = some d := by
    cases hf : s.dirs.find? fun d => Names p d with
    | none => exact absurd hp (by simpa using List.find?_eq_none.mp hf d hd)
    | some d' =>
      have hp' : Names p d' := by simpa using List.find?_some hf
      rw [hp'.unique hp]
  rw [State.addWatch, hfind]
  simp only [wdOf_eq_none hnew]

theorem rmWatch_of_mem (h : (wd, d) ∈ s.watches) :
    s.rmWatch wd = (0, { s with watches := s.watches.filter fun w => w.1 ≠ wd }) :=
  if_pos ⟨(wd, d), h, rfl⟩

theorem lt_of_pathOf {p : Bytes} (h : s.pathOf wd = some p) : wd < maxWd := by
  by_contra hlt
  rw [State.pathOf, if_neg hlt] at h
  cases h

/-! ### The events -/

/-- `Exact`, with what the good steps need: no path stands under an unused descriptor, and no
directory is watched twice. -/
structure Tight (s : State) : Prop where
  exact : Exact s
  unused : ∀ wd, (∀ w ∈ s.watches, w.1 ≠ wd) → s.dpath wd = none
  once : ∀ wd wd' d, (wd, d) ∈ s.watches → (wd', d) ∈ s.watches → wd = wd'

/-- A creation puts a watch on the new directory, and its path to `dpath[0]`. -/
theorem step_create (h : Tight s) (hp : parent ∈ s.dirs) (hd : parent ++ [name] ∉ s.dirs)
    (hfresh : ∀ w ∈ s.watches, w.1 ≠ fresh) :
    ∃ p, Names p (parent ++ [name]) ∧ s.step (.create parent name fresh) = some
      { dirs := s.dirs ++ [parent ++ [name]]
        watches := s.watches ++ [(fresh, parent ++ [name])]
        dpath := Function.update s.dpath 0 (some p)
        stopped := none } := by
  let t : State := { s with dirs := s.dirs ++ [parent ++ [name]] }
  obtain ⟨wd, hwd⟩ := (h.exact.watched parent).mp hp
  obtain ⟨wd, hwdOf⟩ : ∃ wd, t.wdOf parent = some wd := exists_wdOf (s := t) hwd
  obtain ⟨path, hpath, hnames⟩ := h.exact.paths wd parent (mem_of_wdOf (s := t) hwdOf)
  have hpath' : t.pathOf wd = some path := hpath
  have hnew : ∀ wd, (wd, parent ++ [name]) ∉ t.watches := fun wd hmem =>
    hd ((h.exact.watched _).mpr ⟨wd, hmem⟩)
  have hnd : Names (path ++ slash :: name.val) (parent ++ [name]) := names_append hnames name
  have hadd := addWatch_new (s := t) (by simp [t]) hnd hnew fresh
  refine ⟨path ++ slash :: name.val, hnd, ?_⟩
  rw [State.step, if_pos ⟨h.exact.running, hp, hd, hfresh⟩]
  show some ((t.wdOf parent).elim t fun wd => t.created wd name fresh) = _
  have hne : ¬ (fresh : ℤ) = -1 := by omega
  simp only [hwdOf, Option.elim_some, State.created, hpath', hadd, if_neg hne, ne_eq,
    not_true_eq_false, if_false]
  rw [show t.stopped = none from h.exact.running]

/-- **A deletion takes the watch off the parent.** -/
theorem step_delete (h : Tight s) (hp : parent ∈ s.dirs) (hd : parent ++ [name] ∈ s.dirs)
    (hempty : ∀ e ∈ s.dirs, parent ++ [name] <+: e → e = parent ++ [name]) :
    ∃ wd, (wd, parent) ∈ s.watches ∧ s.step (.delete parent name) = some
      { dirs := s.dirs.filter fun e => e ≠ parent ++ [name]
        watches := (s.watches.filter fun w => w.2 ≠ parent ++ [name]).filter fun w => w.1 ≠ wd
        dpath := Function.update s.dpath wd none
        stopped := none } := by
  let t : State := { s with
    dirs := s.dirs.filter fun e => e ≠ parent ++ [name]
    watches := s.watches.filter fun w => w.2 ≠ parent ++ [name] }
  obtain ⟨wd, hwd⟩ := (h.exact.watched parent).mp hp
  have hwd' : (wd, parent) ∈ t.watches := List.mem_filter.mpr ⟨hwd, by simp⟩
  obtain ⟨wd, hwdOf⟩ : ∃ wd, t.wdOf parent = some wd := exists_wdOf hwd'
  have hmem : (wd, parent) ∈ t.watches := mem_of_wdOf hwdOf
  have hmem' : (wd, parent) ∈ s.watches := List.mem_of_mem_filter hmem
  obtain ⟨path, hpath, -⟩ := h.exact.paths wd parent hmem'
  refine ⟨wd, hmem', ?_⟩
  rw [State.step, if_pos ⟨h.exact.running, hp, hd, hempty⟩]
  show some ((t.wdOf parent).elim t fun wd => t.deleted wd) = _
  have hne : ¬ (0 : ℤ) = -1 := by decide
  simp only [hwdOf, Option.elim_some, State.deleted, rmWatch_of_mem hmem, if_neg hne,
    if_pos (lt_of_pathOf hpath)]
  rw [show t.stopped = none from h.exact.running]

/-- A creation whose watch gets the descriptor `0` is handled right. -/
theorem tight_of_create_zero (h : Tight s) {a : Label} (ha : a.IndexedAtZero)
    (hstep : s.step a = some t) : Tight t := by
  cases a with
  | delete parent name => exact absurd ha id
  | create parent name fresh =>
    obtain rfl : fresh = 0 := ha
    obtain ⟨⟨-, hp, hd, hfresh⟩, -⟩ := Option.ite_none_right_eq_some.mp hstep
    obtain ⟨p, hnames, heq⟩ := step_create h hp hd hfresh
    obtain rfl := Option.some.inj (heq.symm.trans hstep)
    refine ⟨⟨rfl, ?_, ?_⟩, ?_, ?_⟩
    · intro e
      simp only [List.mem_append, List.mem_singleton, Prod.mk.injEq, exists_or,
        h.exact.watched e]
      simp
    · intro wd e he
      rcases List.mem_append.mp he with hold | hlast
      · obtain ⟨q, hq, hqn⟩ := h.exact.paths wd e hold
        have hne : wd ≠ 0 := hfresh (wd, e) hold
        refine ⟨q, ?_, hqn⟩
        show (if wd < maxWd then Function.update s.dpath 0 (some p) wd else none) = some q
        rw [Function.update_of_ne hne]
        exact hq
      · obtain ⟨rfl, rfl⟩ := Prod.mk.inj (List.mem_singleton.mp hlast)
        exact ⟨p, by simp [State.pathOf, maxWd], hnames⟩
    · intro wd hunused
      have hne : wd ≠ 0 := fun hzero => hunused (0, parent ++ [name]) (by simp) hzero.symm
      show Function.update s.dpath 0 (some p) wd = none
      rw [Function.update_of_ne hne]
      exact h.unused wd fun w hw => hunused w (List.mem_append_left _ hw)
    · intro wd wd' e he he'
      have hnew : ∀ wd, (wd, parent ++ [name]) ∉ s.watches := fun wd hmem =>
        hd ((h.exact.watched _).mpr ⟨wd, hmem⟩)
      simp only [List.mem_append, List.mem_singleton, Prod.mk.injEq] at he he'
      rcases he with he | ⟨rfl, rfl⟩
      · rcases he' with he' | ⟨rfl, rfl⟩
        · exact h.once wd wd' e he he'
        · exact absurd he (hnew wd)
      · rcases he' with he' | ⟨rfl, -⟩
        · exact absurd he' (hnew wd')
        · rfl

/-- Every other event is not. -/
theorem not_exact_of_step (h : Tight s) {a : Label} (ha : ¬ a.IndexedAtZero)
    (hstep : s.step a = some t) : ¬ Exact t := by
  cases a with
  | create parent name fresh =>
    have hne : fresh ≠ 0 := ha
    obtain ⟨⟨-, hp, hd, hfresh⟩, -⟩ := Option.ite_none_right_eq_some.mp hstep
    obtain ⟨p, -, heq⟩ := step_create h hp hd hfresh
    obtain rfl := Option.some.inj (heq.symm.trans hstep)
    -- nothing stands in `dpath` under the descriptor of the new directory
    intro hexact
    obtain ⟨q, hq, -⟩ := hexact.paths fresh (parent ++ [name]) (by simp)
    have hq' :
        (if fresh < maxWd then Function.update s.dpath 0 (some p) fresh else none) = some q := hq
    rw [Function.update_of_ne hne, h.unused fresh hfresh, ite_self] at hq'
    cases hq'
  | delete parent name =>
    obtain ⟨⟨-, hp, hd, hempty⟩, -⟩ := Option.ite_none_right_eq_some.mp hstep
    obtain ⟨wd, hwd, heq⟩ := step_delete h hp hd hempty
    obtain rfl := Option.some.inj (heq.symm.trans hstep)
    -- the parent exists and is not watched any more
    intro hexact
    have hmem : parent ∈ s.dirs.filter fun e => e ≠ parent ++ [name] :=
      List.mem_filter.mpr ⟨hp, by simp⟩
    obtain ⟨wd', hwd'⟩ := (hexact.watched parent).mp hmem
    obtain ⟨hold, hne⟩ := List.mem_filter.mp hwd'
    have hsame : wd' = wd := h.once wd' wd parent (List.mem_of_mem_filter hold) hwd
    simp [hsame] at hne

/-! ### The first walk -/

/-- What the walk has done after the entries `pre`. -/
structure Walked (dirs : List Dir) (pre : List Entry) (s : State) : Prop where
  running : s.stopped = none
  dirs_eq : s.dirs = dirs
  watches : s.watches = dirsOf pre
  paths : ∀ wd d, (wd, d) ∈ dirsOf pre → s.dpath wd = some (render d)
  unused : ∀ wd, (∀ w ∈ dirsOf pre, w.1 ≠ wd) → s.dpath wd = none

/-- All descriptors of the walk are indices of `dpath`. -/
def InRange (es : List Entry) : Prop := ∀ w ∈ dirsOf es, w.1 < maxWd

theorem dirsOf_concat_dir (es : List Entry) (d : Dir) (wd : ℕ) :
    dirsOf (es ++ [.dir d wd]) = dirsOf es ++ [(wd, d)] := by
  simp [dirsOf]

theorem dirsOf_concat_file (es : List Entry) : dirsOf (es ++ [.file]) = dirsOf es := by
  simp [dirsOf]

theorem walked_blank (dirs : List Dir) : Walked dirs [] (blank dirs) :=
  ⟨rfl, rfl, rfl, nofun, fun _ _ => rfl⟩

/-- One call of `entrycb` for a directory: the watch is new; its descriptor is an index of `dpath`
or the process ends. -/
theorem Walked.entrycb {dirs : List Dir} {pre : List Entry} (h : Walked dirs pre s)
    (hd : d ∈ dirs) (hnew : d ∉ (dirsOf pre).map Prod.snd)
    (hfresh : wd ∉ (dirsOf pre).map Prod.fst) :
    (wd < maxWd → Walked dirs (pre ++ [.dir d wd]) (s.entrycb (.dir d wd))) ∧
      (¬ wd < maxWd → (s.entrycb (.dir d wd)).stopped ≠ none) := by
  have hmem : d ∈ s.dirs := h.dirs_eq ▸ hd
  have hnotin : ∀ wd, (wd, d) ∉ s.watches := by
    intro wd hmem
    rw [h.watches] at hmem
    exact hnew (List.mem_map.mpr ⟨(wd, d), hmem, rfl⟩)
  have hadd := addWatch_new hmem (names_render d) hnotin wd
  have hne : ¬ (wd : ℤ) = -1 := by omega
  constructor
  · intro hlt
    have hlt' : (wd : ℤ) < maxWd := by exact_mod_cast hlt
    have heq : s.entrycb (.dir d wd) = { s with
        watches := s.watches ++ [(wd, d)]
        dpath := Function.update s.dpath wd (some (render d)) } := by
      simp only [State.entrycb, hadd, if_neg hne, if_pos hlt', Int.toNat_natCast]
    rw [heq]
    refine ⟨h.running, h.dirs_eq, ?_, ?_, ?_⟩
    · rw [dirsOf_concat_dir, ← h.watches]
    · intro wd' d' hmem'
      rw [dirsOf_concat_dir] at hmem'
      show Function.update s.dpath wd (some (render d)) wd' = some (render d')
      rcases List.mem_append.mp hmem' with hold | hlast
      · have hwd : wd' ≠ wd := fun heq => hfresh (heq ▸ List.mem_map.mpr ⟨(wd', d'), hold, rfl⟩)
        rw [Function.update_of_ne hwd]
        exact h.paths wd' d' hold
      · obtain ⟨rfl, rfl⟩ := Prod.mk.inj (List.mem_singleton.mp hlast)
        exact Function.update_self ..
    · intro wd' hunused
      rw [dirsOf_concat_dir] at hunused
      have hwd : wd' ≠ wd := fun heq => hunused (wd, d) (by simp) heq.symm
      show Function.update s.dpath wd (some (render d)) wd' = none
      rw [Function.update_of_ne hwd]
      exact h.unused wd' fun w hw => hunused w (List.mem_append_left _ hw)
  · intro hlt
    have hlt' : ¬ (wd : ℤ) < maxWd := by exact_mod_cast hlt
    simp only [State.entrycb, hadd, if_neg hne, if_neg hlt']
    exact Option.some_ne_none _

/-- The walk over the first entries: it is done, or a descriptor was too large and the process has
ended. -/
theorem walked_of_append {es : List Entry} (hes : Listing es) {dirs : List Dir}
    (hall : dirs = (dirsOf es).map Prod.snd) (pre : List Entry) :
    ∀ post, es = pre ++ post →
      (InRange pre → Walked dirs pre (pre.foldl State.visit (blank dirs))) ∧
      (¬ InRange pre → (pre.foldl State.visit (blank dirs)).stopped ≠ none) := by
  induction pre using List.reverseRecOn with
  | nil =>
    intro post _
    exact ⟨fun _ => walked_blank _, fun h => absurd (fun w hw => nomatch hw) h⟩
  | append_singleton pre e ih =>
    intro post hsplit
    obtain ⟨hin, hout⟩ := ih (e :: post) (by simpa using hsplit)
    rw [List.foldl_append, List.foldl_cons, List.foldl_nil, State.visit]
    by_cases hpre : InRange pre
    · have hw := hin hpre
      rw [if_pos hw.running]
      cases e with
      | file =>
        have hrange : InRange (pre ++ [.file]) ↔ InRange pre := by
          rw [InRange, dirsOf_concat_file, InRange]
        refine ⟨fun _ => ?_, fun hn => absurd (hrange.mpr hpre) hn⟩
        obtain ⟨h₁, h₂, h₃, h₄, h₅⟩ := hw
        exact ⟨h₁, h₂, by rw [dirsOf_concat_file]; exact h₃, by rw [dirsOf_concat_file]; exact h₄,
          by rw [dirsOf_concat_file]; exact h₅⟩
      | dir d wd =>
        have hdirs : dirsOf es = dirsOf pre ++ (wd, d) :: dirsOf post := by
          rw [hsplit]
          simp [dirsOf]
        have hnew : d ∉ (dirsOf pre).map Prod.snd := by
          have hnd := hes.dirs
          rw [hdirs, List.map_append] at hnd
          exact fun hmem => List.disjoint_of_nodup_append hnd hmem List.mem_cons_self
        have hfresh : wd ∉ (dirsOf pre).map Prod.fst := by
          have hnd := hes.fresh
          rw [hdirs, List.map_append] at hnd
          exact fun hmem => List.disjoint_of_nodup_append hnd hmem List.mem_cons_self
        have hrange : InRange (pre ++ [.dir d wd]) ↔ wd < maxWd := by
          rw [InRange, dirsOf_concat_dir, List.forall_mem_append, List.forall_mem_singleton]
          exact and_iff_right hpre
        rw [hrange]
        exact hw.entrycb (by rw [hall, hdirs]; simp) hnew hfresh
    · have hstop := hout hpre
      rw [if_neg hstop]
      refine ⟨fun hall => absurd (fun w hw => hall w ?_) hpre, fun _ => hstop⟩
      rw [dirsOf, List.filterMap_append]
      exact List.mem_append_left _ hw

theorem tight_walk {es : List Entry} (hes : Listing es) (hrange : InRange es) :
    Tight (walk es) := by
  have hw : Walked ((dirsOf es).map Prod.snd) es (walk es) :=
    (walked_of_append hes rfl es [] (List.append_nil es).symm).1 hrange
  refine ⟨⟨hw.running, ?_, ?_⟩, ?_, ?_⟩
  · intro d
    rw [hw.dirs_eq, hw.watches, List.mem_map]
    constructor
    · rintro ⟨w, hmem, rfl⟩
      exact ⟨w.1, hmem⟩
    · rintro ⟨wd, hmem⟩
      exact ⟨(wd, d), hmem, rfl⟩
  · intro wd d hmem
    rw [hw.watches] at hmem
    refine ⟨render d, ?_, names_render d⟩
    rw [State.pathOf, if_pos (hrange _ hmem)]
    exact hw.paths wd d hmem
  · intro wd hunused
    rw [hw.watches] at hunused
    exact hw.unused wd hunused
  · intro wd wd' d hmem hmem'
    rw [hw.watches] at hmem hmem'
    exact congrArg Prod.fst (List.inj_on_of_nodup_map hes.dirs hmem hmem' rfl)

theorem stopped_walk {es : List Entry} (hes : Listing es) (hrange : ¬ InRange es) :
    (walk es).stopped ≠ none :=
  (walked_of_append hes rfl es [] (List.append_nil es).symm).2 hrange

/-- A process that has ended handles no event. -/
theorem eq_of_run_of_stopped {s₀ : State} (h₀ : s₀.stopped ≠ none) {tr : List (State × Label)}
    (h : machine.Run s₀ tr s) : s = s₀ := by
  refine h.invariant (I := fun s => s = s₀) ?_ rfl
  rintro s a t rfl hstep
  cases a with
  | create parent name fresh =>
    obtain ⟨⟨hrun, -⟩, -⟩ := Option.ite_none_right_eq_some.mp hstep
    exact absurd hrun h₀
  | delete parent name =>
    obtain ⟨⟨hrun, -⟩, -⟩ := Option.ite_none_right_eq_some.mp hstep
    exact absurd hrun h₀

end Steps

/-- **What the watcher survives.** After the first walk and any events, the watched directories are
the existing ones and `dpath` holds their paths, in every state of the run, if and only if the
descriptors of the walk are indices of `dpath` and every event is a creation whose watch gets the
descriptor `0`. -/
theorem exact_iff {es : List Entry} (hes : Listing es) {s : State} {tr : List (State × Label)}
    (h : machine.Run (walk es) tr s) :
    ((∀ p ∈ tr, Exact p.1) ∧ Exact s) ↔ InRange es ∧ ∀ p ∈ tr, p.2.IndexedAtZero := by
  by_cases hrange : InRange es
  · rw [and_iff_right hrange]
    refine h.forall_iff (J := Tight) (G := fun _ a => a.IndexedAtZero) (fun _ hs => hs.exact) ?_ ?_
      (tight_walk hes hrange)
    · intro s a t hs ha hstep
      exact tight_of_create_zero hs ha hstep
    · intro s a t hs ha hstep
      exact not_exact_of_step hs ha hstep
  · have hstop := stopped_walk hes hrange
    obtain rfl := eq_of_run_of_stopped hstop h
    exact iff_of_false (fun hall => hstop hall.2.running) fun hall => hrange hall.1

/-- `/a`. -/
def dirA : Name := ⟨[97], by decide⟩

/-- `/a/b`. -/
def dirB : Name := ⟨[98], by decide⟩

/-- A tree with the root `/a`, one subdirectory and a file. -/
def smallTree : List Entry := [.dir [dirA] 1, .file, .dir [dirA, dirB] 2]

theorem smallTree_listing : Listing smallTree := ⟨by decide, by decide⟩

theorem smallTree_inRange : InRange smallTree := by
  show ∀ w ∈ dirsOf smallTree, w.1 < maxWd
  decide

/-- All is well after the first walk, and no more after a creation that gets the next descriptor. -/
theorem exact_iff_smallTree :
    machine.Run (walk smallTree) [] (walk smallTree) ∧ Exact (walk smallTree) ∧
      ∃ s, machine.Run (walk smallTree) [(walk smallTree, .create [dirA, dirB] dirA 3)] s ∧
        ¬ Exact s := by
  have hwalk : machine.Run (walk smallTree) [] (walk smallTree) := .nil
  have hexact : Exact (walk smallTree) :=
    ((exact_iff smallTree_listing hwalk).mpr ⟨smallTree_inRange, nofun⟩).2
  have htight := tight_walk smallTree_listing smallTree_inRange
  obtain ⟨p, -, hstep⟩ := step_create htight (by decide : [dirA, dirB] ∈ (walk smallTree).dirs)
    (by decide : [dirA, dirB] ++ [dirA] ∉ (walk smallTree).dirs)
    (by decide : ∀ w ∈ (walk smallTree).watches, w.1 ≠ 3)
  have hrun : machine.Run (walk smallTree) [(walk smallTree, .create [dirA, dirB] dirA 3)] _ :=
    hwalk.snoc hstep
  refine ⟨hwalk, hexact, _, hrun, fun hs => ?_⟩
  have hzero := ((exact_iff smallTree_listing hrun).mp ⟨by simpa using hexact, hs⟩).2
  have h3 : (3 : ℕ) = 0 := hzero _ List.mem_cons_self
  omega

/-- **One deletion.** After the subdirectory is deleted the root is not watched any more. -/
theorem not_exact :
    ¬ ∀ es, Listing es → ∀ tr s, machine.Run (walk es) tr s → Exact s := by
  intro h
  have htight := tight_walk smallTree_listing smallTree_inRange
  obtain ⟨wd, -, hstep⟩ := step_delete htight (by decide : [dirA] ∈ (walk smallTree).dirs)
    (by decide : [dirA] ++ [dirB] ∈ (walk smallTree).dirs) (by decide)
  have hrun : machine.Run (walk smallTree)
      ([] ++ [(walk smallTree, .delete [dirA] dirB)]) _ := .snoc .nil hstep
  exact not_exact_of_step htight (a := .delete [dirA] dirB) (fun hzero => hzero) hstep
    (h smallTree smallTree_listing _ _ hrun)

end DirWatch

end Tlpiexer
