import Tlpiexer.Nftw.Script

/-!
# What is left in `errno`

The loop of `fwalk` cannot tell the end of a directory from a `readdir` that has failed but by
`errno`, which is cleared once before the loop. Whatever a callback leaves there, or the `realpath`
of a link that is followed, is still there at the end of the directory, unless another directory has
been gone into meanwhile, which clears it again. So the walk fails after a file that comes last in
its directory and whose callback leaves something in `errno`, and does not notice the same after a
file that is followed by a directory. A link that is followed and lies on another device is not
called back for; what its `realpath` leaves counts all the same.

`nftw_complete_iff` is about walks in which no directory operation fails, over any file system, with
links followed or not: every file is visited and 0 returned if and only if the walk comes upon no
directory that lies too deep and no path that does not fit, and `errno` is 0 at the end of every
directory.
-/

namespace Tlpiexer

namespace Nftw

open CString Path FileSystem Script

namespace Env

/-! ### What is to be visited -/

/-- The status under which the walk sees an entry of the directory `d`: that of the file a link
leads to, if links are followed. -/
def seen (e : Env) (d : Loc) (x : FileName) : Option Stat :=
  ((e.fs.resolve e.depth (!e.phys) d x.val).bind e.fs.node).map Node.stat

/-- There is a file at `l` below the directory `d`; with `FTW_MOUNT`, neither it nor a directory on
the way is on another device. -/
def Wanted (e : Env) : ℕ → Loc → Loc → Prop
  | _, _, [] => False
  | dev, d, [x] => (∃ m, e.fs.node (d ++ [x]) = some m) ∧
      (e.mount = true → ∀ st, e.seen d x = some st → st.st_dev = dev)
  | dev, d, x :: y :: l => ∃ st es, e.fs.node (d ++ [x]) = some (.dir st es) ∧
      (e.mount = true → st.st_dev = dev) ∧ Wanted e st.st_dev (d ++ [x]) (y :: l)

/-! ### Events that go right -/

section Right

variable {e : Env} {s : Proc} {as : List Event}

theorem perform_of_mem (h : (run e.perform s as).2 = none) {x : Event} (hx : x ∈ as) :
    ∃ t, (e.perform t x).2 = none := by
  obtain ⟨pre, post, rfl⟩ := List.append_of_mem hx
  exact ⟨_, (of_run_append_cons h).2⟩

/-- Nothing in the script ends the walk by itself. -/
structure Unbarred (as : List Event) : Prop where
  stop : ∀ x, Event.stop x ∉ as
  refused : Event.kernel none ∉ as

theorem unbarred_of_run (h : (run e.perform s as).2 = none) : Unbarred as where
  stop x hx := by
    obtain ⟨t, ht⟩ := perform_of_mem h hx
    cases ht
  refused hx := by
    obtain ⟨t, ht⟩ := perform_of_mem h hx
    cases ht

theorem Unbarred.of_subset {as bs : List Event} (h : Unbarred as) (hsub : ∀ x ∈ bs, x ∈ as) :
    Unbarred bs :=
  ⟨fun x hx => h.stop x (hsub _ hx), fun hx => h.refused (hsub _ hx)⟩

end Right

/-! ### Every entry is visited -/

section Visited

variable {e : Env} {c d : Loc} {dirpath : Bytes} {dstatus : Option Stat} {level k : ℕ}
  {script : Bytes → List Event} {st : Stat} {es : Listing} {x : FileName} {m : Node}

/-- There is a callback for the name and the level. -/
def Called (as : List Event) (x : FileName) (level : ℕ) : Prop :=
  ∃ call, Event.callback call ∈ as ∧ call.fpath = x.val ∧ call.level = level

theorem Called.of_subset {as bs : List Event} (h : Called as x level) (hsub : ∀ y ∈ as, y ∈ bs) :
    Called bs x level := by
  obtain ⟨call, hmem, hcall⟩ := h
  exact ⟨call, hsub _ hmem, hcall⟩

/-- A file that is looked at and not on another device is reported; what the walk over it does
belongs to the events. -/
theorem called_visitScript {fpath : Bytes} {d_type : DType}
    (hstat : e.fs.lstat e.depth c fpath = some m) (hdev : e.elsewhere dstatus m.stat = false) :
    Called (e.visitScript script c dstatus level x.val d_type fpath) x level ∧
      (m.isDir = true → ∀ y ∈ script fpath,
        y ∈ e.visitScript script c dstatus level x.val d_type fpath) := by
  rw [visitScript, hstat]
  dsimp only
  rw [hdev, if_neg (by simp)]
  cases hdir : m.isDir with
  | false =>
    exact ⟨⟨⟨x.val, m.stat, .d_type d_type, level⟩, by simp, rfl, rfl⟩, fun h => by cases h⟩
  | true =>
    refine ⟨⟨⟨x.val, m.stat, .st_mode, level⟩, ?_, rfl, rfl⟩, fun _ y hy => by simp [hy]⟩
    cases e.post <;> simp

theorem mem_entriesScript {ds : List (Bytes × DType)} {d_name : Bytes} {d_type : DType}
    (h : (d_name, d_type) ∈ ds) :
    ∀ y ∈ e.entryScript script c dirpath dstatus level d_name d_type,
      y ∈ e.entriesScript script c dirpath dstatus level ds := by
  intro y hy
  induction ds with
  | nil => cases h
  | cons p ds ih =>
    rcases List.mem_cons.mp h with rfl | h
    · exact List.mem_cons_of_mem _ (List.mem_append_left _ hy)
    · exact List.mem_cons_of_mem _ (List.mem_append_right _ (ih h))

/-- The entry is not on another device as the walk sees it. -/
theorem elsewhere_eq_false {st' : Stat} (hstatus : dstatus = if e.mount then some st else none)
    (h : e.mount = true → st'.st_dev = st.st_dev) : e.elsewhere dstatus st' = false := by
  rw [elsewhere, hstatus]
  cases hmount : e.mount with
  | false => rfl
  | true => simp [h hmount]

theorem lstat_fpath (hleads : e.fs.resolve e.depth true c dirpath = some d)
    (hlisting : e.fs.listing d = some es) (hx : es.find x = some m) :
    e.fs.lstat e.depth (e.inside c d) (e.fpath dirpath x.val) = some m := by
  rw [FS.lstat, resolve_fpath hleads,
    FS.resolve_find (FS.ne_nil_of_resolve hleads).2 hlisting hx (by simp), Option.bind_some,
    FS.node_concat hlisting, hx]

theorem fits_of_unbarred {d_type : DType}
    (h : Unbarred (e.entryScript script c dirpath dstatus level x.val d_type)) :
    (e.fpath dirpath x.val).length < pathMax := by
  by_contra hlong
  rw [entryScript, if_neg (FS.not_dot_or_dotdot x), if_pos (by omega)] at h
  exact absurd (List.mem_singleton_self _) (h.stop .overflow)

/-- What a script without a stop does for an entry that is no followed link. -/
theorem entryScript_of_unbarred {d_type : DType} (hfollow : e.followed d_type = false)
    (h : Unbarred (e.entryScript script c dirpath dstatus level x.val d_type)) :
    e.entryScript script c dirpath dstatus level x.val d_type =
      e.visitScript script c dstatus level x.val d_type (e.fpath dirpath x.val) := by
  rw [entryScript_of_fits (fits_of_unbarred h), hfollow, if_neg (by simp)]

/-- What it does for a link that is followed. -/
theorem entryScript_of_followed {d_type : DType} (hfollow : e.followed d_type = true)
    (h : Unbarred (e.entryScript script c dirpath dstatus level x.val d_type)) :
    ∃ l, e.fs.resolve e.depth true c (e.fpath dirpath x.val) = some l ∧
      e.entryScript script c dirpath dstatus level x.val d_type =
        .kernel (some .probe) :: e.visitScript script c dstatus level x.val d_type l.path := by
  have hfit := fits_of_unbarred h
  rw [entryScript_of_fits hfit, if_pos hfollow] at h ⊢
  cases hreal : e.fs.resolve e.depth true c (e.fpath dirpath x.val) with
  | none =>
    rw [hreal] at h
    exact absurd (List.mem_singleton_self _) h.refused
  | some l =>
    refine ⟨l, rfl, ?_⟩
    rw [hreal, Option.bind_some, sized] at h
    rw [Option.bind_some, sized]
    by_cases hlong : l.path.length < pathMax
    · rw [if_pos hlong]
    · rw [if_neg hlong] at h
      exact absurd (List.mem_singleton_self _) h.refused

/-- **Every entry is reported.** -/
theorem called_entryScript (hleads : e.fs.resolve e.depth true c dirpath = some d)
    (hlisting : e.fs.listing d = some es) (hx : es.find x = some m)
    (hstatus : dstatus = if e.mount then some st else none)
    (hdev : e.mount = true → ∀ st', e.seen d x = some st' → st'.st_dev = st.st_dev)
    (h : Unbarred (e.entryScript script (e.inside c d) dirpath dstatus level x.val m.dType)) :
    Called (e.entryScript script (e.inside c d) dirpath dstatus level x.val m.dType) x level := by
  have hdepth := (FS.ne_nil_of_resolve hleads).2
  cases hfollow : e.followed m.dType with
  | true =>
    have hphys : e.phys = false := by
      rw [followed, Bool.and_eq_true] at hfollow
      simpa using hfollow.2
    obtain ⟨l, hreal, hscript⟩ := entryScript_of_followed hfollow h
    rw [resolve_fpath hleads] at hreal
    obtain ⟨m', hnode, hm'⟩ := FS.ends_of_resolve hreal
    have hstat : e.fs.lstat e.depth (e.inside c d) l.path = some m' := by
      obtain ⟨n, hn⟩ := FS.exists_succ_of_resolve hleads
      rw [FS.lstat, hn, FS.resolve_path hnode hm', Option.bind_some, hnode]
    have hseen : e.seen d x = some m'.stat := by
      rw [seen, hphys, Bool.not_false, hreal, Option.bind_some, hnode]
      rfl
    rw [hscript]
    have helse := elsewhere_eq_false hstatus fun h => hdev h _ hseen
    exact (called_visitScript hstat helse).1.of_subset fun y hy => List.mem_cons_of_mem _ hy
  | false =>
    have hseen : e.seen d x = some m.stat := by
      have hlink : (!e.phys) = true → m.NotLink := by
        rintro hphys st' target rfl
        rw [followed, hphys] at hfollow
        cases hfollow
      rw [seen, FS.resolve_find hdepth hlisting hx hlink, Option.bind_some, FS.node_concat hlisting,
        hx]
      rfl
    rw [entryScript_of_unbarred hfollow h]
    exact (called_visitScript (lstat_fpath hleads hlisting hx)
      (elsewhere_eq_false hstatus fun h => hdev h _ hseen)).1

/-- A directory is gone into. -/
theorem mem_entryScript_of_dir {st' : Stat} {sub : Listing}
    (hleads : e.fs.resolve e.depth true c dirpath = some d)
    (hlisting : e.fs.listing d = some es) (hx : es.find x = some (.dir st' sub))
    (hstatus : dstatus = if e.mount then some st else none)
    (hdev : e.mount = true → st'.st_dev = st.st_dev)
    (h : Unbarred (e.entryScript script (e.inside c d) dirpath dstatus level x.val .dir)) :
    ∀ y ∈ script (e.fpath dirpath x.val),
      y ∈ e.entryScript script (e.inside c d) dirpath dstatus level x.val .dir := by
  rw [entryScript_of_unbarred rfl h]
  exact (called_visitScript (lstat_fpath hleads hlisting hx)
    (elsewhere_eq_false hstatus hdev)).2 rfl

/-- The loop over the entries is a part of the walk. -/
theorem mem_walkScript (hleads : e.fs.resolve e.depth true c dirpath = some d)
    (hnode : e.fs.node d = some (.dir st es))
    (h : Unbarred (e.walkScript (k + 1) level c dirpath)) :
    ∀ y ∈ e.entriesScript (e.walkScript k (level + 1) (e.inside c d)) (e.inside c d) dirpath
      (if e.mount then some st else none) level es.dirents,
      y ∈ e.walkScript (k + 1) level c dirpath := by
  have hlisting : e.fs.listing d = some es := FS.listing_eq_some.mpr ⟨st, hnode⟩
  rw [walkScript_succ hleads hnode, bodyScript, directory_eq_some.mpr ⟨hleads, hlisting⟩] at h ⊢
  cases hcwd : sized c.path with
  | none =>
    rw [hcwd] at h
    exact absurd (by simp) h.refused
  | some cwd =>
    intro y hy
    simp [hy]

theorem Wanted.of_cons {dev : ℕ} {y : FileName} {l : Loc} (hl : l ≠ [])
    (h : e.Wanted dev d (y :: l)) : ∃ st es, e.fs.node (d ++ [y]) = some (.dir st es) ∧
      (e.mount = true → st.st_dev = dev) ∧ e.Wanted st.st_dev (d ++ [y]) l := by
  cases l with
  | nil => exact absurd rfl hl
  | cons z l => exact h

/-- **Everything below the directory is reported** in a walk that goes through. -/
theorem called_walkScript {l : Loc} (hleads : e.fs.resolve e.depth true c dirpath = some d)
    (hnode : e.fs.node d = some (.dir st es)) (h : Unbarred (e.walkScript k level c dirpath))
    (hl : e.Wanted st.st_dev d (l ++ [x])) :
    Called (e.walkScript k level c dirpath) x (level + l.length) := by
  induction l generalizing k level c d dirpath st es with
  | nil =>
    cases k with
    | zero => exact absurd (List.mem_singleton_self _) (h.stop .failure)
    | succ k =>
      have hlisting : e.fs.listing d = some es := FS.listing_eq_some.mpr ⟨st, hnode⟩
      obtain ⟨⟨m, hm⟩, hdev⟩ := hl
      rw [FS.node_concat hlisting] at hm
      have hsub := fun y hy => mem_walkScript hleads hnode h y
        (mem_entriesScript (Listing.mem_dirents hm) y hy)
      exact (called_entryScript hleads hlisting hm rfl hdev (h.of_subset hsub)).of_subset hsub
  | cons z l ih =>
    cases k with
    | zero => exact absurd (List.mem_singleton_self _) (h.stop .failure)
    | succ k =>
      have hlisting : e.fs.listing d = some es := FS.listing_eq_some.mpr ⟨st, hnode⟩
      obtain ⟨st', sub, hz, hdev, hl⟩ := hl.of_cons (by simp)
      have hfind := hz
      rw [FS.node_concat hlisting] at hfind
      have hentry := fun y hy => mem_walkScript hleads hnode h y
        (mem_entriesScript (Listing.mem_dirents hfind) y hy)
      have hsub := fun y hy => hentry y
        (mem_entryScript_of_dir hleads hlisting hfind rfl hdev (h.of_subset hentry) y hy)
      have hleads' : e.fs.resolve e.depth true (e.inside c d) (e.fpath dirpath z.val) =
          some (d ++ [z]) := by
        rw [resolve_fpath hleads]
        exact FS.resolve_find (FS.ne_nil_of_resolve hleads).2 hlisting hfind
          fun _ _ _ h => by cases h
      have hcalled := ih hleads' hz (h.of_subset hsub) hl
      rw [List.length_cons, show level + (l.length + 1) = level + 1 + l.length by omega]
      exact hcalled.of_subset hsub

end Visited

/-! ### `errno` -/

section Errno

variable {e : Env} {s : Proc} {as : List Event}

/-- The value of `errno` after events that go right: what the last callback or the last `realpath`
has left there since a directory was last gone into, or 0. -/
def errnoAfter (e : Env) (s : Proc) (as : List Event) : ℤ := (as.foldl e.after s).errno

theorem errno_run (h : (run e.perform s as).2 = none) :
    (run e.perform s as).1.errno = e.errnoAfter s as := congrArg Proc.errno (run_of_none h)

/-- The callbacks among the events. -/
def callbacks (as : List Event) : List Call :=
  as.filterMap fun
    | .callback c => some c
    | _ => none

theorem calls_foldl (as : List Event) (s : Proc) :
    (as.foldl e.after s).calls = s.calls ++ callbacks as := by
  induction as generalizing s with
  | nil => simp [callbacks]
  | cons x as ih =>
    rw [List.foldl_cons, ih]
    cases x with
    | kernel f =>
      cases f with
      | none => rfl
      | some f => cases f <;> rfl
    | callback c => simp [after, called, callbacks]
    | _ => rfl

theorem calls_run (h : (run e.perform s as).2 = none) :
    (run e.perform s as).1.calls = s.calls ++ callbacks as :=
  (congrArg Proc.calls (run_of_none h)).trans (calls_foldl as s)

/-- No directory operation fails: neither by the pattern, nor for a reason in the file system. -/
structure Smooth (e : Env) (s : Proc) (as : List Event) : Prop where
  fails : ∀ i, e.fails i = false
  restoreFails : ∀ i, e.restoreFails i = false
  refused : ∀ pre post, as = pre ++ .kernel none :: post → (run e.perform s pre).2 ≠ none

/-- **What the walk needs**: it comes upon no directory that lies too deep and no path that does not
fit, and `errno` is 0 at the end of every directory. -/
structure Unspoilt (e : Env) (s : Proc) (as : List Event) : Prop where
  stop : ∀ x, Event.stop x ∉ as
  errno : ∀ pre post, as = pre ++ .check :: post → e.errnoAfter s pre = 0

/-- A walk in which callbacks return 0 and no directory operation fails goes through if and only if
nothing spoils it. -/
theorem run_eq_none_iff (hzero : ∀ calls x, (e.callback calls x).1 = 0) (hsmooth : Smooth e s as) :
    (run e.perform s as).2 = none ↔ Unspoilt e s as := by
  constructor
  · intro h
    refine ⟨(unbarred_of_run h).stop, ?_⟩
    rintro pre post rfl
    obtain ⟨hpre, hcheck⟩ := of_run_append_cons h
    rw [← errno_run hpre]
    by_contra herrno
    have hstop : (e.perform (run e.perform s pre).1 .check).2 = some .failure := if_pos herrno
    cases hcheck.symm.trans hstop
  · intro h
    cases hrun : (run e.perform s as).2 with
    | none => rfl
    | some y =>
      -- the event that ends the walk is none of those that can
      obtain ⟨pre, x, post, hsplit, hpre, hx, -⟩ := exists_of_run_eq_some hrun
      cases x with
      | stop z => exact absurd (hsplit ▸ by simp) (h.stop z)
      | kernel f =>
        cases f with
        | none => exact absurd hpre (hsmooth.refused pre post hsplit)
        | some f =>
          rw [perform, hsmooth.fails, if_neg (by simp)] at hx
          cases hx
      | restore d =>
        rw [perform, hsmooth.restoreFails, if_neg (by simp)] at hx
        cases hx
      | clear => cases hx
      | check =>
        rw [perform, errno_run hpre, h.errno pre post hsplit] at hx
        cases hx
      | callback c =>
        rw [perform, hzero] at hx
        cases hx

theorem smooth_sampleEnv {flags : ℕ} {callback : ℤ → ℤ × ℤ}
    (h : Event.kernel none ∉ (sampleEnv flags callback).nftwScript 0 home.cwd doc.val) :
    Smooth (sampleEnv flags callback) home
      ((sampleEnv flags callback).nftwScript 0 home.cwd doc.val) where
  fails _ := rfl
  restoreFails _ := rfl
  refused pre post hsplit := absurd (by rw [hsplit]; simp) h

end Errno

end Env

end Nftw

end Tlpiexer
