import Tlpiexer.Nftw.Script

/-!
# The order of a walk

What `nftw` is for: it reports what lies below a directory, a directory before its contents, or
after them with `FTW_DEPTH`. `traversal` says this of a tree and knows nothing of paths, open
directories and failing calls. `nftw_traversal` says that the walk over a tree in which no link is
followed is this traversal, cut off where a callback asks for it or a directory lies too deep.

## The domain

No call of the kernel fails (`Calm`), all paths fit their buffers (`Fits`), and there are no links,
or `FTW_PHYS` is set. The directory may be reached through links, and there may be links elsewhere.

## Main results

* `Nftw.Env.nftw_traversal` — the callbacks are the traversal, up to the first cut
-/

namespace Tlpiexer

namespace Nftw

open CString Path FileSystem Script

namespace Env

/-! ### Traversals -/

/-- What happens in a traversal: a directory is gone into, or a file is reported. -/
inductive Item
  | enter (depth : ℕ)
  | report (loc : Loc) (call : Call)

/-- What lies below a directory on the device `dev`, in the order in which it is reported; `base`
is where the directory is and `depth` how deep it lies. -/
def traversal (mount post : Bool) (dev : ℕ) (base : Loc) (depth : ℕ) : Listing → List Item
  | .nil => []
  | .dots _ rest => traversal mount post dev base depth rest
  | .file x st rest =>
    (if mount && st.st_dev != dev then []
      else [.report (base ++ [x]) ⟨x.val, st, .d_type .file, depth⟩]) ++
      traversal mount post dev base depth rest
  | .link x st _ rest =>
    (if mount && st.st_dev != dev then []
      else [.report (base ++ [x]) ⟨x.val, st, .d_type .lnk, depth⟩]) ++
      traversal mount post dev base depth rest
  | .dir x st sub rest =>
    (if mount && st.st_dev != dev then []
      else
        (if !post then [.report (base ++ [x]) ⟨x.val, st, .st_mode, depth⟩] else []) ++
          ((.enter (depth + 1) :: traversal mount post st.st_dev (base ++ [x]) (depth + 1) sub) ++
            (if post then [.report (base ++ [x]) ⟨x.val, st, .st_mode, depth⟩] else []))) ++
      traversal mount post dev base depth rest

/-- One item after the calls made before: the walk is cut off right after a callback that returns
something else than 0, and in front of a directory that lies deeper than `nfd`. -/
def carry (answer : List Call → ℤ) (nfd : ℤ) (calls : List Call) : Item → List Call × Option Stop
  | .enter depth => (calls, if nfd < depth then some .failure else none)
  | .report _ c => (calls ++ [c], if answer (calls ++ [c]) ≠ 0 then some .failure else none)

/-! ### The domain -/

/-- No call of the kernel fails, and callbacks leave `errno` alone. -/
structure Calm (e : Env) : Prop where
  fails : ∀ i, e.fails i = false
  restoreFails : ∀ i, e.restoreFails i = false
  errno : ∀ calls x, (e.callback calls x).2 = x

/-- What a callback returns, given that `errno` is 0. -/
def answer (e : Env) (calls : List Call) : ℤ := (e.callback calls 0).1

/-- All paths fit: those put together from `dirpath`, and the canonical ones. -/
def Fits (d : Loc) (dirpath : Bytes) (es : Listing) : Prop :=
  ∀ l m, (l, m) ∈ es.nodes → (dirpath ++ slashed (l.map Subtype.val)).length < pathMax ∧
    (d ++ l).path.length < pathMax

/-- The entries `rest` of the directory `d` are read by a process at `c`. -/
structure Reads (e : Env) (c d : Loc) (dirpath : Bytes) (rest : Listing) : Prop where
  /-- The path of an entry leads to it. -/
  leads : ∀ (x : FileName) m follow, e.fs.node (d ++ [x]) = some m → (follow = true → m.NotLink) →
    e.fs.resolve e.depth follow c (e.fpath dirpath x.val) = some (d ++ [x])
  found : ∀ x m, rest.find x = some m → e.fs.node (d ++ [x]) = some m
  distinct : rest.Distinct
  links : e.phys = true ∨ rest.NoLinks
  fits : Fits d dirpath rest
  cwd : c.path.length < pathMax

section Simulation

variable {e : Env} {nfd : ℤ} {c d : Loc} {dirpath : Bytes} {level k : ℕ} {es : Listing} {st : Stat}

/-- `errno` is 0. -/
def Clean (s : Proc) : Prop := s.errno = 0

/-- The events lead to the callbacks of the items. -/
def Matches (e : Env) (nfd : ℤ) (P : Proc → Prop) (as : List Event) (items : List Item)
    (Q : Proc → Prop) : Prop :=
  Simulates e.perform (carry e.answer nfd) Proc.calls P as items Q

theorem Calm.kernel (h : e.Calm) {P : Proc → Prop} {f : Effect}
    (hP : ∀ s, P s → P (f.apply e s)) : Matches e nfd P [.kernel (some f)] [] P := by
  refine .silent fun s hs => ?_
  rw [perform, h.fails, if_neg (by simp)]
  refine ⟨rfl, ?_, hP s hs⟩
  cases f <;> rfl

theorem Calm.look (h : e.Calm) : Matches e nfd Clean [.kernel (some .look)] [] Clean :=
  h.kernel fun _ hs => hs

theorem Calm.callback (h : e.Calm) (l : Loc) (x : Call) :
    Matches e nfd Clean [.callback x] [.report l x] Clean := by
  intro s hs
  rw [run_singleton, run_singleton, perform, carry, answer, show s.errno = 0 from hs]
  refine ⟨rfl, fun _ => ?_⟩
  exact (h.errno _ _).trans hs

theorem matches_check : Matches e nfd Clean [.check] [] Clean := by
  refine .silent fun s hs => ⟨?_, rfl, hs⟩
  exact if_neg (not_not.mpr hs)

theorem Calm.restore (h : e.Calm) (d : Loc) : Matches e nfd Clean [.restore d] [] Clean := by
  refine .silent fun s hs => ?_
  rw [perform, h.restoreFails, if_neg (by simp)]
  exact ⟨rfl, rfl, hs⟩

theorem matches_whenever {P : Proc → Prop} {b : Bool} {as : List Event} {items : List Item}
    (h : Matches e nfd P as items P) :
    Matches e nfd P (if b then as else []) (if b then items else []) P := by
  cases b with
  | true => exact h
  | false => exact .nil

theorem matches_whenever_nil {P : Proc → Prop} {b : Bool} {as : List Event}
    (h : Matches e nfd P as [] P) : Matches e nfd P (if b then as else []) [] P := by
  cases b with
  | true => exact h
  | false => exact .nil

/-! ### One entry -/

theorem lstat_of_reads {rest : Listing} (h : Reads e c d dirpath rest) {x : FileName} {m : Node}
    (hx : rest.find x = some m) : e.fs.lstat e.depth c (e.fpath dirpath x.val) = some m := by
  rw [FS.lstat, h.leads x m false (h.found x m hx) (by simp), Option.bind_some, h.found x m hx]

/-- The script of an entry that is no followed link. -/
theorem entryScript_of_reads {rest : Listing} (h : Reads e c d dirpath rest) {x : FileName}
    {m : Node} (hmem : ([x], m) ∈ rest.nodes) {d_type : DType}
    (hlink : e.followed d_type = false) (script : Bytes → List Event) (dstatus : Option Stat) :
    e.entryScript script c dirpath dstatus level x.val d_type =
      e.visitScript script c dstatus level x.val d_type (e.fpath dirpath x.val) := by
  have hfit : (e.fpath dirpath x.val).length < pathMax := by
    have hlen := (h.fits [x] m hmem).1
    rw [List.map_singleton, slashed_cons, slashed_nil, List.append_nil] at hlen
    rw [fpath]
    split_ifs
    · simp only [List.length_append, List.length_cons] at hlen
      omega
    · exact hlen
  rw [entryScript_of_fits hfit, hlink, if_neg (by simp)]

/-- The directory whose entries are compared with `dstatus` is on the device `dev`. -/
def OnDevice (e : Env) (dstatus : Option Stat) (dev : ℕ) : Prop :=
  ∀ st, e.elsewhere dstatus st = (e.mount && st.st_dev != dev)

/-- A file, or a link that is not followed. -/
theorem matches_leaf (hcalm : e.Calm) {rest : Listing} (h : Reads e c d dirpath rest)
    {x : FileName} {m : Node} (hx : rest.find x = some m) (hmem : ([x], m) ∈ rest.nodes)
    (hdir : m.isDir = false) {d_type : DType} (hlink : e.followed d_type = false)
    {dstatus : Option Stat} {dev : ℕ} (hdev : OnDevice e dstatus dev)
    (script : Bytes → List Event) (l : Loc) :
    Matches e nfd Clean (e.entryScript script c dirpath dstatus level x.val d_type)
      (if e.mount && m.stat.st_dev != dev then []
        else [.report l ⟨x.val, m.stat, .d_type d_type, level⟩]) Clean := by
  rw [entryScript_of_reads h hmem hlink, visitScript, lstat_of_reads h hx]
  refine hcalm.look.cons_silent ?_
  rw [hdev, hdir]
  by_cases hother : e.mount && m.stat.st_dev != dev
  · rw [if_pos hother, if_pos hother]
    exact .nil
  · rw [if_neg hother, if_neg hother, if_neg (by simp)]
    exact hcalm.callback l _

/-- A directory, given the walk over it. -/
theorem matches_dir (hcalm : e.Calm) {rest : Listing} (h : Reads e c d dirpath rest)
    {x : FileName} {m : Node} (hx : rest.find x = some m) (hmem : ([x], m) ∈ rest.nodes)
    (hdir : m.isDir = true) {dstatus : Option Stat} {dev : ℕ} (hdev : OnDevice e dstatus dev)
    {script : Bytes → List Event} {items : List Item}
    (hwalk : Matches e nfd Clean (script (e.fpath dirpath x.val)) items Clean) (l : Loc) :
    Matches e nfd Clean (e.entryScript script c dirpath dstatus level x.val .dir)
      (if e.mount && m.stat.st_dev != dev then []
        else (if !e.post then [.report l ⟨x.val, m.stat, .st_mode, level⟩] else []) ++
          (items ++ (if e.post then [.report l ⟨x.val, m.stat, .st_mode, level⟩] else [])))
      Clean := by
  rw [entryScript_of_reads h hmem rfl, visitScript, lstat_of_reads h hx]
  refine hcalm.look.cons_silent ?_
  rw [hdev, hdir]
  by_cases hother : e.mount && m.stat.st_dev != dev
  · rw [if_pos hother, if_pos hother]
    exact .nil
  · rw [if_neg hother, if_neg hother, if_pos rfl]
    exact (matches_whenever (hcalm.callback l _)).append
      (hwalk.append (matches_whenever (hcalm.callback l _)))

/-! ### A whole directory -/

/-- **The walk over a directory**, given the loop over its entries. -/
theorem matches_walk (hcalm : e.Calm) (hbudget : (nfd + 1 - level).toNat = k)
    (hleads : e.fs.resolve e.depth true c dirpath = some d)
    (hnode : e.fs.node d = some (.dir st es)) (hcwd : c.path.length < pathMax)
    {items : List Item} (hentries : ∀ k' dstatus, k = k' + 1 → OnDevice e dstatus st.st_dev →
      Matches e nfd Clean (e.entriesScript (e.walkScript k' (level + 1) (e.inside c d))
        (e.inside c d) dirpath dstatus level es.dirents) items Clean) :
    Matches e nfd (fun _ => True) (e.walkScript k level c dirpath) (.enter level :: items)
      Clean := by
  cases k with
  | zero =>
    -- the directory lies too deep: both sides stop here
    intro s _
    have hdeep : nfd < level := by omega
    rw [walkScript, run_singleton, perform, run_cons_of_some (by rw [carry, if_pos hdeep])]
    rw [carry, if_pos hdeep]
    exact ⟨rfl, fun h => by cases h⟩
  | succ k =>
    have hshallow : ¬ nfd < level := by omega
    have henter : ∀ P : Proc → Prop, Matches e nfd P [] [.enter level] P := fun P =>
      .skip fun t => by rw [carry, if_neg hshallow]
    have hlisting : e.fs.listing d = some es := FS.listing_eq_some.mpr ⟨st, hnode⟩
    have hdev : OnDevice e (if e.mount then some st else none) st.st_dev := by
      intro st'
      rw [elsewhere]
      cases e.mount <;> rfl
    have hlook : ∀ f : Effect, Matches e nfd (fun _ => True) [.kernel (some f)] [] fun _ => True :=
      fun _ => hcalm.kernel fun _ h => h
    have hclear : Matches e nfd (fun _ => True) [.clear] [] Clean :=
      .silent fun s _ => ⟨rfl, rfl, rfl⟩
    have hclose : Matches e nfd Clean [.kernel (some .close)] [] Clean :=
      hcalm.kernel fun _ hs => hs
    rw [walkScript_succ hleads hnode]
    refine Simulates.append (henter _) ((matches_whenever_nil (hlook _)).append_silent ?_)
    rw [bodyScript, directory_eq_some.mpr ⟨hleads, hlisting⟩, sized, if_pos hcwd]
    have htail : Matches e nfd Clean
        (.check :: .kernel (some .close) :: (if e.chdir then [.restore c] else [])) [] Clean :=
      matches_check.cons_silent (hclose.cons_silent (matches_whenever_nil (hcalm.restore c)))
    have hall := (hentries k _ rfl hdev).append htail
    rw [List.append_nil] at hall
    exact (hlook _).cons_silent ((hlook _).cons_silent
      ((matches_whenever_nil (hlook _)).append_silent (hclear.cons_silent hall)))

/-! ### Reading entry by entry -/

/-- What is left of a directory after an entry, `rest`, is read like the whole. -/
theorem Reads.of_rest {rest rest' : Listing} (h : Reads e c d dirpath rest)
    (hfind : ∀ x m, rest'.find x = some m → rest.find x = some m) (hdistinct : rest'.Distinct)
    (hlinks : rest.NoLinks → rest'.NoLinks) (hnodes : ∀ p ∈ rest'.nodes, p ∈ rest.nodes) :
    Reads e c d dirpath rest' where
  leads := h.leads
  found x m hx := h.found x m (hfind x m hx)
  distinct := hdistinct
  links := h.links.imp_right hlinks
  fits l m hl := h.fits l m (hnodes _ hl)
  cwd := h.cwd

/-- The first entry does not hide the others. -/
theorem find_of_rest {rest : Listing} {y : FileName} {m' : Node} (hy : y ∉ rest.names)
    (x : FileName) (m : Node) (hx : rest.find x = some m) :
    (if y = x then some m' else rest.find x) = some m := by
  have hmem : x ∈ rest.names := (Listing.find_isSome_iff rest).mp (by rw [hx]; rfl)
  have hne : y ≠ x := fun heq => hy (heq ▸ hmem)
  rw [if_neg hne, hx]

/-- A directory that is gone into is read like the one it is in. -/
theorem reads_of_leads (hleads : e.fs.resolve e.depth true c dirpath = some d)
    (hnode : e.fs.node d = some (.dir st es)) (hdistinct : es.Distinct)
    (hlinks : e.phys = true ∨ es.NoLinks) (hfits : Fits d dirpath es)
    (hcwd : (e.inside c d).path.length < pathMax) : Reads e (e.inside c d) d dirpath es where
  leads x m follow hx hm := by
    have hlisting : e.fs.listing d = some es := FS.listing_eq_some.mpr ⟨st, hnode⟩
    rw [FS.node_concat hlisting] at hx
    rw [resolve_fpath hleads, FS.resolve_find (FS.ne_nil_of_resolve hleads).2 hlisting hx hm]
  found x m hx := by
    rw [FS.node_concat (FS.listing_eq_some.mpr ⟨st, hnode⟩), hx]
  distinct := hdistinct
  links := hlinks
  fits := hfits
  cwd := hcwd

/-- Paths below an entry that is a directory fit too. -/
theorem Fits.of_dir {x : FileName} {sub rest : Listing}
    (h : Fits d dirpath (.dir x st sub rest)) : Fits (d ++ [x]) (e.fpath dirpath x.val) sub := by
  intro l m hl
  have hmem : (x :: l, m) ∈ (Listing.dir x st sub rest).nodes := by
    refine List.mem_append_left _ (List.mem_cons_of_mem _ ?_)
    exact List.mem_map.mpr ⟨(l, m), hl, rfl⟩
  obtain ⟨htext, hpath⟩ := h _ _ hmem
  rw [List.map_cons, slashed_cons] at htext
  refine ⟨?_, by simpa using hpath⟩
  rw [fpath]
  split_ifs
  · simp only [List.length_append, List.length_cons] at htext ⊢
    omega
  · simpa using htext

/-- **The loop over the entries** reports them in order, with what lies below them. -/
theorem matches_entries (hcalm : e.Calm) {rest : Listing} :
    ∀ {k level : ℕ} {c d : Loc} {dirpath : Bytes} {dstatus : Option Stat} {dev : ℕ} {base : Loc},
      nfd = level + k → OnDevice e dstatus dev → Reads e c d dirpath rest →
      Matches e nfd Clean
        (e.entriesScript (e.walkScript k (level + 1) c) c dirpath dstatus level rest.dirents)
        (traversal e.mount e.post dev base level rest) Clean := by
  induction rest with
  | nil => exact fun _ _ _ => hcalm.look
  | dots up rest ih =>
    intro k level c d dirpath dstatus dev base hbudget hdev h
    have hdots : e.entryScript (e.walkScript k (level + 1) c) c dirpath dstatus level
        (if up then dotdot else dot) .dir = [] := by
      rw [entryScript, if_pos]
      cases up <;> simp
    rw [Listing.dirents, entriesScript, hdots]
    exact hcalm.look.cons_silent (ih hbudget hdev
      (h.of_rest (fun _ _ h => h) h.distinct (fun h => h) fun _ h => h))
  | file x st rest ih =>
    intro k level c d dirpath dstatus dev base hbudget hdev h
    have hx : (Listing.file x st rest).find x = some (.file st) := if_pos rfl
    have hentry : Matches e nfd Clean
        (e.entryScript (e.walkScript k (level + 1) c) c dirpath dstatus level x.val .file)
        (if e.mount && st.st_dev != dev then []
          else [.report (base ++ [x]) ⟨x.val, st, .d_type .file, level⟩]) Clean :=
      matches_leaf hcalm h hx (List.mem_cons_self ..) rfl rfl hdev _ _
    exact hcalm.look.cons_silent (hentry.append (ih hbudget hdev
      (h.of_rest (find_of_rest h.distinct.1) h.distinct.2 (fun h => h)
        fun _ h => List.mem_cons_of_mem _ h)))
  | link x st target rest ih =>
    intro k level c d dirpath dstatus dev base hbudget hdev h
    have hx : (Listing.link x st target rest).find x = some (.link st target) := if_pos rfl
    have hphys : e.phys = true := h.links.resolve_right fun h => h
    have hentry : Matches e nfd Clean
        (e.entryScript (e.walkScript k (level + 1) c) c dirpath dstatus level x.val .lnk)
        (if e.mount && st.st_dev != dev then []
          else [.report (base ++ [x]) ⟨x.val, st, .d_type .lnk, level⟩]) Clean :=
      matches_leaf hcalm h hx (List.mem_cons_self ..) rfl (by rw [followed, hphys]; rfl) hdev _ _
    exact hcalm.look.cons_silent (hentry.append (ih hbudget hdev
      (h.of_rest (find_of_rest h.distinct.1) h.distinct.2 False.elim
        fun _ h => List.mem_cons_of_mem _ h)))
  | dir x st sub rest ihsub ih =>
    intro k level c d dirpath dstatus dev base hbudget hdev h
    have hx : (Listing.dir x st sub rest).find x = some (.dir st sub) := if_pos rfl
    have hmem : ([x], Node.dir st sub) ∈ (Listing.dir x st sub rest).nodes :=
      List.mem_append_left _ (List.mem_cons_self ..)
    have hnode := h.found x _ hx
    have hleads := h.leads x _ true hnode fun _ _ _ h => by cases h
    have hinside : (e.inside c (d ++ [x])).path.length < pathMax := by
      rw [inside]
      split_ifs
      · exact (h.fits _ _ hmem).2
      · exact h.cwd
    have hwalk : Matches e nfd Clean (e.walkScript k (level + 1) c (e.fpath dirpath x.val))
        (.enter (level + 1) ::
          traversal e.mount e.post st.st_dev (base ++ [x]) (level + 1) sub) Clean := by
      refine (matches_walk hcalm (by push_cast; omega) hleads hnode h.cwd
        fun k' dstatus' hk hdev' => ?_).of_imp fun _ _ => trivial
      exact ihsub (by push_cast; omega) hdev' (reads_of_leads hleads hnode h.distinct.2.1
        (h.links.imp_right And.left) h.fits.of_dir hinside)
    exact hcalm.look.cons_silent ((matches_dir hcalm h hx hmem rfl hdev hwalk (base ++ [x])).append
      (ih hbudget hdev (h.of_rest (find_of_rest h.distinct.1) h.distinct.2.2 And.right
        fun _ h => List.mem_append_right _ h)))

end Simulation

/-! ### What a traversal reports -/

/-- The locations that are reported. -/
def reported (items : List Item) : List Loc :=
  items.filterMap fun
    | .report l _ => some l
    | .enter _ => none

@[simp] theorem reported_nil : reported [] = [] := rfl

@[simp] theorem reported_append (items items' : List Item) :
    reported (items ++ items') = reported items ++ reported items' := List.filterMap_append

@[simp] theorem reported_report (l : Loc) (c : Call) (items : List Item) :
    reported (.report l c :: items) = l :: reported items := rfl

@[simp] theorem reported_enter (depth : ℕ) (items : List Item) :
    reported (.enter depth :: items) = reported items := rfl

/-- A file below a directory on the device `dev`: with `mount`, neither it nor a directory on the
way to it is on another device. -/
def Visible (mount : Bool) : ℕ → Listing → Loc → Prop
  | _, _, [] => False
  | dev, es, x :: l => ∃ m, es.find x = some m ∧ (mount = true → m.stat.st_dev = dev) ∧
      (l = [] ∨ ∃ st sub, m = .dir st sub ∧ Visible mount st.st_dev sub l)

section Reported

variable {mount post : Bool} {dev depth : ℕ} {base : Loc} {es : Listing}

/-- What a directory contributes, up to the order. -/
theorem reported_dir {x : FileName} {st : Stat} {sub rest : Listing} :
    (reported (traversal mount post dev base depth (.dir x st sub rest))).Perm
      ((if mount && st.st_dev != dev then [] else (base ++ [x]) ::
        reported (traversal mount post st.st_dev (base ++ [x]) (depth + 1) sub)) ++
        reported (traversal mount post dev base depth rest)) := by
  rw [traversal, reported_append]
  refine List.Perm.append_right _ ?_
  by_cases hother : mount && st.st_dev != dev
  · rw [if_pos hother, if_pos hother]
    exact .refl _
  · rw [if_neg hother, if_neg hother]
    cases post with
    | false => simp
    | true => simp

/-- What is visible through an entry `y` in front of `rest`. -/
theorem visible_iff {y : FileName} (m : Node) {rest : Listing} (hy : y ∉ rest.names)
    (hfind : ∀ x, es.find x = if y = x then some m else rest.find x) (l : Loc) :
    Visible mount dev es l ↔
      (∃ r, l = y :: r ∧ (mount = true → m.stat.st_dev = dev) ∧
        (r = [] ∨ ∃ st sub, m = .dir st sub ∧ Visible mount st.st_dev sub r)) ∨
      Visible mount dev rest l := by
  cases l with
  | nil => simp [Visible]
  | cons x r =>
    by_cases hyx : y = x
    · subst hyx
      have hnone : rest.find y = none := by
        rw [← Option.not_isSome_iff_eq_none, Listing.find_isSome_iff]
        exact hy
      simp [Visible, hfind, hnone]
    · simp [Visible, hfind, hyx, Ne.symm hyx]

theorem head_mem_names {l : Loc} (h : Visible mount dev es l) :
    ∃ x r, l = x :: r ∧ x ∈ es.names := by
  cases l with
  | nil => exact h.elim
  | cons x r =>
    obtain ⟨m, hm, -⟩ := h
    exact ⟨x, r, rfl, (Listing.find_isSome_iff es).mp (by rw [hm]; rfl)⟩

/-- The entry is on the device. -/
theorem not_other_iff {st : Stat} :
    ¬ (mount && st.st_dev != dev) = true ↔ (mount = true → st.st_dev = dev) := by
  cases mount <;> simp

/-- What an entry with nothing below it contributes. -/
theorem mem_reported_leaf {y : FileName} (m : Node) {rest : Listing} {c : Call} {l : Loc}
    (hy : y ∉ rest.names) (hfind : ∀ x, es.find x = if y = x then some m else rest.find x)
    (hm : m.isDir = false)
    (ih : l ∈ reported (traversal mount post dev base depth rest) ↔
      ∃ r, l = base ++ r ∧ Visible mount dev rest r) :
    l ∈ reported ((if mount && m.stat.st_dev != dev then [] else [.report (base ++ [y]) c]) ++
        traversal mount post dev base depth rest) ↔
      ∃ r, l = base ++ r ∧ Visible mount dev es r := by
  have hnot : ∀ st sub, m ≠ .dir st sub := fun st sub h => by rw [h] at hm; cases hm
  simp only [visible_iff m hy hfind, reported_append, List.mem_append, ih, and_or_left, exists_or]
  refine or_congr_left ?_
  by_cases hother : mount && m.stat.st_dev != dev
  · rw [if_pos hother]
    have hdev := mt not_other_iff.mpr (not_not.mpr hother)
    simp [hdev]
  · rw [if_neg hother]
    have hdev := iff_true_intro (not_other_iff.mp hother)
    simp [hdev, hnot]

/-- **Exactly what is visible is reported.** -/
theorem mem_reported_iff (hdistinct : es.Distinct) (l : Loc) :
    l ∈ reported (traversal mount post dev base depth es) ↔
      ∃ r, l = base ++ r ∧ Visible mount dev es r := by
  induction es generalizing dev base depth with
  | nil =>
    refine iff_of_false (by simp [traversal]) ?_
    rintro ⟨r, -, hr⟩
    obtain ⟨x, _, -, hx⟩ := head_mem_names hr
    cases hx
  | dots up rest ih =>
    have hvisible : ∀ r, Visible mount dev (.dots up rest) r ↔ Visible mount dev rest r := by
      intro r
      cases r <;> rfl
    simp only [hvisible]
    exact ih hdistinct
  | file y st rest ih =>
    exact mem_reported_leaf (.file st) hdistinct.1 (fun _ => rfl) rfl (ih hdistinct.2)
  | link y st target rest ih =>
    exact mem_reported_leaf (.link st target) hdistinct.1 (fun _ => rfl) rfl (ih hdistinct.2)
  | dir y st sub rest ihsub ih =>
    have hfind : ∀ x, (Listing.dir y st sub rest).find x =
        if y = x then some (.dir st sub) else rest.find x := fun _ => rfl
    rw [reported_dir.mem_iff, List.mem_append, ih hdistinct.2.2]
    simp only [visible_iff _ hdistinct.1 hfind, and_or_left, exists_or]
    refine or_congr_left ?_
    by_cases hother : mount && st.st_dev != dev
    · have hdev := mt not_other_iff.mpr (not_not.mpr hother)
      rw [if_pos hother]
      simp [Node.stat, hdev]
    · have hdev := not_other_iff.mp hother
      rw [if_neg hother, List.mem_cons, ihsub hdistinct.2.1]
      constructor
      · rintro (rfl | ⟨r, rfl, hr⟩)
        · exact .inl ⟨[y], rfl, [], rfl, hdev, rfl⟩
        · exact .inr ⟨y :: r, by simp, r, rfl, hdev, st, sub, rfl, hr⟩
      · rintro (⟨-, rfl, -, rfl, -, rfl⟩ | ⟨-, rfl, r, rfl, -, st', sub', heq, hr⟩)
        · exact .inl rfl
        · cases heq
          exact .inr ⟨r, by simp, hr⟩

/-- An entry is not reported with the others. -/
theorem notMem_reported_rest {y : FileName} {rest : Listing} (hdistinct : rest.Distinct)
    (hy : y ∉ rest.names) (r : Loc) :
    base ++ y :: r ∉ reported (traversal mount post dev base depth rest) := by
  rw [mem_reported_iff hdistinct]
  rintro ⟨r', heq, hr'⟩
  obtain ⟨x, r'', rfl, hx⟩ := head_mem_names hr'
  obtain ⟨rfl, -⟩ := List.cons.inj (List.append_cancel_left heq)
  exact hy hx

theorem nodup_reported_leaf {y : FileName} {rest : Listing} {c : Call} {other : Bool}
    (hrest : rest.Distinct) (hy : y ∉ rest.names)
    (ih : (reported (traversal mount post dev base depth rest)).Nodup) :
    (reported ((if other then [] else [.report (base ++ [y]) c]) ++
      traversal mount post dev base depth rest)).Nodup := by
  rw [reported_append]
  cases other with
  | true => exact ih
  | false => exact List.nodup_cons.mpr ⟨notMem_reported_rest hrest hy [], ih⟩

/-- **Nothing is reported twice.** -/
theorem nodup_reported (hdistinct : es.Distinct) :
    (reported (traversal mount post dev base depth es)).Nodup := by
  induction es generalizing dev base depth with
  | nil => exact List.nodup_nil
  | dots up rest ih => exact ih hdistinct
  | file y st rest ih => exact nodup_reported_leaf hdistinct.2 hdistinct.1 (ih hdistinct.2)
  | link y st target rest ih => exact nodup_reported_leaf hdistinct.2 hdistinct.1 (ih hdistinct.2)
  | dir y st sub rest ihsub ih =>
    obtain ⟨hy, hsub, hrest⟩ := hdistinct
    rw [reported_dir.nodup_iff]
    split_ifs
    · exact ih hrest
    · refine List.nodup_append.mpr ⟨List.nodup_cons.mpr ⟨?_, ihsub hsub⟩, ih hrest, ?_⟩
      · -- what lies below the directory has a longer location
        rw [mem_reported_iff hsub]
        rintro ⟨r, heq, hr⟩
        obtain rfl : r = [] := by simpa using heq
        exact hr
      · rintro l hl l' hl' rfl
        obtain ⟨r, rfl⟩ : ∃ r, l = base ++ y :: r := by
          rcases List.mem_cons.mp hl with rfl | hl
          · exact ⟨[], rfl⟩
          · obtain ⟨r, rfl, -⟩ := (mem_reported_iff hsub l).mp hl
            exact ⟨r, by simp⟩
        exact notMem_reported_rest hrest hy r hl'

/-- A report says how deep the file lies, what it is called and what its status is. -/
def Tells (base : Loc) (depth : ℕ) (es : Listing) (l : Loc) (c : Call) : Prop :=
  ∃ r x m, l = base ++ r ++ [x] ∧ (∀ st, (Node.dir st es).get (r ++ [x]) = some m) ∧
    c.fpath = x.val ∧ c.status = m.stat ∧ c.level = depth + r.length

theorem get_of_rest {y : FileName} {m m' : Node} {rest : Listing} {st : Stat} {l : Loc}
    (hy : y ∉ rest.names) (hfind : ∀ x, es.find x = if y = x then some m else rest.find x)
    (hl : l ≠ []) (h : (Node.dir st rest).get l = some m') :
    (Node.dir st es).get l = some m' := by
  cases l with
  | nil => exact absurd rfl hl
  | cons z l =>
    obtain ⟨p, hp, hget⟩ := Option.bind_eq_some_iff.mp h
    rw [Node.get, hfind, find_of_rest hy z p hp]
    exact hget

theorem Tells.of_rest {y : FileName} {m : Node} {rest : Listing} {l : Loc} {c : Call}
    (hy : y ∉ rest.names) (hfind : ∀ x, es.find x = if y = x then some m else rest.find x)
    (h : Tells base depth rest l c) : Tells base depth es l c := by
  obtain ⟨r, x, m', hl, hget, hc⟩ := h
  exact ⟨r, x, m', hl, fun st => get_of_rest hy hfind (by simp) (hget st), hc⟩

/-- The report of an entry itself. -/
theorem tells_entry {y : FileName} {m : Node} (hy : es.find y = some m) (type : TypeArg) :
    Tells base depth es (base ++ [y]) ⟨y.val, m.stat, type, depth⟩ := by
  refine ⟨[], y, m, by simp, fun st => ?_, rfl, rfl, rfl⟩
  rw [List.nil_append, Node.get, hy, Option.bind_some]
  cases m <;> rfl

/-- A report from below an entry that is a directory. -/
theorem Tells.of_sub {y : FileName} {st : Stat} {sub : Listing} {l : Loc} {c : Call}
    (hy : es.find y = some (.dir st sub)) (h : Tells (base ++ [y]) (depth + 1) sub l c) :
    Tells base depth es l c := by
  obtain ⟨r, x, m, rfl, hget, hname, hstat, hlevel⟩ := h
  refine ⟨y :: r, x, m, by simp, fun st' => ?_, hname, hstat, ?_⟩
  · rw [List.cons_append, Node.get, hy, Option.bind_some, hget st]
  · rw [hlevel, List.length_cons]
    omega

theorem tells_of_mem_leaf {y : FileName} {m : Node} {type : TypeArg} {other : Bool} {l : Loc}
    {c : Call} (hy : es.find y = some m)
    (h : Item.report l c ∈
      if other then [] else [Item.report (base ++ [y]) ⟨y.val, m.stat, type, depth⟩]) :
    Tells base depth es l c := by
  cases other with
  | true => cases h
  | false =>
    cases List.mem_singleton.mp h
    exact tells_entry hy _

/-- **Every report is right.** -/
theorem tells_of_mem (hdistinct : es.Distinct) {l : Loc} {c : Call}
    (h : Item.report l c ∈ traversal mount post dev base depth es) : Tells base depth es l c := by
  induction es generalizing dev base depth with
  | nil => cases h
  | dots up rest ih =>
    obtain ⟨r, x, m, hl, hget, hc⟩ := ih hdistinct h
    refine ⟨r, x, m, hl, fun st => ?_, hc⟩
    rw [← hget st]
    cases r <;> rfl
  | file y st rest ih =>
    have hy : (Listing.file y st rest).find y = some (.file st) := if_pos rfl
    rcases List.mem_append.mp h with h | h
    · exact tells_of_mem_leaf hy h
    · exact (ih hdistinct.2 h).of_rest hdistinct.1 fun _ => rfl
  | link y st target rest ih =>
    have hy : (Listing.link y st target rest).find y = some (.link st target) := if_pos rfl
    rcases List.mem_append.mp h with h | h
    · exact tells_of_mem_leaf hy h
    · exact (ih hdistinct.2 h).of_rest hdistinct.1 fun _ => rfl
  | dir y st sub rest ihsub ih =>
    have hy : (Listing.dir y st sub rest).find y = some (.dir st sub) := if_pos rfl
    -- the directory itself, before or after its contents
    have hself : ∀ {b : Bool}, Item.report l c ∈
        (if b then [Item.report (base ++ [y]) ⟨y.val, st, .st_mode, depth⟩] else []) →
        Tells base depth (.dir y st sub rest) l c := by
      intro b h
      cases b with
      | false => cases h
      | true =>
        cases List.mem_singleton.mp h
        exact tells_entry hy _
    rcases List.mem_append.mp h with h | h
    · by_cases hother : mount && st.st_dev != dev
      · rw [if_pos hother] at h
        cases h
      · rw [if_neg hother] at h
        rcases List.mem_append.mp h with h | h
        · exact hself h
        rcases List.mem_append.mp h with h | h
        · rcases List.mem_cons.mp h with h | h
          · cases h
          · exact (ihsub hdistinct.2.1 h).of_sub hy
        · exact hself h
    · exact (ih hdistinct.2.2 h).of_rest hdistinct.1 fun _ => rfl

end Reported

/-! ### The walk -/

section Walk

variable {e : Env} {nfd : ℤ} {fuel : ℕ} {s : Proc} {d : Loc} {dirpath : Bytes} {es₀ es : Listing}
  {st : Stat}

/-- Everything below the directory, in the order in which it is reported; locations are relative to
the directory. -/
def wholeTraversal (e : Env) (st : Stat) (es : Listing) : List Item :=
  .enter 0 :: traversal e.mount e.post st.st_dev [] 0 es

theorem eq_failure_of_carry {answer : List Call → ℤ} {calls : List Call} {items : List Item}
    {x : Stop} (h : (run (carry answer nfd) calls items).2 = some x) : x = .failure := by
  obtain ⟨pre, item, post, -, -, hstop, -⟩ := exists_of_run_eq_some h
  cases item with
  | enter depth =>
    rw [carry] at hstop
    split_ifs at hstop
    exact (Option.some.inj hstop).symm
  | report l c =>
    rw [carry] at hstop
    split_ifs at hstop
    exact (Option.some.inj hstop).symm

/-- **The callbacks of a walk** are the traversal of what lies below the directory, up to the first
cut, and `nftw` returns 0 if and only if there is none. The traversal reports exactly what lies
below the directory, or with `FTW_MOUNT` what lies there on the same device, each file once and at
its level. -/
theorem nftw_traversal (hcalm : e.Calm) (hfuel : (nfd + 1).toNat < fuel)
    (hcwd : e.fs.listing s.cwd = some es₀)
    (hleads : e.fs.resolve e.depth true s.cwd dirpath = some d)
    (hnode : e.fs.node d = some (.dir st es)) (hlinks : e.phys = true ∨ es.NoLinks)
    (hfits : Fits d dirpath es) (hd : d.path.length < pathMax)
    (hhome : s.cwd.path.length < pathMax) :
    (∃ t, t.calls = (run (carry e.answer nfd) s.calls (e.wholeTraversal st es)).1 ∧
      e.nftw fuel dirpath nfd s =
        if (run (carry e.answer nfd) s.calls (e.wholeTraversal st es)).2 = none then .value () t
        else .stop .failure t) ∧
    (reported (e.wholeTraversal st es)).Nodup ∧
    (∀ l, l ∈ reported (e.wholeTraversal st es) ↔ Visible e.mount st.st_dev es l) ∧
    (∀ l c, Item.report l c ∈ e.wholeTraversal st es → Tells [] 0 es l c) := by
  have hdistinct := FS.distinct_of_node hnode
  refine ⟨?_, nodup_reported hdistinct, fun l => ?_, fun l c h => ?_⟩
  · have hinside : (e.inside s.cwd d).path.length < pathMax := by
      rw [inside]
      split_ifs
      · exact hd
      · exact hhome
    have hmatches : Matches e nfd (fun _ => True) (e.nftwScript nfd s.cwd dirpath)
        (e.wholeTraversal st es) Clean := by
      refine matches_walk hcalm (by simp) hleads hnode hhome fun k dstatus hk hdev => ?_
      exact matches_entries hcalm (by push_cast; omega) hdev
        (reads_of_leads hleads hnode hdistinct hlinks hfits hinside)
    obtain ⟨hrun, -⟩ := hmatches s trivial
    refine ⟨_, (congrArg Prod.fst hrun).symm, ?_⟩
    rw [(nftw_eq hfuel hcwd dirpath).1, hrun, ofRun]
    cases hstop : (run e.perform s (e.nftwScript nfd s.cwd dirpath)).2 with
    | none => rfl
    | some x =>
      obtain rfl : x = .failure := eq_failure_of_carry (by rw [hrun, hstop])
      rfl
  · rw [wholeTraversal, reported_enter, mem_reported_iff hdistinct]
    simp
  · rcases List.mem_cons.mp h with h | h
    · cases h
    · exact tells_of_mem hdistinct h

/-- A walk over the whole of `sampleFS`, with `FTW_DEPTH`: the directory `doc` is reported after its
entries, and its link is not followed. -/
theorem nftw_traversal_sampleEnv : ∃ t,
    t.calls = [⟨src.val, ⟨1, 4⟩, .d_type .file, 1⟩, ⟨log.val, ⟨1, 5⟩, .d_type .lnk, 1⟩,
      ⟨doc.val, ⟨1, 3⟩, .st_mode, 0⟩] ∧
    (sampleEnv (ftwPhys + ftwDepth) fun errno => (0, errno)).nftw 3 [slash] 1 home =
      .value () t := by
  have hcalm : (sampleEnv (ftwPhys + ftwDepth) fun errno => (0, errno)).Calm :=
    ⟨fun _ => rfl, fun _ => rfl, fun _ _ => rfl⟩
  have hcwd : sampleFS.listing home.cwd = some sampleFS.entries := rfl
  have hnodes : ∀ p ∈ sampleFS.entries.nodes,
      ([slash] ++ slashed (p.1.map Subtype.val)).length < pathMax ∧
        (Loc.path ([] ++ p.1)).length < pathMax := by decide
  have hleads : sampleFS.resolve 2 true home.cwd [slash] = some [] := by decide
  have hnode : sampleFS.node [] = some (.dir ⟨1, 2⟩ sampleFS.entries) := by decide
  obtain ⟨⟨t, hcalls, hnftw⟩, -⟩ := nftw_traversal hcalm (show (1 + 1 : ℤ).toNat < 3 by decide) hcwd
    hleads hnode (.inl (by decide)) (fun l m h => hnodes (l, m) h) (by decide) (by decide)
  exact ⟨t, hcalls.trans (by decide), hnftw.trans (if_pos (by decide))⟩

end Walk

end Env

end Nftw

end Tlpiexer
