import Mathlib.Data.List.DropRight
import Tlpiexer.Constants
import Tlpiexer.Foundations.Chain
import Tlpiexer.Foundations.FileSystem
import Tlpiexer.RealPath.SolveDot

/-!
# Canonical paths

`realpath_x` makes the path absolute, follows the link at its end as long as there is one, and
removes the dots from what is left.

## The loop over the links

Each round replaces the path by the target of the link, or by the target behind the directory of the
link. What the path looks like does not matter for where it goes on: `resolve_follow` says that the
new path leads where the target does, seen from the directory the link is in. The loop is therefore
a chain of locations (`FS.leads`), and it ends unless that chain comes to a cycle.

## The result

Links in front of the last component are never looked at, and the dots are removed as if there were
none. `realpath_x_canonical` is about the paths where there are none.

Paths are built in arrays of `PATH_MAX` bytes; a path that does not fit is an outcome of its own.
-/

namespace Tlpiexer

namespace RealPath

open CString Path FileSystem Relation

/-- `dirname`: without the last component and the slashes around it. -/
def dirname (path : Bytes) : Bytes :=
  let stripped := path.rdropWhile (· = slash)
  if stripped = [] ∧ path ≠ [] then (if path.length = 2 then [slash, slash] else [slash])
  else
    let upToSlash := stripped.rdropWhile (· ≠ slash)
    if upToSlash = [] then dot
    else
      let dir := upToSlash.rdropWhile (· = slash)
      if dir = [] then (if upToSlash.length = 2 then [slash, slash] else [slash]) else dir

/-- How the loop over the links ends. -/
inductive Stop
  | null
  | broke (fpath : Bytes)
  | overflow
  deriving DecidableEq, Repr

/-- What `realpath_x` comes to; `overrun` is a `solve_dot` that leaves its array. -/
inductive Result
  | null
  | path (resolved_path : Bytes)
  | overflow
  | overrun
  deriving DecidableEq, Repr

section Program

variable (fs : FS) (n : ℕ) (cwd : Loc)

/-- The path after a round that has read the link `lpath`. -/
def retarget (fpath lpath : Bytes) : Bytes :=
  if lpath.head? = some slash then lpath else dirname fpath ++ slash :: lpath

/-- The loop over the links; `none` when it needs more than the given number of rounds. -/
def loop : ℕ → Bytes → Option Stop
  | 0, _ => none
  | k + 1, fpath =>
    if pathMax ≤ fpath.length then some .overflow
    else
      match fs.lstat n cwd fpath with
      | none => some .null
      | some (.link _ _) =>
        match fs.readlink n cwd fpath with
        | none => some .null
        | some lpath => loop k (retarget fpath lpath)
      | some _ => some (.broke fpath)

/-- The absolute path the loop starts with. -/
def absolutePath (path : Bytes) : Bytes :=
  if path.head? = some slash then path else cwd.path ++ slash :: path

/-- Everything up to the end of the loop. -/
def runLoop (k : ℕ) (path : Bytes) : Option Stop :=
  if path.head? ≠ some slash ∧ pathMax ≤ cwd.path.length then some .null
  else loop fs n cwd k (absolutePath cwd path)

/-- What follows the loop. -/
def finish : Stop → Result
  | .null => .null
  | .overflow => .overflow
  | .broke fpath =>
    match SolveDot.solveDot fpath with
    | none => .overrun
    | some none => .null
    | some (some r) => .path r

/-- `realpath_x(path, resolved_path)`. -/
def realpathX (k : ℕ) (path : Bytes) : Option Result := (runLoop fs n cwd k path).map finish

/-- The path after one more link, if there is one at the end of `fpath`. -/
def follow (fpath : Bytes) : Option Bytes :=
  match fs.lstat n cwd fpath with
  | some (.link _ target) => some (retarget fpath target.val)
  | _ => none

end Program

/-! ### Where the loop goes -/

section Follow

variable {fs : FS} {n : ℕ} {cwd : Loc}

theorem loop_succ (k : ℕ) (fpath : Bytes) : loop fs n cwd (k + 1) fpath =
    if pathMax ≤ fpath.length then some .overflow
    else
      match follow fs n cwd fpath with
      | some fpath' => loop fs n cwd k fpath'
      | none => some (if fs.lstat n cwd fpath = none then .null else .broke fpath) := by
  rw [loop, follow]
  cases hl : fs.lstat n cwd fpath with
  | none => simp
  | some m =>
    cases m with
    | file => simp
    | dir => simp
    | link st target => simp [FS.readlink, hl]

/-- The directory part of a path with a name at its end. -/
theorem dirname_append (D : Bytes) {c : Bytes} (hc : c ≠ []) (hfree : slash ∉ c) :
    dirname (D ++ slash :: c) =
      if D.rdropWhile (· = slash) = [] then (if D.length = 1 then [slash, slash] else [slash])
      else D.rdropWhile (· = slash) := by
  have hname : (D ++ slash :: c).rdropWhile (· = slash) = D ++ slash :: c := by
    rw [List.rdropWhile_eq_self_iff]
    intro hne
    have hlast : (D ++ slash :: c).getLast hne = c.getLast hc := by
      rw [List.getLast_append_of_right_ne_nil _ _ (by simp), List.getLast_cons hc]
    have hmem := List.getLast_mem hc
    rw [hlast]
    simp only [decide_eq_true_eq]
    exact fun heq => hfree (heq ▸ hmem)
  have hdrop : ∀ c : Bytes, slash ∉ c →
      (D ++ slash :: c).rdropWhile (· ≠ slash) = D ++ [slash] := by
    intro c
    induction c using List.reverseRecOn with
    | nil => simp
    | append_singleton c b ih =>
      intro hfree
      simp only [List.mem_append, List.mem_singleton, not_or] at hfree
      have hcons : D ++ slash :: (c ++ [b]) = (D ++ slash :: c) ++ [b] := by simp
      rw [hcons, List.rdropWhile_concat_pos _ _ _ (by simpa using Ne.symm hfree.2), ih hfree.1]
  have hdir : (D ++ [slash]).rdropWhile (· = slash) = D.rdropWhile (· = slash) :=
    List.rdropWhile_concat_pos _ _ _ (by simp)
  simp only [dirname, hname, hdrop c hfree, hdir]
  simp

/-- Slashes at the end of the path of a directory do not matter. -/
theorem walk_rdropWhile {jump : Loc → Bytes → Option Loc} {d l : Loc} {D : Bytes}
    (h : fs.walk jump true d (D.splitOn slash) = some l) :
    fs.walk jump true d ((D.rdropWhile (· = slash)).splitOn slash) = some l := by
  induction D using List.reverseRecOn with
  | nil => exact h
  | append_singleton D b ih =>
    by_cases hb : b = slash
    · subst hb
      rw [List.rdropWhile_concat_pos _ _ _ (by simp)]
      refine ih ?_
      have hsplit : (D ++ [slash]).splitOn slash = D.splitOn slash ++ [[]] := by
        simpa using List.splitOn_append_cons_self (a := slash) D []
      rw [hsplit, FS.walk_concat] at h
      obtain ⟨l', hwalk, hstep⟩ := Option.bind_eq_some_iff.mp h
      rwa [← FS.eq_of_step_nil hstep]
    · rwa [List.rdropWhile_concat_neg _ _ _ (by simpa using hb)]

/-- The directory part of a path leads where the components before the last one do. -/
theorem resolve_dirname {D c : Bytes} {l : Loc} (hc : c ≠ []) (hfree : slash ∉ c)
    (habs : D = [] ∨ D.head? = some slash)
    (h : fs.walk (fs.resolve n true) true [] (D.splitOn slash) = some l) :
    fs.resolve (n + 1) true cwd (dirname (D ++ slash :: c)) = some l := by
  have hstrip := walk_rdropWhile h
  rw [dirname_append D hc hfree]
  by_cases hnil : D.rdropWhile (· = slash) = []
  · rw [hnil, List.splitOn_nil] at hstrip
    obtain rfl : [] = l := FS.eq_of_step_nil hstrip
    rw [if_pos hnil]
    split_ifs
    · exact FS.walk_slashes fs.listing_root (by decide)
    · exact FS.walk_slashes fs.listing_root (by decide)
  · rw [if_neg hnil, FS.resolve_succ hnil, FS.origin, if_pos, hstrip]
    obtain ⟨t, ht⟩ := List.rdropWhile_prefix (· = slash) D
    rcases habs with rfl | habs
    · exact absurd rfl hnil
    · rwa [← ht, List.head?_append_of_ne_nil _ hnil] at habs

theorem head?_dirname {D c : Bytes} (hc : c ≠ []) (hfree : slash ∉ c)
    (habs : D = [] ∨ D.head? = some slash) :
    (dirname (D ++ slash :: c)).head? = some slash := by
  rw [dirname_append D hc hfree]
  split_ifs with hnil
  · rfl
  · rfl
  · obtain ⟨t, ht⟩ := List.rdropWhile_prefix (· = slash) D
    rcases habs with rfl | habs
    · exact absurd rfl hnil
    · rwa [← ht, List.head?_append_of_ne_nil _ hnil] at habs

section Retarget

variable {p : Bytes} {loc : Loc} {st : Stat} {target : Target} (habs : p.head? = some slash)
  (h : fs.resolve n false cwd p = some loc) (hl : fs.node loc = some (.link st target))

include habs h hl

/-- **The new path leads where the target does**, seen from the directory the link is in. -/
theorem resolve_retarget {follow : Bool} : fs.resolve n follow cwd (retarget p target.val) =
    fs.resolve n follow loc.dropLast target.val := by
  obtain ⟨k, rfl⟩ := FS.exists_succ_of_resolve h
  rw [retarget]
  split_ifs with hslash
  · rw [FS.resolve_succ target.property.1, FS.resolve_succ target.property.1, FS.origin,
      FS.origin, if_pos hslash, if_pos hslash]
  · obtain ⟨cs, x, l, hsplit, rfl, hwalk⟩ := FS.exists_of_resolve_link h hl
    obtain ⟨D, rfl, rfl, hD⟩ := exists_of_splitOn_concat habs hsplit
    rw [FS.origin, if_pos habs] at hwalk
    rw [FS.resolve_append (resolve_dirname x.property.1.1 x.property.2.1 hD hwalk)
      target.property.1 hslash, List.dropLast_concat]

theorem head?_retarget : (retarget p target.val).head? = some slash := by
  obtain ⟨k, rfl⟩ := FS.exists_succ_of_resolve h
  rw [retarget]
  split_ifs with hslash
  · exact hslash
  · obtain ⟨cs, x, l, hsplit, -, -⟩ := FS.exists_of_resolve_link h hl
    obtain ⟨D, rfl, -, hD⟩ := exists_of_splitOn_concat habs hsplit
    have hdir := head?_dirname x.property.1.1 x.property.2.1 hD
    rw [List.head?_append_of_ne_nil _ (by rintro hnil; simp [hnil] at hdir)]
    exact hdir

end Retarget

/-- One round, seen from the locations. -/
theorem follow_eq_some {p p' : Bytes} (habs : p.head? = some slash)
    (h : follow fs n cwd p = some p') : ∃ loc, fs.resolve n false cwd p = some loc ∧
      fs.resolve n false cwd p' = fs.leads n loc ∧ p'.head? = some slash := by
  rw [follow] at h
  split at h
  case h_1 st target hlstat =>
    obtain ⟨loc, hloc, hnode⟩ := Option.bind_eq_some_iff.mp hlstat
    obtain rfl := Option.some.inj h
    exact ⟨loc, hloc, by rw [resolve_retarget habs hloc hnode, FS.leads_of_link hnode],
      head?_retarget habs hloc hnode⟩
  case h_2 => cases h

theorem follow_of_link {p : Bytes} {loc : Loc} {st : Stat} {target : Target}
    (h : fs.resolve n false cwd p = some loc) (hl : fs.node loc = some (.link st target)) :
    follow fs n cwd p = some (retarget p target.val) := by
  have hlstat : fs.lstat n cwd p = some (.link st target) := by
    rw [FS.lstat, h, Option.bind_some, hl]
  rw [follow, hlstat]

theorem exists_link_of_leads {l l' : Loc} (h : fs.leads n l = some l') :
    ∃ st target, fs.node l = some (.link st target) := by
  rw [FS.leads] at h
  split at h
  case h_1 st target hnode => exact ⟨st, target, hnode⟩
  case h_2 => cases h

/-- **The rounds are a chain of locations.** -/
theorem ends_follow_iff {p : Bytes} (habs : p.head? = some slash) :
    Chain.Ends (follow fs n cwd) p ↔
      ∀ loc, fs.resolve n false cwd p = some loc → Chain.Ends (fs.leads n) loc := by
  constructor
  · intro h
    induction h with
    | intro p _ ih =>
      intro loc hloc
      refine Chain.ends_iff.mpr fun loc' hloc' => ?_
      obtain ⟨st, target, hnode⟩ := exists_link_of_leads hloc'
      refine ih _ (follow_of_link hloc hnode) (head?_retarget habs hloc hnode) loc' ?_
      rw [resolve_retarget habs hloc hnode, ← FS.leads_of_link hnode, hloc']
  · intro h
    cases hloc : fs.resolve n false cwd p with
    | none =>
      refine Chain.ends_of_eq_none ?_
      simp [follow, FS.lstat, hloc]
    | some loc =>
      have hends := h loc hloc
      clear h
      induction hends generalizing p with
      | intro loc _ ih =>
        refine Chain.ends_iff.mpr fun p' hp' => ?_
        obtain ⟨loc₀, hloc₀, hnext, habs'⟩ := follow_eq_some habs hp'
        obtain rfl : loc = loc₀ := Option.some.inj (hloc.symm.trans hloc₀)
        cases hloc' : fs.resolve n false cwd p' with
        | none =>
          refine Chain.ends_of_eq_none ?_
          simp [follow, FS.lstat, hloc']
        | some loc' => exact ih loc' (hnext.symm.trans hloc') habs' hloc'

/-- **Rounds and paths**: the loop ends when the chain of paths does, and they all fit. -/
theorem loop_ends_iff {p : Bytes} :
    (∃ k r, loop fs n cwd k p = some r ∧ r ≠ .overflow) ↔
      Chain.Ends (follow fs n cwd) p ∧
        ∀ q, ReflTransGen (Chain.Step (follow fs n cwd)) p q → q.length < pathMax := by
  constructor
  · rintro ⟨k, r, hk, hr⟩
    induction k generalizing p with
    | zero => cases hk
    | succ k ih =>
      rw [loop_succ] at hk
      by_cases hfit : pathMax ≤ p.length
      · rw [if_pos hfit] at hk
        exact absurd (Option.some.inj hk).symm hr
      · rw [if_neg hfit] at hk
        cases hfollow : follow fs n cwd p with
        | none =>
          refine ⟨Chain.ends_of_eq_none hfollow, fun q hq => ?_⟩
          rcases hq.cases_head with rfl | ⟨p', hp', -⟩
          · omega
          · rw [Chain.Step, hfollow] at hp'
            cases hp'
        | some p' =>
          rw [hfollow] at hk
          obtain ⟨hends, hfits⟩ := ih hk
          refine ⟨Chain.ends_iff.mpr fun p'' hp'' => ?_, fun q hq => ?_⟩
          · rw [hfollow] at hp''
            rwa [← Option.some.inj hp'']
          · rcases hq.cases_head with rfl | ⟨p'', hp'', hrest⟩
            · omega
            · rw [Chain.Step, hfollow] at hp''
              exact hfits q (Option.some.inj hp'' ▸ hrest)
  · rintro ⟨hends, hfits⟩
    induction hends with
    | intro p _ ih =>
      have hfit : ¬ pathMax ≤ p.length := by
        have := hfits p .refl
        omega
      cases hfollow : follow fs n cwd p with
      | none =>
        refine ⟨1, if fs.lstat n cwd p = none then .null else .broke p, ?_, by split_ifs <;> simp⟩
        rw [loop_succ, if_neg hfit, hfollow]
      | some p' =>
        obtain ⟨k, r, hk, hr⟩ := ih p' hfollow fun q hq => hfits q (.head hfollow hq)
        exact ⟨k + 1, r, by rw [loop_succ, if_neg hfit, hfollow]; exact hk, hr⟩

end Follow

/-! ### Termination -/

section Termination

variable (fs : FS) (n : ℕ) (cwd : Loc)

/-- The links reached from a location are finitely many. -/
theorem finite_leads (loc : Loc) :
    {b | ReflTransGen (Chain.Step (fs.leads n)) loc b}.Finite := by
  refine (List.finite_toSet (loc :: fs.nodes.map Prod.fst)).subset fun b hb => ?_
  rcases hb.cases_tail with rfl | ⟨c, -, hcb⟩
  · simp
  · obtain ⟨st, target, hnode⟩ := exists_link_of_leads hcb
    rw [Chain.Step, FS.leads_of_link hnode] at hcb
    obtain ⟨m, hm⟩ := FS.exists_node_of_resolve hcb
    exact List.mem_cons_of_mem _ (List.mem_map.mpr ⟨_, FS.mem_nodes hm, rfl⟩)

theorem head?_absolutePath (path : Bytes) : (absolutePath cwd path).head? = some slash := by
  rw [absolutePath]
  split_ifs with h
  · exact h
  · cases cwd <;> rfl

/-- **What the loop needs**: the links the path leads to form no cycle, and every path on the way
fits its buffer. -/
structure LinksEnd (path : Bytes) : Prop where
  acyclic : ∀ loc, fs.resolve n false cwd (absolutePath cwd path) = some loc →
    ¬ Chain.Cyclic (fs.leads n) loc
  fits : ∀ q, ReflTransGen (Chain.Step (follow fs n cwd)) (absolutePath cwd path) q →
    q.length < pathMax

/-- **The loop of `realpath_x` ends** if and only if the links do, or it is not entered since
`getcwd` fails. -/
theorem realpath_x_ends_iff (path : Bytes) :
    (∃ k r, runLoop fs n cwd k path = some r ∧ r ≠ .overflow) ↔
      (path.head? ≠ some slash ∧ pathMax ≤ cwd.path.length) ∨ LinksEnd fs n cwd path := by
  by_cases hlong : path.head? ≠ some slash ∧ pathMax ≤ cwd.path.length
  · exact iff_of_true ⟨0, .null, by rw [runLoop, if_pos hlong], by simp⟩ (.inl hlong)
  · rw [or_iff_right hlong]
    simp only [runLoop, hlong, if_false]
    rw [loop_ends_iff, ends_follow_iff (head?_absolutePath cwd path)]
    have hacyc : ∀ loc, Chain.Ends (fs.leads n) loc ↔ ¬ Chain.Cyclic (fs.leads n) loc := fun loc =>
      Chain.ends_iff_not_cyclic (finite_leads fs n loc)
    simp only [hacyc]
    exact ⟨fun h => ⟨h.1, h.2⟩, fun h => ⟨h.acyclic, h.fits⟩⟩

end Termination

/-- `a`. -/
def nameA : FileName := ⟨[97], by decide⟩

/-- `/a`. -/
def pathA : Bytes := [47, 97]

/-- `/a` is a link to `/a`. -/
def selfFS : FS where
  rootStat := ⟨1, 2⟩
  entries := .link nameA ⟨1, 3⟩ ⟨pathA, by decide⟩ .nil
  distinct := by decide

/-- Every round reads the same link. -/
theorem loop_selfFS (k : ℕ) : loop selfFS 2 [] k pathA = none := by
  have hround : follow selfFS 2 [] pathA = some pathA := by decide
  induction k with
  | zero => rfl
  | succ k ih => rw [loop_succ, hround, if_neg (by decide)]; exact ih

/-- The loop reads the same link for ever. -/
theorem realpath_x_selfFS : ¬ ∃ k r, runLoop selfFS 2 [] k pathA = some r := by
  rintro ⟨k, r, hrun⟩
  have hnone : runLoop selfFS 2 [] k pathA = none := loop_selfFS k
  rw [hnone] at hrun
  cases hrun

/-! ### The result -/

section Canonical

variable {fs : FS} {n : ℕ} {cwd : Loc}

theorem zero_notMem_dirname {p : Bytes} (hp : (0 : UInt8) ∉ p) : (0 : UInt8) ∉ dirname p := by
  simp only [dirname]
  split_ifs
  rotate_right
  · intro h0
    have hsub : ((p.rdropWhile (· = slash)).rdropWhile (· ≠ slash)).rdropWhile (· = slash) <+: p :=
      ((List.rdropWhile_prefix _ _).trans (List.rdropWhile_prefix _ _)).trans
        (List.rdropWhile_prefix _ _)
    exact hp (hsub.subset h0)
  all_goals decide

theorem zero_notMem_retarget {p : Bytes} (hp : (0 : UInt8) ∉ p) (target : Target) :
    (0 : UInt8) ∉ retarget p target.val := by
  rw [retarget]
  split_ifs
  · exact target.property.2
  · have hslash : (0 : UInt8) ≠ slash := by decide
    simp [zero_notMem_dirname hp, target.property.2, hslash]

/-- A path that leads to a link names what the path after one more round names. -/
theorem names_of_follow {p p' : Bytes} (habs : p.head? = some slash)
    (hfollow : follow fs n cwd p = some p') {loc : Loc} (h : fs.Names cwd p' loc) :
    fs.Names cwd p loc := by
  rw [follow] at hfollow
  split at hfollow
  case h_2 => cases hfollow
  case h_1 st target hlstat =>
    obtain ⟨l, hl, hnode⟩ := Option.bind_eq_some_iff.mp hlstat
    obtain rfl := Option.some.inj hfollow
    obtain ⟨N, hN⟩ := h
    -- a depth that is enough for both paths
    have hl' : fs.resolve (max N n + 1) false cwd p = some l := FS.resolve_mono (by omega) hl
    have hmax : fs.resolve (max N n) false cwd p = some l := FS.resolve_mono (by omega) hl
    have hN' : fs.resolve (max N n) true cwd (retarget p target.val) = some loc :=
      FS.resolve_mono (by omega) hN
    refine ⟨max N n + 1, ?_⟩
    rw [FS.resolve_of_link hl' hnode, ← resolve_retarget habs hmax hnode, hN']

theorem exists_of_follow_eq_none {p : Bytes} (h : follow fs n cwd p = none)
    (hlstat : fs.lstat n cwd p ≠ none) : ∃ loc, fs.resolve n true cwd p = some loc := by
  obtain ⟨m, hm⟩ := Option.ne_none_iff_exists'.mp hlstat
  obtain ⟨loc, hloc, hnode⟩ := Option.bind_eq_some_iff.mp hm
  refine ⟨loc, FS.resolve_of_notLink hloc hnode ?_⟩
  rintro st target rfl
  rw [follow_of_link hloc hnode] at h
  cases h

/-- **The end of the loop**: the path it leaves with names the file the path it began with does. -/
theorem names_of_loop {k : ℕ} {p q : Bytes} (habs : p.head? = some slash) (hnul : (0 : UInt8) ∉ p)
    (h : loop fs n cwd k p = some (.broke q)) :
    Chain.EndsAt (follow fs n cwd) p q ∧ q.head? = some slash ∧ (0 : UInt8) ∉ q ∧
      ∃ loc, fs.resolve n true cwd q = some loc ∧ fs.Names cwd p loc := by
  induction k generalizing p with
  | zero => cases h
  | succ k ih =>
    rw [loop_succ] at h
    by_cases hfit : pathMax ≤ p.length
    · rw [if_pos hfit] at h
      cases h
    rw [if_neg hfit] at h
    cases hfollow : follow fs n cwd p with
    | none =>
      rw [hfollow] at h
      by_cases hlstat : fs.lstat n cwd p = none
      · simp [hlstat] at h
      · obtain rfl : p = q := by simpa [hlstat] using h
        obtain ⟨loc, hloc⟩ := exists_of_follow_eq_none hfollow hlstat
        exact ⟨⟨.refl, hfollow⟩, habs, hnul, loc, hloc, n, hloc⟩
    | some p' =>
      rw [hfollow] at h
      obtain ⟨l, hl, hnext, habs'⟩ := follow_eq_some habs hfollow
      have hnul' : (0 : UInt8) ∉ p' := by
        rw [follow] at hfollow
        split at hfollow
        case h_1 st target _ =>
          obtain rfl := Option.some.inj hfollow
          exact zero_notMem_retarget hnul target
        case h_2 => cases hfollow
      obtain ⟨hend, hq, hnulq, loc, hloc, hnames⟩ := ih habs' hnul' h
      exact ⟨⟨.head hfollow hend.1, hend.2⟩, hq, hnulq, loc, hloc,
        names_of_follow habs hfollow hnames⟩

/-- **Removing the dots** from a path without links leaves a path without links to the same file. -/
theorem direct_solveDot {q r : Bytes} {loc : Loc} (habs : q.head? = some slash)
    (hnul : (0 : UInt8) ∉ q) (hdirect : fs.Direct cwd q loc)
    (htame : SolveDot.Tame (q.tail.splitOn slash).dropLast)
    (h : SolveDot.solveDot q = some (some r)) : fs.Direct cwd r loc := by
  obtain ⟨rest, rfl⟩ : ∃ rest, q = slash :: rest := by
    cases q with
    | nil => simp at habs
    | cons b rest => exact ⟨rest, by simpa using habs⟩
  obtain hnil | ⟨cs, c, hsplit⟩ := (rest.splitOn slash).eq_nil_or_concat
  · exact absurd hnil (List.splitOn_ne_nil _ _)
  rw [List.concat_eq_append] at hsplit
  rw [List.tail_cons, hsplit, List.dropLast_concat] at htame
  rw [SolveDot.solveDot_eq hsplit hnul htame] at h
  obtain rfl := Option.some.inj (Option.some.inj h)
  have hslash : (slash :: rest).splitOn slash = [] :: (cs ++ [c]) := by
    simpa [hsplit] using List.splitOn_append_cons_self (a := slash) [] rest
  have hroot := fs.listing_root
  -- `l` is where the components in front of slashes lead to
  rw [FS.Direct, FS.resolve_succ (by simp), FS.origin, if_pos habs, hslash,
    FS.walk_cons _ _ (by simp), FS.step_stay hroot (.inl rfl), Option.bind_some,
    FS.walk_concat] at hdirect
  obtain ⟨l, hwalk, hstep⟩ := Option.bind_eq_some_iff.mp hdirect
  have hnames : normalize cs = l.map Subtype.val := (FS.walk_direct hwalk).2.symm
  obtain ⟨es, hes⟩ := FS.exists_listing_of_step hstep
  obtain ⟨st, hnode⟩ := FS.listing_eq_some.mp hes
  have hwalk' : fs.walk (fs.resolve 0 true) true [] (l.map Subtype.val) = some l := by
    by_cases hl : l = []
    · subst hl
      rfl
    · exact FS.walk_names hl hnode (fun _ _ heq => by cases heq)
  have hfree : ∀ b ∈ ([] : Bytes) :: (l.map Subtype.val ++ [c]), slash ∉ b := by
    have hc : slash ∉ c := (mem_of_mem_splitOn (p := rest) (by rw [hsplit]; simp)).1
    simp only [List.forall_mem_cons, List.forall_mem_append, List.not_mem_nil, not_false_eq_true,
      false_imp_iff, implies_true, hc, and_true, true_and]
    exact fun b => Loc.slash_notMem
  have hr : (slashed (normalize cs) ++ slash :: c).splitOn slash =
      [] :: (l.map Subtype.val ++ [c]) := by
    rw [hnames, ← splitOn_slashed hfree]
    simp
  have habs' : (slashed (normalize cs) ++ slash :: c).head? = some slash := by
    cases normalize cs <;> simp
  rw [FS.Direct, FS.resolve_succ (by simp), FS.origin, if_pos habs', hr,
    FS.walk_cons _ _ (by simp), FS.step_stay hroot (.inl rfl), Option.bind_some, FS.walk_concat,
    hwalk', Option.bind_some, hstep]

/-- The paths `realpath_x` is right about: not empty, and what is left when the links at the end
have been followed has no link among its components, and only dots that `solve_dot` copes with. -/
structure Plain (fs : FS) (n : ℕ) (cwd : Loc) (path : Bytes) : Prop where
  ne_nil : path ≠ []
  direct : ∀ q, Chain.EndsAt (follow fs n cwd) (absolutePath cwd path) q →
    (∃ loc, fs.Direct cwd q loc) ∧ SolveDot.Tame (q.tail.splitOn slash).dropLast

theorem names_absolutePath {es : Listing} (hcwd : fs.listing cwd = some es) {path : Bytes}
    (hne : path ≠ []) {loc : Loc} (h : fs.Names cwd (absolutePath cwd path) loc) :
    fs.Names cwd path loc := by
  rw [absolutePath] at h
  split_ifs at h with hslash
  · exact h
  · obtain ⟨N, hN⟩ := h
    obtain ⟨k, rfl⟩ := FS.exists_succ_of_resolve hN
    obtain ⟨m, hnode, hm⟩ := FS.ends_of_listing hcwd
    rw [FS.resolve_append (FS.resolve_path hnode hm) hne hslash] at hN
    exact ⟨k + 1, hN⟩

theorem zero_notMem_absolutePath {path : Bytes} (h : (0 : UInt8) ∉ path) :
    (0 : UInt8) ∉ absolutePath cwd path := by
  have hslash : (0 : UInt8) ≠ slash := by decide
  rw [absolutePath]
  split_ifs
  · exact h
  · simp [Loc.zero_notMem_path, h, hslash]

theorem exists_broke_of_realpathX {k : ℕ} {path r : Bytes}
    (h : realpathX fs n cwd k path = some (.path r)) :
    ∃ q, loop fs n cwd k (absolutePath cwd path) = some (.broke q) ∧
      SolveDot.solveDot q = some (some r) := by
  obtain ⟨s, hs, hfinish⟩ := Option.map_eq_some_iff.mp h
  rw [runLoop] at hs
  split_ifs at hs
  · cases hs
    cases hfinish
  · cases s with
    | null => cases hfinish
    | overflow => cases hfinish
    | broke q =>
      refine ⟨q, hs, ?_⟩
      rw [finish] at hfinish
      split at hfinish
      case h_1 => cases hfinish
      case h_2 => cases hfinish
      case h_3 hsolve =>
        cases hfinish
        exact hsolve

/-- **The result of `realpath_x` is canonical** for such paths: it names the file the path does, and
neither it nor anything before one of its slashes is a symbolic link. -/
theorem realpath_x_canonical {es : Listing} (hcwd : fs.listing cwd = some es) {path : Bytes}
    (hnul : (0 : UInt8) ∉ path) (hplain : Plain fs n cwd path) {k : ℕ} {r : Bytes}
    (h : realpathX fs n cwd k path = some (.path r)) :
    (∃ loc, fs.Names cwd path loc ∧ fs.Names cwd r loc) ∧
      ∀ N p, p = r ∨ p ++ [slash] <+: r →
        ∀ st target, fs.lstat N cwd p ≠ some (.link st target) := by
  obtain ⟨q, hloop, hsolve⟩ := exists_broke_of_realpathX h
  obtain ⟨hend, habs, hnulq, loc, hloc, hnames⟩ := names_of_loop (head?_absolutePath cwd path)
    (zero_notMem_absolutePath hnul) hloop
  obtain ⟨⟨loc', hdirect⟩, htame⟩ := hplain.direct q hend
  -- following the links of `q`, of which there are none, leads to the same place
  obtain ⟨m, rfl⟩ := FS.exists_succ_of_resolve hloc
  obtain rfl : loc' = loc := Option.some.inj ((hdirect.resolve true).symm.trans hloc)
  have hr := direct_solveDot habs hnulq hdirect htame hsolve
  refine ⟨⟨loc', names_absolutePath hcwd hplain.ne_nil hnames, hr.names⟩, ?_⟩
  rintro N p (rfl | ⟨t, rfl⟩) st target
  · exact hr.lstat_ne st target
  · by_cases hp : p = []
    · subst hp
      cases N <;> simp [FS.lstat, FS.resolve]
    · rw [List.append_assoc, List.singleton_append] at hr
      obtain ⟨l, hl⟩ := hr.of_append hp
      exact hl.lstat_ne st target

end Canonical

theorem isFileName_usr : IsFileName [117, 115, 114] := by decide

/-- `usr`. -/
def usr : FileName := ⟨[117, 115, 114], isFileName_usr⟩

/-- `lib`. -/
def lib : FileName := ⟨[108, 105, 98], by decide⟩

theorem isFileName_bin : IsFileName [98, 105, 110] := by decide

/-- `bin`. -/
def bin : FileName := ⟨[98, 105, 110], isFileName_bin⟩

/-- `/a` is a link to `usr/lib/../bin`. -/
def sampleFS : FS where
  rootStat := ⟨1, 2⟩
  entries :=
    .link nameA ⟨1, 3⟩
      ⟨[117, 115, 114, 47, 108, 105, 98, 47, 46, 46, 47, 98, 105, 110], by decide⟩ <|
    .dir usr ⟨1, 4⟩ (.dir lib ⟨1, 5⟩ .nil <| .file bin ⟨1, 6⟩ .nil) .nil
  distinct := by decide

theorem plain_sampleFS : Plain sampleFS 2 [] pathA := by
  refine ⟨by decide, fun q hq => ?_⟩
  have hround : follow sampleFS 2 [] pathA = some
      [47, 47, 117, 115, 114, 47, 108, 105, 98, 47, 46, 46, 47, 98, 105, 110] := by decide
  obtain rfl := (hq.of_step hround).eq (by decide)
  exact ⟨⟨[usr, bin], by decide⟩, by decide⟩

theorem realpath_x_canonical_sampleFS :
    realpathX sampleFS 2 [] 2 pathA = some (.path [47, 117, 115, 114, 47, 98, 105, 110]) ∧
      ∃ loc, sampleFS.Names [] pathA loc ∧
        sampleFS.Names [] [47, 117, 115, 114, 47, 98, 105, 110] loc := by
  have hrun : realpathX sampleFS 2 [] 2 pathA =
      some (.path [47, 117, 115, 114, 47, 98, 105, 110]) := by decide
  exact ⟨hrun, (realpath_x_canonical sampleFS.listing_root (by decide) plain_sampleFS hrun).1⟩

/-- `/a` is a link to `usr`, a directory. -/
def directoryFS : FS where
  rootStat := ⟨1, 2⟩
  entries :=
    .link nameA ⟨1, 3⟩ ⟨[117, 115, 114], by decide⟩ <|
    .dir usr ⟨1, 4⟩ (.file bin ⟨1, 6⟩ .nil) .nil
  distinct := by decide

/-- A link in front of the last component stays: `/a/bin` is returned as it is. -/
theorem realpath_x_directoryFS :
    realpathX directoryFS 2 [] 1 [47, 97, 47, 98, 105, 110] =
      some (.path [47, 97, 47, 98, 105, 110]) ∧
    directoryFS.lstat 2 [] pathA = some (.link ⟨1, 3⟩ ⟨[117, 115, 114], by decide⟩) := by
  decide

end RealPath

end Tlpiexer
