import Tlpiexer.Constants
import Tlpiexer.Foundations.FileSystem

/-!
# The working directory, found by walking up

The program has no `getcwd`. It opens the parent of the directory it is at, compares every entry
with that directory by device and inode number, takes the name of the first one that agrees, and
goes on from the parent; it stops where no entry agrees, which it takes for the root.

## Links on the way

The entries are looked at with `stat`, which follows links. A link that leads nowhere makes the
program exit, a link that leads to the directory itself is as good as the directory's own entry,
and a link to the root in the root keeps the walk from ending. Only what `readdir` delivers before
the directory's own entry counts, so the result depends on the order of the entries. `Climbs` says
what it takes; `prints_cwd_iff` that nothing else does.

## Buffers

The three paths are built by `strcpy` and `strcat` in arrays of `PATH_MAX` bytes. A path that does
not fit is an outcome of its own, since what happens then is not up to the program.
-/

namespace Tlpiexer

namespace GetCwd

open CString Path FileSystem

/-- The calls that are checked. -/
inductive Call
  | stat
  | opendir
  deriving DecidableEq, Repr

/-- How the program ends. -/
inductive Outcome
  | printed (text : Bytes)
  | exit_err (call : Call)
  | overflow
  deriving DecidableEq, Repr

/-- How the search of a directory ends. -/
inductive Search
  | found (d_name : Bytes)
  | missing
  | failed
  | overflow
  deriving DecidableEq, Repr

/-- The variables that live through the loop. -/
structure Vars where
  cdir_path : Bytes
  cwd : Bytes
  deriving DecidableEq, Repr

/-- `/..`. -/
def slashUp : Bytes := slash :: dotdot

section Program

variable (fs : FS) (n : ℕ) (here : Loc)

/-- The `readdir` loop over the entries of `cdir_path`, in search of `cdir_stat`. -/
def search (cdir_path : Bytes) (cdir_stat : Stat) : List Bytes → Search
  | [] => .missing
  | d_name :: rest =>
    if d_name = dot ∨ d_name = dotdot then search cdir_path cdir_stat rest
    else
      let udir_path := cdir_path ++ slash :: d_name
      if pathMax ≤ udir_path.length then .overflow
      else
        match fs.stat n here udir_path with
        | none => .failed
        | some udir_stat =>
          if udir_stat = cdir_stat then .found d_name else search cdir_path cdir_stat rest

/-- What follows the search: the name is put in front of `cwd`, or the program ends. -/
def advance (cdir_path cwd : Bytes) : Search → Except Outcome Vars
  | .failed => .error (.exit_err .stat)
  | .overflow => .error .overflow
  | .missing => .error (.printed (cwd ++ [10]))
  | .found d_name =>
    let cwdtmp := d_name ++ slash :: cwd
    if pathMax ≤ cwdtmp.length then .error .overflow else .ok ⟨cdir_path, cwdtmp⟩

/-- One round of the main loop: the variables after it, or the end of the program. -/
def round (s : Vars) : Except Outcome Vars :=
  match fs.stat n here s.cdir_path with
  | none => .error (.exit_err .stat)
  | some cdir_stat =>
    let cdir_path := s.cdir_path ++ slashUp
    if pathMax ≤ cdir_path.length then .error .overflow
    else
      match fs.opendir n here cdir_path with
      | none => .error (.exit_err .opendir)
      | some udir =>
        advance cdir_path s.cwd (search fs n here cdir_path cdir_stat udir.dNames)

/-- The main loop; `none` when it needs more than the given number of rounds. -/
def loop : ℕ → Vars → Option Outcome
  | 0, _ => none
  | k + 1, s =>
    match round fs n here s with
    | .error o => some o
    | .ok s' => loop k s'

/-- The variables at the start. -/
def start : Vars := ⟨dot, []⟩

end Program

/-! ### Texts -/

/-- Names, each followed by a slash. -/
def closed (l : List Bytes) : Bytes := l.flatMap fun c => c ++ [slash]

@[simp] theorem closed_nil : closed [] = [] := rfl

@[simp] theorem closed_cons (c : Bytes) (l : List Bytes) :
    closed (c :: l) = c ++ slash :: closed l := by
  simp [closed]

@[simp] theorem closed_append (l l' : List Bytes) : closed (l ++ l') = closed l ++ closed l' :=
  List.flatMap_append

/-- The text tells the names. -/
theorem closed_injective {l l' : List Bytes} (hl : ∀ c ∈ l, slash ∉ c) (hl' : ∀ c ∈ l', slash ∉ c)
    (h : closed l = closed l') : l = l' := by
  have hsplit : ∀ l : List Bytes, (∀ c ∈ l, slash ∉ c) →
      (closed l).splitOn slash = l ++ [[]] := by
    intro l hl
    induction l with
    | nil => decide
    | cons c l ih =>
      rw [closed_cons, List.splitOn_append_cons_self, List.splitOn_eq_singleton (hl c (by simp)),
        ih fun d hd => hl d (by simp [hd])]
      rfl
  have heq := congrArg (List.splitOn slash) h
  rw [hsplit l hl, hsplit l' hl'] at heq
  exact List.append_cancel_right heq

/-- The names on the way to a location, each followed by a slash. -/
def cwdText (l : Loc) : Bytes := closed (l.map Subtype.val)

/-- `.` and `/..`, `k` times. -/
def climb : ℕ → Bytes
  | 0 => dot
  | k + 1 => climb k ++ slashUp

theorem length_climb (k : ℕ) : (climb k).length = 3 * k + 1 := by
  induction k with
  | zero => rfl
  | succ k ih =>
    rw [climb, List.length_append, ih]
    simp [slashUp, dotdot]
    omega

/-! ### The condition -/

section Condition

variable (fs : FS) (n : ℕ)

/-- The entry `y` of the directory `p` is passed over in the search of `child`: if it is a link, it
leads somewhere, and not to `child`. -/
def Passes (p : Loc) (child : Loc) (y : FileName) : Prop :=
  ∀ st target, fs.node (p ++ [y]) = some (.link st target) →
    ∃ l, fs.resolve n true p target.val = some l ∧ l ≠ child

/-- The path of an entry fits its buffer after `k` rounds. -/
def Fits (k : ℕ) (y : FileName) : Prop := 3 * k + 5 + y.val.length < pathMax

/-- **What the walk from `here` needs.** -/
structure Climbs (here : Loc) : Prop where
  /-- In front of the entry of a directory on the way all entries are passed over. -/
  up : ∀ p x rest es, here = p ++ x :: rest → fs.listing p = some es →
    (∀ y ∈ es.names.takeWhile (· ≠ x), Passes fs n p (p ++ [x]) y ∧ Fits rest.length y) ∧
      Fits rest.length x
  /-- In the root all entries are. -/
  root : ∀ y ∈ fs.entries.names, Passes fs n [] [] y ∧ Fits here.length y
  /-- The result and the path to the root fit their buffers. -/
  fits : (cwdText here).length < pathMax ∧ (climb (here.length + 1)).length < pathMax

/-- The pair of a directory is no other file's. -/
def PairsDistinct : Prop :=
  ∀ l l' st es m, fs.node l = some (.dir st es) → fs.node l' = some m → m.NotLink →
    m.stat = st → l = l'

variable {fs} in
theorem pairsDistinct_of_nodes (h : ∀ a ∈ fs.nodes, ∀ b ∈ fs.nodes, a.2.isDir = true →
    b.2.NotLink → b.2.stat = a.2.stat → a.1 = b.1) : PairsDistinct fs := fun _ _ _ _ _ hl hl' hm =>
  h _ (FS.mem_nodes hl) _ (FS.mem_nodes hl') rfl hm

end Condition

/-! ### The search of a directory -/

section Search

variable {fs : FS} {n : ℕ} {here : Loc} {path : Bytes} {st : Stat}

/-- The entry is looked at and is not the directory. -/
def Miss (fs : FS) (n : ℕ) (here : Loc) (path : Bytes) (st : Stat) (y : FileName) : Prop :=
  (path ++ slash :: y.val).length < pathMax ∧
    ∃ st', fs.stat n here (path ++ slash :: y.val) = some st' ∧ st' ≠ st

/-- The entry is looked at and taken for the directory. -/
def Hit (fs : FS) (n : ℕ) (here : Loc) (path : Bytes) (st : Stat) (y : FileName) : Prop :=
  (path ++ slash :: y.val).length < pathMax ∧
    fs.stat n here (path ++ slash :: y.val) = some st

theorem Hit.not_miss {y : FileName} (h : Hit fs n here path st y) : ¬ Miss fs n here path st y := by
  rintro ⟨-, st', hst, hne⟩
  exact hne (Option.some.inj (hst.symm.trans h.2))

theorem search_cons (y : FileName) (ys : List Bytes) :
    (Miss fs n here path st y ∧
      search fs n here path st (y.val :: ys) = search fs n here path st ys) ∨
    (Hit fs n here path st y ∧ search fs n here path st (y.val :: ys) = .found y.val) ∨
    (¬ Miss fs n here path st y ∧ ¬ Hit fs n here path st y ∧
      (search fs n here path st (y.val :: ys) = .failed ∨
        search fs n here path st (y.val :: ys) = .overflow)) := by
  have hdots := FS.not_dot_or_dotdot y
  by_cases hfit : pathMax ≤ (path ++ slash :: y.val).length
  · have hno : ¬ (path ++ slash :: y.val).length < pathMax := by omega
    exact .inr (.inr ⟨fun h => hno h.1, fun h => hno h.1, .inr (by simp only [search, hdots, hfit,
      if_true, if_false])⟩)
  · have hlt : (path ++ slash :: y.val).length < pathMax := by omega
    cases hstat : fs.stat n here (path ++ slash :: y.val) with
    | none =>
      refine .inr (.inr ⟨?_, ?_, .inl (by simp only [search, hdots, hfit, hstat, if_false])⟩)
      · rintro ⟨-, st', h, -⟩
        rw [hstat] at h
        cases h
      · rintro ⟨-, h⟩
        rw [hstat] at h
        cases h
    | some st' =>
      by_cases heq : st' = st
      · exact .inr (.inl ⟨⟨hlt, heq ▸ hstat⟩,
          by simp only [search, hdots, hfit, hstat, heq, if_true, if_false]⟩)
      · exact .inl ⟨⟨hlt, st', hstat, heq⟩,
          by simp only [search, hdots, hfit, hstat, heq, if_false]⟩

/-- The dots are skipped. -/
theorem search_dNames (es : Listing) : search fs n here path st es.dNames =
    search fs n here path st (es.names.map Subtype.val) := by
  have hcons : ∀ (d : Bytes) (l l' : List Bytes),
      search fs n here path st l = search fs n here path st l' →
      search fs n here path st (d :: l) = search fs n here path st (d :: l') := by
    intro d l l' h
    simp only [search, h]
  induction es with
  | nil => rfl
  | dots up rest ih => cases up <;> simpa [Listing.dNames, Listing.names, search] using ih
  | file x _ rest ih => exact hcons x.val _ _ ih
  | link x _ _ rest ih => exact hcons x.val _ _ ih
  | dir x _ _ rest _ ih => exact hcons x.val _ _ ih

section Names

variable {ys : List FileName} {x : FileName}

theorem search_eq_missing_iff : search fs n here path st (ys.map Subtype.val) = .missing ↔
    ∀ y ∈ ys, Miss fs n here path st y := by
  induction ys with
  | nil => simp [search]
  | cons y ys ih =>
    rw [List.map_cons, List.forall_mem_cons]
    rcases search_cons y (ys.map Subtype.val) with ⟨hmiss, heq⟩ | ⟨hhit, heq⟩ | ⟨hmiss, -, heq⟩
    · rw [heq, ih, and_iff_right hmiss]
    · rw [heq]
      simp [hhit.not_miss]
    · rcases heq with heq | heq <;> rw [heq] <;> simp [hmiss]

/-- What is found has been taken for the directory. -/
theorem exists_hit_of_search {d : Bytes}
    (h : search fs n here path st (ys.map Subtype.val) = .found d) :
    ∃ y ∈ ys, y.val = d ∧ Hit fs n here path st y := by
  induction ys with
  | nil => simp [search] at h
  | cons y ys ih =>
    rw [List.map_cons] at h
    rcases search_cons y (ys.map Subtype.val) with ⟨-, heq⟩ | ⟨hhit, heq⟩ | ⟨-, -, heq⟩
    · rw [heq] at h
      obtain ⟨z, hz, hrest⟩ := ih h
      exact ⟨z, by simp [hz], hrest⟩
    · rw [heq, Search.found.injEq] at h
      exact ⟨y, by simp, h, hhit⟩
    · rcases heq with heq | heq <;> rw [heq] at h <;> cases h

/-- **A search ends at `x`** when all entries before it are passed over. -/
theorem search_eq_found_iff (hx : x ∈ ys) :
    search fs n here path st (ys.map Subtype.val) = .found x.val ↔
      (∀ y ∈ ys.takeWhile (· ≠ x), Miss fs n here path st y) ∧ Hit fs n here path st x := by
  induction ys with
  | nil => simp at hx
  | cons y ys ih =>
    by_cases hyx : y = x
    · subst hyx
      have htake : (y :: ys).takeWhile (· ≠ y) = [] := by simp
      rw [htake]
      constructor
      · intro h
        obtain ⟨z, -, hz, hhit⟩ := exists_hit_of_search h
        exact ⟨by simp, Subtype.val_injective hz ▸ hhit⟩
      · rintro ⟨-, hhit⟩
        rw [List.map_cons]
        rcases search_cons y (ys.map Subtype.val) with ⟨hmiss, -⟩ | ⟨-, heq⟩ | ⟨-, hno, -⟩
        · exact absurd hmiss hhit.not_miss
        · exact heq
        · exact absurd hhit hno
    · have hx' : x ∈ ys := by simpa [Ne.symm hyx] using hx
      have htake : (y :: ys).takeWhile (· ≠ x) = y :: ys.takeWhile (· ≠ x) := by simp [hyx]
      rw [htake, List.map_cons, List.forall_mem_cons]
      rcases search_cons y (ys.map Subtype.val) with ⟨hmiss, heq⟩ | ⟨hhit, heq⟩ | ⟨hmiss, -, heq⟩
      · rw [heq, ih hx', and_iff_right hmiss]
      · have hne : y.val ≠ x.val := fun h => hyx (Subtype.val_injective h)
        rw [heq]
        simp [hne, hhit.not_miss]
      · rcases heq with heq | heq <;> rw [heq] <;> simp [hmiss]

end Names

end Search

/-! ### One round -/

section Rounds

variable {fs : FS} {n : ℕ} {here : Loc} {es₀ : Listing}

/-- After `k` rounds the path leads to the directory `k` levels up. -/
theorem resolve_climb (hhere : fs.listing here = some es₀) {follow : Bool} :
    ∀ {rest l : Loc}, here = l ++ rest →
    fs.resolve (n + 1) follow here (climb rest.length) = some l := by
  intro rest
  induction rest generalizing follow with
  | nil =>
    intro l hl
    rw [List.append_nil] at hl
    subst hl
    exact FS.resolve_dot hhere
  | cons x rest ih =>
    intro l hl
    rw [List.append_cons] at hl
    obtain ⟨es, hes⟩ := FS.exists_listing_of_append (hl ▸ hhere)
    have hbelow : fs.resolve (n + 1) true here (climb rest.length) = some (l ++ [x]) := ih hl
    have hup : fs.resolve (n + 1) follow here (climb rest.length ++ slash :: dotdot) =
        fs.resolve (n + 1) follow (l ++ [x]) dotdot :=
      FS.resolve_append hbelow (by decide) (by decide)
    rw [List.length_cons, climb, slashUp, hup, FS.resolve_dotdot hes, List.dropLast_concat]

/-- One level further up, from the root too. -/
theorem resolve_climb_succ (hhere : fs.listing here = some es₀) {rest l : Loc}
    (h : here = l ++ rest) :
    fs.resolve (n + 1) true here (climb (rest.length + 1)) = some l.dropLast := by
  obtain ⟨es, hes⟩ := FS.exists_listing_of_append (h ▸ hhere)
  rw [climb, slashUp, FS.resolve_append (resolve_climb hhere h) (by decide) (by decide),
    FS.resolve_dotdot hes]

/-- The variables after as many rounds as there are names in `rest`, all of them right. -/
def level (rest : Loc) : Vars := ⟨climb rest.length, cwdText rest⟩

theorem advance_eq_ok {path cwd : Bytes} {r : Search} {s : Vars} :
    advance path cwd r = .ok s ↔ ∃ d, r = .found d ∧ (d ++ slash :: cwd).length < pathMax ∧
      s = ⟨path, d ++ slash :: cwd⟩ := by
  cases r with
  | found d =>
    simp only [advance, Search.found.injEq, exists_eq_left']
    by_cases hfit : pathMax ≤ (d ++ slash :: cwd).length
    · simp only [hfit, if_true, reduceCtorEq, not_lt.mpr hfit, false_and]
    · simp only [hfit, if_false, Except.ok.injEq, not_le.mp hfit, true_and, eq_comm]
  | missing => simp [advance]
  | failed => simp [advance]
  | overflow => simp [advance]

theorem advance_eq_printed {path cwd t : Bytes} {r : Search} :
    advance path cwd r = .error (.printed t) ↔ r = .missing ∧ t = cwd ++ [10] := by
  cases r with
  | found d =>
    simp only [advance]
    split_ifs <;> simp
  | missing => simp [advance, eq_comm]
  | failed => simp [advance]
  | overflow => simp [advance]

theorem round_level (hhere : fs.listing here = some es₀) {rest l : Loc} (h : here = l ++ rest)
    {st : Stat} {sub es : Listing} (hl : fs.node l = some (.dir st sub))
    (hes : fs.listing l.dropLast = some es) :
    round fs (n + 1) here (level rest) =
      if pathMax ≤ (climb (rest.length + 1)).length then .error .overflow
      else advance (climb (rest.length + 1)) (cwdText rest)
        (search fs (n + 1) here (climb (rest.length + 1)) st (es.names.map Subtype.val)) := by
  have hstat : fs.stat (n + 1) here (climb rest.length) = some st := by
    rw [FS.stat, resolve_climb hhere h, Option.bind_some, hl]
    rfl
  have hopen : fs.opendir (n + 1) here (climb (rest.length + 1)) = some es := by
    rw [FS.opendir, resolve_climb_succ hhere h, Option.bind_some, hes]
  have hclimb : climb (rest.length + 1) = climb rest.length ++ slashUp := rfl
  rw [hclimb] at hopen ⊢
  simp only [round, level, hstat, hopen, search_dNames]

/-! ### Entries on the way -/

theorem length_entry (k : ℕ) (y : FileName) :
    (climb (k + 1) ++ slash :: y.val).length < pathMax ↔ Fits k y := by
  rw [List.length_append, length_climb, Fits, List.length_cons]
  omega

theorem stat_entry (hhere : fs.listing here = some es₀) {rest l : Loc} (h : here = l ++ rest)
    (y : FileName) : fs.stat (n + 1) here (climb (rest.length + 1) ++ slash :: y.val) =
      (fs.resolve (n + 1) true l.dropLast y.val).bind fun l' => (fs.node l').map Node.stat := by
  rw [FS.stat, FS.resolve_append (resolve_climb_succ hhere h) y.property.1.1 (FS.head?_ne_slash y)]

/-- An entry of `p` other than `child` itself is not taken for it exactly when it passes. -/
theorem passes_iff (hpairs : PairsDistinct fs) {p child : Loc} {es sub : Listing} {st : Stat}
    {y : FileName} (hes : fs.listing p = some es) (hy : y ∈ es.names)
    (hchild : fs.node child = some (.dir st sub)) (hne : p ++ [y] ≠ child) :
    (∃ st', ((fs.resolve (n + 1) true p y.val).bind fun l' => (fs.node l').map Node.stat) =
      some st' ∧ st' ≠ st) ↔ Passes fs n p child y := by
  obtain ⟨m, hm⟩ := Option.isSome_iff_exists.mp ((Listing.find_isSome_iff es).mpr hy)
  have hnode : fs.node (p ++ [y]) = some m := by rw [FS.node_concat hes, hm]
  by_cases hlink : m.NotLink
  · -- a file or a directory: its pair is another one
    have hpass : Passes fs n p child y := by
      intro st' target h
      exact absurd (Option.some.inj (hnode.symm.trans h)) (hlink st' target)
    simp only [FS.resolve_entry hes hm hlink, Option.bind_some, hnode, Option.map_some,
      Option.some.injEq, exists_eq_left', hpass, iff_true]
    exact fun heq => hne (hpairs _ _ _ _ _ hchild hnode hlink heq).symm
  · obtain ⟨st', target, rfl⟩ := Node.exists_link hlink
    have hpass : Passes fs n p child y ↔
        ∃ l, fs.resolve n true p target.val = some l ∧ l ≠ child := by
      constructor
      · exact fun h => h st' target hnode
      · rintro h st'' target' hnode'
        rw [hnode] at hnode'
        cases hnode'
        exact h
    rw [hpass, FS.resolve_link hes hm, if_pos rfl]
    constructor
    · rintro ⟨st'', hst, hne'⟩
      obtain ⟨l, hl, hstat⟩ := Option.bind_eq_some_iff.mp hst
      refine ⟨l, hl, ?_⟩
      rintro rfl
      rw [hchild] at hstat
      exact hne' (Option.some.inj hstat).symm
    · rintro ⟨l, hl, hlne⟩
      obtain ⟨m, hnode', hend⟩ := FS.ends_of_resolve hl
      refine ⟨m.stat, by rw [hl, Option.bind_some, hnode']; rfl, fun heq => hlne ?_⟩
      exact (hpairs _ _ _ _ _ hchild hnode' hend heq).symm

theorem cwdText_cons (x : FileName) (rest : Loc) :
    cwdText (x :: rest) = x.val ++ slash :: cwdText rest := by
  simp [cwdText]

/-- **A round below the root** finds the next name. -/
theorem round_up_iff (hhere : fs.listing here = some es₀) (hpairs : PairsDistinct fs)
    {p rest : Loc} {x : FileName} {es : Listing} (h : here = p ++ x :: rest)
    (hes : fs.listing p = some es) :
    round fs (n + 1) here (level rest) = .ok (level (x :: rest)) ↔
      ((∀ y ∈ es.names.takeWhile (· ≠ x), Passes fs n p (p ++ [x]) y ∧ Fits rest.length y) ∧
        Fits rest.length x) ∧ (cwdText (x :: rest)).length < pathMax := by
  have hl : here = (p ++ [x]) ++ rest := by simp [h]
  -- the directory and its entry
  obtain ⟨sub, hsub⟩ := FS.exists_listing_of_append (hl ▸ hhere)
  obtain ⟨st, hnode⟩ := FS.listing_eq_some.mp hsub
  have hfind : es.find x = some (.dir st sub) := by rw [← FS.node_concat hes, hnode]
  have hx : x ∈ es.names := (Listing.find_isSome_iff es).mp (by rw [hfind]; rfl)
  have hparent : fs.listing (p ++ [x]).dropLast = some es := by rwa [List.dropLast_concat]
  have hmiss : ∀ y ∈ es.names.takeWhile (· ≠ x),
      (Miss fs (n + 1) here (climb (rest.length + 1)) st y ↔
        Passes fs n p (p ++ [x]) y ∧ Fits rest.length y) := by
    intro y hy
    have hyx : y ≠ x := by simpa using List.mem_takeWhile_imp hy
    have hmem : y ∈ es.names := (List.takeWhile_prefix _).subset hy
    rw [Miss, stat_entry hhere hl, List.dropLast_concat, length_entry,
      passes_iff hpairs hes hmem hnode (by simpa using hyx), and_comm]
  have hhit : Hit fs (n + 1) here (climb (rest.length + 1)) st x ↔ Fits rest.length x := by
    have hstat : ((fs.resolve (n + 1) true p x.val).bind fun l' => (fs.node l').map Node.stat) =
        some st := by
      rw [FS.resolve_entry hes hfind (fun _ _ h => by cases h), Option.bind_some, hnode]
      rfl
    rw [Hit, stat_entry hhere hl, List.dropLast_concat, length_entry, hstat]
    simp
  rw [round_level hhere hl hnode hparent]
  split_ifs with hfit
  · have hno : ¬ Fits rest.length x := by
      rw [length_climb] at hfit
      rw [Fits]
      omega
    simp [hno]
  · rw [advance_eq_ok, ← forall₂_congr hmiss, ← hhit, ← search_eq_found_iff hx, cwdText_cons]
    constructor
    · rintro ⟨d, hd, hlen, heq⟩
      have hdx : d = x.val := by
        rw [level, Vars.mk.injEq, cwdText_cons] at heq
        exact (List.append_cancel_right heq.2).symm
      exact ⟨hdx ▸ hd, hdx ▸ hlen⟩
    · rintro ⟨hd, hlen⟩
      exact ⟨x.val, hd, hlen, by rw [level, cwdText_cons]; rfl⟩

/-- **A round at the root** finds nothing. -/
theorem round_root_iff (hhere : fs.listing here = some es₀) (hpairs : PairsDistinct fs) :
    round fs (n + 1) here (level here) = .error (.printed (cwdText here ++ [10])) ↔
      (∀ y ∈ fs.entries.names, Passes fs n [] [] y ∧ Fits here.length y) ∧
        (climb (here.length + 1)).length < pathMax := by
  have hroot : fs.node [] = some (.dir fs.rootStat fs.entries) := rfl
  have hes := fs.listing_root
  have hmiss : ∀ y ∈ fs.entries.names,
      (Miss fs (n + 1) here (climb (here.length + 1)) fs.rootStat y ↔
        Passes fs n [] [] y ∧ Fits here.length y) := by
    intro y hy
    rw [Miss, stat_entry hhere (List.nil_append _).symm, List.dropLast_nil, length_entry,
      passes_iff hpairs hes hy hroot (by simp), and_comm]
  rw [round_level hhere (List.nil_append _).symm hroot hes]
  split_ifs with hfit
  · have hno : ¬ (climb (here.length + 1)).length < pathMax := by omega
    simp [hno]
  · rw [advance_eq_printed, ← forall₂_congr hmiss, ← search_eq_missing_iff]
    simp [not_le.mp hfit]

end Rounds

/-! ### The whole loop -/

section Loop

variable {fs : FS} {n : ℕ} {here : Loc} {s s' : Vars} {t : Bytes}

/-- A round that neither fails nor overflows has searched a directory. -/
theorem exists_search_of_round {r : Except Outcome Vars} (h : round fs n here s = r)
    (hfail : ∀ c, r ≠ .error (.exit_err c)) (hover : r ≠ .error .overflow) :
    ∃ st udir, advance (s.cdir_path ++ slashUp) s.cwd
      (search fs n here (s.cdir_path ++ slashUp) st (Listing.dNames udir)) = r := by
  simp only [round] at h
  split at h
  case h_1 => exact absurd h.symm (hfail _)
  case h_2 st hst =>
    split_ifs at h
    · exact absurd h.symm hover
    · split at h
      case h_1 => exact absurd h.symm (hfail _)
      case h_2 udir hudir => exact ⟨st, udir, h⟩

theorem round_printed (h : round fs n here s = .error (.printed t)) : t = s.cwd ++ [10] := by
  obtain ⟨st, udir, hadv⟩ := exists_search_of_round h (by simp) (by simp)
  exact (advance_eq_printed.mp hadv).2

/-- A round puts one name in front. -/
theorem round_ok (h : round fs n here s = .ok s') :
    ∃ d, slash ∉ d ∧ s' = ⟨s.cdir_path ++ slashUp, d ++ slash :: s.cwd⟩ := by
  obtain ⟨st, udir, hadv⟩ := exists_search_of_round h (by simp) (by simp)
  obtain ⟨d, hd, -, rfl⟩ := advance_eq_ok.mp hadv
  rw [search_dNames] at hd
  obtain ⟨y, -, rfl, -⟩ := exists_hit_of_search hd
  exact ⟨y.val, y.property.2.1, rfl⟩

/-- What is printed in the end are names in front of what has been collected. -/
theorem exists_names_of_loop {k : ℕ} (h : loop fs n here k s = some (.printed t)) :
    ∃ names : List Bytes, (∀ c ∈ names, slash ∉ c) ∧ t = closed names ++ s.cwd ++ [10] := by
  induction k generalizing s with
  | zero => cases h
  | succ k ih =>
    rw [loop] at h
    cases hround : round fs n here s with
    | error o =>
      rw [hround] at h
      obtain rfl : o = .printed t := Option.some.inj h
      exact ⟨[], by simp, by simpa using round_printed hround⟩
    | ok s' =>
      rw [hround] at h
      obtain ⟨names, hfree, rfl⟩ := ih h
      obtain ⟨d, hd, rfl⟩ := round_ok hround
      refine ⟨names ++ [d], ?_, by simp⟩
      simpa [or_imp, forall_and, hd] using hfree

theorem cwdText_append (l l' : Loc) : cwdText (l ++ l') = cwdText l ++ cwdText l' := by
  rw [cwdText, List.map_append, closed_append, cwdText, cwdText]

/-- Below the root the right result means that the right name has been found. -/
theorem loop_up_iff {p rest : Loc} {x : FileName} (h : here = p ++ x :: rest) :
    (∃ k, loop fs (n + 1) here k (level rest) = some (.printed (cwdText here ++ [10]))) ↔
      round fs (n + 1) here (level rest) = .ok (level (x :: rest)) ∧
        ∃ k, loop fs (n + 1) here k (level (x :: rest)) =
          some (.printed (cwdText here ++ [10])) := by
  constructor
  · rintro ⟨k, hk⟩
    cases k with
    | zero => cases hk
    | succ k =>
      rw [loop] at hk
      cases hround : round fs (n + 1) here (level rest) with
      | error o =>
        -- the names of `p` and `x` would be missing
        rw [hround] at hk
        obtain rfl : o = _ := Option.some.inj hk
        have htext := List.append_cancel_right (round_printed hround)
        rw [h, cwdText_append, cwdText_cons, level] at htext
        have hlen := congrArg List.length htext
        simp only [List.length_append, List.length_cons] at hlen
        omega
      | ok s =>
        rw [hround] at hk
        obtain ⟨d, hd, rfl⟩ := round_ok hround
        obtain ⟨names, hfree, htext⟩ := exists_names_of_loop hk
        have hnames : names ++ [d] = (p ++ [x]).map Subtype.val := by
          refine closed_injective ?_ (fun _ => Loc.slash_notMem) ?_
          · simpa [or_imp, forall_and, hd] using hfree
          · have hclosed : closed (names ++ [d]) ++ cwdText rest =
                cwdText (p ++ [x]) ++ cwdText rest := by
              rw [← cwdText_append, List.append_assoc, List.singleton_append, ← h,
                List.append_cancel_right htext]
              simp [level]
            exact List.append_cancel_right hclosed
        have hdx : d = x.val := by
          rw [List.map_append] at hnames
          exact List.singleton_inj.mp (List.append_inj_right' hnames rfl)
        subst hdx
        have hlevel : level (x :: rest) = ⟨(level rest).cdir_path ++ slashUp,
            x.val ++ slash :: (level rest).cwd⟩ := by
          rw [level, cwdText_cons]
          rfl
        rw [hlevel]
        exact ⟨rfl, k, hk⟩
  · rintro ⟨hround, k, hk⟩
    exact ⟨k + 1, by rw [loop, hround]; exact hk⟩

/-- At the root the right result means that the loop ends there. -/
theorem loop_root_iff :
    (∃ k, loop fs n here k (level here) = some (.printed (cwdText here ++ [10]))) ↔
      round fs n here (level here) = .error (.printed (cwdText here ++ [10])) := by
  constructor
  · rintro ⟨k, hk⟩
    cases k with
    | zero => cases hk
    | succ k =>
      rw [loop] at hk
      cases hround : round fs n here (level here) with
      | error o =>
        rw [hround] at hk
        rw [Option.some.inj hk]
      | ok s =>
        -- the text only grows
        rw [hround] at hk
        obtain ⟨d, -, rfl⟩ := round_ok hround
        obtain ⟨names, -, htext⟩ := exists_names_of_loop hk
        have hlen := congrArg List.length htext
        simp only [level, List.length_append, List.length_cons] at hlen
        omega
  · exact fun hround => ⟨1, by rw [loop, hround]⟩

/-- The loop from any level, in terms of its rounds. -/
theorem loop_iff : ∀ {l rest : Loc}, here = l ++ rest →
    ((∃ k, loop fs (n + 1) here k (level rest) = some (.printed (cwdText here ++ [10]))) ↔
      (∀ p x r, l = p ++ x :: r →
        round fs (n + 1) here (level (r ++ rest)) = .ok (level (x :: r ++ rest))) ∧
      round fs (n + 1) here (level here) = .error (.printed (cwdText here ++ [10]))) := by
  intro l
  induction l using List.reverseRecOn with
  | nil =>
    intro rest h
    rw [List.nil_append] at h
    subst h
    simp [loop_root_iff]
  | append_singleton l y ih =>
    intro rest h
    rw [List.append_assoc, List.singleton_append] at h
    rw [loop_up_iff h, ih h, ← and_assoc]
    refine and_congr_left fun _ => ?_
    constructor
    · rintro ⟨hy, hrest⟩ p x r heq
      obtain rfl | ⟨r, z, rfl⟩ := r.eq_nil_or_concat
      · obtain ⟨rfl, hyx⟩ := List.append_inj' heq rfl
        rw [List.singleton_inj.mp hyx] at hy
        exact hy
      · rw [List.concat_eq_append, ← List.cons_append, ← List.append_assoc] at heq
        obtain ⟨hl, hyz⟩ := List.append_inj' heq rfl
        rw [List.concat_eq_append, ← List.singleton_inj.mp hyz]
        simpa using hrest p x r hl
    · intro hall
      refine ⟨hall l y [] rfl, fun p x r hl => ?_⟩
      simpa using hall p x (r ++ [y]) (by simp [hl])

end Loop

/-- `usr`. -/
def usr : FileName := ⟨[117, 115, 114], by decide⟩

/-- `bin`. -/
def bin : FileName := ⟨[98, 105, 110], by decide⟩

/-- `tmp`. -/
def tmp : FileName := ⟨[116, 109, 112], by decide⟩

/-- `/usr/bin`, with links to it and to nowhere that come late enough. -/
def sampleFS : FS where
  rootStat := ⟨1, 2⟩
  entries :=
    .dots false <| .dots true <|
      .dir usr ⟨1, 3⟩
        (.dots true <| .dots false <| .dir bin ⟨1, 4⟩ .nil <|
          .link tmp ⟨1, 5⟩ ⟨[98, 105, 110], by decide⟩ .nil)
      .nil
  distinct := by decide

/-- `tmp` in the root leads nowhere and comes before `usr`. -/
def danglingFS : FS where
  rootStat := ⟨1, 2⟩
  entries := .link tmp ⟨1, 5⟩ ⟨[98, 105, 110], by decide⟩ <| .dir usr ⟨1, 3⟩ .nil .nil
  distinct := by decide

end GetCwd

end Tlpiexer
