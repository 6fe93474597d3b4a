import Tlpiexer.Foundations.Path

/-!
# File systems

A file system is a finite tree of directories, files and symbolic links; a directory is the listing
of its entries in the order in which `readdir` delivers them, `.` and `..` among them. A file is
known by its location, the names on the way to it from the root.

## Path resolution

A path is walked through component by component (`FS.walk`): an empty component and `.` stay where
they are, `..` goes to the parent, a name to the entry, and a link in between is followed; whether
the last one is followed depends on the call. Every component needs a directory to start from, so
that a trailing slash, which leaves an empty component at the end, is only good for directories.

A link is followed by resolving its target from the directory it is in. Links may lead to
themselves, so the kernel gives up at some depth: the first argument of `FS.resolve` is the number
of paths that may be under way at the same time. It is a parameter, and what is proved holds for
each of its values.

## Main results

* `FileSystem.FS.resolve_append` — a path behind a directory is resolved from there
* `FileSystem.FS.resolve_entry`, `resolve_link` — an entry of the working directory
* `FileSystem.FS.resolve_path` — the canonical path of a location leads to it
-/

namespace FileSystem

open CString Path

/-! ### Trees -/

/-- A component that may be the name of a file. -/
def IsFileName (c : Bytes) : Prop := Proper c ∧ slash ∉ c ∧ (0 : UInt8) ∉ c

instance (c : Bytes) : Decidable (IsFileName c) :=
  inferInstanceAs (Decidable (Proper c ∧ slash ∉ c ∧ (0 : UInt8) ∉ c))

/-- The name of a file. -/
abbrev FileName := { c : Bytes // IsFileName c }

/-- What a symbolic link holds: a path, and not the empty one. -/
abbrev Target := { t : Bytes // t ≠ [] ∧ (0 : UInt8) ∉ t }

/-- Where a file is: the names on the way to it. -/
abbrev Loc := List FileName

/-- The part of a `struct stat` that identifies a file. -/
structure Stat where
  st_dev : ℕ
  st_ino : ℕ
  deriving DecidableEq, Repr

/-- The entries of a directory in the order of `readdir`. -/
inductive Listing
  | nil
  /-- `.`, or `..` for `true`. -/
  | dots (up : Bool) (rest : Listing)
  | file (name : FileName) (stat : Stat) (rest : Listing)
  | link (name : FileName) (stat : Stat) (target : Target) (rest : Listing)
  | dir (name : FileName) (stat : Stat) (sub rest : Listing)
  deriving DecidableEq

/-- What a name leads to. -/
inductive Node
  | file (stat : Stat)
  | link (stat : Stat) (target : Target)
  | dir (stat : Stat) (entries : Listing)
  deriving DecidableEq

def Node.stat : Node → Stat
  | .file st => st
  | .link st _ => st
  | .dir st _ => st

def Node.isDir : Node → Bool
  | .dir _ _ => true
  | _ => false

/-- The node is no symbolic link. -/
def Node.NotLink (m : Node) : Prop := ∀ st target, m ≠ .link st target

instance (m : Node) : Decidable m.NotLink :=
  match m with
  | .file _ => isTrue (fun _ _ h => by cases h)
  | .link st target => isFalse (fun h => h st target rfl)
  | .dir _ _ => isTrue (fun _ _ h => by cases h)

/-- The names in a directory. -/
def Listing.names : Listing → List FileName
  | .nil => []
  | .dots _ rest => rest.names
  | .file x _ rest => x :: rest.names
  | .link x _ _ rest => x :: rest.names
  | .dir x _ _ rest => x :: rest.names

/-- What `readdir` delivers as `d_name`, one after the other. -/
def Listing.dNames : Listing → List Bytes
  | .nil => []
  | .dots up rest => (if up then dotdot else dot) :: rest.dNames
  | .file x _ rest => x.val :: rest.dNames
  | .link x _ _ rest => x.val :: rest.dNames
  | .dir x _ _ rest => x.val :: rest.dNames

/-- `d_type`; everything that is neither a link nor a directory is a `file`. -/
inductive DType
  | file
  | lnk
  | dir
  deriving DecidableEq, Repr

/-- What `readdir` delivers as `d_name` and `d_type`, one after the other. -/
def Listing.dirents : Listing → List (Bytes × DType)
  | .nil => []
  | .dots up rest => (if up then dotdot else dot, .dir) :: rest.dirents
  | .file x _ rest => (x.val, .file) :: rest.dirents
  | .link x _ _ rest => (x.val, .lnk) :: rest.dirents
  | .dir x _ _ rest => (x.val, .dir) :: rest.dirents

/-- The entry of a name. -/
def Listing.find (x : FileName) : Listing → Option Node
  | .nil => none
  | .dots _ rest => rest.find x
  | .file y st rest => if y = x then some (.file st) else rest.find x
  | .link y st target rest => if y = x then some (.link st target) else rest.find x
  | .dir y st sub rest => if y = x then some (.dir st sub) else rest.find x

/-- No directory has two entries of one name. -/
def Listing.Distinct : Listing → Prop
  | .nil => True
  | .dots _ rest => rest.Distinct
  | .file x _ rest => x ∉ rest.names ∧ rest.Distinct
  | .link x _ _ rest => x ∉ rest.names ∧ rest.Distinct
  | .dir x _ sub rest => x ∉ rest.names ∧ sub.Distinct ∧ rest.Distinct

instance Listing.decidableDistinct : ∀ es : Listing, Decidable es.Distinct
  | .nil => inferInstanceAs (Decidable True)
  | .dots _ rest => rest.decidableDistinct
  | .file x _ rest =>
    have := rest.decidableDistinct
    inferInstanceAs (Decidable (x ∉ rest.names ∧ rest.Distinct))
  | .link x _ _ rest =>
    have := rest.decidableDistinct
    inferInstanceAs (Decidable (x ∉ rest.names ∧ rest.Distinct))
  | .dir x _ sub rest =>
    have := sub.decidableDistinct
    have := rest.decidableDistinct
    inferInstanceAs (Decidable (x ∉ rest.names ∧ sub.Distinct ∧ rest.Distinct))

/-- There is no link in a directory, nor below it. -/
def Listing.NoLinks : Listing → Prop
  | .nil => True
  | .dots _ rest => rest.NoLinks
  | .file _ _ rest => rest.NoLinks
  | .link _ _ _ _ => False
  | .dir _ _ sub rest => sub.NoLinks ∧ rest.NoLinks

/-- A file system: the root directory. -/
structure FS where
  rootStat : Stat
  entries : Listing
  distinct : entries.Distinct

/-- What lies below a node. -/
def Node.get : Node → Loc → Option Node
  | m, [] => some m
  | .dir _ es, x :: l => (es.find x).bind fun m => m.get l
  | .file _, _ :: _ => none
  | .link _ _, _ :: _ => none

namespace FS

variable (fs : FS)

/-- The node at a location. -/
def node (l : Loc) : Option Node := (Node.dir fs.rootStat fs.entries).get l

/-- The entries of the directory at a location. -/
def listing (l : Loc) : Option Listing :=
  match fs.node l with
  | some (.dir _ es) => some es
  | _ => none

/-! ### Path resolution -/

/-- One component of a path, seen from `l`. `follow` says whether a link is followed, and `jump`
where its target leads to. -/
def step (jump : Loc → Bytes → Option Loc) (follow : Bool) (l : Loc) (c : Bytes) : Option Loc :=
  match fs.listing l with
  | none => none
  | some es =>
    if c = [] ∨ c = dot then some l
    else if c = dotdot then some l.dropLast
    else if h : IsFileName c then
      match es.find ⟨c, h⟩ with
      | none => none
      | some (.link _ target) => if follow then jump l target.val else some (l ++ [⟨c, h⟩])
      | some _ => some (l ++ [⟨c, h⟩])
    else none

/-- The components of a path one after the other; `follow` is about the last of them. -/
def walk (jump : Loc → Bytes → Option Loc) (follow : Bool) : Loc → List Bytes → Option Loc
  | l, [] => some l
  | l, [c] => fs.step jump follow l c
  | l, c :: c' :: cs => (fs.step jump true l c).bind fun l' => walk jump follow l' (c' :: cs)

/-- The directory a path starts from. -/
def origin (cwd : Loc) (path : Bytes) : Loc := if path.head? = some slash then [] else cwd

/-- The location a path leads to, for a process in `cwd`. The bound is on the paths that are under
way at the same time. (Linux follows 40 links in one call, nested or one after the other; a path
with more of them one after the other is refused there and resolved here.) -/
def resolve : ℕ → Bool → Loc → Bytes → Option Loc
  | 0, _, _, _ => none
  | n + 1, follow, cwd, path =>
    if path = [] then none
    else fs.walk (resolve n true) follow (origin cwd path) (path.splitOn slash)

end FS

/-- The canonical path of a location. -/
def Loc.path (l : Loc) : Bytes := absolute (l.map Subtype.val)

/-! ### Kernel calls -/

namespace FS

variable (fs : FS) (n : ℕ) (cwd : Loc)

/-- `stat`. -/
def stat (path : Bytes) : Option Stat :=
  (fs.resolve n true cwd path).bind fun l => (fs.node l).map Node.stat

/-- `lstat`, with the type of the file. -/
def lstat (path : Bytes) : Option Node := (fs.resolve n false cwd path).bind fs.node

/-- `readlink`. -/
def readlink (path : Bytes) : Option Bytes :=
  match fs.lstat n cwd path with
  | some (.link _ target) => some target.val
  | _ => none

/-- `opendir`. -/
def opendir (path : Bytes) : Option Listing := (fs.resolve n true cwd path).bind fs.listing

/-- `chdir`: the new working directory. -/
def chdir (path : Bytes) : Option Loc :=
  (fs.resolve n true cwd path).bind fun l => (fs.listing l).map fun _ => l

end FS

/-! ### Nodes -/

theorem Node.exists_link {m : Node} (h : ¬ m.NotLink) : ∃ st target, m = .link st target := by
  simpa only [NotLink, not_forall, not_not] using h

theorem Node.get_append (m : Node) (l l' : Loc) : m.get (l ++ l') = (m.get l).bind (·.get l') := by
  induction l generalizing m with
  | nil => cases m <;> rfl
  | cons x l ih =>
    cases m with
    | file => rfl
    | link => rfl
    | dir st es =>
      simp only [List.cons_append, Node.get]
      cases es.find x with
      | none => rfl
      | some m => exact ih m

theorem Listing.find_isSome_iff {x : FileName} (es : Listing) :
    (es.find x).isSome ↔ x ∈ es.names := by
  -- an entry of the name `y` in front of `rest`
  have hentry : ∀ (y : FileName) (m : Node) (rest : Listing),
      ((rest.find x).isSome ↔ x ∈ rest.names) →
      ((if y = x then some m else rest.find x).isSome ↔ x ∈ y :: rest.names) := by
    intro y m rest ih
    by_cases h : y = x
    · simp [h]
    · simp [h, Ne.symm h, ih]
  induction es with
  | nil => simp [find, names]
  | dots _ rest ih => exact ih
  | file y st rest ih => exact hentry y (.file st) rest ih
  | link y st target rest ih => exact hentry y (.link st target) rest ih
  | dir y st sub rest _ ih => exact hentry y (.dir st sub) rest ih

/-- The type `readdir` delivers for a node. -/
def Node.dType : Node → DType
  | .file _ => .file
  | .link _ _ => .lnk
  | .dir _ _ => .dir

/-- `readdir` delivers every entry. -/
theorem Listing.mem_dirents {es : Listing} {x : FileName} {m : Node} (h : es.find x = some m) :
    (x.val, m.dType) ∈ es.dirents := by
  -- an entry of the name `y` in front of `rest`
  have hentry : ∀ {y : FileName} (m' : Node) {rest : Listing},
      (rest.find x = some m → (x.val, m.dType) ∈ rest.dirents) →
      (if y = x then some m' else rest.find x) = some m →
      (x.val, m.dType) ∈ (y.val, m'.dType) :: rest.dirents := by
    intro y m' rest ih h
    split_ifs at h with hyx
    · cases h
      rw [hyx]
      exact List.mem_cons_self
    · exact List.mem_cons_of_mem _ (ih h)
  induction es with
  | nil => cases h
  | dots _ rest ih => exact List.mem_cons_of_mem _ (ih h)
  | file y st rest ih => exact hentry (.file st) ih h
  | link y st target rest ih => exact hentry (.link st target) ih h
  | dir y st sub rest _ ih => exact hentry (.dir st sub) ih h

theorem Listing.Distinct.of_find {es sub : Listing} {x : FileName} {st : Stat} (h : es.Distinct)
    (hx : es.find x = some (.dir st sub)) : sub.Distinct := by
  induction es with
  | nil => cases hx
  | dots _ rest ih => exact ih h hx
  | file y _ rest ih =>
    rw [find] at hx
    split_ifs at hx
    · cases hx
    · exact ih h.2 hx
  | link y _ _ rest ih =>
    rw [find] at hx
    split_ifs at hx
    · cases hx
    · exact ih h.2 hx
  | dir y _ sub' rest _ ih =>
    rw [find] at hx
    split_ifs at hx
    · cases hx
      exact h.2.1
    · exact ih h.2.2 hx

/-- Everything in and below a directory. -/
def Listing.nodes : Listing → List (Loc × Node)
  | .nil => []
  | .dots _ rest => rest.nodes
  | .file x st rest => ([x], .file st) :: rest.nodes
  | .link x st target rest => ([x], .link st target) :: rest.nodes
  | .dir x st sub rest =>
    ([x], .dir st sub) :: (sub.nodes.map fun p => (x :: p.1, p.2)) ++ rest.nodes

theorem Listing.mem_nodes {es : Listing} : ∀ {x : FileName} {l : Loc} {m m' : Node},
    es.find x = some m → m.get l = some m' → (x :: l, m') ∈ es.nodes := by
  -- an entry with nothing below it, in front of others
  have hleaf : ∀ {y x : FileName} {l : Loc} {m p m' : Node} {rest : List (Loc × Node)}
      {o : Option Node}, (∀ z l', m.get (z :: l') = none) →
      (if y = x then some m else o) = some p → p.get l = some m' →
      (o = some p → (x :: l, m') ∈ rest) → (x :: l, m') ∈ ([y], m) :: rest := by
    intro y x l m p m' rest o hm h hget hrest
    split_ifs at h with hyx
    · cases h
      cases l with
      | nil =>
        rw [Node.get] at hget
        cases hget
        simp [hyx]
      | cons z l => rw [hm] at hget; cases hget
    · exact List.mem_cons_of_mem _ (hrest h)
  induction es with
  | nil => intro x l m m' h; cases h
  | dots _ rest ih => exact fun h => ih h
  | file y st rest ih =>
    exact fun h hget => hleaf (fun _ _ => rfl) h hget fun h' => ih h' hget
  | link y st target rest ih =>
    exact fun h hget => hleaf (fun _ _ => rfl) h hget fun h' => ih h' hget
  | dir y st sub rest ihsub ih =>
    intro x l m m' h hget
    rw [find] at h
    split_ifs at h with hyx
    · cases h
      subst hyx
      cases l with
      | nil => cases hget; simp [nodes]
      | cons z l =>
        obtain ⟨p, hp, hget⟩ := Option.bind_eq_some_iff.mp hget
        have hmem := ihsub hp hget
        exact List.mem_append_left _ (List.mem_cons_of_mem _ (List.mem_map.mpr ⟨_, hmem, rfl⟩))
    · exact List.mem_append_right _ (ih h hget)

namespace FS

variable {fs : FS} {n : ℕ} {cwd l : Loc} {es : Listing} {follow : Bool} {x : FileName} {m : Node}

theorem listing_eq_some : fs.listing l = some es ↔ ∃ st, fs.node l = some (.dir st es) := by
  rw [listing]
  split
  case h_1 st es' hnode => simp [hnode]
  case h_2 hno =>
    simp only [reduceCtorEq, false_iff, not_exists]
    exact fun st h => hno st es h

theorem listing_root (fs : FS) : fs.listing [] = some fs.entries :=
  listing_eq_some.mpr ⟨_, rfl⟩

/-- No directory has two entries of one name. -/
theorem distinct_of_node {st : Stat} (h : fs.node l = some (.dir st es)) : es.Distinct := by
  have hget : ∀ (l : Loc) {st' : Stat} {es' : Listing}, es'.Distinct →
      (Node.dir st' es').get l = some (.dir st es) → es.Distinct := by
    intro l
    induction l with
    | nil => intro st' es' hd h; cases h; exact hd
    | cons x l ih =>
      intro st' es' hd h
      obtain ⟨m, hm, hrest⟩ := Option.bind_eq_some_iff.mp h
      cases m with
      | file => cases l <;> cases hrest
      | link => cases l <;> cases hrest
      | dir => exact ih (hd.of_find hm) hrest
  exact hget l fs.distinct h

theorem node_concat (h : fs.listing l = some es) : fs.node (l ++ [x]) = es.find x := by
  obtain ⟨st, hnode⟩ := listing_eq_some.mp h
  rw [node, Node.get_append, ← node, hnode]
  simp only [Option.bind_some, Node.get]
  cases es.find x with
  | none => rfl
  | some m => cases m <;> rfl

/-- What lies somewhere lies in a directory. -/
theorem exists_listing_of_node_concat (h : fs.node (l ++ [x]) = some m) :
    ∃ es, fs.listing l = some es ∧ es.find x = some m := by
  have hl := h
  rw [node, Node.get_append, ← node] at hl
  obtain ⟨p, hp, hm⟩ := Option.bind_eq_some_iff.mp hl
  cases p with
  | file => simp [Node.get] at hm
  | link => simp [Node.get] at hm
  | dir st es =>
    have hes : fs.listing l = some es := listing_eq_some.mpr ⟨st, hp⟩
    exact ⟨es, hes, by rw [← node_concat hes, h]⟩

theorem exists_listing_dropLast (h : fs.listing l = some es) :
    ∃ es', fs.listing l.dropLast = some es' := by
  obtain rfl | ⟨l, x, rfl⟩ := l.eq_nil_or_concat
  · exact ⟨es, h⟩
  · obtain ⟨st, hnode⟩ := listing_eq_some.mp h
    rw [List.concat_eq_append] at hnode ⊢
    obtain ⟨es', hes', -⟩ := exists_listing_of_node_concat hnode
    exact ⟨es', by simpa using hes'⟩

/-- The directories on the way to a directory. -/
theorem exists_listing_of_append {l' : Loc} (h : fs.listing (l ++ l') = some es) :
    ∃ es', fs.listing l = some es' := by
  induction l' using List.reverseRecOn generalizing es with
  | nil => exact ⟨es, by simpa using h⟩
  | append_singleton l' x ih =>
    obtain ⟨es', hes'⟩ := exists_listing_dropLast h
    rw [← List.append_assoc, List.dropLast_concat] at hes'
    exact ih hes'

/-- Everything in a file system. -/
def nodes (fs : FS) : List (Loc × Node) := ([], .dir fs.rootStat fs.entries) :: fs.entries.nodes

/-- **A file system is finite.** -/
theorem mem_nodes (h : fs.node l = some m) : (l, m) ∈ fs.nodes := by
  cases l with
  | nil => cases h; simp [nodes]
  | cons x l =>
    obtain ⟨p, hp, hget⟩ := Option.bind_eq_some_iff.mp h
    exact List.mem_cons_of_mem _ (Listing.mem_nodes hp hget)

/-! ### Resolution -/

variable {jump : Loc → Bytes → Option Loc}

theorem step_stay (h : fs.listing l = some es) {c : Bytes} (hc : c = [] ∨ c = dot) :
    fs.step jump follow l c = some l := by
  simp [step, h, hc]

/-- Only directories are gone on from. -/
theorem exists_listing_of_step {c : Bytes} {l' : Loc} (h : fs.step jump follow l c = some l') :
    ∃ es, fs.listing l = some es := by
  cases hes : fs.listing l with
  | none => simp [step, hes] at h
  | some es => exact ⟨es, rfl⟩

theorem eq_of_step_nil {l' : Loc} (h : fs.step jump follow l [] = some l') : l = l' := by
  obtain ⟨es, hes⟩ := exists_listing_of_step h
  simpa [step_stay hes (.inl rfl)] using h

theorem step_dotdot (h : fs.listing l = some es) :
    fs.step jump follow l dotdot = some l.dropLast := by
  simp [step, h, dot, dotdot]

theorem not_dots (x : FileName) : ¬ (x.val = [] ∨ x.val = dot) ∧ x.val ≠ dotdot :=
  ⟨fun h => h.elim x.property.1.1 x.property.1.2.1, x.property.1.2.2⟩

theorem not_dot_or_dotdot (x : FileName) : ¬ (x.val = dot ∨ x.val = dotdot) := fun h =>
  h.elim x.property.1.2.1 x.property.1.2.2

theorem step_link {st : Stat} {target : Target} (h : fs.listing l = some es)
    (hx : es.find x = some (.link st target)) :
    fs.step jump follow l x.val = if follow then jump l target.val else some (l ++ [x]) := by
  simp only [step, h, (not_dots x).1, (not_dots x).2, if_false, x.property, dif_pos, hx]

theorem step_entry (h : fs.listing l = some es) (hx : es.find x = some m) (hm : m.NotLink) :
    fs.step jump follow l x.val = some (l ++ [x]) := by
  simp only [step, h, (not_dots x).1, (not_dots x).2, if_false, x.property, dif_pos, hx]
  cases m with
  | file => rfl
  | link st target => exact absurd rfl (hm st target)
  | dir => rfl

/-- What a component can do: stay, go up, enter an entry that is no link, or follow a link. -/
inductive Move (fs : FS) (jump : Loc → Bytes → Option Loc) (follow : Bool) (l : Loc) :
    Bytes → Loc → Prop
  | stay {c : Bytes} {es : Listing} : fs.listing l = some es → c = [] ∨ c = dot →
      Move fs jump follow l c l
  | up {es es' : Listing} : fs.listing l = some es → fs.listing l.dropLast = some es' →
      Move fs jump follow l dotdot l.dropLast
  | entry {x : FileName} {m : Node} {es : Listing} : fs.listing l = some es →
      es.find x = some m → m.NotLink → Move fs jump follow l x.val (l ++ [x])
  | link {x : FileName} {st : Stat} {target : Target} {l' : Loc} {es : Listing} :
      fs.listing l = some es → es.find x = some (.link st target) →
      (if follow then jump l target.val else some (l ++ [x])) = some l' →
      Move fs jump follow l x.val l'

theorem move_of_step {c : Bytes} {l' : Loc} (h : fs.step jump follow l c = some l') :
    Move fs jump follow l c l' := by
  obtain ⟨es, hes⟩ := exists_listing_of_step h
  by_cases hstay : c = [] ∨ c = dot
  · rw [step_stay hes hstay] at h
    cases h
    exact .stay hes hstay
  by_cases hup : c = dotdot
  · subst hup
    rw [step_dotdot hes] at h
    cases h
    obtain ⟨es', hes'⟩ := exists_listing_dropLast hes
    exact .up hes hes'
  by_cases hname : IsFileName c
  · obtain ⟨x, rfl⟩ : ∃ x : FileName, c = x.val := ⟨⟨c, hname⟩, rfl⟩
    cases hfind : es.find x with
    | none => simp [step, hes, hstay, hup, x.property, hfind] at h
    | some m =>
      by_cases hm : m.NotLink
      · rw [step_entry hes hfind hm] at h
        cases h
        exact .entry hes hfind hm
      · obtain ⟨st, target, rfl⟩ := Node.exists_link hm
        rw [step_link hes hfind] at h
        exact .link hes hfind h
  · simp [step, hes, hstay, hup, hname] at h

theorem walk_cons (l : Loc) (c : Bytes) {cs : List Bytes} (hcs : cs ≠ []) :
    fs.walk jump follow l (c :: cs) =
      (fs.step jump true l c).bind fun l' => fs.walk jump follow l' cs := by
  cases cs with
  | nil => exact absurd rfl hcs
  | cons c' cs => rfl

/-- Slashes alone lead nowhere else. -/
theorem walk_slashes (h : fs.listing l = some es) : ∀ {cs : List Bytes}, (∀ c ∈ cs, c = []) →
    fs.walk jump follow l cs = some l := by
  intro cs
  induction cs with
  | nil => exact fun _ => rfl
  | cons c cs ih =>
    intro hcs
    have hc : fs.step jump true l c = some l ∧ fs.step jump follow l c = some l :=
      ⟨step_stay h (.inl (hcs c (by simp))), step_stay h (.inl (hcs c (by simp)))⟩
    cases cs with
    | nil => exact hc.2
    | cons c' cs =>
      rw [walk_cons _ _ (by simp), hc.1, Option.bind_some]
      exact ih fun b hb => hcs b (by simp [hb])

/-- **Walking in two stretches.** -/
theorem walk_append {as bs : List Bytes} (hbs : bs ≠ []) : as ≠ [] → ∀ l : Loc,
    fs.walk jump follow l (as ++ bs) =
      (fs.walk jump true l as).bind fun l' => fs.walk jump follow l' bs := by
  intro has
  induction as with
  | nil => exact absurd rfl has
  | cons c as ih =>
    intro l
    cases as with
    | nil => exact walk_cons l c hbs
    | cons c' as =>
      rw [List.cons_append, walk_cons l c (by simp), walk_cons l c (by simp), Option.bind_assoc]
      exact congrArg _ (funext fun l' => ih (by simp) l')

theorem resolve_succ {path : Bytes} (h : path ≠ []) : fs.resolve (n + 1) follow cwd path =
    fs.walk (fs.resolve n true) follow (origin cwd path) (path.splitOn slash) := by
  simp [resolve, h]

theorem ne_nil_of_resolve {path : Bytes} (h : fs.resolve n follow cwd path = some l) :
    path ≠ [] ∧ 0 < n := by
  cases n with
  | zero => simp [resolve] at h
  | succ n =>
    refine ⟨fun hnil => ?_, Nat.succ_pos n⟩
    simp [resolve, hnil] at h

theorem exists_succ_of_resolve {path : Bytes} (h : fs.resolve n follow cwd path = some l) :
    ∃ k, n = k + 1 :=
  Nat.exists_eq_succ_of_ne_zero (ne_nil_of_resolve h).2.ne'

/-- **A path behind a directory is resolved from there.** -/
theorem resolve_append {p q : Bytes} (hp : fs.resolve n true cwd p = some l) (hq : q ≠ [])
    (hrel : q.head? ≠ some slash) :
    fs.resolve n follow cwd (p ++ slash :: q) = fs.resolve n follow l q := by
  have hne := (ne_nil_of_resolve hp).1
  obtain ⟨k, rfl⟩ := exists_succ_of_resolve hp
  have horigin : origin cwd (p ++ slash :: q) = origin cwd p := by
    rw [origin, origin, List.head?_append_of_ne_nil p hne]
  rw [resolve_succ hne] at hp
  rw [resolve_succ (by simp), horigin, List.splitOn_append_cons_self,
    walk_append (List.splitOn_ne_nil _ _) (List.splitOn_ne_nil _ _), hp, Option.bind_some,
    resolve_succ hq, origin, if_neg hrel]

theorem head?_ne_slash (x : FileName) : x.val.head? ≠ some slash := fun h =>
  x.property.2.1 (List.mem_of_mem_head? h)

theorem resolve_fileName (x : FileName) : fs.resolve (n + 1) follow l x.val =
    fs.step (fs.resolve n true) follow l x.val := by
  rw [resolve_succ x.property.1.1, origin, if_neg (head?_ne_slash x),
    List.splitOn_eq_singleton x.property.2.1, walk]

/-- **An entry of the working directory.** -/
theorem resolve_entry (h : fs.listing l = some es) (hx : es.find x = some m) (hm : m.NotLink) :
    fs.resolve (n + 1) follow l x.val = some (l ++ [x]) := by
  rw [resolve_fileName, step_entry h hx hm]

theorem resolve_link {st : Stat} {target : Target} (h : fs.listing l = some es)
    (hx : es.find x = some (.link st target)) : fs.resolve (n + 1) follow l x.val =
      if follow then fs.resolve n true l target.val else some (l ++ [x]) := by
  rw [resolve_fileName, step_link h hx]

/-- An entry that is no link to be followed is where its name leads. -/
theorem resolve_find (hn : 0 < n) (h : fs.listing l = some es) (hx : es.find x = some m)
    (hm : follow = true → m.NotLink) : fs.resolve n follow l x.val = some (l ++ [x]) := by
  obtain ⟨k, rfl⟩ := Nat.exists_eq_succ_of_ne_zero hn.ne'
  cases m with
  | file => exact resolve_entry h hx (fun _ _ h => by cases h)
  | dir => exact resolve_entry h hx (fun _ _ h => by cases h)
  | link st target =>
    cases follow with
    | false => exact resolve_link h hx
    | true => exact absurd rfl (hm rfl st target)

theorem resolve_dotdot (h : fs.listing l = some es) :
    fs.resolve (n + 1) follow l dotdot = some l.dropLast := by
  rw [resolve_succ (by decide), show dotdot.splitOn slash = [dotdot] by decide]
  exact step_dotdot h

theorem resolve_dot (h : fs.listing l = some es) : fs.resolve (n + 1) follow l dot = some l := by
  rw [resolve_succ (by decide), show dot.splitOn slash = [dot] by decide]
  exact step_stay h (.inr rfl)

/-- The names on the way to a location, walked through from a directory. -/
theorem walk_names : ∀ {l : Loc} {d : Loc}, l ≠ [] → fs.node (d ++ l) = some m →
    m.NotLink →
    fs.walk jump follow d (l.map Subtype.val) = some (d ++ l) := by
  intro l
  induction l with
  | nil => exact fun h => absurd rfl h
  | cons x l ih =>
    intro d _ hnode hm
    -- the entry `x` of `d`
    have hx : ∃ p, fs.node (d ++ [x]) = some p ∧ p.get l = some m := by
      rw [← List.singleton_append, ← List.append_assoc, node, Node.get_append, ← node] at hnode
      exact Option.bind_eq_some_iff.mp hnode
    obtain ⟨p, hp, hget⟩ := hx
    obtain ⟨es, hes, hfind⟩ := exists_listing_of_node_concat hp
    have hplink : p.NotLink := by
      rintro st target rfl
      cases l with
      | nil => exact hm st target (Option.some.inj hget).symm
      | cons y l => simp [Node.get] at hget
    have hstep : ∀ follow, fs.step jump follow d x.val = some (d ++ [x]) := by
      intro follow
      exact step_entry hes hfind hplink
    cases l with
    | nil => exact hstep follow
    | cons y l =>
      rw [List.map_cons, walk_cons _ _ (by simp), hstep, Option.bind_some,
        ih (by simp) (by simpa using hnode) hm]
      simp

end FS

/-! ### Where links end -/

namespace FS

variable {fs : FS} {n : ℕ} {cwd l l' : Loc} {es : Listing}

/-- A location where no link is left to follow. -/
def Ends (fs : FS) (l : Loc) : Prop := ∃ m, fs.node l = some m ∧ m.NotLink

theorem ends_of_listing (h : fs.listing l = some es) : fs.Ends l := by
  obtain ⟨st, hnode⟩ := listing_eq_some.mp h
  exact ⟨_, hnode, fun _ _ h => by simp at h⟩

theorem ends_of_step {jump : Loc → Bytes → Option Loc}
    (hjump : ∀ l target l', jump l target = some l' → fs.Ends l')
    {c : Bytes} (h : fs.step jump true l c = some l') : fs.Ends l' := by
  cases move_of_step h with
  | stay hes => exact ends_of_listing hes
  | up _ hes => exact ends_of_listing hes
  | entry hes hfind hm => exact ⟨_, by rw [node_concat hes, hfind], hm⟩
  | link _ _ hjump' => exact hjump _ _ _ (by simpa using hjump')

theorem ends_of_walk {jump : Loc → Bytes → Option Loc}
    (hjump : ∀ l target l', jump l target = some l' → fs.Ends l') :
    ∀ {cs : List Bytes} {l : Loc}, cs ≠ [] → fs.walk jump true l cs = some l' → fs.Ends l' := by
  intro cs
  induction cs with
  | nil => exact fun h => absurd rfl h
  | cons c cs ih =>
    intro l _ h
    cases cs with
    | nil => exact ends_of_step hjump h
    | cons c' cs =>
      rw [walk_cons _ _ (by simp)] at h
      obtain ⟨l₁, -, hrest⟩ := Option.bind_eq_some_iff.mp h
      exact ih (by simp) hrest

/-- **A path whose links are followed** does not end at one. -/
theorem ends_of_resolve {path : Bytes} (h : fs.resolve n true cwd path = some l) :
    fs.Ends l := by
  induction n generalizing cwd path l with
  | zero => simp [resolve] at h
  | succ n ih =>
    rw [resolve_succ (ne_nil_of_resolve h).1] at h
    exact ends_of_walk (fun _ _ _ hl => ih hl) (List.splitOn_ne_nil _ _) h

end FS

/-! ### Links at the end of a path -/

namespace FS

variable {fs : FS} {n : ℕ} {cwd l l' : Loc} {m : Node} {st : Stat} {target : Target} {path : Bytes}
  {jump : Loc → Bytes → Option Loc}

/-- Where the target of the link at a location leads to, itself not followed. -/
def leads (fs : FS) (n : ℕ) (l : Loc) : Option Loc :=
  match fs.node l with
  | some (.link _ target) => fs.resolve n false l.dropLast target.val
  | _ => none

theorem leads_of_link (h : fs.node l = some (.link st target)) :
    fs.leads n l = fs.resolve n false l.dropLast target.val := by
  simp [leads, h]

theorem not_link_of_listing {es : Listing} (h : fs.listing l = some es) :
    fs.node l ≠ some (.link st target) := by
  obtain ⟨st', hnode⟩ := listing_eq_some.mp h
  rw [hnode]
  simp

/-- A component that is a link is the name of an entry, and followed it leads where the target
does. -/
theorem step_of_link {c : Bytes} (h : fs.step jump false l c = some l')
    (hl : fs.node l' = some (.link st target)) :
    (∃ x : FileName, c = x.val ∧ l' = l ++ [x]) ∧
      fs.step jump true l c = jump l target.val := by
  cases move_of_step h with
  | stay hes => exact absurd hl (not_link_of_listing hes)
  | up _ hes => exact absurd hl (not_link_of_listing hes)
  | entry hes hfind hm =>
    rw [node_concat hes, hfind] at hl
    exact absurd (Option.some.inj hl) (hm st target)
  | @link x _ _ _ _ hes hfind hl' =>
    obtain rfl : l ++ [x] = l' := by simpa using hl'
    rw [node_concat hes, hfind] at hl
    cases hl
    exact ⟨⟨x, rfl, rfl⟩, by rw [step_link hes hfind, if_pos rfl]⟩

theorem step_of_notLink {c : Bytes} (h : fs.step jump false l c = some l')
    (hl : fs.node l' = some m) (hm : m.NotLink) : fs.step jump true l c = some l' := by
  cases move_of_step h with
  | stay hes hc => exact step_stay hes hc
  | up hes => exact step_dotdot hes
  | entry hes hfind hm' => exact step_entry hes hfind hm'
  | @link x st target _ _ hes hfind hl' =>
    obtain rfl : l ++ [x] = l' := by simpa using hl'
    rw [node_concat hes, hfind] at hl
    exact absurd (Option.some.inj hl).symm (hm st target)

theorem walk_concat {follow : Bool} (l : Loc) (cs : List Bytes) (c : Bytes) :
    fs.walk jump follow l (cs ++ [c]) =
      (fs.walk jump true l cs).bind fun l' => fs.step jump follow l' c := by
  by_cases hcs : cs = []
  · subst hcs
    rfl
  · exact walk_append (by simp) hcs l

theorem exists_node_of_step {c : Bytes} (h : fs.step jump false l c = some l') :
    ∃ m, fs.node l' = some m := by
  cases move_of_step h with
  | stay hes => exact (listing_eq_some.mp hes).imp' _ fun _ hnode => hnode
  | up _ hes => exact (listing_eq_some.mp hes).imp' _ fun _ hnode => hnode
  | entry hes hfind => exact ⟨_, by rw [node_concat hes, hfind]⟩
  | @link x _ _ _ _ hes hfind hl' =>
    obtain rfl : l ++ [x] = l' := by simpa using hl'
    exact ⟨_, by rw [node_concat hes, hfind]⟩

/-- Paths lead to what is there. -/
theorem exists_node_of_resolve (h : fs.resolve n false cwd path = some l) :
    ∃ m, fs.node l = some m := by
  have hne := (ne_nil_of_resolve h).1
  obtain ⟨k, rfl⟩ := exists_succ_of_resolve h
  rw [resolve_succ hne] at h
  obtain hnil | ⟨cs, c, hsplit⟩ := (path.splitOn slash).eq_nil_or_concat
  · exact absurd hnil (List.splitOn_ne_nil _ _)
  · rw [hsplit, List.concat_eq_append, walk_concat] at h
    obtain ⟨l₁, -, hstep⟩ := Option.bind_eq_some_iff.mp h
    exact exists_node_of_step hstep

/-- A path that ends at a link: its last component is the name of the link. -/
theorem exists_of_resolve_link (h : fs.resolve (n + 1) false cwd path = some l')
    (hl : fs.node l' = some (.link st target)) :
    ∃ (cs : List Bytes) (x : FileName) (l : Loc), path.splitOn slash = cs ++ [x.val] ∧
      l' = l ++ [x] ∧ fs.walk (fs.resolve n true) true (origin cwd path) cs = some l := by
  rw [resolve_succ (ne_nil_of_resolve h).1] at h
  obtain hnil | ⟨cs, c, hsplit⟩ := (path.splitOn slash).eq_nil_or_concat
  · exact absurd hnil (List.splitOn_ne_nil _ _)
  · rw [hsplit, List.concat_eq_append, walk_concat] at h
    obtain ⟨l, hwalk, hstep⟩ := Option.bind_eq_some_iff.mp h
    obtain ⟨⟨x, rfl, hx⟩, -⟩ := step_of_link hstep hl
    exact ⟨cs, x, l, by rw [hsplit, List.concat_eq_append], hx, hwalk⟩

/-- Followed, such a path leads where the target does. -/
theorem resolve_of_link (h : fs.resolve (n + 1) false cwd path = some l')
    (hl : fs.node l' = some (.link st target)) :
    fs.resolve (n + 1) true cwd path = fs.resolve n true l'.dropLast target.val := by
  have hne := (ne_nil_of_resolve h).1
  obtain ⟨cs, x, l, hsplit, rfl, hwalk⟩ := exists_of_resolve_link h hl
  rw [resolve_succ hne, hsplit, walk_concat, hwalk, Option.bind_some] at h
  rw [resolve_succ hne, hsplit, walk_concat, hwalk, Option.bind_some, (step_of_link h hl).2,
    List.dropLast_concat]

/-- A path that does not end at a link leads to the same place when followed. -/
theorem resolve_of_notLink (h : fs.resolve n false cwd path = some l) (hl : fs.node l = some m)
    (hm : m.NotLink) : fs.resolve n true cwd path = some l := by
  have hne := (ne_nil_of_resolve h).1
  obtain ⟨k, rfl⟩ := exists_succ_of_resolve h
  rw [resolve_succ hne] at h ⊢
  obtain hnil | ⟨cs, c, hsplit⟩ := (path.splitOn slash).eq_nil_or_concat
  · exact absurd hnil (List.splitOn_ne_nil _ _)
  · rw [hsplit, List.concat_eq_append, walk_concat] at h ⊢
    obtain ⟨l₁, hwalk, hstep⟩ := Option.bind_eq_some_iff.mp h
    rw [hwalk, Option.bind_some, step_of_notLink hstep hl hm]

end FS

/-! ### Depths -/

namespace FS

variable {fs : FS} {n k : ℕ} {cwd l l' : Loc} {follow : Bool} {path : Bytes}

theorem step_mono {jump jump' : Loc → Bytes → Option Loc}
    (hjump : ∀ l t l', jump l t = some l' → jump' l t = some l') {c : Bytes}
    (h : fs.step jump follow l c = some l') : fs.step jump' follow l c = some l' := by
  cases move_of_step h with
  | stay hes hc => exact step_stay hes hc
  | up hes => exact step_dotdot hes
  | entry hes hfind hm => exact step_entry hes hfind hm
  | link hes hfind hl' =>
    rw [step_link hes hfind]
    cases follow with
    | true => exact hjump _ _ _ hl'
    | false => exact hl'

theorem walk_mono {jump jump' : Loc → Bytes → Option Loc}
    (hjump : ∀ l t l', jump l t = some l' → jump' l t = some l') :
    ∀ {cs : List Bytes} {l : Loc}, fs.walk jump follow l cs = some l' →
      fs.walk jump' follow l cs = some l' := by
  intro cs
  induction cs with
  | nil => exact fun h => h
  | cons c cs ih =>
    intro l h
    cases cs with
    | nil => exact step_mono hjump h
    | cons c' cs =>
      rw [walk_cons _ _ (by simp)] at h ⊢
      obtain ⟨l₁, hstep, hrest⟩ := Option.bind_eq_some_iff.mp h
      rw [step_mono hjump hstep, Option.bind_some, ih hrest]

/-- **A kernel that follows more links** resolves more paths. -/
theorem resolve_mono (hnk : n ≤ k) (h : fs.resolve n follow cwd path = some l) :
    fs.resolve k follow cwd path = some l := by
  induction n generalizing k follow cwd path l with
  | zero => cases h
  | succ n ih =>
    obtain ⟨k, rfl⟩ : ∃ k', k = k' + 1 := ⟨k - 1, by omega⟩
    have hne := (ne_nil_of_resolve h).1
    rw [resolve_succ hne] at h ⊢
    exact walk_mono (fun _ _ _ hl => ih (by omega) hl) h

/-- The path leads to `l`, however many links it takes. -/
def Names (fs : FS) (cwd : Loc) (path : Bytes) (l : Loc) : Prop :=
  ∃ n, fs.resolve n true cwd path = some l

end FS

theorem Loc.slash_notMem {l : Loc} {c : Bytes} (hc : c ∈ l.map Subtype.val) : slash ∉ c := by
  obtain ⟨x, -, rfl⟩ := List.mem_map.mp hc
  exact x.property.2.1

theorem Loc.path_ne_nil (l : Loc) : l.path ≠ [] := by
  cases l <;> simp [Loc.path, absolute]

theorem Loc.zero_notMem_path (l : Loc) : (0 : UInt8) ∉ l.path := by
  rw [Loc.path, absolute]
  split_ifs
  · decide
  · intro h0
    obtain ⟨c, hc, hmem⟩ := List.mem_flatMap.mp h0
    obtain ⟨x, -, rfl⟩ := List.mem_map.mp hc
    rcases List.mem_cons.mp hmem with hslash | hmem
    · exact absurd hslash (by decide)
    · exact x.property.2.2 hmem

theorem Loc.splitOn_path {l : Loc} (h : l ≠ []) :
    l.path.splitOn slash = [] :: l.map Subtype.val := by
  have hfree : ∀ c ∈ ([] : Bytes) :: l.map Subtype.val, slash ∉ c := by
    intro c hc
    rcases List.mem_cons.mp hc with rfl | hc
    · simp
    · exact Loc.slash_notMem hc
  rw [Loc.path, absolute, if_neg (mt List.map_eq_nil_iff.mp h)]
  simpa using splitOn_slashed hfree

namespace FS

variable {fs : FS} {n : ℕ} {cwd l : Loc} {follow : Bool} {m : Node}

/-- **The canonical path of a location leads to it.** -/
theorem resolve_path (h : fs.node l = some m) (hm : m.NotLink) :
    fs.resolve (n + 1) follow cwd l.path = some l := by
  have hroot := fs.listing_root
  have horigin : origin cwd l.path = [] := by
    rw [origin, if_pos]
    cases l <;> simp [Loc.path, absolute]
  rw [resolve_succ l.path_ne_nil, horigin]
  by_cases hl : l = []
  · subst hl
    exact walk_slashes hroot (by decide)
  · rw [Loc.splitOn_path hl, walk_cons _ _ (mt List.map_eq_nil_iff.mp hl),
      step_stay hroot (.inl rfl), Option.bind_some, walk_names hl (by simpa using h) hm,
      List.nil_append]

end FS

/-! ### Paths without links -/

namespace FS

variable {fs : FS} {n : ℕ} {cwd d l l' : Loc} {cs : List Bytes} {path : Bytes}

/-- The path leads to `l`, and there is no link to follow on the way, nor at the end. -/
def Direct (fs : FS) (cwd : Loc) (path : Bytes) (l : Loc) : Prop :=
  fs.resolve 1 true cwd path = some l

instance : Decidable (fs.Direct cwd path l) :=
  inferInstanceAs (Decidable (fs.resolve 1 true cwd path = some l))

/-- Without links a component does what it says. -/
theorem step_direct {c : Bytes} (h : fs.step (fs.resolve 0 true) true l c = some l') :
    (∀ jump follow, fs.step jump follow l c = some l') ∧
      l'.map Subtype.val = push (l.map Subtype.val) c := by
  cases move_of_step h with
  | stay hes hc =>
    refine ⟨fun _ _ => step_stay hes hc, ?_⟩
    rcases hc with rfl | rfl
    · rw [push_nil]
    · rw [push_dot]
  | up hes => exact ⟨fun _ _ => step_dotdot hes, by rw [push_dotdot, List.map_dropLast]⟩
  | @entry x _ _ hes hfind hm =>
    refine ⟨fun _ _ => step_entry hes hfind hm, ?_⟩
    rw [push_of_proper x.property.1, List.map_append]
    rfl
  | link _ _ hjump => cases hjump

theorem walk_direct : ∀ {cs : List Bytes} {d : Loc},
    fs.walk (fs.resolve 0 true) true d cs = some l →
    (∀ jump follow, fs.walk jump follow d cs = some l) ∧
      l.map Subtype.val = cs.foldl push (d.map Subtype.val) := by
  intro cs
  induction cs with
  | nil =>
    intro d h
    cases h
    exact ⟨fun _ _ => rfl, rfl⟩
  | cons c cs ih =>
    intro d h
    cases cs with
    | nil => exact step_direct h
    | cons c' cs =>
      rw [walk_cons _ _ (by simp)] at h
      obtain ⟨l₁, hstep, hrest⟩ := Option.bind_eq_some_iff.mp h
      obtain ⟨hany, hmap⟩ := step_direct hstep
      obtain ⟨hany', hmap'⟩ := ih hrest
      refine ⟨fun jump follow => ?_, by rw [hmap', hmap]; rfl⟩
      rw [walk_cons _ _ (by simp), hany, Option.bind_some, hany']

/-- A path without links leads to the same place for every kernel and every call. -/
theorem Direct.resolve (h : fs.Direct cwd path l) (follow : Bool) :
    fs.resolve (n + 1) follow cwd path = some l := by
  have hne := (ne_nil_of_resolve h).1
  rw [Direct, resolve_succ hne] at h
  rw [resolve_succ hne, (walk_direct h).1]

theorem Direct.names (h : fs.Direct cwd path l) : fs.Names cwd path l := ⟨1, h⟩

/-- A path without links is no link. -/
theorem Direct.lstat_ne (h : fs.Direct cwd path l) (st : Stat) (target : Target) :
    fs.lstat n cwd path ≠ some (.link st target) := by
  obtain ⟨m, hnode, hm⟩ := ends_of_resolve h
  cases n with
  | zero => simp [lstat, FS.resolve]
  | succ n =>
    rw [lstat, h.resolve, Option.bind_some, hnode]
    exact fun heq => hm st target (Option.some.inj heq)

/-- What stands before a slash in a path without links has none either. -/
theorem Direct.of_append {p q : Bytes} (h : fs.Direct cwd (p ++ slash :: q) l) (hp : p ≠ []) :
    ∃ l', fs.Direct cwd p l' := by
  have horigin : origin cwd (p ++ slash :: q) = origin cwd p := by
    rw [origin, origin, List.head?_append_of_ne_nil p hp]
  rw [Direct, resolve_succ (by simp), horigin, List.splitOn_append_cons_self,
    walk_append (List.splitOn_ne_nil _ _) (List.splitOn_ne_nil _ _)] at h
  obtain ⟨l', hl', -⟩ := Option.bind_eq_some_iff.mp h
  exact ⟨l', by rw [Direct, resolve_succ hp, hl']⟩

end FS

end FileSystem
