import Mathlib.Data.List.Basic
import Mathlib.Data.List.Induction
import Tlpiexer.Foundations.CString

/-!
# Paths

A directory is known by the names on the way to it from the root; a path is a string of names with
slashes between them. More than one string leads to the same directory, since slashes may be
repeated, so the relation between the two is `Names`, not equality of strings.

## Main results

* `Path.names_append` — a path, a slash and a name
* `Path.names_render` — the canonical path
* `Path.Names.unique` — a path names one directory
* `Path.normal_normalForm` — a normal form has neither empty nor dot components
-/

namespace Path

open CString

/-- `/`. -/
def slash : UInt8 := 47

/-- The name of an entry of a directory: not empty, and without slash and NUL. -/
abbrev Name := { b : Bytes // b ≠ [] ∧ slash ∉ b ∧ (0 : UInt8) ∉ b }

/-- A directory: the names on the way to it. -/
abbrev Dir := List Name

/-- The names in a path. -/
def components (p : Bytes) : List Bytes := (p.splitOn slash).filter (· ≠ [])

/-- The path `p` leads to the directory `d`. -/
def Names (p : Bytes) (d : Dir) : Prop := components p = d.map Subtype.val

instance (p : Bytes) (d : Dir) : Decidable (Names p d) :=
  inferInstanceAs (Decidable (components p = d.map Subtype.val))

/-- The canonical path of a directory. -/
def render (d : Dir) : Bytes := if d = [] then [slash] else d.flatMap fun n => slash :: n.val

theorem components_append_slash (p : Bytes) (n : Name) :
    components (p ++ slash :: n.val) = components p ++ [n.val] := by
  have hname : n.val.splitOn slash = [n.val] := List.splitOn_eq_singleton n.property.2.1
  rw [components, List.splitOn_append_cons_self, hname, List.filter_append, components]
  simp [n.property.1]

theorem mem_of_mem_splitOn {p c : Bytes} (hc : c ∈ p.splitOn slash) : slash ∉ c ∧ c ⊆ p := by
  induction p generalizing c with
  | nil =>
    rw [List.splitOn_nil, List.mem_singleton] at hc
    simp [hc]
  | cons b p ih =>
    rw [List.splitOn_cons_eq_if_modifyHead] at hc
    split at hc
    case isTrue =>
      rcases List.mem_cons.mp hc with rfl | hc
      · simp
      · exact ⟨(ih hc).1, List.subset_cons_of_subset b (ih hc).2⟩
    case isFalse hb =>
      have hb' : slash ≠ b := by simpa using Ne.symm (by simpa using hb)
      cases hsplit : p.splitOn slash with
      | nil => exact absurd hsplit (List.splitOn_ne_nil _ _)
      | cons c₀ cs =>
        rw [hsplit, List.modifyHead_cons] at hc
        rcases List.mem_cons.mp hc with rfl | hc
        · obtain ⟨hfree, hsub⟩ := ih (hsplit ▸ List.mem_cons_self)
          exact ⟨by simp [hb', hfree], List.cons_subset_cons b hsub⟩
        · obtain ⟨hfree, hsub⟩ := ih (c := c) (by rw [hsplit]; exact List.mem_cons_of_mem _ hc)
          exact ⟨hfree, List.subset_cons_of_subset b hsub⟩

/-- **A path, a slash and a name** lead to the entry of that name. -/
theorem names_append {p : Bytes} {d : Dir} (h : Names p d) (n : Name) :
    Names (p ++ slash :: n.val) (d ++ [n]) := by
  rw [Names, components_append_slash, show components p = _ from h, List.map_append]
  rfl

theorem Names.unique {p : Bytes} {d d' : Dir} (h : Names p d) (h' : Names p d') : d = d' :=
  List.map_injective_iff.mpr Subtype.val_injective (h.symm.trans h')

/-- **The canonical path.** -/
theorem names_render (d : Dir) : Names (render d) d := by
  -- the names one after the other, behind an empty path
  have hflat : ∀ d : Dir, components (d.flatMap fun n => slash :: n.val) = d.map Subtype.val := by
    intro d
    induction d using List.reverseRecOn with
    | nil => rfl
    | append_singleton d n ih =>
      rw [List.flatMap_append, List.flatMap_singleton, components_append_slash, ih, List.map_append]
      rfl
  rw [render]
  split
  case isTrue hnil =>
    subst hnil
    decide
  case isFalse => exact hflat d

/-! ### Lexical normal forms -/

/-- `.` as a character. -/
def period : UInt8 := 46

/-- `.` as a component. -/
def dot : Bytes := [period]

/-- `..`. -/
def dotdot : Bytes := [period, period]

/-- A component that is neither empty nor made of dots only: it stands for an entry. -/
def Proper (c : Bytes) : Prop := c ≠ [] ∧ c ≠ dot ∧ c ≠ dotdot

instance (c : Bytes) : Decidable (Proper c) :=
  inferInstanceAs (Decidable (c ≠ [] ∧ c ≠ dot ∧ c ≠ dotdot))

/-- What a component makes of the names in front of it: an empty one and `.` leave them, `..`
cancels the last of them, if there is one, and a name is added. -/
def push (names : List Bytes) (c : Bytes) : List Bytes :=
  if c = [] ∨ c = dot then names else if c = dotdot then names.dropLast else names ++ [c]

/-- The names that are left of a list of components. -/
def normalize (cs : List Bytes) : List Bytes := cs.foldl push []

/-- Names one after the other, a slash in front of each. -/
def slashed (names : List Bytes) : Bytes := names.flatMap fun c => slash :: c

/-- The absolute path of a list of names. -/
def absolute (names : List Bytes) : Bytes := if names = [] then [slash] else slashed names

/-- The lexical normal form of a path. -/
def normalForm (p : Bytes) : Bytes := absolute (normalize (p.splitOn slash))

@[simp] theorem slashed_nil : slashed [] = [] := rfl

@[simp] theorem slashed_append (l l' : List Bytes) : slashed (l ++ l') = slashed l ++ slashed l' :=
  List.flatMap_append

@[simp] theorem slashed_cons (c : Bytes) (l : List Bytes) :
    slashed (c :: l) = slash :: c ++ slashed l :=
  List.flatMap_cons

@[simp] theorem push_nil (names : List Bytes) : push names [] = names := rfl

@[simp] theorem push_dot (names : List Bytes) : push names dot = names := rfl

@[simp] theorem push_dotdot (names : List Bytes) : push names dotdot = names.dropLast := rfl

theorem push_of_proper {c : Bytes} (h : Proper c) (names : List Bytes) :
    push names c = names ++ [c] := by
  simp [push, h.1, h.2.1, h.2.2]

theorem proper_of_mem_push {names : List Bytes} (h : ∀ c ∈ names, Proper c) {b c : Bytes}
    (hc : c ∈ push names b) : Proper c := by
  rw [push] at hc
  split at hc
  case isTrue => exact h c hc
  case isFalse hb =>
    split at hc
    case isTrue => exact h c (List.dropLast_subset _ hc)
    case isFalse hb' =>
      rcases List.mem_append.mp hc with hold | hnew
      · exact h c hold
      · rw [List.mem_singleton.mp hnew]
        exact ⟨fun h0 => hb (.inl h0), fun h1 => hb (.inr h1), hb'⟩

theorem proper_of_mem_normalize (cs : List Bytes) : ∀ c ∈ normalize cs, Proper c := by
  have hfold : ∀ (cs names : List Bytes), (∀ c ∈ names, Proper c) →
      ∀ c ∈ cs.foldl push names, Proper c := by
    intro cs
    induction cs with
    | nil => exact fun names h => h
    | cons b cs ih => exact fun names h => ih _ fun c hc => proper_of_mem_push h hc
  exact hfold cs [] (by simp)

theorem foldl_push_of_proper {cs : List Bytes} (h : ∀ c ∈ cs, Proper c) (names : List Bytes) :
    cs.foldl push names = names ++ cs := by
  induction cs generalizing names with
  | nil => simp
  | cons b cs ih =>
    rw [List.foldl_cons, push_of_proper (h b (by simp)), ih fun c hc => h c (by simp [hc])]
    simp

/-- The path is in normal form: the root, or names with a slash in front of each. -/
def Normal (p : Bytes) : Prop :=
  p = [slash] ∨ p.head? = some slash ∧ ∀ c ∈ p.tail.splitOn slash, Proper c

theorem splitOn_slashed {c : Bytes} {names : List Bytes} (h : ∀ a ∈ c :: names, slash ∉ a) :
    (c ++ slashed names).splitOn slash = c :: names := by
  induction names generalizing c with
  | nil => simpa using List.splitOn_eq_singleton (h c (by simp))
  | cons a names ih =>
    rw [slashed_cons, List.cons_append, List.splitOn_append_cons_self,
      List.splitOn_eq_singleton (h c (by simp)), ih fun b hb => h b (by simp [hb])]
    rfl

theorem slashed_eq_intercalate (c : Bytes) (cs : List Bytes) :
    slashed (c :: cs) = slash :: [slash].intercalate (c :: cs) := by
  induction cs generalizing c with
  | nil => simp
  | cons b cs ih => rw [slashed_cons, ih, List.intercalate_cons_cons]; simp

theorem slashed_splitOn (p : Bytes) : slashed (p.splitOn slash) = slash :: p := by
  have hp : [slash].intercalate (p.splitOn slash) = p := List.intercalate_splitOn slash
  cases hsplit : p.splitOn slash with
  | nil => exact absurd hsplit (List.splitOn_ne_nil _ _)
  | cons c cs => rw [slashed_eq_intercalate, ← hsplit, hp]

theorem intercalate_concat {cs : List Bytes} (hcs : cs ≠ []) (c : Bytes) :
    [slash].intercalate (cs ++ [c]) = [slash].intercalate cs ++ slash :: c := by
  induction cs with
  | nil => exact absurd rfl hcs
  | cons b cs ih =>
    cases cs with
    | nil => simp
    | cons b' cs =>
      rw [List.cons_append, List.intercalate_cons_of_ne_nil (by simp), ih (by simp),
        List.intercalate_cons_cons]
      simp

/-- An absolute path is cut at its last slash. -/
theorem exists_of_splitOn_concat {p c : Bytes} {cs : List Bytes} (habs : p.head? = some slash)
    (h : p.splitOn slash = cs ++ [c]) :
    ∃ D : Bytes, p = D ++ slash :: c ∧ D.splitOn slash = cs ∧ (D = [] ∨ D.head? = some slash) := by
  have hjoin : [slash].intercalate (cs ++ [c]) = p := by rw [← h, List.intercalate_splitOn]
  have hc : slash ∉ c := (mem_of_mem_splitOn (by rw [h]; simp)).1
  have hcs : cs ≠ [] := by
    rintro rfl
    rw [List.nil_append, List.intercalate_singleton] at hjoin
    exact hc (hjoin ▸ List.mem_of_mem_head? habs)
  have hp : p = [slash].intercalate cs ++ slash :: c := by rw [← hjoin, intercalate_concat hcs]
  refine ⟨_, hp, ?_, ?_⟩
  · rw [hp, List.splitOn_append_cons_self, List.splitOn_eq_singleton hc] at h
    exact List.append_cancel_right h
  · by_cases hnil : [slash].intercalate cs = []
    · exact .inl hnil
    · rw [hp, List.head?_append_of_ne_nil _ hnil] at habs
      exact .inr habs

theorem push_subset (names : List Bytes) (c : Bytes) : push names c ⊆ names ++ [c] := by
  rw [push]
  split_ifs
  · exact List.subset_append_left _ _
  · exact List.Subset.trans (List.dropLast_subset _) (List.subset_append_left _ _)
  · exact List.Subset.refl _

theorem normalize_subset (cs : List Bytes) : normalize cs ⊆ cs := by
  have hfold : ∀ (cs names : List Bytes), cs.foldl push names ⊆ names ++ cs := by
    intro cs
    induction cs with
    | nil => simp
    | cons b cs ih =>
      intro names c hc
      rcases List.mem_append.mp (ih _ hc) with hpush | hold
      · simpa using List.mem_append_left cs (push_subset names b hpush)
      · simp [hold]
  exact hfold cs []

/-- **A normal form has neither empty nor dot components.** -/
theorem normal_normalForm (p : Bytes) : Normal (normalForm p) := by
  have hproper := proper_of_mem_normalize (p.splitOn slash)
  have hfree : ∀ c ∈ normalize (p.splitOn slash), slash ∉ c := fun c hc =>
    (mem_of_mem_splitOn (normalize_subset _ hc)).1
  rw [normalForm, absolute]
  cases hnames : normalize (p.splitOn slash) with
  | nil => exact .inl rfl
  | cons c names =>
    rw [hnames] at hproper hfree
    refine .inr ⟨by simp, ?_⟩
    have htail : (slashed (c :: names)).tail = c ++ slashed names := by simp
    rw [if_neg (by simp), htail, splitOn_slashed hfree]
    exact hproper

end Path
