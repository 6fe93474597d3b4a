import Tlpiexer.Constants
import Tlpiexer.Foundations.Decimal
import Tlpiexer.Foundations.Forest

/-!
# The tree of processes

`ptree` of `src/imp/12-02.c`, which prints a process and then, one level deeper, everything in the
list whose parent it is.

## Termination

Nothing in the code stops a process from being printed below itself. What does is that the walk
starts at pid 0: whoever is printed was reached from there by following children, and since a
process has one parent only, it was reached in one way. Entries that are their own ancestors are
therefore never met. `ptree` recurses on a bound for the depth of the calls, and has no answer if it
is too small; `tree_printed` says that the length of the list is enough. `level` is an `int`, and an
overflow of it has no answer either.

## Main results

* `ProcTree.tree_printed` — what is printed
-/

namespace Tlpiexer

namespace ProcTree

open CString Decimal Forest

/-- `struct pinfo_t`, with the string that `name` holds. -/
structure PInfo where
  pid : ℤ
  ppid : ℤ
  name : Bytes
  deriving DecidableEq

/-- The first loop of `ptree`: four blanks for each level. -/
def indent : ℕ → Bytes
  | 0 => []
  | level + 1 => [32, 32, 32, 32] ++ indent level

/-- What `ptree` prints before it looks for children: the blanks, and `"%s - %i\n"`. -/
def display (level : ℕ) (p : PInfo) : Bytes :=
  indent level ++ (p.name ++ [32, 45, 32] ++ printLong p.pid ++ [10])

theorem indent_eq (level : ℕ) : indent level = List.replicate (4 * level) 32 := by
  induction level with
  | zero => rfl
  | succ level ih => rw [indent, ih, Nat.mul_succ, Nat.add_comm, List.replicate_add]; rfl

theorem display_eq (level : ℕ) (p : PInfo) : display level p =
    List.replicate (4 * level) 32 ++ p.name ++ [32, 45, 32] ++ printLong p.pid ++ [10] := by
  simp only [display, indent_eq, List.append_assoc]

/-- The second loop of `ptree`; `child` is the call for a child. -/
def ptreeLoop (child : PInfo → Option Bytes) (parent : PInfo) : List PInfo → Option Bytes
  | [] => some []
  | e :: es =>
    if e.pid = parent.pid ∨ e.ppid ≠ parent.pid then ptreeLoop child parent es
    else do
      let out ← child e
      let rest ← ptreeLoop child parent es
      some (out ++ rest)

/-- `ptree`, with calls at most `n` deep. -/
def ptree (list : List PInfo) : ℕ → ℕ → PInfo → Option Bytes
  | 0, _, _ => none
  | n + 1, level, parent => do
    let rest ← ptreeLoop
      (fun e => if level < intMax then ptree list n (level + 1) e else none) parent list
    some (display level parent ++ rest)

/-! ### What is to be printed -/

/-- The entries whose parent has the pid of `p`, in the order of the list. -/
def children (list : List PInfo) (p : PInfo) : List PInfo := list.filter fun e => e.ppid = p.pid

/-- The entries whose parent has pid 0. -/
def orphans (list : List PInfo) : List PInfo := list.filter fun e => e.ppid = 0

/-- From `e`, pid 0 is reached by following `k` links to parents. -/
inductive Links (list : List PInfo) : PInfo → ℕ → Prop
  | last {e : PInfo} (h : e.ppid = 0) : Links list e 1
  | next {e p : PInfo} {k : ℕ} (hp : p ∈ list) (h : e.ppid = p.pid) (hk : Links list p k) :
      Links list e (k + 1)

section Families

variable {list : List PInfo}

/-- Links upwards and generations downwards. -/
theorem depth_iff {e : PInfo} {k : ℕ} :
    Depth (children list) (orphans list) e k ↔ e ∈ list ∧ Links list e k := by
  constructor
  · intro h
    induction h with
    | root he =>
      obtain ⟨hmem, hppid⟩ := List.mem_filter.mp he
      exact ⟨hmem, .last (by simpa using hppid)⟩
    | child _ he ih =>
      obtain ⟨hmem, hppid⟩ := List.mem_filter.mp he
      exact ⟨hmem, .next ih.1 (by simpa using hppid) ih.2⟩
  · rintro ⟨hmem, hlinks⟩
    induction hlinks with
    | last h => exact .root (List.mem_filter.mpr ⟨hmem, by simpa using h⟩)
    | next hp h _ ih => exact .child (ih hp) (List.mem_filter.mpr ⟨hmem, by simpa using h⟩)

theorem mem_of_depth {e : PInfo} {k : ℕ} (h : Depth (children list) (orphans list) e k) :
    e ∈ list :=
  (depth_iff.mp h).1

/-- Distinct pids, none of them 0, make a family. -/
theorem family (hnd : (list.map PInfo.pid).Nodup) (hpid : ∀ e ∈ list, e.pid ≠ 0) :
    Family (children list) (orphans list) where
  parent := by
    intro p q e j k hp hq he he'
    have hpe := (List.mem_filter.mp he).2
    have hqe := (List.mem_filter.mp he').2
    simp only [decide_eq_true_eq] at hpe hqe
    exact List.inj_on_of_nodup_map hnd (mem_of_depth hp) (mem_of_depth hq) (hpe.symm.trans hqe)
  root := by
    intro p e k he hp hc
    have hzero := (List.mem_filter.mp he).2
    have hpe := (List.mem_filter.mp hc).2
    simp only [decide_eq_true_eq] at hzero hpe
    exact hpid p (mem_of_depth hp) (hpe.symm.trans hzero)
  nodup p := hnd.of_map.filter _
  nodup_roots := hnd.of_map.filter _

/-- A child is not its parent. -/
theorem pid_ne_of_child (hnd : (list.map PInfo.pid).Nodup) (hpid : ∀ e ∈ list, e.pid ≠ 0)
    {e parent : PInfo} {k : ℕ} (hp : Depth (children list) (orphans list) parent k)
    (he : e ∈ children list parent) : e.pid ≠ parent.pid := by
  intro heq
  obtain ⟨hmem, -⟩ := List.mem_filter.mp he
  obtain rfl : e = parent := List.inj_on_of_nodup_map hnd hmem (mem_of_depth hp) heq
  have := (family hnd hpid).depth_unique hp (.child hp he)
  omega

/-! ### What is printed -/

/-- The text of a forest. -/
def displayAll (F : Forest PInfo) (k : ℕ) : Bytes := (F.lines k).flatMap fun l => display l.1 l.2

theorem displayAll_node (e : PInfo) (below next : Forest PInfo) (k : ℕ) :
    displayAll (.node e below next) k =
      display k e ++ displayAll below (k + 1) ++ displayAll next k := by
  simp [displayAll, Forest.lines]

/-- The loop displays the forests of the children one after the other. -/
theorem exists_ptreeLoop {child : PInfo → Option Bytes} {parent : PInfo} {k : ℕ} (es : List PInfo)
    (h : ∀ e ∈ es, e.ppid = parent.pid → e.pid ≠ parent.pid ∧ ∃ B : Forest PInfo,
      B.roots = children list e ∧ B.Closed (children list) ∧
        child e = some (display k e ++ displayAll B (k + 1))) :
    ∃ F : Forest PInfo, F.roots = es.filter (fun e => e.ppid = parent.pid) ∧
      F.Closed (children list) ∧ ptreeLoop child parent es = some (displayAll F k) := by
  induction es with
  | nil => exact ⟨.nil, rfl, trivial, rfl⟩
  | cons e es ih =>
    obtain ⟨F, hroots, hF, hloop⟩ := ih fun x hx => h x (List.mem_cons_of_mem _ hx)
    by_cases hppid : e.ppid = parent.pid
    · obtain ⟨hne, B, hB, hBc, hcall⟩ := h e List.mem_cons_self hppid
      refine ⟨.node e B F, ?_, ⟨hB, hBc, hF⟩, ?_⟩
      · rw [Forest.roots, hroots, List.filter_cons_of_pos (by simpa using hppid)]
      · rw [ptreeLoop, if_neg (by simp [hne, hppid]), hcall, hloop, displayAll_node]
        rfl
    · refine ⟨F, ?_, hF, ?_⟩
      · rw [hroots, List.filter_cons_of_neg (by simpa using hppid)]
      · rw [ptreeLoop, if_pos (.inr hppid), hloop]

/-- Calls as deep as there are entries are deep enough. -/
theorem exists_ptree (hsize : list.length < 2 ^ 31) (hnd : (list.map PInfo.pid).Nodup)
    (hpid : ∀ e ∈ list, e.pid ≠ 0) (n : ℕ) : ∀ (k : ℕ) (parent : PInfo),
      (k = 0 ∧ parent.pid = 0 ∨ Depth (children list) (orphans list) parent k) →
      list.length < n + k →
      ∃ F : Forest PInfo, F.roots = children list parent ∧ F.Closed (children list) ∧
        ptree list n k parent = some (display k parent ++ displayAll F (k + 1)) := by
  have hfam := family hnd hpid
  induction n with
  | zero =>
    rintro k parent (⟨rfl, -⟩ | hdepth) hlen
    · exact absurd hlen (Nat.not_lt_zero _)
    · have := hfam.depth_le (fun _ _ h => mem_of_depth h) hdepth
      omega
  | succ n ih =>
    intro k parent hparent hlen
    -- a child is one level deeper, and that level exists
    have hchild : ∀ e ∈ children list parent, e.pid ≠ parent.pid ∧
        Depth (children list) (orphans list) e (k + 1) := by
      intro e he
      rcases hparent with ⟨rfl, hzero⟩ | hdepth
      · refine ⟨hzero ▸ hpid e (List.mem_filter.mp he).1, .root ?_⟩
        rw [children, hzero] at he
        exact he
      · exact ⟨pid_ne_of_child hnd hpid hdepth he, .child hdepth he⟩
    have hloop : ∃ F : Forest PInfo, F.roots = children list parent ∧ F.Closed (children list) ∧
        ptreeLoop (fun e => if k < intMax then ptree list n (k + 1) e else none) parent list =
          some (displayAll F (k + 1)) := by
      refine exists_ptreeLoop list fun e he hppid => ?_
      obtain ⟨hne, hdepth⟩ := hchild e (List.mem_filter.mpr ⟨he, by simpa using hppid⟩)
      have hle := hfam.depth_le (fun _ _ h => mem_of_depth h) hdepth
      have hlt : k < intMax := by
        rw [intMax]
        omega
      obtain ⟨B, hB, hBc, hcall⟩ := ih (k + 1) e (.inr hdepth) (by omega)
      exact ⟨hne, B, hB, hBc, by rw [if_pos hlt, hcall]⟩
    obtain ⟨F, hroots, hF, hloop⟩ := hloop
    exact ⟨F, hroots, hF, by rw [ptree, hloop]; rfl⟩

end Families

/-- **The printed tree.** With distinct pids other than 0, and a root of pid 0, `ptree` ends. It
prints a line for the root and then the lines of a forest whose roots are the entries with parent 0
and in which below every entry stand its children, in the order of the list. In the forest are
exactly the entries from which pid 0 is reached by links to parents, each of them once and at the
level that is the number of these links. A line is four blanks for each level, the name, a dash and
the pid. -/
theorem tree_printed {list : List PInfo} {root : PInfo} (hsize : list.length < 2 ^ 31)
    (hnd : (list.map PInfo.pid).Nodup) (hpid : ∀ e ∈ list, e.pid ≠ 0) (hroot : root.pid = 0) :
    ∃ F : Forest PInfo, F.roots = orphans list ∧ F.Closed (children list) ∧
      (∀ n, list.length < n → ptree list n 0 root = some
        (root.name ++ [32, 45, 32] ++ printLong root.pid ++ [10] ++
          (F.lines 1).flatMap fun l => List.replicate (4 * l.1) 32 ++ l.2.name ++ [32, 45, 32] ++
            printLong l.2.pid ++ [10])) ∧
      F.labels.Nodup ∧ (∀ e, e ∈ F.labels ↔ e ∈ list ∧ ∃ k, Links list e k) ∧
      ∀ l ∈ F.lines 1, Links list l.2 l.1 := by
  have hchildren : children list root = orphans list := by rw [children, hroot, orphans]
  have hall := fun n hn => exists_ptree hsize hnd hpid n 0 root (.inl ⟨rfl, hroot⟩) hn
  obtain ⟨F, hroots, hF, -⟩ := hall (list.length + 1) (Nat.lt_succ_self _)
  rw [hchildren] at hroots
  have hdepth : ∀ r ∈ F.roots, Depth (children list) (orphans list) r 1 := by
    rw [hroots]
    exact fun r hr => .root hr
  refine ⟨F, hroots, hF, fun n hn => ?_, ?_, fun e => ?_, fun l hl => ?_⟩
  · obtain ⟨G, hG, hGc, hcall⟩ := hall n hn
    rw [hchildren] at hG
    rw [hcall, hF.unique hGc (hroots.trans hG.symm)]
    simp only [displayAll, display_eq, Nat.mul_zero, List.replicate_zero, List.nil_append]
  · exact nodup_labels (family hnd hpid) hF hdepth (hroots ▸ (family hnd hpid).nodup_roots)
  · rw [mem_labels_iff hF, hroots]
    simp only [depth_iff, exists_and_left]
  · exact (depth_iff.mp (depth_of_mem_lines hF hdepth hl)).2

/-- Two processes below pid 0, the child of one of them, a process that is its own parent, and two
that are each other's. -/
def sampleList : List PInfo :=
  [⟨1, 0, [97]⟩, ⟨3, 1, [98]⟩, ⟨4, 4, [99]⟩, ⟨5, 6, [100]⟩, ⟨2, 0, [101]⟩, ⟨6, 5, [102]⟩]

/-- The process that is displayed first. -/
def sampleRoot : PInfo := ⟨0, 0, [114]⟩

theorem tree_printed_sampleList : ptree sampleList 7 0 sampleRoot = some
    ([114, 32, 45, 32, 48, 10] ++
      [32, 32, 32, 32, 97, 32, 45, 32, 49, 10] ++
      [32, 32, 32, 32, 32, 32, 32, 32, 98, 32, 45, 32, 51, 10] ++
      [32, 32, 32, 32, 101, 32, 45, 32, 50, 10]) := by
  have hsize : sampleList.length < 2 ^ 31 := by decide
  have hroot : sampleRoot.pid = 0 := rfl
  obtain ⟨F, hroots, hF, hcall, -⟩ := tree_printed hsize (by decide) (by decide) hroot
  let G : Forest PInfo :=
    .node ⟨1, 0, [97]⟩ (.node ⟨3, 1, [98]⟩ .nil .nil) (.node ⟨2, 0, [101]⟩ .nil .nil)
  have hG : G.Closed (children sampleList) :=
    ⟨rfl, ⟨rfl, trivial, trivial⟩, rfl, trivial, trivial⟩
  have hFG : F = G := hF.unique hG (hroots.trans rfl)
  rw [hcall 7 (by decide), hFG]
  decide

end ProcTree

end Tlpiexer
