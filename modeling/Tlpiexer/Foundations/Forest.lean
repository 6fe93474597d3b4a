import Mathlib.Data.List.Nodup
import Mathlib.Logic.Relation
import Mathlib.Tactic.ByContra

/-!
# Forests in depth-first order

A forest is written down in depth-first order: every node, then all that is below it, then its next
sibling. `Closed` says of a forest that below every node are its children, all of them and in their
order; whether such a forest exists is a question about the children, and what is in it is answered
by `Depth`, which counts the generations.

## Families

Nothing is said twice in a forest if nobody has two parents. `Family` says so, for the elements that
are reached from the roots at all; there may be others, which have no depth and do not matter.

## Main results

* `Forest.Closed.unique` — there is one forest at most for given roots and children
* `Forest.nodup_labels` — the forest of a family says nothing twice
* `Forest.mem_labels_iff` — and says who has a depth
* `Forest.Family.depth_le` — a family is not deeper than it is large
-/

/-- A list of trees: the first one's root and what is below it, and the others. -/
inductive Forest (α : Type*)
  | nil
  | node (a : α) (below next : Forest α)

namespace Forest

variable {α : Type*}

/-- The roots of the trees. -/
def roots : Forest α → List α
  | nil => []
  | node a _ next => a :: next.roots

/-- All labels, in depth-first order. -/
def labels : Forest α → List α
  | nil => []
  | node a below next => a :: (below.labels ++ next.labels)

/-- The same with their levels, where the roots have level `k`. -/
def lines : ℕ → Forest α → List (ℕ × α)
  | _, nil => []
  | k, node a below next => (k, a) :: (below.lines (k + 1) ++ next.lines k)

/-- Below every node are its children. -/
def Closed (children : α → List α) : Forest α → Prop
  | nil => True
  | node a below next => below.roots = children a ∧ below.Closed children ∧ next.Closed children

/-- `e` is a root, or `k - 1` generations away from one. -/
inductive Depth (children : α → List α) (rs : List α) : α → ℕ → Prop
  | root {e : α} (he : e ∈ rs) : Depth children rs e 1
  | child {p e : α} {k : ℕ} (hp : Depth children rs p k) (he : e ∈ children p) :
      Depth children rs e (k + 1)

/-- Everybody has one parent at most, and the roots have none. -/
structure Family (children : α → List α) (rs : List α) : Prop where
  parent : ∀ {p q e : α} {j k : ℕ}, Depth children rs p j → Depth children rs q k →
    e ∈ children p → e ∈ children q → p = q
  root : ∀ {p e : α} {k : ℕ}, e ∈ rs → Depth children rs p k → e ∉ children p
  nodup : ∀ p, (children p).Nodup
  nodup_roots : rs.Nodup

/-- The roots and the children leave no choice. -/
theorem Closed.unique {children : α → List α} {F G : Forest α} (hF : F.Closed children)
    (hG : G.Closed children) (h : F.roots = G.roots) : F = G := by
  induction F generalizing G with
  | nil =>
    cases G with
    | nil => rfl
    | node b below next => cases h
  | node a below next ihb ihn =>
    cases G with
    | nil => cases h
    | node b below' next' =>
      obtain ⟨hb, hbc, hn⟩ := hF
      obtain ⟨hb', hbc', hn'⟩ := hG
      obtain ⟨rfl, hnext⟩ := List.cons.inj h
      rw [ihb hbc hbc' (hb.trans hb'.symm), ihn hn hn' hnext]

theorem map_snd_lines (F : Forest α) (k : ℕ) : (F.lines k).map Prod.snd = F.labels := by
  induction F generalizing k with
  | nil => rfl
  | node a below next ihb ihn =>
    rw [lines, List.map_cons, List.map_append, ihb, ihn, labels]

theorem exists_mem_lines {F : Forest α} {e : α} (h : e ∈ F.labels) (k : ℕ) :
    ∃ j, (j, e) ∈ F.lines k := by
  rw [← F.map_snd_lines k] at h
  obtain ⟨⟨j, _⟩, hmem, rfl⟩ := List.mem_map.mp h
  exact ⟨j, hmem⟩

theorem mem_labels_of_mem_roots {F : Forest α} {e : α} (h : e ∈ F.roots) : e ∈ F.labels := by
  induction F with
  | nil => exact h
  | node a below next _ ihn =>
    rcases List.mem_cons.mp h with rfl | h
    · exact List.mem_cons_self
    · exact List.mem_cons_of_mem _ (List.mem_append_right _ (ihn h))

section Levels

variable {children : α → List α} {rs : List α}

/-- A line is about a root, or has a higher level. -/
theorem cases_of_mem_lines {F : Forest α} {k j : ℕ} {e : α} (h : (j, e) ∈ F.lines k) :
    j = k ∧ e ∈ F.roots ∨ k < j := by
  induction F generalizing k with
  | nil => exact absurd h List.not_mem_nil
  | node a below next ihb ihn =>
    rcases List.mem_cons.mp h with heq | h
    · obtain ⟨rfl, rfl⟩ := Prod.mk.inj heq
      exact .inl ⟨rfl, List.mem_cons_self⟩
    · rcases List.mem_append.mp h with h | h
      · right
        rcases ihb h with ⟨rfl, -⟩ | hlt <;> omega
      · exact (ihn h).imp_left fun ⟨hj, he⟩ => ⟨hj, List.mem_cons_of_mem _ he⟩

/-- The level in the forest is the depth. -/
theorem depth_of_mem_lines {F : Forest α} (hF : F.Closed children) {k j : ℕ}
    (hroots : ∀ r ∈ F.roots, Depth children rs r k) {e : α} (h : (j, e) ∈ F.lines k) :
    Depth children rs e j := by
  induction F generalizing k with
  | nil => exact absurd h List.not_mem_nil
  | node a below next ihb ihn =>
    obtain ⟨hbelow, hb, hn⟩ := hF
    have ha : Depth children rs a k := hroots a List.mem_cons_self
    rcases List.mem_cons.mp h with heq | h
    · obtain ⟨rfl, rfl⟩ := Prod.mk.inj heq
      exact ha
    · rcases List.mem_append.mp h with h | h
      · refine ihb hb (fun r hr => .child ha ?_) h
        rw [← hbelow]
        exact hr
      · exact ihn hn (fun r hr => hroots r (List.mem_cons_of_mem _ hr)) h

/-- With a node, its children are in the forest. -/
theorem Closed.mem_labels {F : Forest α} (hF : F.Closed children) {p e : α} (hp : p ∈ F.labels)
    (he : e ∈ children p) : e ∈ F.labels := by
  induction F with
  | nil => exact absurd hp List.not_mem_nil
  | node a below next ihb ihn =>
    obtain ⟨hbelow, hb, hn⟩ := hF
    refine List.mem_cons_of_mem _ (List.mem_append.mpr ?_)
    rcases List.mem_cons.mp hp with rfl | hp
    · left
      rw [← hbelow] at he
      exact mem_labels_of_mem_roots he
    · exact (List.mem_append.mp hp).imp (ihb hb) (ihn hn)

/-- **Who is in the forest.** -/
theorem mem_labels_iff {F : Forest α} (hF : F.Closed children) {e : α} :
    e ∈ F.labels ↔ ∃ k, Depth children F.roots e k := by
  constructor
  · intro he
    obtain ⟨j, hj⟩ := exists_mem_lines he 1
    exact ⟨j, depth_of_mem_lines hF (fun r hr => .root hr) hj⟩
  · rintro ⟨k, hk⟩
    induction hk with
    | root he => exact mem_labels_of_mem_roots he
    | child _ he ih => exact hF.mem_labels ih he

/-- Whatever is in the forest is below one of the roots. -/
theorem exists_root_of_mem_labels {F : Forest α} (hF : F.Closed children) {e : α}
    (h : e ∈ F.labels) :
    ∃ r ∈ F.roots, Relation.ReflTransGen (fun p c => c ∈ children p) r e := by
  induction F with
  | nil => exact absurd h List.not_mem_nil
  | node a below next ihb ihn =>
    obtain ⟨hbelow, hb, hn⟩ := hF
    rcases List.mem_cons.mp h with rfl | h
    · exact ⟨e, List.mem_cons_self, .refl⟩
    · rcases List.mem_append.mp h with h | h
      · obtain ⟨r, hr, hdesc⟩ := ihb hb h
        rw [hbelow] at hr
        exact ⟨a, List.mem_cons_self, .head hr hdesc⟩
      · obtain ⟨r, hr, hdesc⟩ := ihn hn h
        exact ⟨r, List.mem_cons_of_mem _ hr, hdesc⟩

namespace Family

theorem depth_unique (H : Family children rs) {e : α} {j k : ℕ} (hj : Depth children rs e j)
    (hk : Depth children rs e k) : j = k := by
  induction hj generalizing k with
  | root he =>
    cases hk with
    | root => rfl
    | child hp hc => exact absurd hc (H.root he hp)
  | child hp he ih =>
    cases hk with
    | root hroot => exact absurd he (H.root hroot hp)
    | child hq hc =>
      obtain rfl := H.parent hp hq he hc
      rw [ih hq]

theorem depth_of_desc {r e : α} {k : ℕ} (hr : Depth children rs r k)
    (h : Relation.ReflTransGen (fun p c => c ∈ children p) r e) :
    ∃ j, k ≤ j ∧ Depth children rs e j := by
  induction h with
  | refl => exact ⟨k, Nat.le_refl k, hr⟩
  | tail _ hc ih =>
    obtain ⟨j, hkj, hj⟩ := ih
    exact ⟨j + 1, by omega, .child hj hc⟩

/-- Two of one depth have no descendants in common. -/
theorem eq_of_desc (H : Family children rs) {r r' e : α} {k : ℕ} (hr : Depth children rs r k)
    (hr' : Depth children rs r' k) (h : Relation.ReflTransGen (fun p c => c ∈ children p) r e)
    (h' : Relation.ReflTransGen (fun p c => c ∈ children p) r' e) : r = r' := by
  -- one who descends from another is deeper than that one
  have hdeep : ∀ {r y x : α}, Depth children rs r k →
      Relation.ReflTransGen (fun p c => c ∈ children p) r y → x ∈ children y →
      ¬ Depth children rs x k := by
    intro r y x hr hy hx hxk
    obtain ⟨j, hkj, hj⟩ := depth_of_desc hr hy
    have := H.depth_unique hxk (.child hj hx)
    omega
  induction h with
  | refl =>
    rcases Relation.ReflTransGen.cases_tail h' with heq | ⟨y, hy, hx⟩
    · exact heq
    · exact absurd hr (hdeep hr' hy hx)
  | @tail y x hy hx ih =>
    rcases Relation.ReflTransGen.cases_tail h' with rfl | ⟨y', hy', hx'⟩
    · exact absurd hr' (hdeep hr hy hx)
    · obtain ⟨j, -, hj⟩ := depth_of_desc hr hy
      obtain ⟨j', -, hj'⟩ := depth_of_desc hr' hy'
      obtain rfl := H.parent hj hj' hx hx'
      exact ih hy'

/-- The ancestors of `e`, itself included. -/
theorem exists_ancestors (H : Family children rs) {e : α} {k : ℕ} (h : Depth children rs e k) :
    ∃ as : List α, as.length = k ∧ as.Nodup ∧ ∀ a ∈ as, ∃ j ≤ k, Depth children rs a j := by
  induction h with
  | @root e he =>
    refine ⟨[e], rfl, List.nodup_singleton e, fun a ha => ⟨1, Nat.le_refl 1, ?_⟩⟩
    rw [List.mem_singleton.mp ha]
    exact .root he
  | @child p e k hp he ih =>
    obtain ⟨as, hlen, hnd, has⟩ := ih
    have hdepth : Depth children rs e (k + 1) := .child hp he
    refine ⟨e :: as, by rw [List.length_cons, hlen], List.nodup_cons.mpr ⟨fun hmem => ?_, hnd⟩, ?_⟩
    · obtain ⟨j, hj, hej⟩ := has e hmem
      have := H.depth_unique hdepth hej
      omega
    · intro a ha
      rcases List.mem_cons.mp ha with rfl | ha
      · exact ⟨k + 1, Nat.le_refl _, hdepth⟩
      · obtain ⟨j, hj, haj⟩ := has a ha
        exact ⟨j, by omega, haj⟩

/-- **A family is not deeper than it is large.** -/
theorem depth_le (H : Family children rs) {l : List α}
    (hl : ∀ e k, Depth children rs e k → e ∈ l) {e : α} {k : ℕ} (h : Depth children rs e k) :
    k ≤ l.length := by
  obtain ⟨as, rfl, hnd, has⟩ := H.exists_ancestors h
  refine hnd.length_le_of_subset fun a ha => ?_
  obtain ⟨j, -, hj⟩ := has a ha
  exact hl a j hj

end Family

/-- **Nothing is said twice.** -/
theorem nodup_labels (H : Family children rs) {F : Forest α} (hF : F.Closed children) {k : ℕ}
    (hroots : ∀ r ∈ F.roots, Depth children rs r k) (hnd : F.roots.Nodup) : F.labels.Nodup := by
  induction F generalizing k with
  | nil => exact List.nodup_nil
  | node a below next ihb ihn =>
    obtain ⟨hbelow, hb, hn⟩ := hF
    obtain ⟨ha, hnd'⟩ := List.nodup_cons.mp hnd
    have hdepth : Depth children rs a k := hroots a List.mem_cons_self
    have hchild : ∀ r ∈ below.roots, Depth children rs r (k + 1) := by
      rw [hbelow]
      exact fun r hr => .child hdepth hr
    have hnext : ∀ r ∈ next.roots, Depth children rs r k := fun r hr =>
      hroots r (List.mem_cons_of_mem _ hr)
    rw [labels, List.nodup_cons, List.nodup_append, List.mem_append, not_or]
    refine ⟨⟨fun hmem => ?_, fun hmem => ?_⟩, ihb hb hchild (hbelow ▸ H.nodup a),
      ihn hn hnext hnd', fun x hx y hy hxy => ?_⟩
    · -- everything below `a` is deeper than `a`
      obtain ⟨j, hj⟩ := exists_mem_lines hmem (k + 1)
      have hjk := H.depth_unique hdepth (depth_of_mem_lines hb hchild hj)
      rcases cases_of_mem_lines hj with ⟨rfl, -⟩ | hlt <;> omega
    · obtain ⟨j, hj⟩ := exists_mem_lines hmem k
      have hjk := H.depth_unique hdepth (depth_of_mem_lines hn hnext hj)
      rcases cases_of_mem_lines hj with ⟨-, hroot⟩ | hlt
      · exact ha hroot
      · omega
    · subst hxy
      obtain ⟨r, hr, hdesc⟩ := exists_root_of_mem_labels hb hx
      obtain ⟨r', hr', hdesc'⟩ := exists_root_of_mem_labels hn hy
      rw [hbelow] at hr
      obtain rfl : a = r' := H.eq_of_desc hdepth (hnext r' hr') (.head hr hdesc) hdesc'
      exact ha hr'

end Levels

end Forest
