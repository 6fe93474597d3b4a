import Mathlib.Data.Finmap
import Mathlib.Order.Lattice.Nat

/-!
# Doubly linked lists in a heap

A heap is a finite map from addresses to cells, a pointer is an address or NULL, and an access
through a pointer that is NULL or points at nothing has no answer. A doubly linked list is a
region of such a heap, described by the list of its nodes in `next` order: each entry is the
address of a node together with the payload stored there.

## Segments

`Seg h prev l nxt` says that the nodes of `l` are chained in `h`, that the first of them has
`prev` behind it and the last one `nxt` in front of it. Everything an operation on a list does to
its pointers is a statement about segments: `seg_append` cuts one at any place, `Seg.setNext_last`
and `Seg.setPrev_head` move its two ends, and `Seg.congr` leaves it alone when the heap only
changes elsewhere. `Seg.unlink` puts these together for the removal of one node.

## Loops

A loop that follows `next` need not end, since the cells may form a cycle, so `find` carries a
bound on the number of rounds and has no answer when it runs out. `fuel h` is one more than the
number of cells, which every list in `h` fits in (`IsDList.length_lt_fuel`).

## Main results

* `LinkedHeap.find_seg` — the search loop returns the first node with the wanted payload
* `LinkedHeap.search_seg` — the same loop with a test that may fault
* `LinkedHeap.walk_seg` — following `next` lists the payloads
* `LinkedHeap.IsDList.cons`, `IsDList.concat` — adding a node at either end
* `LinkedHeap.Seg.unlink` — taking a node out
* `LinkedHeap.Seg.setData` — overwriting a payload in place
-/

namespace LinkedHeap

/-- An address. -/
abbrev Addr := ℕ

/-- A pointer; `none` is NULL. -/
abbrev Ptr := Option Addr

/-- The allocated cells. -/
abbrev Heap (β : Type*) := Finmap fun _ : Addr => β

/-- A list node: its payload and its two neighbours. -/
structure Node (α : Type*) where
  /-- What the node stores. -/
  data : α
  /-- The node in front, NULL at the end of the list. -/
  next : Ptr
  /-- The node behind, NULL at the start of the list. -/
  prev : Ptr
  deriving DecidableEq, Repr

variable {α β : Type*}

/-! ### Access through a pointer -/

/-- Read the cell `p` points at. -/
def load (h : Heap β) (p : Ptr) : Option β := p.bind fun a => h.lookup a

/-- Change the cell `p` points at. -/
def modify (h : Heap β) (p : Ptr) (f : β → β) : Option (Heap β) :=
  p.bind fun a => (h.lookup a).map fun x => h.insert a (f x)

/-- `p->next = v`. -/
def setNext (h : Heap (Node α)) (p v : Ptr) : Option (Heap (Node α)) :=
  modify h p fun n => { n with next := v }

/-- `p->prev = v`. -/
def setPrev (h : Heap (Node α)) (p v : Ptr) : Option (Heap (Node α)) :=
  modify h p fun n => { n with prev := v }

@[simp] theorem load_some (h : Heap β) (a : Addr) : load h (some a) = h.lookup a := rfl

theorem modify_some {h : Heap β} {a : Addr} {x : β} (hx : h.lookup a = some x) (f : β → β) :
    modify h (some a) f = some (h.insert a (f x)) := by
  simp [modify, hx]

theorem lookup_insert_ne {h : Heap β} {a b : Addr} (hab : b ≠ a) (x : β) :
    (h.insert a x).lookup b = h.lookup b :=
  Finmap.lookup_insert_of_ne h hab

/-- Writing through a pointer to one cell leaves the other cells. -/
theorem lookup_of_modify {h h' : Heap β} {a b : Addr} {f : β → β}
    (hset : modify h (some b) f = some h') (hab : a ≠ b) : h'.lookup a = h.lookup a := by
  obtain ⟨x, -, rfl⟩ := Option.map_eq_some_iff.mp hset
  exact lookup_insert_ne hab _

/-! ### Allocation -/

/-- One call of `malloc`, as a function of the heap it is made in: an address that is not in use,
or NULL. -/
structure Malloc (β : Type*) where
  /-- The answer of the call. -/
  alloc : Heap β → Ptr
  /-- Memory in use is not handed out again. -/
  fresh : ∀ h a, alloc h = some a → a ∉ h

/-- The call succeeds, whatever the heap. -/
def Malloc.Succeeds (M : Malloc β) : Prop := ∀ h, ∃ a, M.alloc h = some a

/-- The allocator that takes the address behind the largest one in use. -/
def Malloc.next (β : Type*) : Malloc β where
  alloc h := some (h.keys.sup id + 1)
  fresh h a ha hmem := by
    have hle : a ≤ h.keys.sup id := Finset.le_sup (f := id) (Finmap.mem_keys.mpr hmem)
    rw [← Option.some.inj ha] at hle
    exact Nat.not_succ_le_self _ hle

theorem Malloc.next_succeeds (β : Type*) : (Malloc.next β).Succeeds := fun _ => ⟨_, rfl⟩

/-- The allocator that has no memory left. -/
def Malloc.fails (β : Type*) : Malloc β := ⟨fun _ => none, fun _ _ h => nomatch h⟩

/-! ### Segments -/

/-- Where a pointer to the first node of `l` points, if `nxt` follows `l`. -/
def headPtr : List (Addr × α) → Ptr → Ptr
  | [], nxt => nxt
  | (a, _) :: _, _ => some a

/-- Where a pointer to the last node of `l` points, if `prev` precedes `l`. -/
def lastPtr : Ptr → List (Addr × α) → Ptr
  | prev, [] => prev
  | _, (a, _) :: l => lastPtr (some a) l

/-- The nodes of `l` are chained in `h` between `prev` and `nxt`. -/
def Seg (h : Heap (Node α)) : Ptr → List (Addr × α) → Ptr → Prop
  | _, [], _ => True
  | prev, (a, x) :: l, nxt => h.lookup a = some ⟨x, headPtr l nxt, prev⟩ ∧ Seg h (some a) l nxt

/-- The addresses of a list of nodes. -/
abbrev addrs (l : List (Addr × α)) : List Addr := l.map Prod.fst

@[simp] theorem headPtr_nil (nxt : Ptr) : headPtr ([] : List (Addr × α)) nxt = nxt := rfl

@[simp] theorem headPtr_cons (e : Addr × α) (l : List (Addr × α)) (nxt : Ptr) :
    headPtr (e :: l) nxt = some e.1 := rfl

@[simp] theorem lastPtr_nil (prev : Ptr) : lastPtr prev ([] : List (Addr × α)) = prev := rfl

@[simp] theorem lastPtr_cons (prev : Ptr) (e : Addr × α) (l : List (Addr × α)) :
    lastPtr prev (e :: l) = lastPtr (some e.1) l := rfl

@[simp] theorem seg_nil (h : Heap (Node α)) (prev nxt : Ptr) : Seg h prev [] nxt := trivial

theorem seg_cons {h : Heap (Node α)} {prev nxt : Ptr} {a : Addr} {x : α}
    {l : List (Addr × α)} : Seg h prev ((a, x) :: l) nxt ↔
      h.lookup a = some ⟨x, headPtr l nxt, prev⟩ ∧ Seg h (some a) l nxt := Iff.rfl

theorem headPtr_append (l l' : List (Addr × α)) (nxt : Ptr) :
    headPtr (l ++ l') nxt = headPtr l (headPtr l' nxt) := by
  cases l <;> rfl

theorem lastPtr_append (prev : Ptr) (l l' : List (Addr × α)) :
    lastPtr prev (l ++ l') = lastPtr (lastPtr prev l) l' := by
  induction l generalizing prev with
  | nil => rfl
  | cons e l ih => exact ih _

@[simp] theorem lastPtr_concat (prev : Ptr) (l : List (Addr × α)) (e : Addr × α) :
    lastPtr prev (l ++ [e]) = some e.1 := by
  rw [lastPtr_append]; rfl

theorem headPtr_eq_none_iff {l : List (Addr × α)} : headPtr l none = none ↔ l = [] := by
  cases l <;> simp

theorem lastPtr_eq_none_iff {l : List (Addr × α)} : lastPtr none l = none ↔ l = [] := by
  rcases List.eq_nil_or_concat l with rfl | ⟨l, e, rfl⟩ <;> simp

/-- **Cutting a segment.** -/
theorem seg_append {h : Heap (Node α)} {nxt : Ptr} {l₂ : List (Addr × α)} :
    ∀ {l₁ : List (Addr × α)} {prev : Ptr}, Seg h prev (l₁ ++ l₂) nxt ↔
      Seg h prev l₁ (headPtr l₂ nxt) ∧ Seg h (lastPtr prev l₁) l₂ nxt := by
  intro l₁
  induction l₁ with
  | nil => intro prev; simp
  | cons e l₁ ih =>
    intro prev
    obtain ⟨a, x⟩ := e
    rw [List.cons_append, seg_cons, seg_cons, ih, headPtr_append, lastPtr_cons, and_assoc]

/-- A segment only depends on its own cells. -/
theorem Seg.congr {h h' : Heap (Node α)} {nxt : Ptr} {l : List (Addr × α)} :
    ∀ {prev : Ptr}, Seg h prev l nxt → (∀ a ∈ addrs l, h'.lookup a = h.lookup a) →
      Seg h' prev l nxt := by
  induction l with
  | nil => intros; trivial
  | cons e l ih =>
    obtain ⟨a, x⟩ := e
    intro prev hs hc
    refine ⟨(hc a (by simp)).trans hs.1, ih hs.2 fun b hb => hc b ?_⟩
    exact List.mem_cons_of_mem _ hb

/-- Writing a cell outside a segment leaves the segment. -/
theorem Seg.insert_of_notMem {h : Heap (Node α)} {prev nxt : Ptr} {l : List (Addr × α)}
    (hs : Seg h prev l nxt) {a : Addr} (ha : a ∉ addrs l) (x : Node α) :
    Seg (h.insert a x) prev l nxt := by
  refine hs.congr fun b hb => lookup_insert_ne ?_ x
  rintro rfl
  exact ha hb

/-- Freeing a cell outside a segment leaves the segment. -/
theorem Seg.erase_of_notMem {h : Heap (Node α)} {prev nxt : Ptr} {l : List (Addr × α)}
    (hs : Seg h prev l nxt) {a : Addr} (ha : a ∉ addrs l) : Seg (h.erase a) prev l nxt := by
  refine hs.congr fun b hb => Finmap.lookup_erase_ne ?_
  rintro rfl
  exact ha hb

/-- Every node of a segment is allocated. -/
theorem Seg.lookup_isSome {h : Heap (Node α)} {nxt : Ptr} {l : List (Addr × α)} {a : Addr} :
    ∀ {prev : Ptr}, Seg h prev l nxt → a ∈ addrs l → a ∈ h := by
  induction l with
  | nil => intro prev _ ha; simp at ha
  | cons e l ih =>
    obtain ⟨b, x⟩ := e
    intro prev hs ha
    rcases List.mem_cons.mp ha with rfl | ha
    · exact Finmap.mem_of_lookup_eq_some hs.1
    · exact ih hs.2 ha

/-- The node at a given place of a segment. -/
theorem Seg.lookup {h : Heap (Node α)} {prev nxt : Ptr} {l₁ l₂ : List (Addr × α)} {a : Addr}
    {x : α} (hs : Seg h prev (l₁ ++ (a, x) :: l₂) nxt) :
    h.lookup a = some ⟨x, headPtr l₂ nxt, lastPtr prev l₁⟩ :=
  (seg_append.mp hs).2.1

/-! ### Moving the ends of a segment -/

/-- Writing the `prev` of the first node. -/
theorem Seg.setPrev_head {h : Heap (Node α)} {prev nxt : Ptr} {a : Addr} {x : α}
    {l : List (Addr × α)} (hs : Seg h prev ((a, x) :: l) nxt) (ha : a ∉ addrs l) (v : Ptr) :
    ∃ h', setPrev h (some a) v = some h' ∧ Seg h' v ((a, x) :: l) nxt ∧
      ∀ b, b ≠ a → h'.lookup b = h.lookup b := by
  refine ⟨_, modify_some hs.1 _, ⟨Finmap.lookup_insert _, ?_⟩, fun b hb => lookup_insert_ne hb _⟩
  exact Seg.insert_of_notMem hs.2 ha _

/-- Writing the `next` of the last node. -/
theorem Seg.setNext_last {h : Heap (Node α)} {prev nxt : Ptr} {a : Addr} {x : α}
    {l : List (Addr × α)} (hs : Seg h prev (l ++ [(a, x)]) nxt) (ha : a ∉ addrs l) (v : Ptr) :
    ∃ h', setNext h (some a) v = some h' ∧ Seg h' prev (l ++ [(a, x)]) v ∧
      ∀ b, b ≠ a → h'.lookup b = h.lookup b := by
  obtain ⟨hl, hlast, -⟩ := seg_append.mp hs
  refine ⟨_, modify_some hlast _, seg_append.mpr ⟨?_, Finmap.lookup_insert _, trivial⟩,
    fun b hb => lookup_insert_ne hb _⟩
  exact Seg.insert_of_notMem hl ha _

/-- Overwriting the payload of one node. -/
theorem Seg.setData {h : Heap (Node α)} {prev nxt : Ptr} {l₁ l₂ : List (Addr × α)} {a : Addr}
    {x : α} (hs : Seg h prev (l₁ ++ (a, x) :: l₂) nxt) (h₁ : a ∉ addrs l₁) (h₂ : a ∉ addrs l₂)
    (y : α) :
    ∃ h', modify h (some a) (fun n => { n with data := y }) = some h' ∧
      Seg h' prev (l₁ ++ (a, y) :: l₂) nxt := by
  obtain ⟨hl₁, ha, hl₂⟩ := seg_append.mp hs
  refine ⟨_, modify_some ha _, seg_append.mpr ⟨?_, Finmap.lookup_insert _, ?_⟩⟩
  · exact hl₁.insert_of_notMem h₁ _
  · exact hl₂.insert_of_notMem h₂ _

/-- `if (p != NULL) p->next = v`. -/
def relinkNext (h : Heap (Node α)) (p v : Ptr) : Option (Heap (Node α)) :=
  if p = none then some h else setNext h p v

/-- `if (p != NULL) p->prev = v`. -/
def relinkPrev (h : Heap (Node α)) (p v : Ptr) : Option (Heap (Node α)) :=
  if p = none then some h else setPrev h p v

theorem Seg.relinkNext_last {h : Heap (Node α)} {nxt : Ptr} {l : List (Addr × α)}
    (hs : Seg h none l nxt) (hnd : (addrs l).Nodup) (v : Ptr) :
    ∃ h', relinkNext h (lastPtr none l) v = some h' ∧ Seg h' none l v ∧
      ∀ b, b ∉ addrs l → h'.lookup b = h.lookup b := by
  rcases List.eq_nil_or_concat l with rfl | ⟨l, ⟨a, x⟩, rfl⟩
  · exact ⟨h, by simp [relinkNext], trivial, fun _ _ => rfl⟩
  · rw [List.concat_eq_append] at hs hnd ⊢
    have ha : a ∉ addrs l := by
      intro ha
      rw [addrs, List.map_append, List.nodup_append] at hnd
      exact hnd.2.2 a ha a (by simp) rfl
    obtain ⟨h', hset, hs', hframe⟩ := hs.setNext_last ha v
    refine ⟨h', by simpa [relinkNext] using hset, hs', fun b hb => hframe b ?_⟩
    rintro rfl
    simp at hb

theorem Seg.relinkPrev_head {h : Heap (Node α)} {prev : Ptr} {l : List (Addr × α)}
    (hs : Seg h prev l none) (hnd : (addrs l).Nodup) (v : Ptr) :
    ∃ h', relinkPrev h (headPtr l none) v = some h' ∧ Seg h' v l none ∧
      ∀ b, b ∉ addrs l → h'.lookup b = h.lookup b := by
  cases l with
  | nil => exact ⟨h, by simp [relinkPrev], trivial, fun _ _ => rfl⟩
  | cons e l =>
    obtain ⟨a, x⟩ := e
    have ha : a ∉ addrs l := (List.nodup_cons.mp hnd).1
    obtain ⟨h', hset, hs', hframe⟩ := hs.setPrev_head ha v
    refine ⟨h', by simpa [relinkPrev] using hset, hs', fun b hb => hframe b ?_⟩
    rintro rfl
    simp at hb

/-! ### Whole lists -/

/-- `l` is the doubly linked list that starts at `first`. -/
structure IsDList (h : Heap (Node α)) (first : Ptr) (l : List (Addr × α)) : Prop where
  /-- `first` points at the first node, or is NULL. -/
  first_eq : first = headPtr l none
  /-- The nodes are chained, with NULL at both ends. -/
  seg : Seg h none l none
  /-- No node occurs twice. -/
  nodup : (addrs l).Nodup

theorem isDList_nil (h : Heap (Node α)) : IsDList h none ([] : List (Addr × α)) :=
  ⟨rfl, trivial, List.nodup_nil⟩

theorem addrs_append_cons (l₁ l₂ : List (Addr × α)) (e : Addr × α) :
    addrs (l₁ ++ e :: l₂) = addrs l₁ ++ e.1 :: addrs l₂ := by simp

/-- In a list without repetition a node differs from those before and after it, and these from
each other. -/
theorem nodup_middle {l₁ l₂ : List (Addr × α)} {e : Addr × α}
    (h : (addrs (l₁ ++ e :: l₂)).Nodup) :
    e.1 ∉ addrs l₁ ∧ e.1 ∉ addrs l₂ ∧ (addrs (l₁ ++ l₂)).Nodup ∧
      ∀ b ∈ addrs l₁, b ∉ addrs l₂ := by
  rw [addrs_append_cons, List.nodup_middle, List.nodup_cons, List.mem_append, not_or] at h
  obtain ⟨⟨h₁, h₂⟩, hnd⟩ := h
  refine ⟨h₁, h₂, by simpa using hnd, fun b hb hb' => ?_⟩
  exact (List.nodup_append.mp hnd).2.2 b hb b hb' rfl

/-- In a list whose entries have different keys, an entry's key occurs neither before nor behind
it. -/
theorem key_ne_of_nodup {γ : Type*} {f : β → γ} {l₁ l₂ : List β} {x : β}
    (h : ((l₁ ++ x :: l₂).map f).Nodup) :
    (∀ e ∈ l₁, f e ≠ f x) ∧ (∀ e ∈ l₂, f e ≠ f x) ∧ ((l₁ ++ l₂).map f).Nodup := by
  rw [List.map_append, List.map_cons, List.nodup_middle, List.nodup_cons, List.mem_append,
    not_or] at h
  refine ⟨fun e he heq => h.1.1 ?_, fun e he heq => h.1.2 ?_, by rw [List.map_append]; exact h.2⟩
  · exact List.mem_map.mpr ⟨e, he, heq⟩
  · exact List.mem_map.mpr ⟨e, he, heq⟩

/-- **Taking a node out.** Both neighbours of the node are made to skip it; the node itself is
left as it is. -/
theorem Seg.unlink {h : Heap (Node α)} {l₁ l₂ : List (Addr × α)} {a : Addr} {x : α}
    (hs : Seg h none (l₁ ++ (a, x) :: l₂) none)
    (hnd : (addrs (l₁ ++ (a, x) :: l₂)).Nodup) :
    ∃ h₁ h₂, relinkNext h (lastPtr none l₁) (headPtr l₂ none) = some h₁ ∧
      relinkPrev h₁ (headPtr l₂ none) (lastPtr none l₁) = some h₂ ∧
      Seg h₂ none (l₁ ++ l₂) none ∧
      ∀ b, b ∉ addrs (l₁ ++ l₂) → h₂.lookup b = h.lookup b := by
  obtain ⟨-, -, hnd', hdisj⟩ := nodup_middle hnd
  obtain ⟨hn₁, hn₂, -⟩ := List.nodup_append.mp (by simpa using hnd' : (addrs l₁ ++ addrs l₂).Nodup)
  obtain ⟨hs₁, -, hs₂⟩ := seg_append.mp hs
  obtain ⟨h₁, hset₁, hs₁', hf₁⟩ := hs₁.relinkNext_last hn₁ (headPtr l₂ none)
  have hs₂' : Seg h₁ (some a) l₂ none :=
    hs₂.congr fun b hb => hf₁ b fun hb' => hdisj b hb' hb
  obtain ⟨h₂, hset₂, hs₂'', hf₂⟩ := hs₂'.relinkPrev_head hn₂ (lastPtr none l₁)
  refine ⟨h₁, h₂, hset₁, hset₂, seg_append.mpr ⟨?_, hs₂''⟩, fun b hb => ?_⟩
  · exact hs₁'.congr fun b hb => hf₂ b (hdisj b hb)
  · rw [addrs, List.map_append, List.mem_append, not_or] at hb
    rw [hf₂ b hb.2, hf₁ b hb.1]

/-- Adding a node in front: the new cell is written, then the old first node is made to point
back at it. -/
theorem IsDList.cons {h : Heap (Node α)} {first : Ptr} {l : List (Addr × α)}
    (H : IsDList h first l) {a : Addr} (ha : a ∉ h) (x : α) :
    ∃ h', relinkPrev (h.insert a ⟨x, first, none⟩) first (some a) = some h' ∧
      IsDList h' (some a) ((a, x) :: l) := by
  have hal : a ∉ addrs l := fun hm => ha (H.seg.lookup_isSome hm)
  obtain ⟨h', hset, hs, hf⟩ :=
    (H.seg.insert_of_notMem hal ⟨x, first, none⟩).relinkPrev_head H.nodup (some a)
  rw [← H.first_eq] at hset
  refine ⟨h', hset, rfl, ⟨?_, hs⟩, List.nodup_cons.mpr ⟨hal, H.nodup⟩⟩
  rw [hf a hal, Finmap.lookup_insert, H.first_eq]

/-- Overwriting the payload of one node, as a cell of the heap. -/
theorem IsDList.setData {h : Heap (Node α)} {first : Ptr} {l₁ l₂ : List (Addr × α)} {a : Addr}
    {x : α} (H : IsDList h first (l₁ ++ (a, x) :: l₂)) (y : α) :
    IsDList (h.insert a ⟨y, headPtr l₂ none, lastPtr none l₁⟩) first (l₁ ++ (a, y) :: l₂) := by
  obtain ⟨hn₁, hn₂, -⟩ := nodup_middle H.nodup
  obtain ⟨h', hmod, hseg⟩ := H.seg.setData hn₁ hn₂ y
  rw [modify_some H.seg.lookup] at hmod
  refine ⟨?_, (Option.some.inj hmod) ▸ hseg, by simpa using H.nodup⟩
  rw [H.first_eq, headPtr_append, headPtr_append]
  rfl

/-- Adding a node at the end of a list that is not empty: the new cell is written, then the old
last node and the new one are made to point at each other. -/
theorem IsDList.concat {h : Heap (Node α)} {first : Ptr} {l : List (Addr × α)}
    (H : IsDList h first l) (hl : l ≠ []) {a : Addr} (ha : a ∉ h) (x : α) :
    ∃ h₁ h₂, setNext (h.insert a ⟨x, none, none⟩) (lastPtr none l) (some a) = some h₁ ∧
      setPrev h₁ (some a) (lastPtr none l) = some h₂ ∧ IsDList h₂ first (l ++ [(a, x)]) := by
  have hal : a ∉ addrs l := fun hmem => ha (H.seg.lookup_isSome hmem)
  have hlast : lastPtr none l ≠ none := fun h => hl (lastPtr_eq_none_iff.mp h)
  obtain ⟨h₁, hset, hs, hf⟩ :=
    (H.seg.insert_of_notMem hal ⟨x, none, none⟩).relinkNext_last H.nodup (some a)
  rw [relinkNext, if_neg hlast] at hset
  have hnew : h₁.lookup a = some ⟨x, none, none⟩ := by rw [hf a hal, Finmap.lookup_insert]
  refine ⟨h₁, _, hset, modify_some hnew _, ?_, seg_append.mpr ⟨?_, ?_, trivial⟩, ?_⟩
  · rw [H.first_eq, headPtr_append]
    cases l with
    | nil => exact absurd rfl hl
    | cons e l => rfl
  · exact hs.insert_of_notMem hal _
  · exact Finmap.lookup_insert _
  · rw [addrs, List.map_append, List.nodup_append]
    refine ⟨H.nodup, by simp, fun b hb c hc => ?_⟩
    rintro rfl
    have hba : b = a := by simpa using hc
    exact hal (hba ▸ hb)

/-! ### The search loop -/

/-- `for (p = first; p != NULL; p = p->next) if (P) break;`, cut off after `n` rounds. -/
def find (h : Heap (Node α)) (P : α → Bool) : ℕ → Ptr → Option Ptr
  | 0, _ => none
  | _ + 1, none => some none
  | n + 1, some a =>
    (h.lookup a).bind fun x => if P x.data then some (some a) else find h P n x.next

/-- More rounds than any list in `h` has nodes. -/
def fuel (h : Heap β) : ℕ := h.keys.card + 1

/-- **The search loop.** It ends within the length of the list, at the first node whose payload
passes the test, or at NULL. -/
theorem find_seg {h : Heap (Node α)} {P : α → Bool} {l : List (Addr × α)} :
    ∀ {prev : Ptr} {n : ℕ}, Seg h prev l none → l.length < n →
      find h P n (headPtr l none) = some ((l.find? fun e => P e.2).map Prod.fst) := by
  induction l with
  | nil =>
    intro prev n _ hn
    cases n with
    | zero => simp at hn
    | succ n => rfl
  | cons e l ih =>
    obtain ⟨a, x⟩ := e
    intro prev n hs hn
    cases n with
    | zero => simp at hn
    | succ n =>
      rw [headPtr_cons, find, hs.1]
      by_cases hP : P x
      · simp [hP]
      · simpa [hP] using ih hs.2 (by simpa using hn)

/-- The search loop with a test that may fault. -/
def search (h : Heap (Node α)) (P : α → Option Bool) : ℕ → Ptr → Option Ptr
  | 0, _ => none
  | _ + 1, none => some none
  | n + 1, some a =>
    (h.lookup a).bind fun x => (P x.data).bind fun stop =>
      if stop then some (some a) else search h P n x.next

/-- A test that does not fault on the nodes of the list may be taken for one that cannot. -/
theorem search_seg {h : Heap (Node α)} {P : α → Option Bool} {Q : α → Bool} {l : List (Addr × α)}
    (hPQ : ∀ e ∈ l, P e.2 = some (Q e.2)) :
    ∀ {prev : Ptr} (n : ℕ), Seg h prev l none →
      search h P n (headPtr l none) = find h Q n (headPtr l none) := by
  induction l with
  | nil => intro prev n _; cases n <;> rfl
  | cons e l ih =>
    obtain ⟨a, x⟩ := e
    intro prev n hs
    cases n with
    | zero => rfl
    | succ n =>
      have hrest := ih (fun e he => hPQ e (List.mem_cons_of_mem _ he)) n hs.2
      rw [headPtr_cons, search, find, hs.1, Option.bind_some, Option.bind_some,
        hPQ (a, x) List.mem_cons_self, Option.bind_some, hrest]

/-- The payloads met by following `next` from `p`, cut off after `n` nodes. -/
def walk (h : Heap (Node α)) : ℕ → Ptr → Option (List α)
  | _, none => some []
  | 0, some _ => none
  | n + 1, some a =>
    (h.lookup a).bind fun x => (walk h n x.next).map fun l => x.data :: l

theorem walk_seg {h : Heap (Node α)} {l : List (Addr × α)} :
    ∀ {prev : Ptr} {n : ℕ}, Seg h prev l none → l.length ≤ n →
      walk h n (headPtr l none) = some (l.map Prod.snd) := by
  induction l with
  | nil => intro prev n _ _; cases n <;> rfl
  | cons e l ih =>
    obtain ⟨a, x⟩ := e
    intro prev n hs hn
    cases n with
    | zero => simp at hn
    | succ n =>
      rw [headPtr_cons, walk, hs.1, Option.bind_some, ih hs.2 (by simpa using hn)]
      rfl

theorem IsDList.length_lt_fuel {h : Heap (Node α)} {first : Ptr} {l : List (Addr × α)}
    (H : IsDList h first l) : l.length < fuel h := by
  have hsub : (addrs l).toFinset ⊆ h.keys := by
    intro a ha
    exact Finmap.mem_keys.mpr (H.seg.lookup_isSome (List.mem_toFinset.mp ha))
  have hcard := Finset.card_le_card hsub
  rw [List.toFinset_card_of_nodup H.nodup, List.length_map] at hcard
  exact Nat.lt_succ_of_le hcard

theorem IsDList.find {h : Heap (Node α)} {first : Ptr} {l : List (Addr × α)}
    (H : IsDList h first l) (P : α → Bool) :
    LinkedHeap.find h P (fuel h) first = some ((l.find? fun e => P e.2).map Prod.fst) := by
  rw [H.first_eq]
  exact find_seg H.seg H.length_lt_fuel

theorem IsDList.find_eq_none {h : Heap (Node α)} {first : Ptr} {l : List (Addr × α)}
    (H : IsDList h first l) {P : α → Bool} (hP : ∀ e ∈ l, P e.2 = false) :
    LinkedHeap.find h P (fuel h) first = some none := by
  rw [H.find, List.find?_eq_none.mpr fun e he => by simp [hP e he]]
  rfl

theorem IsDList.find_eq_some {h : Heap (Node α)} {first : Ptr} {l₁ l₂ : List (Addr × α)}
    {a : Addr} {x : α} (H : IsDList h first (l₁ ++ (a, x) :: l₂)) {P : α → Bool}
    (hP : ∀ e ∈ l₁, P e.2 = false) (hx : P x) :
    LinkedHeap.find h P (fuel h) first = some (some a) := by
  rw [H.find, List.find?_append, List.find?_eq_none.mpr fun e he => by simp [hP e he],
    List.find?_cons_of_pos (by simpa using hx)]
  rfl

theorem IsDList.search_eq_find {h : Heap (Node α)} {first : Ptr} {l : List (Addr × α)}
    (H : IsDList h first l) {P : α → Option Bool} {Q : α → Bool}
    (hPQ : ∀ e ∈ l, P e.2 = some (Q e.2)) :
    search h P (fuel h) first = LinkedHeap.find h Q (fuel h) first := by
  rw [H.first_eq]
  exact search_seg hPQ _ H.seg

theorem IsDList.walk {h : Heap (Node α)} {first : Ptr} {l : List (Addr × α)}
    (H : IsDList h first l) : LinkedHeap.walk h (fuel h) first = some (l.map Prod.snd) := by
  rw [H.first_eq]
  exact walk_seg H.seg H.length_lt_fuel.le

end LinkedHeap
