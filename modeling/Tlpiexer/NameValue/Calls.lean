import Tlpiexer.Foundations.Transition
import Tlpiexer.NameValue.Honest

/-!
# Sequences of calls on the list

What the functions of `src/lib/59-04-llist.c` do to the list when they are called in any order. A
state is a memory together with the nodes that have been added and not deleted since, each with the
item it was added with; no call looks at them.

## One list of effects

`CallEffect m l c r` says what a call can do in a memory that holds the nodes `l`: it leaves
everything but `lerrno`, it adds, replaces or removes one node, or its copy finds no NUL and has no
end. The list after a sequence of calls is read off it.

## Where `strcpy` stops

`ll_set` copies a value as a string. Without a NUL in the `value` of the request the copy goes on
with its `own`, and in the stored item too. The owners have been compared before and are the same
string, so what is stored does not change there; but the bytes are read and written all the same.

## Main results

* `nodes_linked` — the list after any sequence of calls
* `llSet_keeps_frame_iff` — when a call of `ll_set` stays inside the two `value` fields
-/

namespace Tlpiexer

namespace NameValue

open CString LinkedHeap Transition

/-! ### Calls -/

/-- A call of a list function; `ll_add` is given the `malloc` it calls. -/
inductive Call
  | add (malloc : Malloc ItemLl) (item : ItemNv)
  | get (item : ItemNv)
  | set (item : ItemNv)
  | del (item : ItemNv)

/-- The item a call is made with. -/
def Call.item : Call → ItemNv
  | .add _ item => item
  | .get item => item
  | .set item => item
  | .del item => item

/-- What a call returns, and the memory behind it. -/
def Call.run : Call → Mem → Option (ℤ × Mem)
  | .add malloc item, m => llAdd malloc item m
  | .get item, m => (llGet item m).map fun r => (r.1, r.2.2)
  | .set item, m => llSet item m
  | .del item, m => llDel item m

/-- A memory, and the nodes that have been added and not deleted since, the last one first. -/
structure State where
  mem : Mem
  nodes : List (Addr × ItemNv)

/-- The nodes that are left when a call has returned `status`: a successful `ll_add` adds the one
that `malloc` returned, a successful `ll_del` deletes the one it found. -/
def State.nodesAfter (s : State) (status : ℤ) : Call → List (Addr × ItemNv)
  | .add malloc item =>
    if status = fnOk then (malloc.alloc s.mem.heap).toList.map (·, item) ++ s.nodes else s.nodes
  | .del item =>
    if status = fnOk then s.nodes.filter fun e => findItem s.mem item ≠ some (some e.1)
    else s.nodes
  | .get _ | .set _ => s.nodes

/-- One call. -/
def State.step (s : State) (c : Call) : Option State :=
  (c.run s.mem).map fun r => ⟨r.2, s.nodesAfter r.1 c⟩

/-- Calls from `ll_init` on, in any memory. -/
def calls : Machine State Call where
  init s := ∃ m, s = ⟨(llInit m).2, []⟩
  step := State.step

/-! ### What a call can do -/

/-- What a call returns and leaves, in a memory that holds the nodes `l`. -/
inductive CallEffect (m : Mem) (l : List (Addr × ItemNv)) : Call → Option (ℤ × Mem) → Prop
  /-- Nothing changes but `lerrno`, and nothing is done but perhaps a `GET`. -/
  | kept (c : Call) (status : ℤ) (lerrno : ℕ) (h : status = fnEr ∨ ∃ item, c = .get item) :
      CallEffect m l c (some (status, { m with lerrno := lerrno }))
  /-- A node is added in front. -/
  | added (malloc : Malloc ItemLl) (item : ItemNv) (a : Addr) (m' : Mem) (habs : Absent item l)
      (hm : malloc.alloc m.heap = some a)
      (hl : IsDList m'.heap m'.list.first ((a, item) :: l)) :
      CallEffect m l (.add malloc item) (some (fnOk, m'))
  /-- The payload of a node is replaced. -/
  | replaced (item : ItemNv) (l₁ : List (Addr × ItemNv)) (a : Addr) (nv nv' : ItemNv)
      (l₂ : List (Addr × ItemNv)) (hl : l = l₁ ++ (a, nv) :: l₂) (hname : nv'.name = nv.name)
      (hown : nv'.own = nv.own) :
      CallEffect m l (.set item) (some (fnOk, { m with
        heap := m.heap.insert a ⟨nv', headPtr l₂ none, lastPtr none l₁⟩ }))
  /-- A node is removed. -/
  | removed (item : ItemNv) (l₁ : List (Addr × ItemNv)) (a : Addr) (nv : ItemNv)
      (l₂ : List (Addr × ItemNv)) (m' : Mem) (hl : l = l₁ ++ (a, nv) :: l₂)
      (hfind : findItem m item = some (some a))
      (hl' : IsDList m'.heap m'.list.first (l₁ ++ l₂)) :
      CallEffect m l (.del item) (some (fnOk, m'))
  /-- A value is copied without end. -/
  | overrun (item : ItemNv) (hv : (0 : UInt8) ∉ item.value.val) (ho : (0 : UInt8) ∉ item.own.val) :
      CallEffect m l (.set item) none

/-- The memory holds the nodes `l`, and no two of them have the same name. -/
structure Holds (m : Mem) (l : List (Addr × ItemNv)) : Prop where
  list : IsDList m.heap m.list.first l
  names : (l.map fun e => e.2.nameStr).Nodup

section Effects

variable {m : Mem} {l : List (Addr × ItemNv)}

theorem effect_add (H : Holds m l) (malloc : Malloc ItemLl) (item : ItemNv) :
    CallEffect m l (.add malloc item) (llAdd malloc item m) := by
  rcases absent_or_found H.names item with habs | ⟨l₁, a, nv, l₂, rfl, hnv, h₁, -⟩
  · cases hm : malloc.alloc m.heap with
    | none =>
      rw [llAdd_nomem H.list habs hm]
      exact .kept _ fnEr m.lerrno (.inl rfl)
    | some a =>
      obtain ⟨m', hadd, hl, -⟩ := llAdd_new H.list habs hm
      rw [hadd]
      exact .added malloc item a m' habs hm hl
  · rw [llAdd_exist H.list hnv h₁]
    exact .kept _ fnEr elExist (.inl rfl)

theorem effect_get (H : Holds m l) (item : ItemNv) :
    CallEffect m l (.get item) ((llGet item m).map fun r => (r.1, r.2.2)) := by
  rcases absent_or_found H.names item with habs | ⟨l₁, a, nv, l₂, rfl, hnv, h₁, -⟩
  · rw [llGet_noext H.list habs]
    exact .kept _ fnEr elNoext (.inl rfl)
  · rw [llGet_found H.list hnv h₁]
    exact .kept _ fnOk m.lerrno (.inr ⟨item, rfl⟩)

theorem effect_set (H : Holds m l) (item : ItemNv) :
    CallEffect m l (.set item) (llSet item m) := by
  rcases absent_or_found H.names item with habs | ⟨l₁, a, nv, l₂, rfl, hnv, h₁, -⟩
  · rw [llSet_noext H.list habs]
    exact .kept _ fnEr elNoext (.inl rfl)
  by_cases hown : nv.ownStr = item.ownStr
  swap
  · rw [llSet_perm H.list hnv h₁ hown]
    exact .kept _ fnEr elPerm (.inl rfl)
  by_cases hnul : (0 : UInt8) ∈ item.value.val ∨ (0 : UInt8) ∈ item.own.val
  · obtain ⟨nv', hset, hname, hown', -⟩ := llSet_own_eq H.list hnv h₁ hown hnul
    rw [hset]
    exact .replaced item l₁ a nv nv' l₂ rfl hname hown'
  · obtain ⟨hv, ho⟩ := not_or.mp hnul
    rw [llSet_overrun H.list hnv h₁ hown hv ho]
    exact .overrun item hv ho

theorem effect_del (H : Holds m l) (item : ItemNv) :
    CallEffect m l (.del item) (llDel item m) := by
  rcases absent_or_found H.names item with habs | ⟨l₁, a, nv, l₂, rfl, hnv, h₁, -⟩
  · rw [llDel_noext H.list habs]
    exact .kept _ fnEr elNoext (.inl rfl)
  by_cases hown : nv.ownStr = item.ownStr
  swap
  · rw [llDel_perm H.list hnv h₁ hown]
    exact .kept _ fnEr elPerm (.inl rfl)
  obtain ⟨m', hdel, hl, -⟩ := llDel_own H.list hnv h₁ hown
  rw [hdel]
  exact .removed item l₁ a nv l₂ m' rfl (findItem_found H.list hnv h₁) hl

/-- **Every call has one of these effects.** -/
theorem effect_run (H : Holds m l) (c : Call) : CallEffect m l c (c.run m) := by
  cases c with
  | add malloc item => exact effect_add H malloc item
  | get item => exact effect_get H item
  | set item => exact effect_set H item
  | del item => exact effect_del H item

end Effects

/-! ### The list after a sequence of calls -/

/-- What a node keeps from the item it was added with. -/
def label (e : Addr × ItemNv) : Addr × CharArray llNameLen × CharArray llUsrnameLen :=
  (e.1, e.2.name, e.2.own)

/-- The nodes of a state are those of the list. -/
def State.Inv (s : State) : Prop := ∃ l, Holds s.mem l ∧ l.map label = s.nodes.map label

section Sequences

variable {s t : State} {l l₁ l₂ : List (Addr × ItemNv)}

/-- Deleting the node at `a` takes it out of the labels. -/
theorem map_label_filter {nodes : List (Addr × ItemNv)} {a : Addr} {nv : ItemNv}
    (hnd : (addrs (l₁ ++ (a, nv) :: l₂)).Nodup)
    (h : (l₁ ++ (a, nv) :: l₂).map label = nodes.map label) :
    (l₁ ++ l₂).map label = (nodes.filter fun e => a ≠ e.1).map label := by
  have hcomm : ∀ l : List (Addr × ItemNv), (l.filter fun e => a ≠ e.1).map label =
      (l.map label).filter fun e => a ≠ e.1 := by
    intro l
    rw [List.filter_map]
    rfl
  obtain ⟨hn₁, hn₂, -⟩ := nodup_middle hnd
  have hkeep : ∀ l : List (Addr × ItemNv), a ∉ addrs l → (l.filter fun e => a ≠ e.1) = l := by
    intro l hl
    rw [List.filter_eq_self]
    intro e he
    simp only [ne_eq, decide_eq_true_eq]
    rintro rfl
    exact hl (List.mem_map_of_mem he)
  rw [hcomm nodes, ← h, ← hcomm, List.filter_append, List.filter_cons_of_neg (by simp),
    hkeep l₁ hn₁, hkeep l₂ hn₂]

/-- **One call keeps the invariant.** -/
theorem State.Inv.step {c : Call} (h : s.Inv) (hstep : s.step c = some t) : t.Inv := by
  obtain ⟨l, H, hlabel⟩ := h
  obtain ⟨⟨status, m'⟩, hrun, rfl⟩ := Option.map_eq_some_iff.mp hstep
  have heff := effect_run H c
  rw [hrun] at heff
  cases heff with
  | kept _ _ lerrno hkept =>
    refine ⟨l, ⟨H.list, H.names⟩, hlabel.trans (congrArg _ ?_)⟩
    rcases hkept with rfl | ⟨item, rfl⟩
    · cases c <;> rfl
    · rfl
  | added malloc item a _ habs hm hl =>
    refine ⟨_, ⟨hl, List.nodup_cons.mpr ⟨?_, H.names⟩⟩, ?_⟩
    · rw [List.mem_map]
      rintro ⟨e, he, hn⟩
      exact habs e he hn
    · simp only [nodesAfter, if_true, hm, Option.toList_some, List.map_cons, List.map_nil,
        List.cons_append, List.nil_append, hlabel]
  | replaced item l₁ a nv nv' l₂ hl hname hown =>
    subst hl
    refine ⟨l₁ ++ (a, nv') :: l₂, ⟨H.list.setData nv', ?_⟩, ?_⟩
    · have hstr : nv'.nameStr = nv.nameStr := by rw [ItemNv.nameStr, hname, ItemNv.nameStr]
      simpa [hstr] using H.names
    · rw [nodesAfter, ← hlabel]
      simp [label, hname, hown]
  | removed item l₁ a nv l₂ _ hl hfind hl' =>
    subst hl
    refine ⟨l₁ ++ l₂, ⟨hl', (key_ne_of_nodup H.names).2.2⟩, ?_⟩
    simp only [nodesAfter, if_true, hfind, ne_eq, Option.some.injEq]
    exact map_label_filter H.list.nodup hlabel

theorem inv_init (h : calls.init s) : s.Inv := by
  obtain ⟨m, rfl⟩ := h
  exact ⟨[], ⟨isDList_nil _, List.nodup_nil⟩, rfl⟩

/-- A call that does not copy a value without end returns. -/
theorem exists_step {c : Call} (h : s.Inv)
    (hnul : (0 : UInt8) ∈ c.item.value.val ∨ (0 : UInt8) ∈ c.item.own.val) :
    ∃ t, s.step c = some t := by
  obtain ⟨l, H, -⟩ := h
  have heff := effect_run H c
  cases hrun : c.run s.mem with
  | some r => exact ⟨_, by rw [State.step, hrun]; rfl⟩
  | none =>
    rw [hrun] at heff
    cases heff with
    | overrun _ hv ho => exact absurd hnul (not_or.mpr ⟨hv, ho⟩)

/-- The calls of a sequence all return, and keep the invariant. -/
theorem exists_exec {cs : List Call} (hs : s.Inv)
    (h : ∀ c ∈ cs, (0 : UInt8) ∈ c.item.value.val ∨ (0 : UInt8) ∈ c.item.own.val) :
    ∃ t, calls.exec s cs = some t ∧ t.Inv := by
  induction cs generalizing s with
  | nil => exact ⟨s, rfl, hs⟩
  | cons c cs ih =>
    obtain ⟨t, ht⟩ := exists_step hs (h c List.mem_cons_self)
    obtain ⟨u, hu, hinv⟩ := ih (hs.step ht) fun c' hc' => h c' (List.mem_cons_of_mem _ hc')
    have hstep : calls.step s c = some t := ht
    exact ⟨u, by rw [Machine.exec, hstep, Option.bind_some, hu], hinv⟩

end Sequences

/-- **The list after any sequence of calls.** It is a doubly linked list, its names differ, and its
nodes are those that have been added and not deleted since, the last one first. -/
theorem nodes_linked {s₀ : State} (h₀ : calls.init s₀) (cs : List Call)
    (hcs : ∀ c ∈ cs, (0 : UInt8) ∈ c.item.value.val ∧ (0 : UInt8) ∈ c.item.own.val) :
    ∃ s l, calls.exec s₀ cs = some s ∧ IsDList s.mem.heap s.mem.list.first l ∧
      l.Pairwise (fun e e' => strncmp e.2.name.val e'.2.name.val llNameLen ≠ 0) ∧
      l.map label = s.nodes.map label := by
  obtain ⟨s, hexec, l, H, hlabel⟩ := exists_exec (inv_init h₀) fun c hc => .inl (hcs c hc).1
  refine ⟨s, l, hexec, H.list, ?_, hlabel⟩
  refine (List.pairwise_map.mp H.names).imp fun {e e'} hne hcmp => hne ?_
  exact (strncmp_eq_zero_iff_of_length _ _).mp hcmp

/-- Three calls of `ll_add` with memory, one without, and a `ll_del` of the node in the middle. -/
def sampleCalls : List Call :=
  [.add (.next ItemLl) (.ofStrings [97] [49] [117]),
    .add (.next ItemLl) (.ofStrings [98] [50] [117]),
    .add (.next ItemLl) (.ofStrings [99] [51] [117]),
    .add (.fails ItemLl) (.ofStrings [100] [52] [117]), .del (.ofStrings [98] [] [117])]

/-- From an empty memory on, the calls leave two nodes. -/
theorem nodes_linked_sample : ∃ s l,
    calls.exec ⟨(llInit ⟨∅, ⟨0, none⟩, 0⟩).2, []⟩ sampleCalls = some s ∧ l.length = 2 ∧
      IsDList s.mem.heap s.mem.list.first l ∧
      l.Pairwise (fun e e' => strncmp e.2.name.val e'.2.name.val llNameLen ≠ 0) ∧
      l.map label = s.nodes.map label := by
  have h₀ : calls.init ⟨(llInit ⟨∅, ⟨0, none⟩, 0⟩).2, []⟩ := ⟨_, rfl⟩
  obtain ⟨s, l, hexec, hlist, hnames, hlabel⟩ := nodes_linked h₀ sampleCalls (by decide)
  have hnodes : (calls.exec ⟨(llInit ⟨∅, ⟨0, none⟩, 0⟩).2, []⟩ sampleCalls).map
      (fun s => s.nodes.length) = some 2 := by decide +kernel
  rw [hexec, Option.map_some, Option.some.injEq] at hnodes
  have hlen := congrArg List.length hlabel
  rw [List.length_map, List.length_map, hnodes] at hlen
  exact ⟨s, l, hexec, hlen, hlist, hnames, hlabel⟩

/-! ### What setting a value touches -/

/-- How many bytes `strcpy(nv.value, item->value)` reads, the NUL included. -/
def ItemNv.copyReads (item : ItemNv) : ℕ := (cstr (item.value.val ++ item.own.val)).length + 1

/-- A call of `ll_set` that returned `r` changed nothing but the `value` of the entry it found, and
read nothing behind the `value` of the request. -/
structure SetFrame (item : ItemNv) (m : Mem) (r : ℤ × Mem) : Prop where
  list : r.2.list = m.list
  others : ∀ b, findItem m item ≠ some (some b) → r.2.heap.lookup b = m.heap.lookup b
  entry : ∀ b, findItem m item = some (some b) → ∃ node value, m.heap.lookup b = some node ∧
    r.2.heap.lookup b = some { node with data := { node.data with value := value } }
  reads : r.1 = fnOk → item.copyReads ≤ llValueLen

theorem copyReads_le_iff (item : ItemNv) :
    item.copyReads ≤ llValueLen ↔ (0 : UInt8) ∈ item.value.val := by
  have hlen : item.value.val.length = llValueLen := item.value.property
  by_cases hv : (0 : UInt8) ∈ item.value.val
  · have hlt := cstr_length_lt hv
    rw [ItemNv.copyReads, cstr_append_of_mem hv]
    rw [hlen] at hlt
    exact iff_of_true hlt hv
  · refine iff_of_false ?_ hv
    rw [ItemNv.copyReads, cstr_append_of_notMem hv, List.length_append, hlen]
    omega

section Frame

variable {m : Mem} {l l₁ l₂ : List (Addr × ItemNv)} {a : Addr} {nv item : ItemNv}

/-- A call that fails stays inside. -/
theorem SetFrame.kept
    (hfound : ∀ b, findItem m item = some (some b) → ∃ node, m.heap.lookup b = some node)
    (lerrno : ℕ) : SetFrame item m (fnEr, { m with lerrno := lerrno }) where
  list := rfl
  others := fun _ _ => rfl
  entry := fun b hb => by
    obtain ⟨node, hnode⟩ := hfound b hb
    exact ⟨node, node.data.value, hnode, hnode⟩
  reads := fun h => absurd (show fnEr = fnOk from h) (by decide)

/-- A call that succeeds stays inside exactly when there is a NUL in the new value. -/
theorem setFrame_own_iff (H : IsDList m.heap m.list.first (l₁ ++ (a, nv) :: l₂))
    (hnv : nv.nameStr = item.nameStr) (h₁ : Absent item l₁) (hown : nv.ownStr = item.ownStr) :
    (∃ r, llSet item m = some r ∧ SetFrame item m r) ↔ (0 : UInt8) ∈ item.value.val := by
  have hfind := findItem_found H hnv h₁
  constructor
  · rintro ⟨r, hset, hframe⟩
    by_contra hv
    by_cases ho : (0 : UInt8) ∈ item.own.val
    · obtain ⟨nv', hset', -⟩ := llSet_own_eq H hnv h₁ hown (.inr ho)
      obtain rfl := Option.some.inj (hset.symm.trans hset')
      exact hv ((copyReads_le_iff item).mp (hframe.reads rfl))
    · rw [llSet_overrun H hnv h₁ hown hv ho] at hset
      cases hset
  · intro hv
    obtain ⟨nv', hset, hname, hown', -⟩ := llSet_own_eq H hnv h₁ hown (.inl hv)
    refine ⟨_, hset, rfl, ?_, ?_, fun _ => (copyReads_le_iff item).mpr hv⟩
    · intro b hb
      refine lookup_insert_ne ?_ _
      rintro rfl
      exact hb hfind
    · intro b hb
      obtain rfl : a = b := by simpa [hfind] using hb
      have hnv' : nv' = { nv with value := nv'.value } := by rw [← hname, ← hown']
      refine ⟨_, nv'.value, load_found H, (Finmap.lookup_insert _).trans ?_⟩
      rw [← hnv']

end Frame

/-- **What a call of `ll_set` touches.** It stays inside the two `value` fields if and only if it
does not get to the copy, because no entry has the name or the entry has another owner, or there is
a NUL in the new value. -/
theorem llSet_keeps_frame_iff {s : State} (hs : calls.Reachable s) (item : ItemNv) :
    (∃ r, llSet item s.mem = some r ∧ SetFrame item s.mem r) ↔
      ∀ l, items s.mem = some l → ∀ nv ∈ l, sameName item nv → sameOwn item nv →
        (0 : UInt8) ∈ item.value.val := by
  obtain ⟨l, H, -⟩ := hs.invariant (fun _ => inv_init) fun _ _ _ => State.Inv.step
  have hitems : items s.mem = some (l.map Prod.snd) := H.list.walk
  simp only [hitems, Option.some.injEq, forall_eq', List.forall_mem_map, sameName_iff, sameOwn_iff]
  rcases absent_or_found H.names item with habs | ⟨l₁, a, nv, l₂, rfl, hnv, h₁, h₂⟩
  · refine iff_of_true ⟨_, llSet_noext H.list habs, .kept ?_ _⟩ fun e he hn => absurd hn (habs e he)
    intro b hb
    rw [findItem_absent H.list habs] at hb
    cases hb
  have honly : ∀ e ∈ l₁ ++ (a, nv) :: l₂, e.2.nameStr = item.nameStr → e = (a, nv) := by
    intro e he hn
    rcases List.mem_append.mp he with he₁ | he₂
    · exact absurd hn (h₁ e he₁)
    · exact (List.mem_cons.mp he₂).resolve_right fun he => h₂ e he hn
  by_cases hown : nv.ownStr = item.ownStr
  · rw [setFrame_own_iff H.list hnv h₁ hown]
    exact ⟨fun hv _ _ _ _ => hv, fun h => h (a, nv) (by simp) hnv hown⟩
  · refine iff_of_true ⟨_, llSet_perm H.list hnv h₁ hown, .kept ?_ _⟩ ?_
    · intro b hb
      obtain rfl : a = b := by simpa [findItem_found H.list hnv h₁] using hb
      exact ⟨_, load_found H.list⟩
    · intro e he hn ho
      rw [honly e he hn] at ho
      exact absurd ho hown

/-- A list with one entry, whose name is `a` and whose owner is `u`. -/
def oneEntry : State :=
  ⟨⟨(∅ : Heap ItemLl).insert 1 ⟨.ofStrings [97] [49] [117], none, none⟩, ⟨0, some 1⟩, 0⟩,
    [(1, .ofStrings [97] [49] [117])]⟩

theorem reachable_oneEntry : calls.Reachable oneEntry := by
  let m : Mem := ⟨∅, ⟨0, none⟩, 0⟩
  have hexec : calls.exec ⟨(llInit m).2, []⟩ [.add (.next ItemLl) (.ofStrings [97] [49] [117])] =
      some oneEntry := rfl
  exact Machine.reachable_of_exec ⟨m, rfl⟩ hexec

/-- `u` sets another value. -/
theorem llSet_keeps_frame_oneEntry : calls.Reachable oneEntry ∧
    ∃ r, llSet (.ofStrings [97] [50] [117]) oneEntry.mem = some r ∧
      SetFrame (.ofStrings [97] [50] [117]) oneEntry.mem r :=
  ⟨reachable_oneEntry,
    (llSet_keeps_frame_iff reachable_oneEntry _).mpr fun _ _ _ _ _ _ => by decide⟩

/-- `u` sets a value of 32 bytes, which is what `strncpy` in the client makes of a longer one: the
copy goes on with `own`. -/
theorem llSet_reads_behind_value :
    calls.Reachable oneEntry ∧ ∃ item : ItemNv, item.value.val = List.replicate llValueLen 50 ∧
      ¬ ∃ r, llSet item oneEntry.mem = some r ∧ SetFrame item oneEntry.mem r := by
  have H : IsDList oneEntry.mem.heap oneEntry.mem.list.first
      ([] ++ [(1, .ofStrings [97] [49] [117])]) := ⟨rfl, ⟨rfl, trivial⟩, by decide⟩
  refine ⟨reachable_oneEntry, .ofStrings [97] (List.replicate llValueLen 50) [117], by decide, ?_⟩
  rw [setFrame_own_iff H (by decide) (fun _ he => nomatch he) (by decide)]
  decide

end NameValue

end Tlpiexer
