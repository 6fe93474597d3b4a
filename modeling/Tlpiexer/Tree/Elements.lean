import Tlpiexer.Constants
import Tlpiexer.Foundations.CString
import Tlpiexer.Foundations.LinkedList

/-!
# The elements of the thread-safe tree

`src/imp/30-02.c`. The "tree" is a doubly linked list of key-value pairs with a pointer to either
end, and every operation works on it between a `pthread_mutex_lock` and a
`pthread_mutex_unlock`. This file has the code in between; `Tlpiexer.Tree.Locking` runs it in
threads.

## Leaving the protected code

Some paths through that code reach the `pthread_mutex_unlock` and others `return` before it. The
result of a body therefore says by which way it was left (`Exit`), next to the value the function
goes on to return.

## Memory

`tree_add` stores the pointers it is given, `tree_del` frees them, and both of them and `tree_look`
read the strings behind the stored keys. `Mem.access` says what may still be done with a block of
the callers: only a block from `malloc` may be freed, once, and a freed block may not be read.
`Mem.free` and `sameKey` have no answer otherwise. A block is an allocation, so that its number does
not come back when the allocator reuses the memory, and a string does not change while the tree
holds it. The node itself is never freed by `tree_del`, so its cell stays in the heap.

## Ownership

The blocks behind the stored keys and values therefore have to be the tree's own: `WF` asks that
they are pairwise different and not freed, and a `tree_add` that succeeds has to be given two of
that kind (`Fresh`). A key that is only looked for has to be readable, and must not be a block that
the call frees.

## One specification for each operation

`WF m l` is the meaning of a memory: `l` lists the elements from `first` to `last`.
`treeAddBody_new`, `treeDelBody_found` and `treeLookBody_found` say what the operations make of `l`,
and `treeAddBody_exist`, `treeAddBody_nomem`, `treeDelBody_absent` and `treeLookBody_absent` are the
other paths.
-/

namespace Tlpiexer

namespace Tree

open CString LinkedHeap

/-! ### Data -/

/-- A `char *` of the callers: the block it points at and the string there. -/
structure Key where
  addr : Addr
  text : Bytes
  deriving DecidableEq

/-- What an element stores: `key` and `value` of `struct tree_elem`. -/
structure Pair where
  key : Key
  value : Ptr
  deriving DecidableEq

/-- The blocks an element refers to. -/
def Pair.blocks (p : Pair) : List Addr := p.key.addr :: p.value.toList

/-- `struct tree_elem`. -/
abbrev TreeElem := Node Pair

/-- `struct tree` without its mutex. -/
structure Root where
  first : Ptr
  last : Ptr
  deriving DecidableEq

/-- What may be done with a block of the callers. -/
inductive Access
  /-- It comes from `malloc` and may be freed. -/
  | heap
  /-- A literal, a variable or an argument of the program: it may be read, not freed. -/
  | fixed
  /-- It has been freed. -/
  | freed
  deriving DecidableEq

/-- The memory the operations work on. -/
structure Mem where
  heap : Heap TreeElem
  root : Root
  access : Addr → Access

/-- How the code behind `pthread_mutex_lock` is left, with the value that is returned. -/
inductive Exit
  /-- Through the `pthread_mutex_unlock`. -/
  | unlock (ret : ℤ)
  /-- By a `return` before it. -/
  | early (ret : ℤ)
  deriving DecidableEq

/-- The value returned. -/
def Exit.ret : Exit → ℤ
  | .unlock r => r
  | .early r => r

/-! ### The operations -/

/-- `tree_init`; `pthread_mutex_init` never answers `-1`. -/
def treeInit (m : Mem) : ℤ × Mem := (retSuccess, { m with root := ⟨none, none⟩ })

/-- `strcmp(elem->key, key) == 0`, which reads both strings. -/
def sameKey (m : Mem) (key : Key) (p : Pair) : Option Bool :=
  if m.access p.key.addr = .freed ∨ m.access key.addr = .freed then none
  else some (strcmp p.key.text key.text = 0)

/-- `free(p)`: NULL is left alone, and everything else has to be a block from `malloc` that has not
been freed yet. -/
def Mem.free (m : Mem) : Ptr → Option Mem
  | none => some m
  | some b =>
    if m.access b = .heap then some { m with access := Function.update m.access b .freed } else none

/-- The loop over the elements that stops at the key. -/
def findKey (m : Mem) (key : Key) : Option Ptr :=
  search m.heap (sameKey m key) (fuel m.heap) m.root.first

/-- `tree_add` behind its `pthread_mutex_lock`. -/
def treeAddBody (malloc : Malloc TreeElem) (key : Key) (value : Ptr) (m : Mem) :
    Option (Exit × Mem) := do
  let elem ← findKey m key
  if elem ≠ none then
    some (.early retFailure, m)
  else
    match malloc.alloc m.heap with
    | none => some (.early retFailure, m)
    | some a =>
      let heap := m.heap.insert a ⟨⟨key, value⟩, none, none⟩
      if m.root.first = none then
        some (.unlock retSuccess, { m with heap := heap, root := ⟨some a, some a⟩ })
      else
        let heap ← setNext heap m.root.last (some a)
        let heap ← setPrev heap (some a) m.root.last
        some (.unlock retSuccess, { m with heap := heap, root := ⟨m.root.first, some a⟩ })

/-- `tree_del`, "case element is firt". -/
def unlinkFirst (a : Addr) (m : Mem) : Option Mem := do
  let elem ← m.heap.lookup a
  if elem.prev = none then
    let heap ← relinkPrev m.heap elem.next none
    some { m with heap := heap, root := { m.root with first := elem.next } }
  else some m

/-- `tree_del`, "case element is last". -/
def unlinkLast (a : Addr) (m : Mem) : Option Mem := do
  let elem ← m.heap.lookup a
  if elem.next = none then
    let heap ← relinkNext m.heap elem.prev none
    some { m with heap := heap, root := { m.root with last := elem.prev } }
  else some m

/-- `tree_del`, "case element is middle". -/
def unlinkMiddle (a : Addr) (m : Mem) : Option Mem := do
  let elem ← m.heap.lookup a
  if elem.prev ≠ none ∧ elem.next ≠ none then
    let heap ← setNext m.heap elem.prev elem.next
    let elem ← heap.lookup a
    let heap ← setPrev heap elem.next elem.prev
    some { m with heap := heap }
  else some m

/-- The three cases of `tree_del` that take the element at `a` out of the list. -/
def unlinkElem (a : Addr) (m : Mem) : Option Mem := do
  let m ← unlinkFirst a m
  let m ← unlinkLast a m
  unlinkMiddle a m

/-- `free(elem->key)` and `free(elem->value)`. -/
def freePair (p : Pair) (m : Mem) : Option Mem := do
  let m ← m.free (some p.key.addr)
  m.free p.value

/-- The loop of `tree_del`, cut off after the given number of rounds. It does not stop at the
first match: it steps back to the element before the removed one and goes on from there. -/
def treeDelLoop (key : Key) : ℕ → Ptr → Bool → Mem → Option (Bool × Mem)
  | 0, _, _, _ => none
  | _ + 1, none, del, m => some (del, m)
  | n + 1, some a, del, m => do
    let elem ← m.heap.lookup a
    let same ← sameKey m key elem.data
    if same = false then
      treeDelLoop key n elem.next del m
    else
      let m ← unlinkElem a m
      let elem ← m.heap.lookup a
      let m ← freePair elem.data m
      match elem.prev with
      | none => some (true, m)
      | some p =>
        let elem ← m.heap.lookup p
        treeDelLoop key n elem.next true m

/-- `tree_del` behind its `pthread_mutex_lock`. -/
def treeDelBody (key : Key) (m : Mem) : Option (Exit × Mem) := do
  let (del, m') ← treeDelLoop key (fuel m.heap) m.root.first false m
  some (.unlock (if del then retSuccess else retFailure), m')

/-- `tree_look` behind its `pthread_mutex_lock`; the last component is `*value`. -/
def treeLookBody (key : Key) (value : Ptr) (m : Mem) : Option (Exit × Ptr) := do
  let elem ← findKey m key
  let value ← (if elem = none then some value else (load m.heap elem).map fun e => e.data.value)
  some (.unlock (if value = none then 1 else retSuccess), value)

/-- `tree_add`. -/
def treeAdd (malloc : Malloc TreeElem) (key : Key) (value : Ptr) (m : Mem) : Option (ℤ × Mem) :=
  (treeAddBody malloc key value m).map fun r => (r.1.ret, r.2)

/-- `tree_del`. -/
def treeDel (key : Key) (m : Mem) : Option (ℤ × Mem) :=
  (treeDelBody key m).map fun r => (r.1.ret, r.2)

/-- `tree_look`; the memory is only read. -/
def treeLook (key : Key) (value : Ptr) (m : Mem) : Option (ℤ × Ptr) :=
  if value ≠ none then some (retFailure, value)
  else (treeLookBody key value m).map fun r => (r.1.ret, r.2)

/-! ### Well-formed memories -/

/-- The blocks that the elements refer to. -/
def blocks (l : List (Addr × Pair)) : List Addr := l.flatMap fun e => e.2.blocks

/-- `l` lists the elements of the tree in `next` order: `first` points at the first of them and
`last` at the last, every element's `next` and `prev` are its neighbours in `l` and NULL at the
ends, and no two elements have the same key. The blocks of the keys and values can all be freed. -/
structure WF (m : Mem) (l : List (Addr × Pair)) : Prop where
  list : IsDList m.heap m.root.first l
  last : m.root.last = lastPtr none l
  keys : (l.map fun e => cstr e.2.key.text).Nodup
  owned : (blocks l).Nodup
  held : ∀ b ∈ blocks l, m.access b = .heap

/-- No element has the key. -/
def Absent (key : Key) (l : List (Addr × Pair)) : Prop :=
  ∀ e ∈ l, cstr e.2.key.text ≠ cstr key.text

/-- The key and the value can be given to a tree that holds the blocks `held`. -/
def Fresh (access : Addr → Access) (held : List Addr) (p : Pair) : Prop :=
  p.blocks.Nodup ∧ ∀ b ∈ p.blocks, access b = .heap ∧ b ∉ held

instance (access : Addr → Access) (held : List Addr) (p : Pair) :
    Decidable (Fresh access held p) :=
  inferInstanceAs (Decidable (_ ∧ ∀ b ∈ p.blocks, access b = .heap ∧ b ∉ held))

/-- What is left of the callers' blocks when some have been freed. -/
def freeing (bs : List Addr) (access : Addr → Access) : Addr → Access :=
  fun b => if b ∈ bs then .freed else access b

theorem freeing_of_notMem {bs : List Addr} {b : Addr} (h : b ∉ bs) (access : Addr → Access) :
    freeing bs access b = access b := if_neg h

@[simp] theorem blocks_append (l₁ l₂ : List (Addr × Pair)) :
    blocks (l₁ ++ l₂) = blocks l₁ ++ blocks l₂ := List.flatMap_append

@[simp] theorem blocks_cons (e : Addr × Pair) (l : List (Addr × Pair)) :
    blocks (e :: l) = e.2.blocks ++ blocks l := rfl

theorem mem_blocks {e : Addr × Pair} {l : List (Addr × Pair)} (he : e ∈ l) {b : Addr}
    (hb : b ∈ e.2.blocks) : b ∈ blocks l := List.mem_flatMap.mpr ⟨e, he, hb⟩

theorem addr_mem_blocks (p : Pair) : p.key.addr ∈ p.blocks := List.mem_cons_self

theorem treeInit_wf (m : Mem) : WF (treeInit m).2 [] :=
  ⟨isDList_nil _, rfl, List.nodup_nil, List.nodup_nil, by simp [blocks]⟩

/-- Freeing a block leaves the elements alone. -/
theorem heap_of_free {m m' : Mem} {p : Ptr} (h : m.free p = some m') : m'.heap = m.heap := by
  cases p with
  | none => cases h; rfl
  | some b =>
    rw [Mem.free] at h
    split at h
    · cases h; rfl
    · cases h

/-- Freeing two different blocks from `malloc`. -/
theorem freePair_eq {m : Mem} {p : Pair} (hnd : p.blocks.Nodup)
    (hheap : ∀ b ∈ p.blocks, m.access b = .heap) :
    freePair p m = some { m with access := freeing p.blocks m.access } := by
  have hkey : m.access p.key.addr = .heap := hheap _ (addr_mem_blocks p)
  cases hv : p.value with
  | none =>
    have haccess : Function.update m.access p.key.addr .freed = freeing p.blocks m.access := by
      funext b
      simp [freeing, Pair.blocks, hv, Function.update_apply]
    simp [freePair, Mem.free, hkey, hv, haccess]
  | some v =>
    have hne : v ≠ p.key.addr := by
      rintro rfl
      simp [Pair.blocks, hv] at hnd
    have hvalue : m.access v = .heap := hheap v (by simp [Pair.blocks, hv])
    have haccess : Function.update (Function.update m.access p.key.addr .freed) v .freed =
        freeing p.blocks m.access := by
      funext b
      simp only [freeing, Pair.blocks, hv, Function.update_apply, Option.toList_some,
        List.mem_cons, List.not_mem_nil, or_false]
      grind
    simp [freePair, Mem.free, hkey, hv, hne, hvalue, haccess]

section Specifications

variable {m : Mem} {l l₁ l₂ : List (Addr × Pair)} {a : Addr} {p : Pair} {key : Key}

/-- Either no element has the key, or the list splits at the one that has it. -/
theorem absent_or_split (key : Key) (l : List (Addr × Pair)) :
    Absent key l ∨ ∃ l₁ a p l₂, l = l₁ ++ (a, p) :: l₂ ∧ cstr p.key.text = cstr key.text := by
  by_cases h : Absent key l
  · exact .inl h
  · rw [Absent] at h
    push Not at h
    obtain ⟨⟨a, p⟩, he, hk⟩ := h
    obtain ⟨l₁, l₂, rfl⟩ := List.append_of_mem he
    exact .inr ⟨l₁, a, p, l₂, rfl, hk⟩

/-- With distinct keys, an element's key is absent before and behind it. -/
theorem WF.absent_around (H : WF m (l₁ ++ (a, p) :: l₂)) (hk : cstr p.key.text = cstr key.text) :
    Absent key l₁ ∧ Absent key l₂ := by
  obtain ⟨h₁, h₂, -⟩ := key_ne_of_nodup H.keys
  exact ⟨fun e he => hk ▸ h₁ e he, fun e he => hk ▸ h₂ e he⟩

theorem WF.lookup (H : WF m (l₁ ++ (a, p) :: l₂)) :
    m.heap.lookup a = some ⟨p, headPtr l₂ none, lastPtr none l₁⟩ :=
  H.list.seg.lookup

/-- An element's blocks are two, and nobody else's. -/
theorem WF.owned_around (H : WF m (l₁ ++ (a, p) :: l₂)) :
    p.blocks.Nodup ∧ (blocks (l₁ ++ l₂)).Nodup ∧ ∀ b ∈ blocks (l₁ ++ l₂), b ∉ p.blocks := by
  have hperm : (blocks (l₁ ++ (a, p) :: l₂)).Perm (p.blocks ++ blocks (l₁ ++ l₂)) := by
    rw [blocks_append, blocks_cons, blocks_append]
    exact List.perm_append_comm_assoc _ _ _
  obtain ⟨hp, hrest, hne⟩ := List.nodup_append.mp (hperm.nodup_iff.mp H.owned)
  exact ⟨hp, hrest, fun b hb hb' => hne b hb' b hb rfl⟩

theorem WF.held_of_mem (H : WF m (l₁ ++ (a, p) :: l₂)) {b : Addr} (hb : b ∈ p.blocks) :
    m.access b = .heap :=
  H.held b (mem_blocks (by simp : (a, p) ∈ l₁ ++ (a, p) :: l₂) hb)

/-! ### Comparing keys -/

/-- Two strings that have not been freed can be compared. -/
theorem sameKey_eq (hkey : m.access key.addr ≠ .freed) (hp : m.access p.key.addr ≠ .freed) :
    sameKey m key p = some (decide (cstr p.key.text = cstr key.text)) := by
  rw [sameKey, if_neg (not_or.mpr ⟨hp, hkey⟩), decide_eq_decide.mpr (strcmp_eq_zero_iff _ _)]

theorem sameKey_eq_false (hkey : m.access key.addr ≠ .freed) (hp : m.access p.key.addr ≠ .freed)
    (h : cstr p.key.text ≠ cstr key.text) : sameKey m key p = some false := by
  rw [sameKey_eq hkey hp, decide_eq_false h]

/-- The keys in the tree can be read. -/
theorem WF.readable (H : WF m l) {e : Addr × Pair} (he : e ∈ l) :
    m.access e.2.key.addr ≠ .freed := by
  rw [H.held _ (mem_blocks he (addr_mem_blocks e.2))]
  decide

theorem findKey_eq (H : WF m l) (hkey : m.access key.addr ≠ .freed) :
    findKey m key =
      find m.heap (fun p => cstr p.key.text = cstr key.text) (fuel m.heap) m.root.first :=
  H.list.search_eq_find fun _ he => sameKey_eq hkey (H.readable he)

theorem findKey_absent (H : WF m l) (hkey : m.access key.addr ≠ .freed) (h : Absent key l) :
    findKey m key = some none := by
  rw [findKey_eq H hkey]
  exact H.list.find_eq_none fun e he => decide_eq_false (h e he)

theorem findKey_found (H : WF m (l₁ ++ (a, p) :: l₂)) (hkey : m.access key.addr ≠ .freed)
    (hk : cstr p.key.text = cstr key.text) : findKey m key = some (some a) := by
  rw [findKey_eq H hkey]
  exact H.list.find_eq_some (fun e he => decide_eq_false ((H.absent_around hk).1 e he))
    (decide_eq_true hk)

/-! ### `tree_add` -/

theorem treeAddBody_exist (H : WF m (l₁ ++ (a, p) :: l₂)) (hkey : m.access key.addr ≠ .freed)
    (hk : cstr p.key.text = cstr key.text) (malloc : Malloc TreeElem) (value : Ptr) :
    treeAddBody malloc key value m = some (.early retFailure, m) := by
  simp [treeAddBody, findKey_found H hkey hk]

theorem treeAddBody_nomem (H : WF m l) (hkey : m.access key.addr ≠ .freed) (h : Absent key l)
    {malloc : Malloc TreeElem} (hm : malloc.alloc m.heap = none) (value : Ptr) :
    treeAddBody malloc key value m = some (.early retFailure, m) := by
  simp [treeAddBody, findKey_absent H hkey h, hm]

/-- A new element keeps the keys distinct and the blocks the tree's own. -/
theorem WF.nodup_concat (H : WF m l) {q : Pair} (h : Absent q.key l)
    (hfresh : Fresh m.access (blocks l) q) :
    ((l ++ [(a, q)]).map fun e => cstr e.2.key.text).Nodup ∧ (blocks (l ++ [(a, q)])).Nodup ∧
      ∀ b ∈ blocks (l ++ [(a, q)]), m.access b = .heap := by
  have hblocks : blocks (l ++ [(a, q)]) = blocks l ++ q.blocks := by simp [blocks]
  refine ⟨?_, ?_, fun b hb => ?_⟩
  · rw [List.map_append, List.nodup_append]
    refine ⟨H.keys, by simp, fun k hk k' hk' => ?_⟩
    obtain ⟨e, he, rfl⟩ := List.mem_map.mp hk
    rw [List.mem_singleton.mp hk']
    exact h e he
  · rw [hblocks, List.nodup_append]
    refine ⟨H.owned, hfresh.1, fun b hb b' hb' => ?_⟩
    rintro rfl
    exact (hfresh.2 b hb').2 hb
  · rw [hblocks] at hb
    rcases List.mem_append.mp hb with hb | hb
    · exact H.held b hb
    · exact (hfresh.2 b hb).1

/-- **Adding a new key** puts its element at the end. -/
theorem treeAddBody_new (H : WF m l) {value : Ptr}
    (hfresh : Fresh m.access (blocks l) ⟨key, value⟩) (h : Absent key l) {malloc : Malloc TreeElem}
    (hm : malloc.alloc m.heap = some a) :
    ∃ m', treeAddBody malloc key value m = some (.unlock retSuccess, m') ∧
      WF m' (l ++ [(a, ⟨key, value⟩)]) ∧ m'.access = m.access := by
  have hkey : m.access key.addr ≠ .freed := by
    rw [(hfresh.2 key.addr (addr_mem_blocks ⟨key, value⟩)).1]
    decide
  obtain ⟨hkeys, howned, hheld⟩ := H.nodup_concat (a := a) h hfresh
  by_cases hl : l = []
  · subst hl
    have hfirst : m.root.first = none := H.list.first_eq
    refine ⟨{ m with heap := m.heap.insert a ⟨⟨key, value⟩, none, none⟩, root := ⟨some a, some a⟩ },
      ?_, ⟨⟨rfl, ?_, ?_⟩, rfl, hkeys, howned, hheld⟩, rfl⟩
    · simp [treeAddBody, findKey_absent H hkey h, hm, hfirst]
    · exact ⟨Finmap.lookup_insert _, trivial⟩
    · simp
  · obtain ⟨h₁, h₂, hset₁, hset₂, H'⟩ := H.list.concat hl (malloc.fresh _ _ hm) ⟨key, value⟩
    have hfirst : m.root.first ≠ none := by
      rw [H.list.first_eq]
      exact fun h => hl (headPtr_eq_none_iff.mp h)
    rw [← H.last] at hset₁ hset₂
    refine ⟨{ m with heap := h₂, root := ⟨m.root.first, some a⟩ }, ?_,
      ⟨H', ?_, hkeys, howned, hheld⟩, rfl⟩
    · simp [treeAddBody, findKey_absent H hkey h, hm, hfirst, hset₁, hset₂]
    · simp

/-! ### `tree_del` -/

/-- **Taking an element out.** The element keeps its own pointers, so that the loop can go on from
it. -/
theorem exists_unlinkElem (H : WF m (l₁ ++ (a, p) :: l₂)) :
    ∃ m', unlinkElem a m = some m' ∧ WF m' (l₁ ++ l₂) ∧ m'.access = m.access ∧
      m'.heap.lookup a = m.heap.lookup a := by
  obtain ⟨h₁, h₂, hnext, hprev, hs, hf⟩ := H.list.seg.unlink H.list.nodup
  obtain ⟨hn₁, hn₂, hnd, -⟩ := nodup_middle H.list.nodup
  obtain ⟨-, -, hkeys⟩ := key_ne_of_nodup H.keys
  obtain ⟨-, howned, -⟩ := H.owned_around
  have hheld : ∀ b ∈ blocks (l₁ ++ l₂), m.access b = .heap := by
    intro b hb
    refine H.held b ?_
    rw [blocks_append, List.mem_append] at hb
    rw [blocks_append, blocks_cons, List.mem_append, List.mem_append]
    exact hb.imp_right .inr
  have hlook := H.lookup
  have hlook₂ : h₂.lookup a = m.heap.lookup a := by
    refine hf a ?_
    rw [addrs, List.map_append, List.mem_append, not_or]
    exact ⟨hn₁, hn₂⟩
  rcases List.eq_nil_or_concat l₁ with rfl | ⟨l₁, ⟨b, q⟩, rfl⟩
  · obtain rfl : m.heap = h₁ := by simpa [relinkNext] using hnext
    cases l₂ with
    | nil =>
      obtain rfl : m.heap = h₂ := by simpa [relinkPrev] using hprev
      refine ⟨{ m with root := ⟨none, none⟩ }, ?_,
        ⟨⟨rfl, hs, hnd⟩, rfl, hkeys, howned, hheld⟩, rfl, rfl⟩
      simp [unlinkElem, unlinkFirst, unlinkLast, unlinkMiddle, hlook, relinkPrev, relinkNext]
    | cons e l₂ =>
      refine ⟨{ m with heap := h₂, root := ⟨some e.1, m.root.last⟩ }, ?_,
        ⟨⟨rfl, hs, hnd⟩, H.last, hkeys, howned, hheld⟩, rfl, hlook₂⟩
      rw [headPtr_cons, lastPtr_nil] at hprev
      simp [unlinkElem, unlinkFirst, unlinkLast, unlinkMiddle, hlook, hprev, hlook₂]
  · rw [List.concat_eq_append] at *
    have hfirst : m.root.first = headPtr (l₁ ++ [(b, q)] ++ l₂) none := by
      rw [H.list.first_eq]
      cases l₁ <;> rfl
    cases l₂ with
    | nil =>
      obtain rfl : h₁ = h₂ := by simpa [relinkPrev] using hprev
      refine ⟨{ m with heap := h₁, root := ⟨m.root.first, some b⟩ }, ?_,
        ⟨⟨hfirst, hs, hnd⟩, by simp, hkeys, howned, hheld⟩, rfl, hlook₂⟩
      rw [lastPtr_concat, headPtr_nil] at hnext
      simp [unlinkElem, unlinkFirst, unlinkLast, unlinkMiddle, hlook, hnext, hlook₂]
    | cons e l₂ =>
      refine ⟨{ m with heap := h₂ }, ?_, ⟨⟨hfirst, hs, hnd⟩, ?_, hkeys, howned, hheld⟩, rfl, hlook₂⟩
      · rw [lastPtr_concat, headPtr_cons] at hnext hprev
        rw [relinkNext, if_neg (by simp)] at hnext
        rw [relinkPrev, if_neg (by simp)] at hprev
        have hlook₁ : h₁.lookup a = m.heap.lookup a := by
          refine lookup_of_modify hnext ?_
          rintro rfl
          simp at hn₁
        simp [unlinkElem, unlinkFirst, unlinkLast, unlinkMiddle, hlook, hnext, hlook₁, hprev]
      · rw [H.last]
        simp [lastPtr_append]

/-- The loop passes the elements with other keys. -/
theorem treeDelLoop_skip {prev : Ptr} (del : Bool) (n : ℕ) (hkey : m.access key.addr ≠ .freed)
    (hread : ∀ e ∈ l₁, m.access e.2.key.addr ≠ .freed) (h : Absent key l₁)
    (hs : Seg m.heap prev (l₁ ++ l₂) none) :
    treeDelLoop key (l₁.length + n) (headPtr (l₁ ++ l₂) none) del m =
      treeDelLoop key n (headPtr l₂ none) del m := by
  induction l₁ generalizing prev with
  | nil => simp
  | cons e l₁ ih =>
    obtain ⟨a, p⟩ := e
    have hne : sameKey m key p = some false :=
      sameKey_eq_false hkey (hread (a, p) (by simp)) (h (a, p) (by simp))
    rw [List.length_cons, show l₁.length + 1 + n = l₁.length + n + 1 by omega, List.cons_append,
      headPtr_cons, treeDelLoop, hs.1]
    rw [Option.bind_eq_bind, Option.bind_some, hne, Option.bind_eq_bind, Option.bind_some,
      if_pos rfl]
    exact ih (fun e he => hread e (List.mem_cons_of_mem _ he))
      (fun e he => h e (List.mem_cons_of_mem _ he)) hs.2

/-- The loop ends behind the last element. -/
theorem treeDelLoop_absent {prev : Ptr} (del : Bool) {n : ℕ} (hkey : m.access key.addr ≠ .freed)
    (hread : ∀ e ∈ l, m.access e.2.key.addr ≠ .freed) (h : Absent key l)
    (hs : Seg m.heap prev l none) (hn : l.length < n) :
    treeDelLoop key n (headPtr l none) del m = some (del, m) := by
  obtain ⟨k, rfl⟩ : ∃ k, n = l.length + (k + 1) := ⟨n - l.length - 1, by omega⟩
  have hskip := treeDelLoop_skip del (k + 1) hkey hread h
    (by rw [List.append_nil]; exact hs : Seg m.heap prev (l ++ []) none)
  rw [List.append_nil] at hskip
  rw [hskip]
  rfl

theorem treeDelBody_absent (H : WF m l) (hkey : m.access key.addr ≠ .freed) (h : Absent key l) :
    treeDelBody key m = some (.unlock retFailure, m) := by
  have hloop := treeDelLoop_absent false hkey (fun e he => H.readable he) h H.list.seg
    H.list.length_lt_fuel
  rw [← H.list.first_eq] at hloop
  simp [treeDelBody, hloop]

/-- Freeing blocks that no element refers to. -/
theorem WF.free_others (H : WF m l) {bs : List Addr} (hbs : ∀ b ∈ blocks l, b ∉ bs) :
    WF { m with access := freeing bs m.access } l :=
  ⟨H.list, H.last, H.keys, H.owned,
    fun b hb => (freeing_of_notMem (hbs b hb) m.access).trans (H.held b hb)⟩

/-- One round at an element with the key: it is taken out and its blocks are freed, and the loop
goes on with the elements behind it. The key is still compared with these, so it must not have been
freed. -/
theorem treeDelLoop_match {n : ℕ} (del : Bool) (H : WF m (l₁ ++ (a, p) :: l₂))
    (hkey : m.access key.addr ≠ .freed) (hother : key.addr ∉ p.blocks)
    (hk : cstr p.key.text = cstr key.text) (hn : l₂.length < n) :
    ∃ m', treeDelLoop key (n + 1) (some a) del m = some (true, m') ∧ WF m' (l₁ ++ l₂) ∧
      m'.access = freeing p.blocks m.access := by
  obtain ⟨m₁, hunlink, H₁, haccess, hlook⟩ := exists_unlinkElem H
  have hsame : sameKey m key p = some true := by
    rw [sameKey_eq hkey (H.readable (e := (a, p)) (by simp)), decide_eq_true hk]
  rw [H.lookup] at hlook
  have hrest : Absent key l₂ := (H.absent_around hk).2
  obtain ⟨hnd, -, hothers⟩ := H.owned_around
  have hfree : freePair p m₁ = some { m₁ with access := freeing p.blocks m₁.access } :=
    freePair_eq hnd fun b hb => by rw [haccess]; exact H.held_of_mem hb
  have H' := H₁.free_others hothers
  refine ⟨{ m₁ with access := freeing p.blocks m₁.access }, ?_, H', by rw [haccess]⟩
  rcases List.eq_nil_or_concat l₁ with rfl | ⟨l₁, ⟨b, q⟩, rfl⟩
  · simp [treeDelLoop, H.lookup, hsame, hunlink, hlook, hfree]
  · rw [List.concat_eq_append] at *
    have hb : m₁.heap.lookup b = some ⟨q, headPtr l₂ none, lastPtr none l₁⟩ := by
      have := H'.list.seg
      rw [List.append_assoc] at this
      exact this.lookup
    have hkey' : freeing p.blocks m₁.access key.addr ≠ .freed := by
      rwa [freeing_of_notMem hother, haccess]
    have hloop := treeDelLoop_absent (m := { m₁ with access := freeing p.blocks m₁.access }) true
      hkey' (fun e he => H'.readable (List.mem_append_right _ he)) hrest
      (seg_append.mp H'.list.seg).2 hn
    simp [treeDelLoop, H.lookup, hsame, hunlink, hlook, hfree, hb, hloop]

/-- **Deleting a key** takes its element out of the list and frees its key and value. -/
theorem treeDelBody_found (H : WF m (l₁ ++ (a, p) :: l₂)) (hkey : m.access key.addr ≠ .freed)
    (hother : key.addr ∉ p.blocks) (hk : cstr p.key.text = cstr key.text) :
    ∃ m', treeDelBody key m = some (.unlock retSuccess, m') ∧ WF m' (l₁ ++ l₂) ∧
      m'.access = freeing p.blocks m.access := by
  have hfuel := H.list.length_lt_fuel
  rw [List.length_append, List.length_cons] at hfuel
  obtain ⟨n, hn⟩ : ∃ n, fuel m.heap = l₁.length + (n + 1) :=
    ⟨fuel m.heap - l₁.length - 1, by omega⟩
  obtain ⟨m', hloop, H', haccess⟩ :=
    treeDelLoop_match false H hkey hother hk (by omega : l₂.length < n)
  have hskip := treeDelLoop_skip false (n + 1) hkey
    (fun e he => H.readable (List.mem_append_left _ he)) (H.absent_around hk).1 H.list.seg
  rw [← hn, ← H.list.first_eq, headPtr_cons, hloop] at hskip
  exact ⟨m', by simp [treeDelBody, hskip], H', haccess⟩

/-! ### `tree_look` -/

theorem treeLookBody_absent (H : WF m l) (hkey : m.access key.addr ≠ .freed) (h : Absent key l)
    (value : Ptr) :
    treeLookBody key value m =
      some (.unlock (if value = none then 1 else retSuccess), value) := by
  simp [treeLookBody, findKey_absent H hkey h]

theorem treeLookBody_found (H : WF m (l₁ ++ (a, p) :: l₂)) (hkey : m.access key.addr ≠ .freed)
    (hk : cstr p.key.text = cstr key.text) (value : Ptr) :
    treeLookBody key value m =
      some (.unlock (if p.value = none then 1 else retSuccess), p.value) := by
  simp [treeLookBody, findKey_found H hkey hk, H.lookup]

end Specifications

end Tree

end Tlpiexer
