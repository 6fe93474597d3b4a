import Tlpiexer.Tree.Elements

/-!
# The tree is an insertion-ordered map

What the tree of `src/imp/30-02.c` is for: a finite map from keys to values that lists its pairs
in the order they were added. `OrderedMap` is that map, over any type of keys, with the
distinctness of its keys as a field. Keys of the tree are equal when `strcmp` says so, which is to
say that the map is keyed by `cstr key`; under a key it has the two pointers of the `tree_add`.

## Who owns the pointers

`tree_del` frees both pointers, so not every sequence of calls is answered like a map: one block
stored twice is freed twice, and a `tree_del` that is given the stored key itself goes on comparing
with a string it has freed. `Disciplined` is what the callers have to keep to, on the calls, the map
before each of them and the blocks that are left: a `tree_add` that succeeds hands over two blocks
from `malloc` that the tree does not have yet, every key is readable, and the key of a `tree_del` is
not one of the blocks it frees.

`Rep m M l` ties a memory to a map through the list of elements. Every such call keeps it and
answers as the map does (`exec_refines`), and from there the whole sequence of calls.

## Main results

* `exec_refines` — one call
* `execAll_refines` — every disciplined sequence of calls on a tree made by `tree_init`
* `execAll_double_free` — sequences that are not
-/

namespace Tlpiexer

namespace Tree

open CString LinkedHeap

/-! ### Insertion-ordered maps -/

/-- A finite map, listed in the order in which its keys were added. -/
structure OrderedMap (K V : Type*) where
  /-- The pairs, oldest first. -/
  entries : List (K × V)
  /-- No key occurs twice. -/
  nodup : (entries.map Prod.fst).Nodup

namespace OrderedMap

variable {K V : Type*} {M : OrderedMap K V} {k : K} {v : V}

/-- The keys, oldest first. -/
def keys (M : OrderedMap K V) : List K := M.entries.map Prod.fst

/-- The map without keys. -/
def empty : OrderedMap K V := ⟨[], List.nodup_nil⟩

/-- The map with a new key. -/
def insert (M : OrderedMap K V) (k : K) (v : V) (h : k ∉ M.keys) : OrderedMap K V where
  entries := M.entries ++ [(k, v)]
  nodup := by
    rw [List.map_append, List.nodup_append]
    refine ⟨M.nodup, by simp, fun k' hk' k'' hk'' => ?_⟩
    rintro rfl
    obtain rfl : k' = k := by simpa using hk''
    exact h hk'

/-- A key occurs only once. -/
theorem ne_of_split {E₁ E₂ : List (K × V)} (hM : M.entries = E₁ ++ (k, v) :: E₂) :
    (∀ e ∈ E₁, e.1 ≠ k) ∧ ∀ e ∈ E₂, e.1 ≠ k := by
  have hnd := M.nodup
  rw [hM] at hnd
  exact ⟨(key_ne_of_nodup hnd).1, (key_ne_of_nodup hnd).2.1⟩

theorem mem_keys_of_split {E₁ E₂ : List (K × V)} (hM : M.entries = E₁ ++ (k, v) :: E₂) :
    k ∈ M.keys := by
  simp [keys, hM]

variable [DecidableEq K]

/-- The map without one key. -/
def erase (M : OrderedMap K V) (k : K) : OrderedMap K V where
  entries := M.entries.filter fun e => e.1 ≠ k
  nodup := M.nodup.sublist (List.filter_sublist.map Prod.fst)

/-- The value of a key. -/
def get? (M : OrderedMap K V) (k : K) : Option V :=
  (M.entries.find? fun e => e.1 = k).map Prod.snd

theorem get?_eq_none (h : k ∉ M.keys) : M.get? k = none := by
  rw [get?, List.find?_eq_none.mpr, Option.map_none]
  intro e he hek
  exact h (List.mem_map.mpr ⟨e, he, by simpa using hek⟩)

theorem get?_of_split {E₁ E₂ : List (K × V)} (hM : M.entries = E₁ ++ (k, v) :: E₂) :
    M.get? k = some v := by
  have hnone : E₁.find? (fun e => e.1 = k) = none :=
    List.find?_eq_none.mpr fun e he hek => (ne_of_split hM).1 e he (by simpa using hek)
  rw [get?, hM, List.find?_append, hnone, List.find?_cons_of_pos (by simp)]
  rfl

theorem erase_of_split {E₁ E₂ : List (K × V)} (hM : M.entries = E₁ ++ (k, v) :: E₂) :
    (M.erase k).entries = E₁ ++ E₂ := by
  obtain ⟨h₁, h₂⟩ := ne_of_split hM
  have hf₁ : E₁.filter (fun e => e.1 ≠ k) = E₁ :=
    List.filter_eq_self.mpr fun e he => by simpa using h₁ e he
  have hf₂ : E₂.filter (fun e => e.1 ≠ k) = E₂ :=
    List.filter_eq_self.mpr fun e he => by simpa using h₂ e he
  show M.entries.filter (fun e => e.1 ≠ k) = E₁ ++ E₂
  rw [hM, List.filter_append, List.filter_cons_of_neg (by simp), hf₁, hf₂]

end OrderedMap

/-! ### Calls -/

/-- A call of one of the three operations. `tree_look` is called with `*value == NULL`. -/
inductive Call
  | add (malloc : Malloc TreeElem) (key : Key) (value : Ptr)
  | del (key : Key)
  | look (key : Key)

/-- The value is not NULL and the `malloc` of the call succeeds. -/
def Call.Ok : Call → Prop
  | .add malloc _ value => malloc.Succeeds ∧ value ≠ none
  | _ => True

/-- Make a call: its return value, `*value` after it, and the memory. -/
def exec (m : Mem) : Call → Option ((ℤ × Ptr) × Mem)
  | .add malloc key value => (treeAdd malloc key value m).map fun r => ((r.1, none), r.2)
  | .del key => (treeDel key m).map fun r => ((r.1, none), r.2)
  | .look key => (treeLook key none m).map fun r => (r, m)

/-- Make a sequence of calls. -/
def execAll (m : Mem) : List Call → Option (List (ℤ × Ptr) × Mem)
  | [] => some ([], m)
  | c :: cs => do
    let (r, m) ← exec m c
    let (rs, m) ← execAll m cs
    some (r :: rs, m)

/-- What a call does to the map, and what it answers. -/
def OrderedMap.call (M : OrderedMap Bytes Pair) : Call → (ℤ × Ptr) × OrderedMap Bytes Pair
  | .add _ key value =>
    if h : cstr key.text ∈ M.keys then ((-1, none), M)
    else ((0, none), M.insert (cstr key.text) ⟨key, value⟩ h)
  | .del key =>
    if cstr key.text ∈ M.keys then ((0, none), M.erase (cstr key.text)) else ((-1, none), M)
  | .look key =>
    match M.get? (cstr key.text) with
    | some p => ((0, p.value), M)
    | none => ((1, none), M)

/-- The answers of a sequence of calls, and the map after them. -/
def OrderedMap.callAll (M : OrderedMap Bytes Pair) :
    List Call → List (ℤ × Ptr) × OrderedMap Bytes Pair
  | [] => ([], M)
  | c :: cs =>
    let (r, M) := M.call c
    let (rs, M) := M.callAll cs
    (r :: rs, M)

/-! ### Ownership -/

/-- The blocks that the map has been handed. -/
def OrderedMap.held (M : OrderedMap Bytes Pair) : List Addr := M.entries.flatMap fun e => e.2.blocks

/-- What the callers owe to a call. -/
def Call.Proper (access : Addr → Access) (M : OrderedMap Bytes Pair) : Call → Prop
  | .add _ key value =>
    if cstr key.text ∈ M.keys then access key.addr ≠ .freed
    else Fresh access M.held ⟨key, value⟩
  | .del key =>
    access key.addr ≠ .freed ∧ ∀ p ∈ M.get? (cstr key.text), key.addr ∉ p.blocks
  | .look key => access key.addr ≠ .freed

/-- The callers' blocks after a call. -/
def Call.leaves (access : Addr → Access) (M : OrderedMap Bytes Pair) : Call → Addr → Access
  | .del key =>
    match M.get? (cstr key.text) with
    | some p => freeing p.blocks access
    | none => access
  | _ => access

/-- The callers keep to the rules in a sequence of calls. -/
def Disciplined : (Addr → Access) → OrderedMap Bytes Pair → List Call → Prop
  | _, _, [] => True
  | access, M, c :: cs => c.Proper access M ∧ Disciplined (c.leaves access M) (M.call c).2 cs

instance (access : Addr → Access) (M : OrderedMap Bytes Pair) :
    ∀ c : Call, Decidable (c.Proper access M)
  | .add _ key value =>
    inferInstanceAs (Decidable (if cstr key.text ∈ M.keys then access key.addr ≠ .freed
      else Fresh access M.held ⟨key, value⟩))
  | .del key =>
    inferInstanceAs (Decidable (access key.addr ≠ .freed ∧
      ∀ p ∈ M.get? (cstr key.text), key.addr ∉ p.blocks))
  | .look key => inferInstanceAs (Decidable (access key.addr ≠ .freed))

instance Disciplined.decidable : ∀ (access : Addr → Access) (M : OrderedMap Bytes Pair)
    (cs : List Call), Decidable (Disciplined access M cs)
  | _, _, [] => inferInstanceAs (Decidable True)
  | access, M, c :: cs =>
    have := Disciplined.decidable (c.leaves access M) (M.call c).2 cs
    inferInstanceAs (Decidable (_ ∧ _))

/-! ### The refinement -/

/-- The entry an element stands for. -/
def Pair.entry (p : Pair) : Bytes × Pair := (cstr p.key.text, p)

/-- The memory `m` holds the map `M` in the elements `l`. -/
structure Rep (m : Mem) (M : OrderedMap Bytes Pair) (l : List (Addr × Pair)) : Prop where
  wf : WF m l
  entries : M.entries = l.map fun e => e.2.entry
  values : ∀ e ∈ l, e.2.value ≠ none

section Refinement

variable {m : Mem} {M : OrderedMap Bytes Pair} {l l₁ l₂ : List (Addr × Pair)} {a : Addr} {p : Pair}
  {key : Key}

theorem mem_keys_iff (hM : M.entries = l.map fun e => e.2.entry) :
    cstr key.text ∉ M.keys ↔ Absent key l := by
  rw [OrderedMap.keys, hM, List.map_map]
  constructor
  · intro h e he hek
    exact h (List.mem_map.mpr ⟨e, he, hek⟩)
  · intro h hmem
    obtain ⟨e, he, hek⟩ := List.mem_map.mp hmem
    exact h e he hek

theorem entries_split (hM : M.entries = (l₁ ++ (a, p) :: l₂).map fun e => e.2.entry)
    (hk : cstr p.key.text = cstr key.text) :
    M.entries = l₁.map (fun e => e.2.entry) ++ (cstr key.text, p) :: l₂.map fun e => e.2.entry := by
  rw [hM, List.map_append, List.map_cons, Pair.entry, hk]

theorem held_eq (hM : M.entries = l.map fun e => e.2.entry) : M.held = blocks l := by
  rw [OrderedMap.held, hM, List.flatMap_map]
  rfl

theorem entries_insert {value : Ptr} (hM : M.entries = l.map fun e => e.2.entry)
    (h : cstr key.text ∉ M.keys) :
    (M.insert (cstr key.text) ⟨key, value⟩ h).entries =
      (l ++ [(a, (⟨key, value⟩ : Pair))]).map fun e => e.2.entry := by
  show M.entries ++ [(cstr key.text, ⟨key, value⟩)] = _
  rw [hM, List.map_append]
  rfl

/-- The call answers as the map does, and the memory then holds the map after the call. -/
def Refines (m : Mem) (M : OrderedMap Bytes Pair) (c : Call) : Prop :=
  ∃ m' l', exec m c = some ((M.call c).1, m') ∧ Rep m' (M.call c).2 l' ∧
    m'.access = c.leaves m.access M

theorem refines_add (R : Rep m M l) {malloc : Malloc TreeElem} (hmalloc : malloc.Succeeds)
    {value : Ptr} (hvalue : value ≠ none)
    (hproper : (Call.add malloc key value).Proper m.access M) :
    Refines m M (.add malloc key value) := by
  rcases absent_or_split key l with h | ⟨l₁, a, p, l₂, rfl, hk⟩
  · have hkey := (mem_keys_iff R.entries).mpr h
    rw [Call.Proper, if_neg hkey, held_eq R.entries] at hproper
    obtain ⟨a, ha⟩ := hmalloc m.heap
    obtain ⟨m', hadd, H', haccess⟩ := treeAddBody_new R.wf hproper h ha
    refine ⟨m', l ++ [(a, ⟨key, value⟩)], ?_, ?_, haccess⟩
    · simp [exec, treeAdd, hadd, OrderedMap.call, hkey, Exit.ret, retSuccess]
    · rw [OrderedMap.call, dif_neg hkey]
      refine ⟨H', entries_insert R.entries hkey, fun e he => ?_⟩
      rcases List.mem_append.mp he with he | he
      · exact R.values e he
      · rw [List.mem_singleton.mp he]
        exact hvalue
  · have hkey := OrderedMap.mem_keys_of_split (entries_split R.entries hk)
    rw [Call.Proper, if_pos hkey] at hproper
    refine ⟨m, l₁ ++ (a, p) :: l₂, ?_, ?_, rfl⟩
    · simp [exec, treeAdd, treeAddBody_exist R.wf hproper hk, OrderedMap.call, hkey, Exit.ret,
        retFailure]
    · rw [OrderedMap.call, dif_pos hkey]
      exact R

theorem refines_del (R : Rep m M l) (hproper : (Call.del key).Proper m.access M) :
    Refines m M (.del key) := by
  obtain ⟨hread, hother⟩ := hproper
  rcases absent_or_split key l with h | ⟨l₁, a, p, l₂, rfl, hk⟩
  · have hkey := (mem_keys_iff R.entries).mpr h
    refine ⟨m, l, ?_, ?_, ?_⟩
    · simp [exec, treeDel, treeDelBody_absent R.wf hread h, OrderedMap.call, hkey, Exit.ret,
        retFailure]
    · rw [OrderedMap.call, if_neg hkey]
      exact R
    · simp [Call.leaves, OrderedMap.get?_eq_none hkey]
  · have hsplit := entries_split R.entries hk
    have hkey := OrderedMap.mem_keys_of_split hsplit
    have hget := OrderedMap.get?_of_split hsplit
    obtain ⟨m', hdel, H', haccess⟩ := treeDelBody_found R.wf hread (hother p hget) hk
    refine ⟨m', l₁ ++ l₂, ?_, ?_, by simp [Call.leaves, hget, haccess]⟩
    · simp [exec, treeDel, hdel, OrderedMap.call, hkey, Exit.ret, retSuccess]
    · rw [OrderedMap.call, if_pos hkey]
      refine ⟨H', ?_, fun e he => R.values e ?_⟩
      · rw [OrderedMap.erase_of_split hsplit, List.map_append]
      · exact List.mem_append.mpr ((List.mem_append.mp he).imp_right (List.mem_cons_of_mem _))

theorem refines_look (R : Rep m M l) (hread : m.access key.addr ≠ .freed) :
    Refines m M (.look key) := by
  rcases absent_or_split key l with h | ⟨l₁, a, p, l₂, rfl, hk⟩
  · have hget := OrderedMap.get?_eq_none ((mem_keys_iff R.entries).mpr h)
    refine ⟨m, l, ?_, ?_, rfl⟩
    · simp [exec, treeLook, treeLookBody_absent R.wf hread h, OrderedMap.call, hget, Exit.ret]
    · simpa [OrderedMap.call, hget] using R
  · have hget := OrderedMap.get?_of_split (entries_split R.entries hk)
    have hvalue : p.value ≠ none := R.values (a, p) (by simp)
    have hlook := treeLookBody_found R.wf hread hk none
    refine ⟨m, l₁ ++ (a, p) :: l₂, ?_, ?_, rfl⟩
    · simp [exec, treeLook, hlook, hvalue, OrderedMap.call, hget, Exit.ret, retSuccess]
    · simpa [OrderedMap.call, hget] using R

/-- **One call.** -/
theorem exec_refines (R : Rep m M l) {c : Call} (hc : c.Ok) (hproper : c.Proper m.access M) :
    Refines m M c := by
  cases c with
  | add malloc key value => exact refines_add R hc.1 hc.2 hproper
  | del key => exact refines_del R hproper
  | look key => exact refines_look R hproper

theorem execAll_rep (R : Rep m M l) {cs : List Call} (hcs : ∀ c ∈ cs, c.Ok)
    (hown : Disciplined m.access M cs) :
    ∃ m' l', execAll m cs = some ((M.callAll cs).1, m') ∧ Rep m' (M.callAll cs).2 l' := by
  induction cs generalizing m M l with
  | nil => exact ⟨m, l, rfl, R⟩
  | cons c cs ih =>
    obtain ⟨hproper, hrest⟩ := hown
    obtain ⟨m₁, l₁, hexec, R₁, haccess⟩ := exec_refines R (hcs c (by simp)) hproper
    obtain ⟨m₂, l₂, hall, R₂⟩ :=
      ih R₁ (fun c hc => hcs c (List.mem_cons_of_mem _ hc)) (haccess ▸ hrest)
    exact ⟨m₂, l₂, by simp [execAll, hexec, hall, OrderedMap.callAll], R₂⟩

end Refinement

/-- No element, and the blocks below 10 from `malloc`. -/
def noElem : Mem := ⟨∅, ⟨none, none⟩, fun b => if b < 10 then .heap else .fixed⟩

/-- Two keys, an attempt to add the first of them again, its removal, and two searches. -/
def sampleCalls : List Call :=
  [.add (.next _) ⟨1, [97]⟩ (some 2), .add (.next _) ⟨3, [98]⟩ (some 4),
    .add (.next _) ⟨10, [97]⟩ (some 5), .del ⟨10, [97]⟩, .look ⟨10, [97]⟩, .look ⟨3, [98]⟩]

/-- One value under two keys, and both keys deleted. -/
def sharedValue : List Call :=
  [.add (.next _) ⟨1, [97]⟩ (some 2), .add (.next _) ⟨3, [98]⟩ (some 2), .del ⟨10, [97]⟩,
    .del ⟨10, [98]⟩]

/-- Three keys, of which the second is deleted by the pointer that was stored. -/
def storedKey : List Call :=
  [.add (.next _) ⟨1, [97]⟩ (some 2), .add (.next _) ⟨3, [98]⟩ (some 4),
    .add (.next _) ⟨5, [99]⟩ (some 6), .del ⟨3, [98]⟩]

end Tree

end Tlpiexer
