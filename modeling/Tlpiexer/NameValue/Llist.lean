import Tlpiexer.Constants
import Tlpiexer.Foundations.CString
import Tlpiexer.Foundations.LinkedList

/-!
# The list of the name-value store

`src/lib/59-04-llist.c` with the structures of `include/tlpiexer/59-04-llist.h`. The list lives in
a heap of nodes; an operation gets the memory it works on (`Mem`: the nodes, the list head and the
global `lerrno`) and gives it back, together with the `int` it returns. It has no answer when the C
code would follow a bad pointer or copy without end.

## The layout of an item

`name`, `value` and `own` are character arrays, one right behind the other, so `strcpy` out of a
`value` without NUL goes on into `own`, and it writes to the same place of the stored item.
`ItemNv.strcpyValue` copies between the two `value`-and-`own` regions for this reason.

## One specification for each operation

`IsDList m.heap m.list.first l` is the meaning of a memory: `l` lists the stored nodes, most
recent first. `findItem_absent` and `findItem_found` are the search that all four operations begin
with, and `llAdd_new`, `llGet_found`, `llSet_own`, `llDel_own` say what each of them makes of `l`.
The `_exist`, `_noext` and `_perm` lemmas are their error paths, which only set `lerrno`.
-/

namespace Tlpiexer

namespace NameValue

open CString LinkedHeap

/-! ### Data -/

/-- `EL_PERM`. -/
def elPerm : ℕ := 1

/-- `EL_EXIST`. -/
def elExist : ℕ := 2

/-- `EL_NOEXT`. -/
def elNoext : ℕ := 3

/-- `LL_NAME_LEN`. -/
abbrev llNameLen : ℕ := 16

/-- `LL_VALUE_LEN`. -/
abbrev llValueLen : ℕ := 32

/-- `LL_USRNAME_LEN`. -/
abbrev llUsrnameLen : ℕ := 32

/-- `struct item_nv`. -/
structure ItemNv where
  name : CharArray llNameLen
  value : CharArray llValueLen
  own : CharArray llUsrnameLen
  deriving DecidableEq

/-- `struct item_ll`: `data` is its `nv`. -/
abbrev ItemLl := Node ItemNv

/-- `struct llist`. -/
structure Llist where
  size : ℕ
  first : Ptr
  deriving DecidableEq

/-- What the list functions work on: the nodes, the list head and `lerrno`. -/
structure Mem where
  heap : Heap ItemLl
  list : Llist
  lerrno : ℕ

/-! ### Operations -/

/-- `ll_init`. -/
def llInit (m : Mem) : ℤ × Mem := (fnOk, { m with list := ⟨0, none⟩ })

/-- `strncmp(nv.name, item->name, sizeof(item->name)) == 0`. -/
def sameName (item nv : ItemNv) : Bool :=
  strncmp nv.name.val item.name.val llNameLen = 0

/-- `strncmp(nv.own, item->own, sizeof(item->own)) == 0`. -/
def sameOwn (item nv : ItemNv) : Bool :=
  strncmp nv.own.val item.own.val llUsrnameLen = 0

/-- The loop at the start of every operation, looking for an item with the name of `item`. -/
def findItem (m : Mem) (item : ItemNv) : Option Ptr :=
  find m.heap (sameName item) (fuel m.heap) m.list.first

/-- `strcpy(nv.value, item->value)`, which does not stop at the end of either `value`. -/
def ItemNv.strcpyValue (nv item : ItemNv) : Option ItemNv :=
  (strcpy (nv.value.val ++ nv.own.val) (item.value.val ++ item.own.val)).map fun out =>
    { nv with
      value := .ofBytes _ (out.take llValueLen)
      own := .ofBytes _ (out.drop llValueLen) }

/-- `ll_add`. -/
def llAdd (malloc : Malloc ItemLl) (item : ItemNv) (m : Mem) : Option (ℤ × Mem) := do
  let litem ← findItem m item
  if litem ≠ none then
    some (fnEr, { m with lerrno := elExist })
  else
    match malloc.alloc m.heap with
    -- a failed `malloc` returns without touching `lerrno`
    | none => some (fnEr, m)
    | some a =>
      if m.list.first = none then
        some (fnOk, { m with
          heap := m.heap.insert a ⟨item, none, none⟩
          list := { m.list with first := some a } })
      else
        let heap ← setPrev (m.heap.insert a ⟨item, m.list.first, none⟩) m.list.first (some a)
        some (fnOk, { m with heap := heap, list := { m.list with first := some a } })

/-- `ll_get`; the item is an in-out parameter. -/
def llGet (item : ItemNv) (m : Mem) : Option (ℤ × ItemNv × Mem) := do
  let litem ← findItem m item
  if litem = none then
    some (fnEr, item, { m with lerrno := elNoext })
  else
    let node ← load m.heap litem
    some (fnOk, node.data, m)

/-- `ll_set`. -/
def llSet (item : ItemNv) (m : Mem) : Option (ℤ × Mem) := do
  let litem ← findItem m item
  if litem = none then
    some (fnEr, { m with lerrno := elNoext })
  else
    let node ← load m.heap litem
    if sameOwn item node.data = false then
      some (fnEr, { m with lerrno := elPerm })
    else
      let nv ← node.data.strcpyValue item
      let heap ← modify m.heap litem fun n => { n with data := nv }
      some (fnOk, { m with heap := heap })

/-- `ll_del`. -/
def llDel (item : ItemNv) (m : Mem) : Option (ℤ × Mem) := do
  let litem ← findItem m item
  match litem with
  | none => some (fnEr, { m with lerrno := elNoext })
  | some a =>
    let node ← load m.heap litem
    if sameOwn item node.data = false then
      some (fnEr, { m with lerrno := elPerm })
    else if node.prev = none then
      -- remove first item
      let heap ← relinkPrev m.heap node.next none
      some (fnOk, { m with heap := heap.erase a, list := { m.list with first := node.next } })
    else
      -- remove non first item
      let heap ← setNext m.heap node.prev node.next
      let heap ← relinkPrev heap node.next node.prev
      some (fnOk, { m with heap := heap.erase a })

/-! ### Names and owners as strings -/

/-- The name of an item: its first 16 bytes up to the first NUL. -/
def ItemNv.nameStr (nv : ItemNv) : Bytes := cstr nv.name.val

/-- The value string of an item. -/
def ItemNv.valueStr (nv : ItemNv) : Bytes := cstr nv.value.val

/-- The owner string of an item. -/
def ItemNv.ownStr (nv : ItemNv) : Bytes := cstr nv.own.val

theorem strncmp_eq_zero_iff_of_length {n : ℕ} (s t : CharArray n) :
    strncmp s.val t.val n = 0 ↔ cstr s.val = cstr t.val := by
  rw [strncmp_eq_zero_iff, List.take_of_length_le s.property.le,
    List.take_of_length_le t.property.le]

theorem sameName_iff (item nv : ItemNv) : sameName item nv ↔ nv.nameStr = item.nameStr := by
  simp only [sameName, decide_eq_true_eq]
  exact strncmp_eq_zero_iff_of_length nv.name item.name

theorem sameOwn_iff (item nv : ItemNv) : sameOwn item nv ↔ nv.ownStr = item.ownStr := by
  simp only [sameOwn, decide_eq_true_eq]
  exact strncmp_eq_zero_iff_of_length nv.own item.own

/-- A copy that leaves `value` as bytes `v` and gives `own` back as it was. -/
theorem ItemNv.strcpyValue_eq {nv item : ItemNv} {v : Bytes} (hv : v.length = llValueLen)
    (h : strcpy (nv.value.val ++ nv.own.val) (item.value.val ++ item.own.val) =
      some (v ++ nv.own.val)) :
    nv.strcpyValue item = some { nv with value := ⟨v, hv⟩ } := by
  rw [strcpyValue, h, Option.map_some, List.take_left' hv, List.drop_left' hv]
  congr 2
  · exact Subtype.ext (CharArray.val_ofBytes hv)
  · exact Subtype.ext (CharArray.val_ofBytes nv.own.property)

/-- **Replacing a value.** If the owners agree and there is a NUL in the new value or behind it in
`own`, then the value is copied as a string and nothing else of the stored item changes. -/
theorem ItemNv.exists_strcpyValue {nv item : ItemNv} (hown : nv.ownStr = item.ownStr)
    (h : (0 : UInt8) ∈ item.value.val ∨ (0 : UInt8) ∈ item.own.val) :
    ∃ nv', nv.strcpyValue item = some nv' ∧ nv'.name = nv.name ∧ nv'.own = nv.own ∧
      nv'.valueStr = item.valueStr := by
  have hlen : item.value.val.length = nv.value.val.length :=
    item.value.property.trans nv.value.property.symm
  by_cases hv : (0 : UInt8) ∈ item.value.val
  · -- the copied bytes end inside `value`
    have hlt := cstr_length_lt hv
    have hfit : (cstr item.value.val ++ [0]).length ≤ nv.value.val.length := by
      rw [List.length_append, List.length_singleton]; omega
    have hlen' : (overlay nv.value.val (cstr item.value.val ++ [0])).length = llValueLen :=
      (length_overlay hfit).trans nv.value.property
    exact ⟨_, strcpyValue_eq hlen' (strcpy_append hv hlen.le nv.own.val item.own.val), rfl, rfl,
      cstr_overlay_zero (zero_notMem_cstr _) _⟩
  · -- they go on into `own`, where the same string stands already
    have ho : strcpy nv.own.val item.own.val = some nv.own.val :=
      strcpy_eq_self (h.resolve_left hv) (item.own.property.trans nv.own.property.symm) hown
    have hcpy := strcpy_append_of_notMem hv hlen nv.own.val item.own.val
    rw [ho, Option.map_some] at hcpy
    exact ⟨_, strcpyValue_eq item.value.property hcpy, rfl, rfl, rfl⟩

/-- Without a NUL in the request's item there is nothing to stop the copy. -/
theorem ItemNv.strcpyValue_eq_none (nv : ItemNv) {item : ItemNv}
    (hv : (0 : UInt8) ∉ item.value.val) (ho : (0 : UInt8) ∉ item.own.val) :
    nv.strcpyValue item = none := by
  rw [strcpyValue, strcpy_eq_none, Option.map_none]
  simp [hv, ho]

/-! ### The search -/

section Specifications

variable {m : Mem} {l l₁ l₂ : List (Addr × ItemNv)} {a : Addr} {nv item : ItemNv}

/-- No item of the list has the name. -/
def Absent (item : ItemNv) (l : List (Addr × ItemNv)) : Prop :=
  ∀ e ∈ l, e.2.nameStr ≠ item.nameStr

theorem sameName_eq_false {item nv : ItemNv} (h : nv.nameStr ≠ item.nameStr) :
    sameName item nv = false := by
  rw [Bool.eq_false_iff]
  exact fun hs => h ((sameName_iff item nv).mp hs)

theorem findItem_absent (H : IsDList m.heap m.list.first l) (h : Absent item l) :
    findItem m item = some none :=
  H.find_eq_none fun e he => sameName_eq_false (h e he)

/-- The search stops at the first item with the name. -/
theorem findItem_found (H : IsDList m.heap m.list.first (l₁ ++ (a, nv) :: l₂))
    (hnv : nv.nameStr = item.nameStr) (h₁ : Absent item l₁) :
    findItem m item = some (some a) :=
  H.find_eq_some (fun e he => sameName_eq_false (h₁ e he)) ((sameName_iff item nv).mpr hnv)

/-- In a list without repeated names a name is absent, or belongs to exactly one item. -/
theorem absent_or_found (h : (l.map fun e => e.2.nameStr).Nodup) (item : ItemNv) :
    Absent item l ∨ ∃ l₁ a nv l₂, l = l₁ ++ (a, nv) :: l₂ ∧ nv.nameStr = item.nameStr ∧
      Absent item l₁ ∧ Absent item l₂ := by
  by_cases hex : ∃ e ∈ l, e.2.nameStr = item.nameStr
  · obtain ⟨⟨a, nv⟩, he, hnv⟩ := hex
    obtain ⟨l₁, l₂, rfl⟩ := List.append_of_mem he
    obtain ⟨h₁, h₂, -⟩ := key_ne_of_nodup h
    exact .inr ⟨l₁, a, nv, l₂, rfl, hnv, fun e he hn => h₁ e he (hn.trans hnv.symm),
      fun e he hn => h₂ e he (hn.trans hnv.symm)⟩
  · exact .inl fun e he hn => hex ⟨e, he, hn⟩

/-- The node the search stops at. -/
theorem load_found (H : IsDList m.heap m.list.first (l₁ ++ (a, nv) :: l₂)) :
    load m.heap (some a) = some ⟨nv, headPtr l₂ none, lastPtr none l₁⟩ :=
  H.seg.lookup

/-! ### What the operations do -/

theorem llAdd_exist (H : IsDList m.heap m.list.first (l₁ ++ (a, nv) :: l₂))
    (hnv : nv.nameStr = item.nameStr) (h₁ : Absent item l₁) (malloc : Malloc ItemLl) :
    llAdd malloc item m = some (fnEr, { m with lerrno := elExist }) := by
  simp [llAdd, findItem_found H hnv h₁]

theorem llAdd_nomem (H : IsDList m.heap m.list.first l) (h : Absent item l)
    {malloc : Malloc ItemLl} (hm : malloc.alloc m.heap = none) :
    llAdd malloc item m = some (fnEr, m) := by
  simp [llAdd, findItem_absent H h, hm]

/-- **Adding a new name** puts its item in front. -/
theorem llAdd_new (H : IsDList m.heap m.list.first l) (h : Absent item l)
    {malloc : Malloc ItemLl} (hm : malloc.alloc m.heap = some a) :
    ∃ m', llAdd malloc item m = some (fnOk, m') ∧
      IsDList m'.heap m'.list.first ((a, item) :: l) ∧ m'.lerrno = m.lerrno := by
  obtain ⟨heap, hset, H'⟩ := H.cons (malloc.fresh _ _ hm) item
  by_cases hfirst : m.list.first = none
  · rw [hfirst] at hset
    obtain rfl : m.heap.insert a ⟨item, none, none⟩ = heap := by
      simpa [relinkPrev] using hset
    refine ⟨{ m with heap := m.heap.insert a ⟨item, none, none⟩,
                     list := { m.list with first := some a } }, ?_, H', rfl⟩
    simp [llAdd, findItem_absent H h, hm, hfirst]
  · rw [relinkPrev, if_neg hfirst] at hset
    refine ⟨{ m with heap := heap, list := { m.list with first := some a } }, ?_, H', rfl⟩
    simp [llAdd, findItem_absent H h, hm, hfirst, hset]

theorem llGet_noext (H : IsDList m.heap m.list.first l) (h : Absent item l) :
    llGet item m = some (fnEr, item, { m with lerrno := elNoext }) := by
  simp [llGet, findItem_absent H h]

theorem llGet_found (H : IsDList m.heap m.list.first (l₁ ++ (a, nv) :: l₂))
    (hnv : nv.nameStr = item.nameStr) (h₁ : Absent item l₁) :
    llGet item m = some (fnOk, nv, m) := by
  have hload := load_found H
  simp [llGet, findItem_found H hnv h₁, hload]

theorem llSet_noext (H : IsDList m.heap m.list.first l) (h : Absent item l) :
    llSet item m = some (fnEr, { m with lerrno := elNoext }) := by
  simp [llSet, findItem_absent H h]

theorem llSet_perm (H : IsDList m.heap m.list.first (l₁ ++ (a, nv) :: l₂))
    (hnv : nv.nameStr = item.nameStr) (h₁ : Absent item l₁) (hown : nv.ownStr ≠ item.ownStr) :
    llSet item m = some (fnEr, { m with lerrno := elPerm }) := by
  have hload := load_found H
  have hne : sameOwn item nv = false := by
    rw [Bool.eq_false_iff]
    exact fun hs => hown ((sameOwn_iff item nv).mp hs)
  simp [llSet, findItem_found H hnv h₁, hload, hne]

/-- What setting a value as the owner writes: the payload of that one node. -/
theorem llSet_own_eq (H : IsDList m.heap m.list.first (l₁ ++ (a, nv) :: l₂))
    (hnv : nv.nameStr = item.nameStr) (h₁ : Absent item l₁) (hown : nv.ownStr = item.ownStr)
    (hnul : (0 : UInt8) ∈ item.value.val ∨ (0 : UInt8) ∈ item.own.val) :
    ∃ nv', llSet item m = some (fnOk, { m with
        heap := m.heap.insert a ⟨nv', headPtr l₂ none, lastPtr none l₁⟩ }) ∧
      nv'.name = nv.name ∧ nv'.own = nv.own ∧ nv'.valueStr = item.valueStr := by
  have hload := load_found H
  have hsame : sameOwn item nv = true := (sameOwn_iff item nv).mpr hown
  obtain ⟨nv', hcpy, hname, hown', hval⟩ := ItemNv.exists_strcpyValue hown hnul
  refine ⟨nv', ?_, hname, hown', hval⟩
  simp [llSet, findItem_found H hnv h₁, hload, hsame, hcpy, modify_some hload]

/-- **Setting a value** as the owner changes the value string of that one item. -/
theorem llSet_own (H : IsDList m.heap m.list.first (l₁ ++ (a, nv) :: l₂))
    (hnv : nv.nameStr = item.nameStr) (h₁ : Absent item l₁) (hown : nv.ownStr = item.ownStr)
    (hnul : (0 : UInt8) ∈ item.value.val ∨ (0 : UInt8) ∈ item.own.val) :
    ∃ m' nv', llSet item m = some (fnOk, m') ∧
      IsDList m'.heap m'.list.first (l₁ ++ (a, nv') :: l₂) ∧ nv'.name = nv.name ∧
      nv'.own = nv.own ∧ nv'.valueStr = item.valueStr ∧ m'.lerrno = m.lerrno := by
  obtain ⟨nv', hset, hname, hown', hval⟩ := llSet_own_eq H hnv h₁ hown hnul
  exact ⟨_, nv', hset, H.setData nv', hname, hown', hval, rfl⟩

/-- Setting a value without end. -/
theorem llSet_overrun (H : IsDList m.heap m.list.first (l₁ ++ (a, nv) :: l₂))
    (hnv : nv.nameStr = item.nameStr) (h₁ : Absent item l₁) (hown : nv.ownStr = item.ownStr)
    (hv : (0 : UInt8) ∉ item.value.val) (ho : (0 : UInt8) ∉ item.own.val) :
    llSet item m = none := by
  have hload := load_found H
  have hsame : sameOwn item nv = true := (sameOwn_iff item nv).mpr hown
  simp [llSet, findItem_found H hnv h₁, hload, hsame, nv.strcpyValue_eq_none hv ho]

theorem llDel_noext (H : IsDList m.heap m.list.first l) (h : Absent item l) :
    llDel item m = some (fnEr, { m with lerrno := elNoext }) := by
  simp [llDel, findItem_absent H h]

theorem llDel_perm (H : IsDList m.heap m.list.first (l₁ ++ (a, nv) :: l₂))
    (hnv : nv.nameStr = item.nameStr) (h₁ : Absent item l₁) (hown : nv.ownStr ≠ item.ownStr) :
    llDel item m = some (fnEr, { m with lerrno := elPerm }) := by
  have hload := load_found H
  have hne : sameOwn item nv = false := by
    rw [Bool.eq_false_iff]
    exact fun hs => hown ((sameOwn_iff item nv).mp hs)
  simp [llDel, findItem_found H hnv h₁, hload, hne]

/-- **Deleting an item** as the owner takes its node out of the list and frees it. -/
theorem llDel_own (H : IsDList m.heap m.list.first (l₁ ++ (a, nv) :: l₂))
    (hnv : nv.nameStr = item.nameStr) (h₁ : Absent item l₁) (hown : nv.ownStr = item.ownStr) :
    ∃ m', llDel item m = some (fnOk, m') ∧ IsDList m'.heap m'.list.first (l₁ ++ l₂) ∧
      m'.lerrno = m.lerrno := by
  have hload := load_found H
  have hsame : sameOwn item nv = true := (sameOwn_iff item nv).mpr hown
  obtain ⟨ha₁, ha₂, hnd, -⟩ := nodup_middle H.nodup
  have ha : a ∉ addrs (l₁ ++ l₂) := by
    rw [addrs, List.map_append, List.mem_append, not_or]
    exact ⟨ha₁, ha₂⟩
  obtain ⟨heap₁, heap₂, hset₁, hset₂, hseg, -⟩ := H.seg.unlink H.nodup
  have hseg' : Seg (heap₂.erase a) none (l₁ ++ l₂) none := hseg.erase_of_notMem ha
  by_cases hprev : lastPtr none l₁ = none
  · -- the item is the first one, and only `list->first` and the next node's `prev` change
    obtain rfl := lastPtr_eq_none_iff.mp hprev
    obtain rfl : m.heap = heap₁ := by simpa [relinkNext] using hset₁
    refine ⟨{ m with heap := heap₂.erase a, list := { m.list with first := headPtr l₂ none } },
      ?_, ⟨rfl, hseg', hnd⟩, rfl⟩
    rw [lastPtr_nil] at hset₂ hload
    simp [llDel, findItem_found H hnv h₁, hload, hsame, hset₂]
  · rw [relinkNext, if_neg hprev] at hset₁
    refine ⟨{ m with heap := heap₂.erase a }, ?_, ⟨?_, hseg', hnd⟩, rfl⟩
    · simp [llDel, findItem_found H hnv h₁, hload, hsame, hprev, hset₁, hset₂]
    · rw [H.first_eq, headPtr_append, headPtr_append]
      cases l₁ with
      | nil => exact absurd rfl hprev
      | cons e l₁ => rfl

end Specifications

end NameValue

end Tlpiexer
