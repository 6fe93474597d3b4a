import Tlpiexer.Foundations.Monitor
import Tlpiexer.Tree.Locking
import Tlpiexer.Tree.Map

/-!
# The tree is linearizable

`Tlpiexer.Tree.Locking` takes the code behind `pthread_mutex_lock` as one step. Here the three
operations of `src/imp/30-02.c` go through it statement by statement — every test and assignment of
the loops, the `malloc` and the assignments to the new element, the pointers that link an element in
or out, each `free` — and between any two of them the other threads may do what they like.

## What the callers see

A call returns its value together with `*value`, which only `tree_look` changes. The object the
callers see is the map of `Tlpiexer.Tree.Map`, whose effects (`Effect`) leave open whether the
`malloc` of a `tree_add` that can fail does fail.

## What the callers owe

`tree_del` frees what `tree_add` was given, and with several threads nobody knows when. So the
callers have to keep apart what they pass: every `tree_add` of the run gets two blocks from `malloc`
of its own, and the keys to search for or to delete are in other blocks (`Op.Sound`, `Op.Apart`).

## Early returns

A `tree_add` that fails leaves the mutex locked, and the operations called after it wait for ever.
They never return, so they do not spoil the history.

## Main results

* `exec_add`, `exec_del`, `exec_look` — the statements of an operation, taken together, are its body
  in `Tlpiexer.Tree.Elements`
* `tree_implements` — on a memory that holds a map an operation ends with an effect of the map
* `tree_linearizable` — whatever the threads do, the calls and returns are those of the map, and
  no thread faults
-/

namespace Tlpiexer

namespace Tree

open CString LinkedHeap Transition

/-! ### The statements of the operations -/

/-- The statements of `tree_add` behind its `pthread_mutex_lock`. -/
inductive AddPc
  /-- `elem = root->first` -/
  | first
  /-- `elem != NULL` -/
  | test
  /-- `if (strcmp(elem->key, key) == 0) return RET_FAILURE` -/
  | compare
  /-- `elem = elem->next` -/
  | next
  /-- `elem = malloc(sizeof(struct tree_elem))` -/
  | malloc
  /-- `if (elem == NULL) return RET_FAILURE` -/
  | null
  /-- `elem->key = key` -/
  | setKey
  /-- `elem->value = value` -/
  | setValue
  /-- `elem->prev = NULL` -/
  | setPrev
  /-- `elem->next = NULL` -/
  | setNext
  /-- `if (root->first == NULL)` -/
  | empty
  /-- `root->first = elem` -/
  | rootFirst
  /-- `root->last->next = elem` -/
  | lastNext
  /-- `elem->prev = root->last` -/
  | elemPrev
  /-- `root->last = elem`, in both branches -/
  | rootLast

/-- The statements of `tree_del` behind its `pthread_mutex_lock`. -/
inductive DelPc
  /-- `elem = root->first` -/
  | first
  /-- `elem != NULL` -/
  | test
  /-- `if (strcmp(elem->key, key) != 0) continue` -/
  | compare
  /-- `elem = elem->next` -/
  | next
  /-- `if (elem->prev == NULL)` -/
  | isFirst
  /-- `root->first = elem->next` -/
  | rootFirst
  /-- `if (root->first != NULL)` -/
  | firstNull
  /-- `root->first->prev = NULL` -/
  | firstPrev
  /-- `if (elem->next == NULL)` -/
  | isLast
  /-- `root->last = elem->prev` -/
  | rootLast
  /-- `if (root->last != NULL)` -/
  | lastNull
  /-- `root->last->next = NULL` -/
  | lastNext
  /-- `if (elem->prev != NULL && elem->next != NULL)` -/
  | isMiddle
  /-- `elem->prev->next = elem->next` -/
  | prevNext
  /-- `elem->next->prev = elem->prev` -/
  | nextPrev
  /-- `free(elem->key)` -/
  | freeKey
  /-- `free(elem->value)` -/
  | freeValue
  /-- `del = 1` -/
  | mark
  /-- `elem = elem->prev` -/
  | back
  /-- `if (elem == NULL) break` -/
  | stop

/-- The statements of `tree_look` behind its `pthread_mutex_lock`. -/
inductive LookPc
  /-- `elem = root->first` -/
  | first
  /-- `elem != NULL` -/
  | test
  /-- `if (strcmp(elem->key, key) != 0) continue` -/
  | compare
  /-- `elem = elem->next` -/
  | next
  /-- `*value = elem->value` -/
  | take

/-- Where a thread is behind its `pthread_mutex_lock`, with its arguments and local variables. -/
inductive At
  | add (pc : AddPc) (malloc : Malloc TreeElem) (key : Key) (value elem : Ptr)
  | del (pc : DelPc) (key : Key) (elem : Ptr) (del : Bool)
  | look (pc : LookPc) (key : Key) (value elem : Ptr)

/-- A return value with `*value`. -/
abbrev Answer := ℤ × Ptr

/-- The outcome of a statement: the next one, or the way out. -/
abbrev Outcome := Option ((At ⊕ Monitor.Exit Answer) × Mem)

/-- Go on with another statement. -/
def goto (l : At) (m : Mem) : Outcome := some (.inl l, m)

/-- Leave the code behind the lock. -/
def exit (e : Monitor.Exit Answer) (m : Mem) : Outcome := some (.inr e, m)

/-- What `malloc` returns has no content yet. Every field is assigned before it is read. -/
def blank : TreeElem := ⟨⟨⟨0, []⟩, none⟩, none, none⟩

/-- One statement of `tree_add`. -/
def addStep (malloc : Malloc TreeElem) (key : Key) (value elem : Ptr) (m : Mem) : AddPc → Outcome
  | .first => goto (.add .test malloc key value m.root.first) m
  | .test =>
    if elem = none then goto (.add .malloc malloc key value elem) m
    else goto (.add .compare malloc key value elem) m
  | .compare => do
    let x ← load m.heap elem
    let same ← sameKey m key x.data
    if same then exit (.early (retFailure, none)) m
    else goto (.add .next malloc key value elem) m
  | .next => do
    let x ← load m.heap elem
    goto (.add .test malloc key value x.next) m
  | .malloc =>
    match malloc.alloc m.heap with
    | none => goto (.add .null malloc key value none) m
    | some a => goto (.add .null malloc key value (some a)) { m with heap := m.heap.insert a blank }
  | .null =>
    if elem = none then exit (.early (retFailure, none)) m
    else goto (.add .setKey malloc key value elem) m
  | .setKey => do
    let heap ← modify m.heap elem fun x => { x with data := { x.data with key := key } }
    goto (.add .setValue malloc key value elem) { m with heap := heap }
  | .setValue => do
    let heap ← modify m.heap elem fun x => { x with data := { x.data with value := value } }
    goto (.add .setPrev malloc key value elem) { m with heap := heap }
  | .setPrev => do
    let heap ← setPrev m.heap elem none
    goto (.add .setNext malloc key value elem) { m with heap := heap }
  | .setNext => do
    let heap ← setNext m.heap elem none
    goto (.add .empty malloc key value elem) { m with heap := heap }
  | .empty =>
    if m.root.first = none then goto (.add .rootFirst malloc key value elem) m
    else goto (.add .lastNext malloc key value elem) m
  | .rootFirst =>
    goto (.add .rootLast malloc key value elem) { m with root := { m.root with first := elem } }
  | .lastNext => do
    let heap ← setNext m.heap m.root.last elem
    goto (.add .elemPrev malloc key value elem) { m with heap := heap }
  | .elemPrev => do
    let heap ← setPrev m.heap elem m.root.last
    goto (.add .rootLast malloc key value elem) { m with heap := heap }
  | .rootLast =>
    exit (.unlock (retSuccess, none)) { m with root := { m.root with last := elem } }

/-- `tree_del` behind its loop: the mutex is unlocked and `del` tested. -/
def delExit (del : Bool) : Monitor.Exit Answer :=
  .unlock (if del then retSuccess else retFailure, none)

/-- One statement of `tree_del`. -/
def delStep (key : Key) (elem : Ptr) (del : Bool) (m : Mem) : DelPc → Outcome
  | .first => goto (.del .test key m.root.first del) m
  | .test => if elem = none then exit (delExit del) m else goto (.del .compare key elem del) m
  | .compare => do
    let x ← load m.heap elem
    let same ← sameKey m key x.data
    if same = false then goto (.del .next key elem del) m
    else goto (.del .isFirst key elem del) m
  | .next => do
    let x ← load m.heap elem
    goto (.del .test key x.next del) m
  | .isFirst => do
    let x ← load m.heap elem
    if x.prev = none then goto (.del .rootFirst key elem del) m
    else goto (.del .isLast key elem del) m
  | .rootFirst => do
    let x ← load m.heap elem
    goto (.del .firstNull key elem del) { m with root := { m.root with first := x.next } }
  | .firstNull =>
    if m.root.first = none then goto (.del .isLast key elem del) m
    else goto (.del .firstPrev key elem del) m
  | .firstPrev => do
    let heap ← setPrev m.heap m.root.first none
    goto (.del .isLast key elem del) { m with heap := heap }
  | .isLast => do
    let x ← load m.heap elem
    if x.next = none then goto (.del .rootLast key elem del) m
    else goto (.del .isMiddle key elem del) m
  | .rootLast => do
    let x ← load m.heap elem
    goto (.del .lastNull key elem del) { m with root := { m.root with last := x.prev } }
  | .lastNull =>
    if m.root.last = none then goto (.del .isMiddle key elem del) m
    else goto (.del .lastNext key elem del) m
  | .lastNext => do
    let heap ← setNext m.heap m.root.last none
    goto (.del .isMiddle key elem del) { m with heap := heap }
  | .isMiddle => do
    let x ← load m.heap elem
    if x.prev ≠ none ∧ x.next ≠ none then goto (.del .prevNext key elem del) m
    else goto (.del .freeKey key elem del) m
  | .prevNext => do
    let x ← load m.heap elem
    let heap ← setNext m.heap x.prev x.next
    goto (.del .nextPrev key elem del) { m with heap := heap }
  | .nextPrev => do
    let x ← load m.heap elem
    let heap ← setPrev m.heap x.next x.prev
    goto (.del .freeKey key elem del) { m with heap := heap }
  | .freeKey => do
    let x ← load m.heap elem
    let m ← m.free (some x.data.key.addr)
    goto (.del .freeValue key elem del) m
  | .freeValue => do
    let x ← load m.heap elem
    let m ← m.free x.data.value
    goto (.del .mark key elem del) m
  | .mark => goto (.del .back key elem true) m
  | .back => do
    let x ← load m.heap elem
    goto (.del .stop key x.prev del) m
  | .stop => if elem = none then exit (delExit del) m else goto (.del .next key elem del) m

/-- `tree_look` behind its loop: the mutex is unlocked and `*value` tested. -/
def lookExit (value : Ptr) : Monitor.Exit Answer :=
  .unlock (if value = none then 1 else retSuccess, value)

/-- One statement of `tree_look`. -/
def lookStep (key : Key) (value elem : Ptr) (m : Mem) : LookPc → Outcome
  | .first => goto (.look .test key value m.root.first) m
  | .test => if elem = none then exit (lookExit value) m else goto (.look .compare key value elem) m
  | .compare => do
    let x ← load m.heap elem
    let same ← sameKey m key x.data
    if same = false then goto (.look .next key value elem) m
    else goto (.look .take key value elem) m
  | .next => do
    let x ← load m.heap elem
    goto (.look .test key value x.next) m
  | .take => do
    let x ← load m.heap elem
    exit (lookExit x.data.value) m

/-- One statement of the code behind the lock. -/
def At.step : At → Mem → Outcome
  | .add pc malloc key value elem, m => addStep malloc key value elem m pc
  | .del pc key elem d, m => delStep key elem d m pc
  | .look pc key value elem, m => lookStep key value elem m pc

/-- What an operation does first. -/
def Op.enter : Op → At ⊕ Answer
  | .add malloc key value => .inl (.add .first malloc key value none)
  | .del key => .inl (.del .first key none false)
  | .look key none => .inl (.look .first key none none)
  -- `tree_look` refuses to overwrite a value before it locks
  | .look _ (some value) => .inr (retFailure, some value)

/-- The code of the tree. -/
def code : Monitor.Code Op At Mem Answer := ⟨Op.enter, At.step⟩

/-! ### The statements together -/

section Pieces

variable {m m' : Mem} {key : Key} {value : Ptr} {malloc : Malloc TreeElem} {a : Addr} {del : Bool}

/-- The exit of a body, with `*value`. -/
def Exit.answer (value : Ptr) : Exit → Monitor.Exit Answer
  | .unlock ret => .unlock (ret, value)
  | .early ret => .early (ret, value)

@[simp] theorem Exit.ret_answer (e : Exit) (value : Ptr) :
    (e.answer value).ret = (e.ret, value) := by
  cases e <;> rfl

/-! #### `tree_add` -/

/-- The loop of `tree_add` finds no element with the key. -/
theorem within_addLoop {n : ℕ} {elem : Ptr}
    (h : search m.heap (sameKey m key) n elem = some none) :
    code.Within (.add .test malloc key value elem) m (.add .malloc malloc key value none) m := by
  induction n generalizing elem with
  | zero => cases h
  | succ n ih =>
    cases elem with
    | none => exact .of_advance (n := 1) rfl
    | some a =>
      obtain ⟨x, hx, h⟩ := Option.bind_eq_some_iff.mp h
      obtain ⟨same, hsame, h⟩ := Option.bind_eq_some_iff.mp h
      cases same with
      | true => cases h
      | false =>
        have hround : code.advance 3 (.add .test malloc key value (some a)) m =
            goto (.add .test malloc key value x.next) m := by
          simp [Monitor.Code.advance, code, At.step, addStep, goto, hx, hsame]
        exact .trans (.of_advance hround) (ih h)

/-- The loop of `tree_add` finds an element with the key. -/
theorem exec_addLoop {n : ℕ} {elem : Ptr} {b : Addr}
    (h : search m.heap (sameKey m key) n elem = some (some b)) :
    code.Exec (.add .test malloc key value elem) m (.early (retFailure, none)) m := by
  induction n generalizing elem with
  | zero => cases h
  | succ n ih =>
    cases elem with
    | none => cases h
    | some a =>
      obtain ⟨x, hx, h⟩ := Option.bind_eq_some_iff.mp h
      obtain ⟨same, hsame, h⟩ := Option.bind_eq_some_iff.mp h
      cases same with
      | true =>
        refine .of_advance (n := 2) ?_
        simp [Monitor.Code.advance, code, At.step, addStep, goto, exit, hx, hsame]
      | false =>
        have hround : code.advance 3 (.add .test malloc key value (some a)) m =
            goto (.add .test malloc key value x.next) m := by
          simp [Monitor.Code.advance, code, At.step, addStep, goto, hx, hsame]
        exact .of_within (.of_advance hround) (ih h)

/-- The new element is allocated and assigned its four fields. -/
theorem within_assign (hm : malloc.alloc m.heap = some a) :
    code.Within (.add .malloc malloc key value none) m (.add .empty malloc key value (some a))
      { m with heap := m.heap.insert a ⟨⟨key, value⟩, none, none⟩ } := by
  refine .of_advance (n := 6) ?_
  simp [Monitor.Code.advance, code, At.step, addStep, goto, hm, LinkedHeap.modify, setPrev,
    setNext, blank, Finmap.lookup_insert, Finmap.insert_insert]

theorem exec_add {e : Exit} (h : treeAddBody malloc key value m = some (e, m')) :
    code.Exec (.add .first malloc key value none) m (e.answer none) m' := by
  rw [treeAddBody] at h
  obtain ⟨elem, hfind, h⟩ := Option.bind_eq_some_iff.mp h
  refine .step rfl ?_
  cases elem with
  | some b =>
    obtain ⟨rfl, rfl⟩ : Exit.early retFailure = e ∧ m = m' := by simpa using h
    exact exec_addLoop hfind
  | none =>
    refine .of_within (within_addLoop hfind) ?_
    cases hm : malloc.alloc m.heap with
    | none =>
      obtain ⟨rfl, rfl⟩ : Exit.early retFailure = e ∧ m = m' := by simpa [hm] using h
      refine .of_advance (n := 2) ?_
      simp [Monitor.Code.advance, code, At.step, addStep, goto, exit, hm, Exit.answer]
    | some a =>
      refine .of_within (within_assign hm) ?_
      by_cases hfirst : m.root.first = none
      · obtain ⟨rfl, rfl⟩ := by simpa [hm, hfirst] using h
        refine .of_advance (n := 3) ?_
        simp [Monitor.Code.advance, code, At.step, addStep, goto, exit, hfirst, Exit.answer]
      · simp only [hm, hfirst, ne_eq, not_true_eq_false, ↓reduceIte, Option.bind_eq_bind] at h
        obtain ⟨h₁, hset₁, h⟩ := Option.bind_eq_some_iff.mp h
        obtain ⟨h₂, hset₂, h⟩ := Option.bind_eq_some_iff.mp h
        obtain ⟨rfl, rfl⟩ := by simpa using h
        refine .of_advance (n := 4) ?_
        simp [Monitor.Code.advance, code, At.step, addStep, goto, exit, hfirst, hset₁, hset₂,
          Exit.answer]

/-! #### `tree_del` -/

theorem within_unlinkFirst (h : unlinkFirst a m = some m') :
    code.Within (.del .isFirst key (some a) del) m (.del .isLast key (some a) del) m' := by
  obtain ⟨x, hx, h⟩ := Option.bind_eq_some_iff.mp h
  by_cases hprev : x.prev = none
  · rw [if_pos hprev] at h
    obtain ⟨heap, hset, h⟩ := Option.bind_eq_some_iff.mp h
    cases h
    by_cases hnext : x.next = none
    · obtain rfl : m.heap = heap := by simpa [relinkPrev, hnext] using hset
      refine .of_advance (n := 3) ?_
      simp [Monitor.Code.advance, code, At.step, delStep, goto, hx, hprev, hnext]
    · rw [relinkPrev, if_neg hnext] at hset
      refine .of_advance (n := 4) ?_
      simp [Monitor.Code.advance, code, At.step, delStep, goto, hx, hprev, hnext, hset]
  · rw [if_neg hprev] at h
    cases h
    refine .of_advance (n := 1) ?_
    simp [Monitor.Code.advance, code, At.step, delStep, goto, hx, hprev]

theorem within_unlinkLast (h : unlinkLast a m = some m') :
    code.Within (.del .isLast key (some a) del) m (.del .isMiddle key (some a) del) m' := by
  obtain ⟨x, hx, h⟩ := Option.bind_eq_some_iff.mp h
  by_cases hnext : x.next = none
  · rw [if_pos hnext] at h
    obtain ⟨heap, hset, h⟩ := Option.bind_eq_some_iff.mp h
    cases h
    by_cases hprev : x.prev = none
    · obtain rfl : m.heap = heap := by simpa [relinkNext, hprev] using hset
      refine .of_advance (n := 3) ?_
      simp [Monitor.Code.advance, code, At.step, delStep, goto, hx, hprev, hnext]
    · rw [relinkNext, if_neg hprev] at hset
      refine .of_advance (n := 4) ?_
      simp [Monitor.Code.advance, code, At.step, delStep, goto, hx, hprev, hnext, hset]
  · rw [if_neg hnext] at h
    cases h
    refine .of_advance (n := 1) ?_
    simp [Monitor.Code.advance, code, At.step, delStep, goto, hx, hnext]

theorem within_unlinkMiddle (h : unlinkMiddle a m = some m') :
    code.Within (.del .isMiddle key (some a) del) m (.del .freeKey key (some a) del) m' := by
  obtain ⟨x, hx, h⟩ := Option.bind_eq_some_iff.mp h
  by_cases hmiddle : x.prev ≠ none ∧ x.next ≠ none
  · rw [if_pos hmiddle] at h
    obtain ⟨h₁, hset₁, h⟩ := Option.bind_eq_some_iff.mp h
    obtain ⟨y, hy, h⟩ := Option.bind_eq_some_iff.mp h
    obtain ⟨h₂, hset₂, h⟩ := Option.bind_eq_some_iff.mp h
    cases h
    refine .of_advance (n := 3) ?_
    simp [Monitor.Code.advance, code, At.step, delStep, goto, hx, hmiddle, hset₁, hy, hset₂]
  · rw [if_neg hmiddle] at h
    cases h
    refine .of_advance (n := 1) ?_
    simp [Monitor.Code.advance, code, At.step, delStep, goto, hx, hmiddle]

/-- One round of `tree_del` at an element with the key: it is taken out, its blocks are freed, and
the loop stands at the element before it. -/
theorem within_delMatch {m₁ m₂ : Mem} {x y : TreeElem} (hx : m.heap.lookup a = some x)
    (hsame : sameKey m key x.data = some true) (hunlink : unlinkElem a m = some m₁)
    (hy : m₁.heap.lookup a = some y) (hfree : freePair y.data m₁ = some m₂) :
    code.Within (.del .test key (some a) del) m (.del .stop key y.prev true) m₂ := by
  obtain ⟨n₁, hfirst, hunlink⟩ := Option.bind_eq_some_iff.mp hunlink
  obtain ⟨n₂, hlast, hmiddle⟩ := Option.bind_eq_some_iff.mp hunlink
  obtain ⟨m', hkey, hvalue⟩ := Option.bind_eq_some_iff.mp hfree
  have hfind : code.advance 2 (.del .test key (some a) del) m =
      goto (.del .isFirst key (some a) del) m := by
    simp [Monitor.Code.advance, code, At.step, delStep, goto, hx, hsame]
  have hheap₁ : m'.heap = m₁.heap := heap_of_free hkey
  have hheap₂ : m₂.heap = m₁.heap := (heap_of_free hvalue).trans hheap₁
  have hfrees : code.advance 4 (.del .freeKey key (some a) del) m₁ =
      goto (.del .stop key y.prev true) m₂ := by
    simp [Monitor.Code.advance, code, At.step, delStep, goto, hy, hkey, hheap₁, hvalue, hheap₂]
  exact ((Monitor.Code.Within.of_advance hfind).trans (within_unlinkFirst hfirst)).trans
    ((within_unlinkLast hlast).trans ((within_unlinkMiddle hmiddle).trans (.of_advance hfrees)))

/-- The loop of `tree_del`. -/
theorem exec_delLoop {n : ℕ} {elem : Ptr} {del' : Bool}
    (h : treeDelLoop key n elem del m = some (del', m')) :
    code.Exec (.del .test key elem del) m (delExit del') m' := by
  induction n generalizing elem del m with
  | zero => cases h
  | succ n ih =>
    cases elem with
    | none =>
      cases h
      exact .of_advance (n := 1) rfl
    | some a =>
      rw [treeDelLoop] at h
      obtain ⟨x, hx, h⟩ := Option.bind_eq_some_iff.mp h
      obtain ⟨same, hsame, h⟩ := Option.bind_eq_some_iff.mp h
      cases same with
      | false =>
        rw [if_pos rfl] at h
        have hround : code.advance 3 (.del .test key (some a) del) m =
            goto (.del .test key x.next del) m := by
          simp [Monitor.Code.advance, code, At.step, delStep, goto, hx, hsame]
        exact .of_within (.of_advance hround) (ih h)
      | true =>
        rw [if_neg (by simp)] at h
        obtain ⟨m₁, hunlink, h⟩ := Option.bind_eq_some_iff.mp h
        obtain ⟨y, hy, h⟩ := Option.bind_eq_some_iff.mp h
        obtain ⟨m₂, hfree, h⟩ := Option.bind_eq_some_iff.mp h
        refine .of_within (within_delMatch hx hsame hunlink hy hfree) ?_
        cases hprev : y.prev with
        | none =>
          obtain ⟨rfl, rfl⟩ := by simpa [hprev] using h
          exact .of_advance (n := 1) rfl
        | some p =>
          simp only [hprev] at h
          obtain ⟨z, hz, h⟩ := Option.bind_eq_some_iff.mp h
          have hback : code.advance 2 (.del .stop key (some p) true) m₂ =
              goto (.del .test key z.next true) m₂ := by
            simp [Monitor.Code.advance, code, At.step, delStep, goto, hz]
          exact .of_within (.of_advance hback) (ih h)

theorem exec_del {e : Exit} (h : treeDelBody key m = some (e, m')) :
    code.Exec (.del .first key none false) m (e.answer none) m' := by
  obtain ⟨⟨del, m₁⟩, hloop, h⟩ := Option.bind_eq_some_iff.mp h
  obtain ⟨rfl, rfl⟩ : Exit.unlock (if del then retSuccess else retFailure) = e ∧ m₁ = m' := by
    simpa using h
  exact .step rfl (exec_delLoop hloop)

/-! #### `tree_look` -/

/-- The loop of `tree_look`, up to the unlocked mutex. -/
theorem exec_lookLoop {n : ℕ} {elem found : Ptr} {v : Ptr}
    (h : search m.heap (sameKey m key) n elem = some found)
    (hv : (if found = none then some value else (load m.heap found).map fun e => e.data.value) =
      some v) :
    code.Exec (.look .test key value elem) m (lookExit v) m := by
  induction n generalizing elem with
  | zero => cases h
  | succ n ih =>
    cases elem with
    | none =>
      cases h
      obtain rfl : value = v := by simpa using hv
      exact .of_advance (n := 1) rfl
    | some a =>
      obtain ⟨x, hx, h⟩ := Option.bind_eq_some_iff.mp h
      obtain ⟨same, hsame, h⟩ := Option.bind_eq_some_iff.mp h
      cases same with
      | true =>
        obtain rfl : some a = found := by simpa using h
        obtain rfl : x.data.value = v := by simpa [load, hx] using hv
        refine .of_advance (n := 3) ?_
        simp [Monitor.Code.advance, code, At.step, lookStep, goto, exit, hx, hsame]
      | false =>
        have hround : code.advance 3 (.look .test key value (some a)) m =
            goto (.look .test key value x.next) m := by
          simp [Monitor.Code.advance, code, At.step, lookStep, goto, hx, hsame]
        exact .of_within (.of_advance hround) (ih h)

theorem exec_look {e : Exit} {v : Ptr} (h : treeLookBody key value m = some (e, v)) :
    code.Exec (.look .first key value none) m (e.answer v) m := by
  obtain ⟨found, hfind, h⟩ := Option.bind_eq_some_iff.mp h
  obtain ⟨v', hv, h⟩ := Option.bind_eq_some_iff.mp h
  obtain ⟨rfl, rfl⟩ : Exit.unlock (if v' = none then 1 else retSuccess) = e ∧ v' = v := by
    simpa using h
  exact .step rfl (exec_lookLoop hfind hv)

end Pieces

/-! ### The map -/

/-- What an operation may do to the map, and answer. -/
inductive Effect (M : OrderedMap Bytes Pair) : Op → Answer → OrderedMap Bytes Pair → Prop
  | added {malloc : Malloc TreeElem} {key : Key} {value : Ptr} (h : cstr key.text ∉ M.keys) :
      Effect M (.add malloc key value) (0, none) (M.insert (cstr key.text) ⟨key, value⟩ h)
  | exist {malloc : Malloc TreeElem} {key : Key} {value : Ptr} (h : cstr key.text ∈ M.keys) :
      Effect M (.add malloc key value) (-1, none) M
  | nomem {malloc : Malloc TreeElem} {key : Key} {value : Ptr} (h : ¬ malloc.Succeeds) :
      Effect M (.add malloc key value) (-1, none) M
  | deleted {key : Key} (h : cstr key.text ∈ M.keys) :
      Effect M (.del key) (0, none) (M.erase (cstr key.text))
  | notDeleted {key : Key} (h : cstr key.text ∉ M.keys) : Effect M (.del key) (-1, none) M
  /-- A stored NULL is answered like a missing key. -/
  | found {key : Key} {p : Pair} (h : M.get? (cstr key.text) = some p) :
      Effect M (.look key none) (if p.value = none then 1 else 0, p.value) M
  | notFound {key : Key} (h : M.get? (cstr key.text) = none) : Effect M (.look key none) (1, none) M
  | refused {key : Key} {a : Addr} : Effect M (.look key (some a)) (-1, some a) M

/-- The map as an atomic object. -/
def mapSpec : Monitor.Spec (OrderedMap Bytes Pair) Op Answer where
  init M := M = OrderedMap.empty
  effect := Effect

/-! ### Ownership -/

/-- The blocks an operation hands over to the tree. -/
def Op.gives : Op → List Addr
  | .add _ key value => Pair.blocks ⟨key, value⟩
  | _ => []

/-- The blocks an operation refers to. -/
def Op.uses : Op → List Addr
  | .add _ key value => Pair.blocks ⟨key, value⟩
  | .del key => [key.addr]
  | .look key _ => [key.addr]

/-- What an operation hands over are two blocks from `malloc`, and its key can be read. -/
def Op.Sound (access : Addr → Access) : Op → Prop
  | .add _ key value =>
    (Pair.blocks ⟨key, value⟩).Nodup ∧ ∀ b ∈ Pair.blocks ⟨key, value⟩, access b = .heap
  | .del key => access key.addr ≠ .freed
  | .look key _ => access key.addr ≠ .freed

/-- Neither of two operations refers to what the other one hands over. -/
def Op.Apart (o o' : Op) : Prop := (∀ b ∈ o.gives, b ∉ o'.uses) ∧ ∀ b ∈ o'.gives, b ∉ o.uses

instance (access : Addr → Access) : ∀ op : Op, Decidable (op.Sound access)
  | .add _ key value =>
    inferInstanceAs (Decidable ((Pair.blocks ⟨key, value⟩).Nodup ∧
      ∀ b ∈ Pair.blocks ⟨key, value⟩, access b = .heap))
  | .del key => inferInstanceAs (Decidable (access key.addr ≠ .freed))
  | .look key _ => inferInstanceAs (Decidable (access key.addr ≠ .freed))

instance (o o' : Op) : Decidable (o.Apart o') :=
  inferInstanceAs (Decidable ((∀ b ∈ o.gives, b ∉ o'.uses) ∧ ∀ b ∈ o'.gives, b ∉ o.uses))

theorem Op.Apart.symm {o o' : Op} (h : o.Apart o') : o'.Apart o := ⟨h.2, h.1⟩

/-- The blocks handed over by a list of operations. -/
def given (past : List Op) : List Addr := past.flatMap Op.gives

/-- The memory holds the map after some operations: the blocks in it were handed over by them, and
all others are what they were. -/
def Holds (access : Addr → Access) (past : List Op) (m : Mem) (M : OrderedMap Bytes Pair) : Prop :=
  ∃ l, WF m l ∧ M.entries = (l.map fun e => e.2.entry) ∧ (∀ b ∈ blocks l, b ∈ given past) ∧
    ∀ b, b ∉ given past → m.access b = access b

section Implementation

variable {access : Addr → Access} {past : List Op} {m : Mem} {M : OrderedMap Bytes Pair}
  {key : Key} {value : Ptr} {op : Op}

theorem notMem_given (hapart : ∀ o ∈ past, o.Apart op) {b : Addr} (hb : b ∈ op.uses) :
    b ∉ given past := by
  intro hmem
  obtain ⟨o, ho, hgives⟩ := List.mem_flatMap.mp hmem
  exact (hapart o ho).1 b hgives hb

/-- An operation that hands over nothing new leaves the memory of the map. -/
theorem Holds.cons (h : Holds access past m M) (op : Op) : Holds access (op :: past) m M := by
  obtain ⟨l, H, hM, hgiven, hrest⟩ := h
  have hsub : ∀ b ∈ given past, b ∈ given (op :: past) := fun b hb => List.mem_append_right _ hb
  exact ⟨l, H, hM, fun b hb => hsub b (hgiven b hb), fun b hb => hrest b (mt (hsub b) hb)⟩

/-- What an operation that does not refuse does to a memory that holds a map. -/
def Performs (access : Addr → Access) (past : List Op) (m : Mem) (M : OrderedMap Bytes Pair)
    (op : Op) (l : At) : Prop :=
  ∃ e m' M', code.Exec l m e m' ∧ Effect M op e.ret M' ∧ Holds access (op :: past) m' M'

theorem performs_add {malloc : Malloc TreeElem} (h : Holds access past m M)
    (hsound : (Op.add malloc key value).Sound access)
    (hapart : ∀ o ∈ past, o.Apart (.add malloc key value)) :
    Performs access past m M (.add malloc key value) (.add .first malloc key value none) := by
  have hkeep := h.cons (.add malloc key value)
  obtain ⟨l, H, hM, hgiven, hrest⟩ := h
  have hfresh : Fresh m.access (blocks l) ⟨key, value⟩ := by
    refine ⟨hsound.1, fun b hb => ?_⟩
    have hnew : b ∉ given past := notMem_given hapart hb
    exact ⟨(hrest b hnew).trans (hsound.2 b hb), fun hmem => hnew (hgiven b hmem)⟩
  have hread : m.access key.addr ≠ .freed := by
    rw [(hfresh.2 key.addr (addr_mem_blocks ⟨key, value⟩)).1]
    decide
  rcases absent_or_split key l with h | ⟨l₁, a, p, l₂, rfl, hk⟩
  · cases hm : malloc.alloc m.heap with
    | none =>
      refine ⟨_, m, M, exec_add (treeAddBody_nomem H hread h hm value), .nomem fun hs => ?_, hkeep⟩
      obtain ⟨a, ha⟩ := hs m.heap
      cases hm.symm.trans ha
    | some a =>
      have hkey := (mem_keys_iff hM).mpr h
      obtain ⟨m', hadd, H', haccess⟩ := treeAddBody_new H hfresh h hm
      refine ⟨_, m', M.insert (cstr key.text) ⟨key, value⟩ hkey, exec_add hadd, .added hkey, _, H',
        entries_insert hM hkey, fun b hb => ?_, fun b hb => ?_⟩
      · rw [blocks_append, List.mem_append] at hb
        rcases hb with hb | hb
        · exact List.mem_append_right _ (hgiven b hb)
        · exact List.mem_append_left _ (by simpa [blocks, Op.gives] using hb)
      · rw [haccess]
        exact hrest b fun hmem => hb (List.mem_append_right _ hmem)
  · have hkey := OrderedMap.mem_keys_of_split (entries_split hM hk)
    exact ⟨_, m, M, exec_add (treeAddBody_exist H hread hk malloc value), .exist hkey, hkeep⟩

theorem performs_del (h : Holds access past m M) (hsound : (Op.del key).Sound access)
    (hapart : ∀ o ∈ past, o.Apart (.del key)) :
    Performs access past m M (.del key) (.del .first key none false) := by
  have hkeep := h.cons (.del key)
  obtain ⟨l, H, hM, hgiven, hrest⟩ := h
  have hnew : key.addr ∉ given past := notMem_given hapart List.mem_cons_self
  have hread : m.access key.addr ≠ .freed := by
    rw [hrest key.addr hnew]
    exact hsound
  rcases absent_or_split key l with h | ⟨l₁, a, p, l₂, rfl, hk⟩
  · exact ⟨_, m, M, exec_del (treeDelBody_absent H hread h),
      .notDeleted ((mem_keys_iff hM).mpr h), hkeep⟩
  · have hsplit := entries_split hM hk
    have hp : ∀ b ∈ p.blocks, b ∈ given past := fun b hb =>
      hgiven b (mem_blocks (by simp : (a, p) ∈ l₁ ++ (a, p) :: l₂) hb)
    obtain ⟨m', hdel, H', haccess⟩ :=
      treeDelBody_found H hread (fun hmem => hnew (hp _ hmem)) hk
    refine ⟨_, m', M.erase (cstr key.text), exec_del hdel,
      .deleted (OrderedMap.mem_keys_of_split hsplit), _, H', ?_, fun b hb => ?_, fun b hb => ?_⟩
    · rw [OrderedMap.erase_of_split hsplit, List.map_append]
    · rw [blocks_append, List.mem_append] at hb
      refine hgiven b ?_
      rw [blocks_append, blocks_cons, List.mem_append, List.mem_append]
      exact hb.imp_right .inr
    · rw [haccess, freeing_of_notMem fun hmem => hb (hp b hmem)]
      exact hrest b hb

theorem performs_look (h : Holds access past m M) (hsound : (Op.look key none).Sound access)
    (hapart : ∀ o ∈ past, o.Apart (.look key none)) :
    Performs access past m M (.look key none) (.look .first key none none) := by
  have hkeep := h.cons (.look key none)
  obtain ⟨l, H, hM, -, hrest⟩ := h
  have hread : m.access key.addr ≠ .freed := by
    rw [hrest key.addr (notMem_given hapart List.mem_cons_self)]
    exact hsound
  rcases absent_or_split key l with h | ⟨l₁, a, p, l₂, rfl, hk⟩
  · have hget := OrderedMap.get?_eq_none ((mem_keys_iff hM).mpr h)
    exact ⟨_, m, M, exec_look (treeLookBody_absent H hread h none), .notFound hget, hkeep⟩
  · have hget := OrderedMap.get?_of_split (entries_split hM hk)
    exact ⟨_, m, M, exec_look (treeLookBody_found H hread hk none), .found hget, hkeep⟩

/-- **The tree implements the map.** -/
theorem tree_implements (access : Addr → Access) :
    Monitor.Implements code mapSpec (Holds access) (Op.Sound access) Op.Apart where
  refuse := by
    intro op r h M
    cases op with
    | look key value =>
      cases value with
      | none => cases h
      | some a =>
        cases h
        exact .refused
    | _ => cases h
  body := by
    intro op past l m M h hsound hapart hholds
    cases op with
    | add malloc key value =>
      cases h
      exact performs_add hholds hsound hapart
    | del key =>
      cases h
      exact performs_del hholds hsound hapart
    | look key value =>
      cases value with
      | none =>
        cases h
        exact performs_look hholds hsound hapart
      | some a => cases h

end Implementation

/-! ### Linearizability -/

/-- The threads of the program after `tree_init`, statement by statement. -/
def statements (T : Type*) [DecidableEq T] :
    Machine (Monitor.State T Op At Mem Answer) (Monitor.Label T Op) :=
  Monitor.machine T code fun m => ∃ m₀, m = (treeInit m₀).2

/-- **The tree is linearizable.** Any number of threads call the operations on a tree made by
`tree_init`, and their statements behind the lock and outside it interleave in any way. Each
`tree_add` hands over blocks of its own, to which no other call refers. The calls and returns are
then a history of the map whose operations are atomic, the memory holds that map whenever nobody is
behind the lock, and nobody ever faults there. -/
theorem tree_linearizable {T : Type*} [DecidableEq T] {s₀ s : Monitor.State T Op At Mem Answer}
    {tr : List (Monitor.State T Op At Mem Answer × Monitor.Label T Op)}
    (h₀ : (statements T).init s₀) (hrun : (statements T).Run s₀ tr s)
    (hsound : ∀ op ∈ Monitor.calls tr, op.Sound s₀.mem.access)
    (hapart : (Monitor.calls tr).Pairwise Op.Apart) :
    (∃ M, mapSpec.Run (Monitor.history tr) s.status M ∧
      ((∀ t op l, s.pc t ≠ .inside op l) →
        ∃ l, WF s.mem l ∧ M.entries = l.map fun e => e.2.entry)) ∧
    ∀ t op l, s.pc t = .inside op l → l.step s.mem ≠ none := by
  have hinit : ∃ M, mapSpec.init M ∧ Holds s₀.mem.access [] s₀.mem M := by
    obtain ⟨⟨m₀, hm₀⟩, -⟩ := h₀
    refine ⟨OrderedMap.empty, rfl, [], ?_, rfl, by simp [blocks], fun _ _ => rfl⟩
    rw [hm₀]
    exact treeInit_wf m₀
  obtain ⟨past, M, hhist, hsim, hown⟩ :=
    Monitor.simulates (tree_implements s₀.mem.access) (fun _ _ h => h.symm) hinit h₀ hrun hsound
      hapart
  refine ⟨⟨M, hhist, fun hquiet => ?_⟩, fun t op l ht =>
    hsim.exists_step (tree_implements s₀.mem.access) hown hsound ht⟩
  obtain ⟨l, H, hM, -⟩ := hsim.quiet hquiet
  exact ⟨l, H, hM⟩

/-- Two threads and an empty tree. -/
def startStatements : Monitor.State Bool Op At Mem Answer := ⟨noElem, none, fun _ => .outside⟩

/-- A thread is called to add a key and gets as far as the `malloc`; the other one is called to
delete the key, waits until the first has unlocked the mutex, and deletes it. -/
def addAndDel : List (Monitor.Label Bool Op) :=
  .call false (.add (.next _) ⟨1, [97]⟩ (some 2)) :: .run false :: .run false :: .run false ::
    .call true (.del ⟨10, [97]⟩) :: List.replicate 10 (.run false) ++
    List.replicate 17 (.run true) ++ [.run false, .run true]

theorem tree_linearizable_addAndDel :
    ∃ tr s M, (statements Bool).init startStatements ∧
      (statements Bool).Run startStatements tr s ∧
      Monitor.history tr =
        [.call false (.add (.next _) ⟨1, [97]⟩ (some 2)), .call true (.del ⟨10, [97]⟩),
          .ret false (0, none), .ret true (0, none)] ∧
      mapSpec.Run (Monitor.history tr) s.status M := by
  obtain ⟨s, hexec⟩ : ∃ s, (statements Bool).exec startStatements addAndDel = some s := ⟨_, rfl⟩
  have hrun := Machine.run_of_exec hexec
  have h₀ : (statements Bool).init startStatements := ⟨⟨noElem, rfl⟩, rfl, fun _ => rfl⟩
  have hcalls : Monitor.calls ((statements Bool).trace startStatements addAndDel) =
      [.add (.next _) ⟨1, [97]⟩ (some 2), .del ⟨10, [97]⟩] := rfl
  obtain ⟨⟨M, hhist, -⟩, -⟩ :=
    tree_linearizable h₀ hrun (by rw [hcalls]; decide) (by rw [hcalls]; decide)
  exact ⟨_, s, M, h₀, hrun, rfl, hhist⟩

end Tree

end Tlpiexer
