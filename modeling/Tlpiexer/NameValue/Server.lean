import Tlpiexer.NameValue.Llist
import Tlpiexer.NameValue.Store

/-!
# The name-value server

The request loop of `src/imp/59-04-server.c`, and the proof that it is a correct implementation of
`NameValue.Store`. One iteration of the loop is `serve`: it resets `lerrno`, runs the list
operation the command selects and turns `lerrno` into the result of the response. The response
structure `res` is reused from one iteration to the next, so it is part of the state.

A connection that cannot be accepted, or that delivers anything but a whole `msg_req`, is closed
without touching the list or `res`; the inputs of `serve` are the requests that do arrive.

## The simulation

`Rep m st l`: the memory `m` holds the nodes `l`, no name occurs in `l` twice, and the bindings of
the store `st` are exactly the strings found in `l`. `Rep.cons`, `Rep.replace` and `Rep.remove` are
the three ways it changes, and `Rep.cases` splits on whether a name is bound.

`Outcome` lists what a request can do in such a state, with nothing assumed of the request or of
`malloc`: it is refused, it does what it asks for, or it runs into one of the two cases the code
does not handle (`Outcome.nomem`, `Outcome.overrun`). What is proved about requests is a case
analysis over it.

## Main results

* `NameValue.outcome_serve` — what one request can do
* `NameValue.serve_refines` — one request, against the store
* `NameValue.serveAll_refines` — every sequence of requests
-/

namespace Tlpiexer

namespace NameValue

open CString LinkedHeap

/-! ### The request loop -/

/-- `REQ_ADD`. -/
def reqAdd : UInt32 := 1

/-- `REQ_GET`. -/
def reqGet : UInt32 := 2

/-- `REQ_SET`. -/
def reqSet : UInt32 := 3

/-- `REQ_DEL`. -/
def reqDel : UInt32 := 4

/-- `RES_OK`. -/
def resOk : ℕ := 0

/-- `RES_UNKOW`. -/
def resUnkow : ℕ := 5

/-- `struct msg_req`, as it is read from the socket: any command number may arrive. -/
structure MsgReq where
  cmd : UInt32
  item : ItemNv

/-- `struct msg_res`. -/
structure MsgRes where
  result : ℕ
  item : ItemNv

/-- What the loop keeps between two requests. -/
structure Server where
  mem : Mem
  res : MsgRes

/-- The command branch: the list operation, and the item left in `res`. -/
def dispatch (malloc : Malloc ItemLl) (req : MsgReq) (m : Mem) (item : ItemNv) :
    Option (Mem × ItemNv) :=
  if req.cmd = reqAdd then (llAdd malloc req.item m).map fun r => (r.2, item)
  else if req.cmd = reqGet then
    (llGet { item with name := req.item.name } m).map fun r => (r.2.2, r.2.1)
  else if req.cmd = reqSet then (llSet req.item m).map fun r => (r.2, item)
  else if req.cmd = reqDel then (llDel req.item m).map fun r => (r.2, item)
  else some ({ m with lerrno := resUnkow }, item)

/-- One iteration of the loop; the response written is the `res` it leaves. -/
def serve (malloc : Malloc ItemLl) (req : MsgReq) (s : Server) : Option Server :=
  (dispatch malloc req { s.mem with lerrno := 0 } s.res.item).map fun r =>
    { mem := r.1
      res := { result := if r.1.lerrno = 0 then resOk else r.1.lerrno, item := r.2 } }

/-- The loop over a sequence of requests, each with the `malloc` it may call; the responses are
collected. -/
def serveAll : List (Malloc ItemLl × MsgReq) → Server → Option (List MsgRes × Server)
  | [], s => some ([], s)
  | (malloc, req) :: inputs, s => do
    let s' ← serve malloc req s
    let (out, s'') ← serveAll inputs s'
    some (s'.res :: out, s'')

/-! ### Requests and responses as strings -/

/-- What a command number asks for. -/
def Cmd.ofCode (c : UInt32) : Cmd :=
  if c = reqAdd then .add
  else if c = reqGet then .get
  else if c = reqSet then .set
  else if c = reqDel then .del
  else .unknown

theorem Cmd.ofCode_eq_set_iff (c : UInt32) : Cmd.ofCode c = .set ↔ c = reqSet := by
  constructor
  · intro h
    unfold Cmd.ofCode at h
    split_ifs at h with _ _ hs
    exact hs
  · rintro rfl
    decide

theorem Cmd.ofCode_eq_del_iff (c : UInt32) : Cmd.ofCode c = .del ↔ c = reqDel := by
  constructor
  · intro h
    unfold Cmd.ofCode at h
    split_ifs at h with _ _ _ hd
    exact hd
  · rintro rfl
    decide

/-- The value and owner strings of an item. -/
def ItemNv.binding (nv : ItemNv) : Binding := ⟨nv.valueStr, nv.ownStr⟩

/-- A request as the reference store sees it. -/
def MsgReq.op (req : MsgReq) : Op :=
  ⟨Cmd.ofCode req.cmd, req.item.nameStr, req.item.valueStr, req.item.ownStr⟩

/-- What a client learns from a response: the result code, and the item if it asked for one and
was successful. -/
def MsgReq.observe (req : MsgReq) (res : MsgRes) : ℕ × Option (Bytes × Binding) :=
  (res.result,
    if req.cmd = reqGet ∧ res.result = resOk then some (res.item.nameStr, res.item.binding)
    else none)

/-- The same, for a response of the reference store. -/
def Answer.observe (a : Answer) : ℕ × Option (Bytes × Binding) := (a.result.code, a.item)

/-- What a walk along the list finds under a name. -/
def stored (m : Mem) (n : Bytes) : Option Binding := do
  let p ← find m.heap (fun nv => nv.nameStr = n) (fuel m.heap) m.list.first
  let node ← load m.heap p
  some node.data.binding

/-! ### The simulation relation -/

/-- `m` holds the nodes `l`, and these hold the bindings of `st`. -/
structure Rep (m : Mem) (st : Store) (l : List (Addr × ItemNv)) : Prop where
  /-- The nodes are a doubly linked list. -/
  list : IsDList m.heap m.list.first l
  /-- No two of them have the same name. -/
  names : (l.map fun e => e.2.nameStr).Nodup
  /-- The bindings are read off the nodes. -/
  bound : ∀ n b, st.lookup n = some b ↔ ∃ e ∈ l, e.2.nameStr = n ∧ e.2.binding = b

namespace Rep

variable {m : Mem} {st : Store} {l l₁ l₂ : List (Addr × ItemNv)} {a : Addr} {nv item : ItemNv}

theorem init (m : Mem) : Rep (llInit m).2 ∅ [] :=
  ⟨isDList_nil _, List.nodup_nil, by simp⟩

/-- `lerrno` is not part of what is represented. -/
theorem setLerrno (H : Rep m st l) (e : ℕ) : Rep { m with lerrno := e } st l :=
  ⟨H.list, H.names, H.bound⟩

/-- A name is unbound, or bound by exactly one node. -/
theorem cases (H : Rep m st l) (item : ItemNv) :
    (Absent item l ∧ st.lookup item.nameStr = none) ∨
      ∃ l₁ a nv l₂, l = l₁ ++ (a, nv) :: l₂ ∧ nv.nameStr = item.nameStr ∧ Absent item l₁ ∧
        Absent item l₂ ∧ st.lookup item.nameStr = some nv.binding := by
  rcases absent_or_found H.names item with habs | ⟨l₁, a, nv, l₂, rfl, hnv, h₁, h₂⟩
  · refine Or.inl ⟨habs, ?_⟩
    cases hb : st.lookup item.nameStr with
    | none => rfl
    | some b =>
      obtain ⟨e, he, hn, -⟩ := (H.bound _ _).mp hb
      exact absurd hn (habs e he)
  · exact Or.inr ⟨l₁, a, nv, l₂, rfl, hnv, h₁, h₂,
      (H.bound _ _).mpr ⟨(a, nv), by simp, hnv, rfl⟩⟩

/-- A new node in front binds its name. -/
theorem cons (H : Rep m st l) (habs : Absent item l) {m' : Mem}
    (hl : IsDList m'.heap m'.list.first ((a, item) :: l)) :
    Rep m' (st.insert item.nameStr item.binding) ((a, item) :: l) := by
  refine ⟨hl, List.nodup_cons.mpr ⟨?_, H.names⟩, fun n b => ?_⟩
  · rw [List.mem_map]
    rintro ⟨e, he, hn⟩
    exact habs e he hn
  · by_cases hn : n = item.nameStr
    · subst hn
      rw [Finmap.lookup_insert]
      constructor
      · intro hb
        exact ⟨(a, item), List.mem_cons_self, rfl, Option.some.inj hb⟩
      · rintro ⟨e, he, hen, heb⟩
        rcases List.mem_cons.mp he with rfl | he
        · rw [← heb]
        · exact absurd hen (habs e he)
    · rw [Finmap.lookup_insert_of_ne st hn, H.bound]
      constructor
      · rintro ⟨e, he, hen, heb⟩
        exact ⟨e, List.mem_cons_of_mem _ he, hen, heb⟩
      · rintro ⟨e, he, hen, heb⟩
        rcases List.mem_cons.mp he with rfl | he
        · exact absurd hen.symm hn
        · exact ⟨e, he, hen, heb⟩

/-- Overwriting a node's value rebinds its name. -/
theorem replace (H : Rep m st (l₁ ++ (a, nv) :: l₂)) (h₁ : Absent nv l₁) (h₂ : Absent nv l₂)
    {m' : Mem} {nv' : ItemNv} (hl : IsDList m'.heap m'.list.first (l₁ ++ (a, nv') :: l₂))
    (hname : nv'.nameStr = nv.nameStr) :
    Rep m' (st.insert nv.nameStr nv'.binding) (l₁ ++ (a, nv') :: l₂) := by
  refine ⟨hl, ?_, fun n b => ?_⟩
  · simpa [hname] using H.names
  · by_cases hn : n = nv.nameStr
    · subst hn
      rw [Finmap.lookup_insert]
      constructor
      · intro hb
        exact ⟨(a, nv'), by simp, hname, Option.some.inj hb⟩
      · rintro ⟨e, he, hen, heb⟩
        rcases List.mem_append.mp he with he | he
        · exact absurd hen (h₁ e he)
        · rcases List.mem_cons.mp he with rfl | he
          · rw [← heb]
          · exact absurd hen (h₂ e he)
    · rw [Finmap.lookup_insert_of_ne st hn, H.bound]
      -- neither the old nor the new node has the name `n`
      have hne : nv.nameStr ≠ n := fun h => hn h.symm
      simp [hname, hne, or_and_right, exists_or]

/-- Taking a node out unbinds its name. -/
theorem remove (H : Rep m st (l₁ ++ (a, nv) :: l₂)) (h₁ : Absent nv l₁) (h₂ : Absent nv l₂)
    {m' : Mem} (hl : IsDList m'.heap m'.list.first (l₁ ++ l₂)) :
    Rep m' (st.erase nv.nameStr) (l₁ ++ l₂) := by
  refine ⟨hl, (key_ne_of_nodup H.names).2.2, fun n b => ?_⟩
  by_cases hn : n = nv.nameStr
  · subst hn
    rw [Finmap.lookup_erase]
    refine iff_of_false (by simp) ?_
    rintro ⟨e, he, hen, -⟩
    rcases List.mem_append.mp he with he | he
    · exact h₁ e he hen
    · exact h₂ e he hen
  · rw [Finmap.lookup_erase_ne hn, H.bound]
    have hne : nv.nameStr ≠ n := fun h => hn h.symm
    simp [hne, or_and_right, exists_or]

/-- What a walk finds is what is bound. -/
theorem stored_eq (H : Rep m st l) (n : Bytes) : stored m n = st.lookup n := by
  have hfind := H.list.find fun nv => nv.nameStr = n
  simp only [stored, hfind, Option.bind_eq_bind, Option.bind_some]
  cases he : l.find? fun e => decide (e.2.nameStr = n) with
  | none =>
    have hnone := List.find?_eq_none.mp he
    cases hb : st.lookup n with
    | none => rfl
    | some b =>
      obtain ⟨e, hmem, hn, -⟩ := (H.bound n b).mp hb
      exact absurd (by simpa using hn) (hnone e hmem)
  | some e =>
    obtain ⟨a, nv⟩ := e
    have hn : nv.nameStr = n := by simpa using List.find?_some he
    have hmem : (a, nv) ∈ l := List.mem_of_find?_eq_some he
    obtain ⟨l₁, l₂, rfl⟩ := List.append_of_mem hmem
    rw [(H.bound n nv.binding).mpr ⟨(a, nv), hmem, hn, rfl⟩]
    simp [H.list.seg.lookup]

end Rep

/-! ### What one request can do -/

/-- How a request can end, in a state that holds the bindings of `st` in the nodes `l`. -/
inductive Outcome (malloc : Malloc ItemLl) (req : MsgReq) (s : Server) (st : Store)
    (l : List (Addr × ItemNv)) : Option Server → Prop
  /-- The operation is refused: `lerrno` is set, and a `GET` leaves the name it asked for. -/
  | refused (r : ResRes) (hr : r ≠ .ok) (hstep : st.step req.op = (⟨r, none⟩, st))
      (item : ItemNv) (hitem : item =
        if req.cmd = reqGet then { s.res.item with name := req.item.name } else s.res.item) :
      Outcome malloc req s st l (some ⟨{ s.mem with lerrno := r.code }, r.code, item⟩)
  /-- `ADD` finds no memory, and reports nothing. -/
  | nomem (hc : req.cmd = reqAdd) (habs : Absent req.item l)
      (hm : malloc.alloc s.mem.heap = none) :
      Outcome malloc req s st l (some ⟨{ s.mem with lerrno := 0 }, resOk, s.res.item⟩)
  /-- `ADD` puts the item in front. -/
  | added (hc : req.cmd = reqAdd) (habs : Absent req.item l) (a : Addr)
      (hm : malloc.alloc s.mem.heap = some a) (m : Mem)
      (hstep : st.step req.op = (⟨.ok, none⟩, st.insert req.item.nameStr req.item.binding))
      (hrep : Rep m (st.insert req.item.nameStr req.item.binding) ((a, req.item) :: l)) :
      Outcome malloc req s st l (some ⟨m, resOk, s.res.item⟩)
  /-- `GET` returns the stored item. -/
  | got (hc : req.cmd = reqGet) (l₁ : List (Addr × ItemNv)) (a : Addr) (nv : ItemNv)
      (l₂ : List (Addr × ItemNv)) (hl : l = l₁ ++ (a, nv) :: l₂)
      (hnv : nv.nameStr = req.item.nameStr)
      (hstep : st.step req.op = (⟨.ok, some (nv.nameStr, nv.binding)⟩, st)) :
      Outcome malloc req s st l (some ⟨{ s.mem with lerrno := 0 }, resOk, nv⟩)
  /-- `SET` replaces the value string of the stored item. -/
  | replaced (hc : req.cmd = reqSet) (l₁ : List (Addr × ItemNv)) (a : Addr) (nv nv' : ItemNv)
      (l₂ : List (Addr × ItemNv)) (hl : l = l₁ ++ (a, nv) :: l₂)
      (hnv : nv.nameStr = req.item.nameStr) (hown : nv.ownStr = req.item.ownStr)
      (hnul : (0 : UInt8) ∈ req.item.value.val ∨ (0 : UInt8) ∈ req.item.own.val)
      (hname : nv'.name = nv.name) (hown' : nv'.own = nv.own)
      (hval : nv'.valueStr = req.item.valueStr) (m : Mem)
      (hstep : st.step req.op = (⟨.ok, none⟩, st.insert nv.nameStr nv'.binding))
      (hrep : Rep m (st.insert nv.nameStr nv'.binding) (l₁ ++ (a, nv') :: l₂)) :
      Outcome malloc req s st l (some ⟨m, resOk, s.res.item⟩)
  /-- `DEL` takes the stored item out. -/
  | removed (hc : req.cmd = reqDel) (l₁ : List (Addr × ItemNv)) (a : Addr) (nv : ItemNv)
      (l₂ : List (Addr × ItemNv)) (hl : l = l₁ ++ (a, nv) :: l₂)
      (hnv : nv.nameStr = req.item.nameStr) (m : Mem)
      (hstep : st.step req.op = (⟨.ok, none⟩, st.erase nv.nameStr))
      (hrep : Rep m (st.erase nv.nameStr) (l₁ ++ l₂)) :
      Outcome malloc req s st l (some ⟨m, resOk, s.res.item⟩)
  /-- `SET` copies a value without end. -/
  | overrun (hc : req.cmd = reqSet) (l₁ : List (Addr × ItemNv)) (a : Addr) (nv : ItemNv)
      (l₂ : List (Addr × ItemNv)) (hl : l = l₁ ++ (a, nv) :: l₂)
      (hnv : nv.nameStr = req.item.nameStr) (hown : nv.ownStr = req.item.ownStr)
      (hv : (0 : UInt8) ∉ req.item.value.val) (ho : (0 : UInt8) ∉ req.item.own.val) :
      Outcome malloc req s st l none

section OneRequest

variable {s : Server} {st : Store} {l : List (Addr × ItemNv)} {malloc : Malloc ItemLl}
  {req : MsgReq}

/-- The response that goes with an `lerrno`. -/
theorem serve_of_dispatch {m : Mem} {item : ItemNv}
    (h : dispatch malloc req { s.mem with lerrno := 0 } s.res.item = some (m, item)) :
    serve malloc req s = some ⟨m, m.lerrno, item⟩ := by
  rw [serve, h, Option.map_some]
  congr 3
  split
  case isTrue h0 => exact h0.symm
  case isFalse => rfl

/-- A command that fails sets `lerrno` and nothing else. -/
theorem outcome_of_error {r : ResRes} (hr : r ≠ .ok) (hstep : st.step req.op = (⟨r, none⟩, st))
    {item : ItemNv} (hitem : item =
      if req.cmd = reqGet then { s.res.item with name := req.item.name } else s.res.item)
    (hd : dispatch malloc req { s.mem with lerrno := 0 } s.res.item =
      some ({ s.mem with lerrno := r.code }, item)) :
    Outcome malloc req s st l (serve malloc req s) := by
  rw [serve_of_dispatch hd]
  exact .refused r hr hstep item hitem

/-- A command that succeeds leaves `lerrno` at zero. -/
theorem serve_of_ok {m : Mem} {item : ItemNv}
    (hd : dispatch malloc req { s.mem with lerrno := 0 } s.res.item = some (m, item))
    (herr : m.lerrno = 0) : serve malloc req s = some ⟨m, resOk, item⟩ := by
  rw [serve_of_dispatch hd, herr]
  rfl

/-- `ADD` of a new name. -/
theorem serve_add_new (H : Rep s.mem st l) (hc : req.cmd = reqAdd) (habs : Absent req.item l)
    {a : Addr} (hm : malloc.alloc s.mem.heap = some a) :
    ∃ m, serve malloc req s = some ⟨m, resOk, s.res.item⟩ ∧
      Rep m (st.insert req.item.nameStr req.item.binding) ((a, req.item) :: l) := by
  have H₀ := H.setLerrno 0
  obtain ⟨m, hadd, hl, herr⟩ := llAdd_new H₀.list habs hm
  exact ⟨m, serve_of_ok (by simp only [dispatch, hc, hadd]; rfl) herr, H₀.cons habs hl⟩

/-- `ADD` of a new name without memory. -/
theorem serve_add_nomem (H : Rep s.mem st l) (hc : req.cmd = reqAdd) (habs : Absent req.item l)
    (hm : malloc.alloc s.mem.heap = none) :
    serve malloc req s = some ⟨{ s.mem with lerrno := 0 }, resOk, s.res.item⟩ := by
  have hadd := llAdd_nomem (H.setLerrno 0).list habs hm
  exact serve_of_ok (by simp only [dispatch, hc, hadd]; rfl) rfl

theorem outcome_add (H : Rep s.mem st l) (hc : req.cmd = reqAdd) :
    Outcome malloc req s st l (serve malloc req s) := by
  have hop : req.op.cmd = .add := by simp [MsgReq.op, Cmd.ofCode, hc]
  have hget : req.cmd ≠ reqGet := by rw [hc]; decide
  rcases H.cases req.item with ⟨habs, hnone⟩ | ⟨l₁, a, nv, l₂, rfl, hnv, h₁, -, hsome⟩
  · have hlook : st.lookup req.op.name = none := hnone
    cases hm : malloc.alloc s.mem.heap with
    | none =>
      rw [serve_add_nomem H hc habs hm]
      exact .nomem hc habs hm
    | some a =>
      obtain ⟨m, hserve, hrep⟩ := serve_add_new H hc habs hm
      have hstep : st.step req.op =
          (⟨.ok, none⟩, st.insert req.item.nameStr req.item.binding) := by
        simp only [Store.step, hop, hlook]; rfl
      rw [hserve]
      exact .added hc habs a hm m hstep hrep
  · have hlook : st.lookup req.op.name = some nv.binding := hsome
    have hadd := llAdd_exist (H.setLerrno 0).list hnv h₁ malloc
    have hstep : st.step req.op = (⟨.exist, none⟩, st) := by
      simp only [Store.step, hop, hlook]
    exact outcome_of_error (by decide) hstep (if_neg hget).symm
      (by simp only [dispatch, hc, hadd]; rfl)

/-- `GET` of a stored name. -/
theorem serve_get_found {l₁ l₂ : List (Addr × ItemNv)} {a : Addr} {nv : ItemNv}
    (H : Rep s.mem st (l₁ ++ (a, nv) :: l₂)) (hc : req.cmd = reqGet)
    (hnv : nv.nameStr = req.item.nameStr) (h₁ : Absent req.item l₁) :
    serve malloc req s = some ⟨{ s.mem with lerrno := 0 }, resOk, nv⟩ := by
  have hadd : req.cmd ≠ reqAdd := by rw [hc]; decide
  -- the server asks for the requested name in an item that is otherwise left from the last `GET`
  let item : ItemNv := { s.res.item with name := req.item.name }
  have hgetl :
      llGet item { s.mem with lerrno := 0 } = some (fnOk, nv, { s.mem with lerrno := 0 }) :=
    llGet_found (H.setLerrno 0).list hnv h₁
  have hd : dispatch malloc req { s.mem with lerrno := 0 } s.res.item =
      some ({ s.mem with lerrno := 0 }, nv) := by
    rw [dispatch, if_neg hadd, if_pos hc, hgetl]
    rfl
  exact serve_of_ok hd rfl

/-- `GET` of a name that is not stored. -/
theorem serve_get_noext (H : Rep s.mem st l) (hc : req.cmd = reqGet) (habs : Absent req.item l) :
    serve malloc req s = some ⟨{ s.mem with lerrno := elNoext }, elNoext,
      { s.res.item with name := req.item.name }⟩ := by
  have hadd : req.cmd ≠ reqAdd := by rw [hc]; decide
  let item : ItemNv := { s.res.item with name := req.item.name }
  have hgetl : llGet item { s.mem with lerrno := 0 } =
      some (fnEr, item, { s.mem with lerrno := elNoext }) :=
    llGet_noext (H.setLerrno 0).list habs
  have hd : dispatch malloc req { s.mem with lerrno := 0 } s.res.item =
      some ({ s.mem with lerrno := elNoext }, item) := by
    rw [dispatch, if_neg hadd, if_pos hc, hgetl]
    rfl
  exact serve_of_dispatch hd

theorem outcome_get (H : Rep s.mem st l) (hc : req.cmd = reqGet) :
    Outcome malloc req s st l (serve malloc req s) := by
  have hop : req.op.cmd = .get := by simp [MsgReq.op, Cmd.ofCode, hc, reqAdd, reqGet]
  rcases H.cases req.item with ⟨habs, hnone⟩ | ⟨l₁, a, nv, l₂, rfl, hnv, h₁, -, hsome⟩
  · rw [serve_get_noext H hc habs]
    exact .refused .noext (by decide) (Store.step_noext (.inl hop) hnone) _ (if_pos hc).symm
  · have hlook : st.lookup req.op.name = some nv.binding := hsome
    have hstep : st.step req.op = (⟨.ok, some (nv.nameStr, nv.binding)⟩, st) := by
      simp only [Store.step, hop, hlook, hnv]; rfl
    rw [serve_get_found H hc hnv h₁]
    exact .got hc l₁ a nv l₂ rfl hnv hstep

/-- `SET` by the owner, with nothing to end the copy. -/
theorem serve_set_overrun {l₁ l₂ : List (Addr × ItemNv)} {a : Addr} {nv : ItemNv}
    (H : Rep s.mem st (l₁ ++ (a, nv) :: l₂)) (hc : req.cmd = reqSet)
    (hnv : nv.nameStr = req.item.nameStr) (h₁ : Absent req.item l₁)
    (hown : nv.ownStr = req.item.ownStr) (hv : (0 : UInt8) ∉ req.item.value.val)
    (ho : (0 : UInt8) ∉ req.item.own.val) : serve malloc req s = none := by
  have hset := llSet_overrun (H.setLerrno 0).list hnv h₁ hown hv ho
  simp only [serve, dispatch, hc, hset]
  rfl

theorem outcome_set (H : Rep s.mem st l) (hc : req.cmd = reqSet) :
    Outcome malloc req s st l (serve malloc req s) := by
  have hop : req.op.cmd = .set := by simp [MsgReq.op, Cmd.ofCode, hc, reqAdd, reqGet, reqSet]
  have hget : req.cmd ≠ reqGet := by rw [hc]; decide
  have H₀ := H.setLerrno 0
  rcases H₀.cases req.item with ⟨habs, hnone⟩ | ⟨l₁, a, nv, l₂, rfl, hnv, h₁, h₂, hsome⟩
  · have hset := llSet_noext H₀.list habs
    exact outcome_of_error (by decide) (Store.step_noext (.inr (.inl hop)) hnone) (if_neg hget).symm
      (by simp only [dispatch, hc, hset]; rfl)
  have hlook : st.lookup req.op.name = some nv.binding := hsome
  by_cases hown : nv.binding.own = req.op.own
  · by_cases hnul : (0 : UInt8) ∈ req.item.value.val ∨ (0 : UInt8) ∈ req.item.own.val
    · obtain ⟨m', nv', hset, hl, hname, hown', hval, herr⟩ :=
        llSet_own H₀.list hnv h₁ hown hnul
      have hstep : st.step req.op = (⟨.ok, none⟩, st.insert nv.nameStr nv'.binding) := by
        simp only [Store.step, hop, hlook]
        rw [if_neg (not_not_intro hown), hnv]
        simp only [ItemNv.binding, hval, ItemNv.ownStr, hown']
        rfl
      have hrep : Rep m' (st.insert nv.nameStr nv'.binding) (l₁ ++ (a, nv') :: l₂) :=
        H₀.replace (fun e he => hnv ▸ h₁ e he) (fun e he => hnv ▸ h₂ e he) hl
          (by rw [ItemNv.nameStr, hname, ItemNv.nameStr])
      rw [serve_of_ok (by simp only [dispatch, hc, hset]; rfl) herr]
      exact .replaced hc l₁ a nv nv' l₂ rfl hnv hown hnul hname hown' hval m' hstep hrep
    · obtain ⟨hv, ho⟩ := not_or.mp hnul
      rw [serve_set_overrun H hc hnv h₁ hown hv ho]
      exact .overrun hc l₁ a nv l₂ rfl hnv hown hv ho
  · have hset := llSet_perm H₀.list hnv h₁ hown
    exact outcome_of_error (by decide) (Store.step_perm (.inl hop) hsome hown) (if_neg hget).symm
      (by simp only [dispatch, hc, hset]; rfl)

/-- `DEL` by the owner. -/
theorem serve_del_own {l₁ l₂ : List (Addr × ItemNv)} {a : Addr} {nv : ItemNv}
    (H : Rep s.mem st (l₁ ++ (a, nv) :: l₂)) (hc : req.cmd = reqDel)
    (hnv : nv.nameStr = req.item.nameStr) (h₁ : Absent req.item l₁) (h₂ : Absent req.item l₂)
    (hown : nv.ownStr = req.item.ownStr) :
    ∃ m, serve malloc req s = some ⟨m, resOk, s.res.item⟩ ∧
      Rep m (st.erase nv.nameStr) (l₁ ++ l₂) := by
  have H₀ := H.setLerrno 0
  obtain ⟨m, hdel, hl, herr⟩ := llDel_own H₀.list hnv h₁ hown
  refine ⟨m, serve_of_ok (by simp only [dispatch, hc, hdel]; rfl) herr, ?_⟩
  exact H₀.remove (fun e he => hnv ▸ h₁ e he) (fun e he => hnv ▸ h₂ e he) hl

theorem outcome_del (H : Rep s.mem st l) (hc : req.cmd = reqDel) :
    Outcome malloc req s st l (serve malloc req s) := by
  have hop : req.op.cmd = .del := by
    simp [MsgReq.op, Cmd.ofCode, hc, reqAdd, reqGet, reqSet, reqDel]
  have hget : req.cmd ≠ reqGet := by rw [hc]; decide
  rcases H.cases req.item with ⟨habs, hnone⟩ | ⟨l₁, a, nv, l₂, rfl, hnv, h₁, h₂, hsome⟩
  · have hdel := llDel_noext (H.setLerrno 0).list habs
    exact outcome_of_error (by decide) (Store.step_noext (.inr (.inr hop)) hnone) (if_neg hget).symm
      (by simp only [dispatch, hc, hdel]; rfl)
  have hlook : st.lookup req.op.name = some nv.binding := hsome
  by_cases hown : nv.binding.own = req.op.own
  · obtain ⟨m, hserve, hrep⟩ := serve_del_own H hc hnv h₁ h₂ hown
    have hstep : st.step req.op = (⟨.ok, none⟩, st.erase nv.nameStr) := by
      simp only [Store.step, hop, hlook]
      rw [if_neg (not_not_intro hown), hnv]
      rfl
    rw [hserve]
    exact .removed hc l₁ a nv l₂ rfl hnv m hstep hrep
  · have hdel := llDel_perm (H.setLerrno 0).list hnv h₁ hown
    exact outcome_of_error (by decide) (Store.step_perm (.inr hop) hsome hown) (if_neg hget).symm
      (by simp only [dispatch, hc, hdel]; rfl)

theorem outcome_unknown (ha : req.cmd ≠ reqAdd) (hg : req.cmd ≠ reqGet)
    (hs : req.cmd ≠ reqSet) (hd : req.cmd ≠ reqDel) :
    Outcome malloc req s st l (serve malloc req s) := by
  have hop : req.op.cmd = .unknown := by simp [MsgReq.op, Cmd.ofCode, ha, hg, hs, hd]
  have hstep : st.step req.op = (⟨.unkow, none⟩, st) := by simp only [Store.step, hop]
  refine outcome_of_error (by decide) hstep (if_neg hg).symm ?_
  rw [dispatch, if_neg ha, if_neg hg, if_neg hs, if_neg hd]
  rfl

/-- **One request**, whatever it is. -/
theorem outcome_serve (H : Rep s.mem st l) (malloc : Malloc ItemLl) (req : MsgReq) :
    Outcome malloc req s st l (serve malloc req s) := by
  by_cases ha : req.cmd = reqAdd
  · exact outcome_add H ha
  by_cases hg : req.cmd = reqGet
  · exact outcome_get H hg
  by_cases hs : req.cmd = reqSet
  · exact outcome_set H hs
  by_cases hd : req.cmd = reqDel
  · exact outcome_del H hd
  · exact outcome_unknown ha hg hs hd

/-! ### One request refines one step of the store -/

/-- The state after a request and what its client learns agree with the reference store. -/
def Refines (malloc : Malloc ItemLl) (req : MsgReq) (s : Server) (st : Store) : Prop :=
  ∃ s' l', serve malloc req s = some s' ∧ Rep s'.mem (st.step req.op).2 l' ∧
    req.observe s'.res = (st.step req.op).1.observe

/-- Nothing is observed of an item that was not asked for. -/
theorem observe_of_ne {res : MsgRes} (h : req.cmd ≠ reqGet ∨ res.result ≠ resOk) :
    req.observe res = (res.result, none) := by
  rw [MsgReq.observe, if_neg]
  rintro ⟨hg, hr⟩
  exact h.elim (fun hne => hne hg) fun hne => hne hr

theorem serve_refines (H : Rep s.mem st l) (hm : malloc.Succeeds)
    (hnul : (0 : UInt8) ∈ req.item.value.val) : Refines malloc req s st := by
  have hout := outcome_serve H malloc req
  unfold Refines
  generalize serve malloc req s = o at hout
  cases hout with
  | refused r hr hstep item hitem =>
    have hcode : r.code ≠ resOk := by cases r <;> simp [ResRes.code, resOk] at hr ⊢
    refine ⟨_, l, rfl, ?_, ?_⟩
    · rw [hstep]
      exact H.setLerrno _
    · rw [hstep, observe_of_ne (.inr hcode)]
      rfl
  | nomem hc habs hnone =>
    obtain ⟨a, ha⟩ := hm s.mem.heap
    rw [hnone] at ha
    cases ha
  | added hc habs a ha m hstep hrep =>
    refine ⟨_, _, rfl, by rw [hstep]; exact hrep, ?_⟩
    rw [hstep, observe_of_ne (.inl (by rw [hc]; decide))]
    rfl
  | got hc l₁ a nv l₂ hl hnv hstep =>
    refine ⟨_, l, rfl, by rw [hstep]; exact H.setLerrno 0, ?_⟩
    rw [hstep, MsgReq.observe, if_pos ⟨hc, rfl⟩]
    rfl
  | replaced hc l₁ a nv nv' l₂ hl hnv hown hnul hname hown' hval m hstep hrep =>
    refine ⟨_, _, rfl, by rw [hstep]; exact hrep, ?_⟩
    rw [hstep, observe_of_ne (.inl (by rw [hc]; decide))]
    rfl
  | removed hc l₁ a nv l₂ hl hnv m hstep hrep =>
    refine ⟨_, _, rfl, by rw [hstep]; exact hrep, ?_⟩
    rw [hstep, observe_of_ne (.inl (by rw [hc]; decide))]
    rfl
  | overrun hc l₁ a nv l₂ hl hnv hown hv ho => exact absurd hnul hv

end OneRequest

/-! ### Every sequence of requests -/

/-- The requests of a sequence of inputs, as the reference store sees them. -/
def ops (inputs : List (Malloc ItemLl × MsgReq)) : List Op := inputs.map fun i => i.2.op

theorem serveAll_run {inputs : List (Malloc ItemLl × MsgReq)}
    (hm : ∀ i ∈ inputs, i.1.Succeeds) (hnul : ∀ i ∈ inputs, (0 : UInt8) ∈ i.2.item.value.val) :
    ∀ {s : Server} {st : Store} {l : List (Addr × ItemNv)}, Rep s.mem st l →
      ∃ out s' l', serveAll inputs s = some (out, s') ∧ out.length = inputs.length ∧
        List.zipWith (fun i res => i.2.observe res) inputs out =
          ((st.run (ops inputs)).1.map Answer.observe) ∧
        Rep s'.mem (st.run (ops inputs)).2 l' := by
  induction inputs with
  | nil => intro s st l H; exact ⟨[], s, l, rfl, rfl, rfl, H⟩
  | cons i inputs ih =>
    intro s st l H
    obtain ⟨malloc, req⟩ := i
    obtain ⟨s₁, l₁, hserve, H₁, hobs⟩ :=
      serve_refines H (hm _ List.mem_cons_self) (hnul _ List.mem_cons_self)
    obtain ⟨out, s₂, l₂, hall, hlen, hrun, H₂⟩ :=
      ih (fun i hi => hm i (List.mem_cons_of_mem _ hi))
        (fun i hi => hnul i (List.mem_cons_of_mem _ hi)) H₁
    refine ⟨s₁.res :: out, s₂, l₂, ?_, ?_, ?_, H₂⟩
    · simp [serveAll, hserve, hall]
    · rw [List.length_cons, List.length_cons, hlen]
    · rw [List.zipWith_cons_cons, hrun, hobs]
      rfl

/-- **The server implements the store.** From `ll_init`, with every `malloc` succeeding and every
value and owner field holding a NUL, every request is served, the results and the items returned
by `GET` are those of the reference store, and the list holds its bindings. A binding that is
replaced or removed is so by a `SET` or a `DEL` of that name carrying the owner the name was added
with. -/
theorem serveAll_refines (m : Mem) (res : MsgRes) (inputs : List (Malloc ItemLl × MsgReq))
    (hm : ∀ i ∈ inputs, i.1.Succeeds)
    (hnul : ∀ i ∈ inputs, (0 : UInt8) ∈ i.2.item.value.val ∧ (0 : UInt8) ∈ i.2.item.own.val) :
    (∃ out s, serveAll inputs ⟨(llInit m).2, res⟩ = some (out, s) ∧
      out.length = inputs.length ∧
      List.zipWith (fun i r => i.2.observe r) inputs out =
        (Store.run ∅ (ops inputs)).1.map Answer.observe ∧
      ∀ n, stored s.mem n = (Store.after (ops inputs)).lookup n) ∧
    ∀ pre i post out s out' s' n b, inputs = pre ++ i :: post →
      serveAll pre ⟨(llInit m).2, res⟩ = some (out, s) →
      serveAll (pre ++ [i]) ⟨(llInit m).2, res⟩ = some (out', s') →
      stored s.mem n = some b → stored s'.mem n ≠ some b →
      (i.2.cmd = reqSet ∨ i.2.cmd = reqDel) ∧ i.2.item.nameStr = n ∧ i.2.item.ownStr = b.own ∧
        Store.AddedBy (ops pre) n b.own := by
  -- whatever is served of the inputs, the list then holds the bindings of the store
  have hstored : ∀ ins, (∀ i ∈ ins, i ∈ inputs) → ∃ out s,
      serveAll ins ⟨(llInit m).2, res⟩ = some (out, s) ∧ out.length = ins.length ∧
      List.zipWith (fun i r => i.2.observe r) ins out =
        (Store.run ∅ (ops ins)).1.map Answer.observe ∧
      ∀ n, stored s.mem n = (Store.after (ops ins)).lookup n := by
    intro ins hins
    obtain ⟨out, s, l, hall, hlen, hobs, H⟩ := serveAll_run (fun i hi => hm i (hins i hi))
      (fun i hi => (hnul i (hins i hi)).1) (s := ⟨(llInit m).2, res⟩) (Rep.init m)
    exact ⟨out, s, hall, hlen, hobs, H.stored_eq⟩
  refine ⟨hstored inputs fun _ hi => hi, ?_⟩
  rintro pre i post out s out' s' n b rfl hpre hnext hb hchg
  obtain ⟨_, s₁, h₁, -, -, hs₁⟩ := hstored pre fun _ hi => List.mem_append_left _ hi
  obtain ⟨_, s₂, h₂, -, -, hs₂⟩ := hstored (pre ++ [i]) fun j hj => by
    rcases List.mem_append.mp hj with hj | hj
    · exact List.mem_append_left _ hj
    · rw [List.mem_singleton.mp hj]; simp
  obtain ⟨-, rfl⟩ := Prod.mk.inj (Option.some.inj (hpre.symm.trans h₁))
  obtain ⟨-, rfl⟩ := Prod.mk.inj (Option.some.inj (hnext.symm.trans h₂))
  have hops : ops (pre ++ [i]) = ops pre ++ [i.2.op] := by simp [ops]
  rw [hs₁] at hb
  rw [hs₂, hops, Store.after_concat] at hchg
  obtain ⟨hcmd, hn, ho⟩ := Store.changed_by_owner hb hchg
  exact ⟨hcmd.imp (Cmd.ofCode_eq_set_iff _).mp (Cmd.ofCode_eq_del_iff _).mp, hn, ho,
    Store.exists_add_of_bound hb⟩

/-- An item whose fields are strings filled up with NULs, as `strncpy` leaves them. -/
def ItemNv.ofStrings (name value own : Bytes) : ItemNv :=
  ⟨.ofBytes _ name, .ofBytes _ value, .ofBytes _ own⟩

/-- One name (`a`) and two users (`u`, `v`): a second `ADD` and a `SET` by the other user fail, the
owner's `SET` and `DEL` do not, and the last `GET` finds nothing. -/
def sampleInputs : List (Malloc ItemLl × MsgReq) :=
  [⟨reqAdd, .ofStrings [97] [49] [117]⟩, ⟨reqAdd, .ofStrings [97] [50] [118]⟩,
    ⟨reqSet, .ofStrings [97] [50] [118]⟩, ⟨reqSet, .ofStrings [97] [51] [117]⟩,
    ⟨reqGet, .ofStrings [97] [] [118]⟩, ⟨7, .ofStrings [97] [] [118]⟩,
    ⟨reqDel, .ofStrings [97] [] [117]⟩, ⟨reqGet, .ofStrings [97] [] [117]⟩].map
    fun req => (Malloc.next ItemLl, req)

theorem serveAll_sampleInputs :
    ∃ out s, serveAll sampleInputs
        ⟨(llInit ⟨∅, ⟨0, none⟩, 0⟩).2, 0, .ofStrings [] [] []⟩ = some (out, s) ∧
      List.zipWith (fun i r => i.2.observe r) sampleInputs out =
        [(0, none), (2, none), (1, none), (0, none), (0, some ([97], ⟨[51], [117]⟩)), (5, none),
          (0, none), (3, none)] := by
  have hm : ∀ i ∈ sampleInputs, i.1.Succeeds := by
    intro i hi
    obtain ⟨req, -, rfl⟩ := List.mem_map.mp hi
    exact Malloc.next_succeeds ItemLl
  have hnul : ∀ i ∈ sampleInputs,
      (0 : UInt8) ∈ i.2.item.value.val ∧ (0 : UInt8) ∈ i.2.item.own.val := by decide
  obtain ⟨out, s, hall, -, hobs, -⟩ := (serveAll_refines _ _ sampleInputs hm hnul).1
  refine ⟨out, s, hall, hobs.trans ?_⟩
  decide

end NameValue

end Tlpiexer
