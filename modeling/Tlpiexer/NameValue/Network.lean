import Tlpiexer.Foundations.Monitor
import Tlpiexer.NameValue.Server

/-!
# The name-value service

The client of `src/imp/59-04-client.c` and the server of `src/imp/59-04-server.c`, with any number
of clients at a time. A client makes a request of its arguments, sends it, waits for the response
and prints it. The server takes one connection after the other.

## What can go wrong in between

A connection may fail at any call. A client that cannot connect or send, or whose request arrives
in part only, ends with an error and its request has no effect (`Pc.lost`). If the response does
not get through, the client ends with the same error, but its request did have its effect
(`Pc.cut`).

## Strings in fixed fields

The client copies its arguments with `strncpy`, and `get` and `del` leave the value field as it was
on the stack. With arguments shorter than their fields (`Args.Short`) there is a NUL in every field
that is read as a string, in the request, in the list and in the response, so that the `%s` of the
client stop inside their fields.

## Main results

* `serve_client` — a client's request, served
* `service_linearizable` — the clients see one atomic store
-/

namespace Tlpiexer

namespace NameValue

open CString LinkedHeap Transition

/-! ### The client -/

/-- What the client is started with: the name of its user, `argv[1]`, `argv[2]`, and `argv[3]` if
there is one. -/
structure Args where
  user : Bytes
  cmd : Bytes
  name : Bytes
  value : Option Bytes

/-- The command number, if the number of arguments is right for it. -/
def Args.code (a : Args) : Option UInt32 :=
  if strcmp a.cmd [97, 100, 100] = 0 then (if a.value = none then none else some reqAdd)
  else if strcmp a.cmd [100, 101, 108] = 0 then (if a.value = none then some reqDel else none)
  else if strcmp a.cmd [103, 101, 116] = 0 then (if a.value = none then some reqGet else none)
  else if strcmp a.cmd [115, 101, 116] = 0 then (if a.value = none then none else some reqSet)
  else none

/-- `strncpy(dst, src, sizeof(dst))`. -/
def fill {n : ℕ} (dst : CharArray n) (src : Bytes) : CharArray n :=
  .ofBytes n (strncpy dst.val src n)

/-- The request the client sends, where `req` is what the variable held before; nothing if it
shows its usage instead. -/
def Args.request (a : Args) (req : MsgReq) : Option MsgReq :=
  a.code.map fun code =>
    { cmd := code
      item :=
        { name := fill req.item.name a.name
          value := match a.value with
            | none => req.item.value
            | some value => fill req.item.value value
          own := fill req.item.own a.user } }

/-- `lerr_str`. -/
def lerrStr : List String :=
  ["Success", "Permision denied", "Item is early exist", "Item doesn't exist",
    "Internal server error", "Unknow command"]

/-- `lstr_err`. The bound is the size of the table in bytes; the model has no text for a number
behind the end of the table either. -/
def lstrErr (lerrno : ℕ) : Option String := if lerrno ≥ 48 then none else lerrStr[lerrno]?

/-- What is printed of an item. A field without a NUL runs on into the next one. -/
def ItemNv.shown (nv : ItemNv) : Option (Bytes × Binding) := do
  let name ← printed (nv.name.val ++ nv.value.val ++ nv.own.val)
  let value ← printed (nv.value.val ++ nv.own.val)
  let own ← printed nv.own.val
  some (name, ⟨value, own⟩)

/-- What a client prints: the text for the result, and the item if it asked for one. -/
structure Output where
  text : Option String
  item : Option (Option (Bytes × Binding))

/-- The end of the client's `main`. -/
def MsgReq.output (req : MsgReq) (res : MsgRes) : Output where
  text := lstrErr res.result
  item := if res.result = resOk ∧ req.cmd = reqGet then some res.item.shown else none

/-! ### Clients and the server -/

/-- Where a client is. -/
inductive Pc
  | idle
  /-- Before it is connected and has sent its request. -/
  | sending (op : Op) (req : MsgReq)
  /-- In its `read`. -/
  | waiting (op : Op) (req : MsgReq)
  /-- The response has been sent. -/
  | answered (req : MsgReq) (res : MsgRes)
  /-- In `exit_err`, and the request was never served. -/
  | lost (op : Op)
  /-- In `exit_err`, and the request was served. -/
  | cut (req : MsgReq) (res : MsgRes)

/-- The request a client stands for, as strings; what is in its value field does not matter to a
`get` or a `del`. -/
def Args.op (a : Args) (code : UInt32) : Op :=
  ⟨Cmd.ofCode code, a.name, a.value.getD [], a.user⟩

/-- The clients and the server. -/
structure Service (T : Type*) where
  server : Server
  pc : T → Pc

/-- What happens next. -/
inductive Event (T : Type*)
  /-- A client is started; `req` is what its variable holds. -/
  | call (t : T) (a : Args) (req : MsgReq)
  /-- It connects and sends its request, or fails to. -/
  | send (t : T) (ok : Bool)
  /-- The server cannot accept the connection, or reads a part of the request only. -/
  | drop (t : T)
  /-- The server serves the request, and writes the response completely or not. -/
  | serve (t : T) (malloc : Malloc ItemLl) (ok : Bool)
  /-- The client reads the response completely and prints it, or does not. -/
  | finish (t : T) (ok : Bool)

variable {T : Type*} [DecidableEq T]

/-- Client `t` moves to `c`. -/
def Service.goto (s : Service T) (t : T) (c : Pc) : Service T :=
  { s with pc := Function.update s.pc t c }

/-- One step of the system. -/
def Service.step (s : Service T) : Event T → Option (Service T)
  | .call t a req =>
    match s.pc t, a.code, a.request req with
    | .idle, some code, some req => some (s.goto t (.sending (a.op code) req))
    | _, _, _ => none
  | .send t ok =>
    match s.pc t with
    | .sending op req => some (s.goto t (if ok then .waiting op req else .lost op))
    | _ => none
  | .drop t =>
    match s.pc t with
    | .waiting op _ => some (s.goto t (.lost op))
    | _ => none
  | .serve t malloc ok =>
    match s.pc t with
    | .waiting _ req =>
      (serve malloc req s.server).map fun server =>
        { s.goto t (if ok then .answered req server.res else .cut req server.res) with
          server := server }
    | _ => none
  | .finish t ok =>
    match s.pc t with
    | .answered req res => some (s.goto t (if ok then .idle else .cut req res))
    | _ => none

/-- The server before its loop, and no client yet. -/
def service (T : Type*) [DecidableEq T] : Machine (Service T) (Event T) where
  init s := (∃ m, s.server.mem = (llInit m).2) ∧ ∀ t, s.pc t = .idle
  step := Service.step

/-! ### What the clients see -/

/-- What a step shows: a client that is started, or one that prints its output. -/
def Service.event (s : Service T) : Event T → Option (Monitor.Event T Op Output)
  | .call t a _ => a.code.map fun code => .call t (a.op code)
  | .finish t ok =>
    match s.pc t, ok with
    | .answered req res, true => some (.ret t (req.output res))
    | _, _ => none
  | _ => none

/-- The clients started and the outputs printed in a run. -/
def outputs (tr : List (Service T × Event T)) : List (Monitor.Event T Op Output) :=
  tr.filterMap fun p => p.1.event p.2

/-- How far a client's request has got. -/
def Pc.status : Pc → Monitor.Status Op Output
  | .idle => .idle
  | .sending op _ => .called op
  | .waiting op _ => .called op
  | .answered req res => .done (req.output res)
  | .lost op => .called op
  | .cut req res => .done (req.output res)

/-- The text for a result. -/
def ResRes.text : ResRes → String
  | .ok => "Success"
  | .perm => "Permision denied"
  | .exist => "Item is early exist"
  | .noext => "Item doesn't exist"
  | .except => "Internal server error"
  | .unkow => "Unknow command"

/-- What is printed of an answer of the store. -/
def Answer.output (a : Answer) : Output := ⟨some a.result.text, a.item.map some⟩

/-- The store as an atomic object. -/
def storeSpec : Monitor.Spec Store Op Output where
  init st := st = ∅
  effect st op out st' := st' = (st.step op).2 ∧ out = (st.step op).1.output

/-! ### Strings in fields -/

section Strings

variable {n : ℕ}

/-- A string that is shorter than the field is copied with a NUL behind it. -/
theorem cstr_fill (dst : CharArray n) {src : Bytes} (hnul : (0 : UInt8) ∉ src)
    (hlen : src.length < n) : cstr (fill dst src).val = src := by
  have hcopy : strncpy dst.val src n = src ++ List.replicate (n - src.length) 0 := by
    have hdrop : dst.val.drop (src ++ List.replicate (n - src.length) (0 : UInt8)).length = [] := by
      refine List.drop_eq_nil_of_le ?_
      rw [List.length_append, List.length_replicate, dst.property]
      omega
    rw [strncpy, List.take_of_length_le hlen.le, cstr_eq_self hnul, overlay, hdrop,
      List.append_nil]
  have hval : (fill dst src).val = src ++ List.replicate (n - src.length) 0 := by
    rw [fill, hcopy]
    refine CharArray.val_ofBytes ?_
    rw [List.length_append, List.length_replicate]
    omega
  obtain ⟨k, hk⟩ : ∃ k, n - src.length = k + 1 := ⟨n - src.length - 1, by omega⟩
  rw [hval, hk, List.replicate_succ]
  exact cstr_append_zero hnul _

/-- An item whose strings are shorter than their fields is printed field by field. -/
theorem ItemNv.shown_eq {nv : ItemNv} (hname : nv.nameStr.length < llNameLen)
    (hvalue : nv.valueStr.length < llValueLen) (hown : nv.ownStr.length < llUsrnameLen) :
    nv.shown = some (nv.nameStr, nv.binding) := by
  have hname' := printed_append (zero_mem_of_length_lt hname) (nv.value.val ++ nv.own.val)
  have hvalue' := printed_append (zero_mem_of_length_lt hvalue) nv.own.val
  have hown' : printed nv.own.val = some nv.ownStr := if_pos (zero_mem_of_length_lt hown)
  rw [← List.append_assoc] at hname'
  rw [ItemNv.shown, hname', hvalue', hown']
  rfl

end Strings

/-! ### Requests of clients -/

/-- The arguments are strings, and each is shorter than the field it is copied to. -/
structure Args.Short (a : Args) : Prop where
  user : (0 : UInt8) ∉ a.user ∧ a.user.length < llUsrnameLen
  name : (0 : UInt8) ∉ a.name ∧ a.name.length < llNameLen
  value : ∀ v, a.value = some v → (0 : UInt8) ∉ v ∧ v.length < llValueLen

/-- The strings of a request are shorter than the fields. -/
def Op.Short (op : Op) : Prop :=
  op.name.length < llNameLen ∧ op.value.length < llValueLen ∧ op.own.length < llUsrnameLen

/-- All strings in the store are shorter than the fields. -/
def ShortStore (st : Store) : Prop :=
  ∀ n b, st.lookup n = some b →
    n.length < llNameLen ∧ b.value.length < llValueLen ∧ b.own.length < llUsrnameLen

/-- What a client sends stands for what it was started with. -/
structure Stands (req : MsgReq) (op : Op) : Prop where
  step : ∀ st : Store, st.step req.op = st.step op
  get : op.cmd = .get ↔ req.cmd = reqGet
  value : req.cmd = reqAdd ∨ req.cmd = reqSet → (0 : UInt8) ∈ req.item.value.val
  short : op.Short

section Requests

variable {a : Args} {code : UInt32} {req req₀ : MsgReq}

/-- The commands a client sends, and which of them have a value. -/
theorem code_cases (h : a.code = some code) :
    ((code = reqAdd ∨ code = reqSet) ∧ ∃ v, a.value = some v) ∨ code = reqDel ∨ code = reqGet := by
  rw [Args.code] at h
  cases hv : a.value with
  | none =>
    simp only [hv, ↓reduceIte] at h
    split_ifs at h
    · exact .inr (.inl (Option.some.inj h).symm)
    · exact .inr (.inr (Option.some.inj h).symm)
  | some v =>
    simp only [hv, reduceCtorEq, ↓reduceIte] at h
    split_ifs at h
    · exact .inl ⟨.inl (Option.some.inj h).symm, v, rfl⟩
    · exact .inl ⟨.inr (Option.some.inj h).symm, v, rfl⟩

/-- The value is looked at by `add` and `set` only. -/
theorem Store.step_value (st : Store) {op : Op} (h : op.cmd = .get ∨ op.cmd = .del) (v : Bytes) :
    st.step { op with value := v } = st.step op := by
  cases hb : st.lookup op.name <;> rcases h with h | h <;> simp [Store.step, h, hb]

theorem stands_of_request (hshort : a.Short) (hcode : a.code = some code)
    (h : a.request req₀ = some req) : Stands req (a.op code) := by
  rw [Args.request, hcode, Option.map_some] at h
  obtain rfl := Option.some.inj h
  have hname := cstr_fill req₀.item.name hshort.name.1 hshort.name.2
  have hown := cstr_fill req₀.item.own hshort.user.1 hshort.user.2
  have hget : Cmd.ofCode code = .get ↔ code = reqGet := by
    rcases code_cases hcode with ⟨rfl | rfl, -⟩ | rfl | rfl <;> decide
  cases hv : a.value with
  | some v =>
    obtain ⟨hnul, hlen⟩ := hshort.value v hv
    have hvalue := cstr_fill req₀.item.value hnul hlen
    refine ⟨fun st => ?_, hget, fun _ => ?_, hshort.name.2, ?_, hshort.user.2⟩
    · simp [MsgReq.op, Args.op, ItemNv.nameStr, ItemNv.valueStr, ItemNv.ownStr, hname, hown, hvalue,
        hv]
    · exact zero_mem_of_length_lt (by rw [hvalue]; exact hlen)
    · simpa [Args.op, hv] using hlen
  | none =>
    have hcmd : code = reqDel ∨ code = reqGet := by
      rcases code_cases hcode with ⟨-, v, hv'⟩ | h
      · cases hv.symm.trans hv'
      · exact h
    refine ⟨fun st => ?_, hget, fun h => ?_, hshort.name.2, by simp [Args.op, hv], hshort.user.2⟩
    · have hop : (a.op code).cmd = .get ∨ (a.op code).cmd = .del := by
        rcases hcmd with rfl | rfl
        · exact .inr rfl
        · exact .inl rfl
      rw [← Store.step_value st hop (cstr req₀.item.value.val)]
      simp [MsgReq.op, Args.op, ItemNv.nameStr, ItemNv.valueStr, ItemNv.ownStr, hname, hown]
    · rcases hcmd with rfl | rfl <;> rcases h with h | h <;> cases h

end Requests

/-! ### Serving a client -/

section Serve

variable {s : Server} {st : Store} {l : List (Addr × ItemNv)} {malloc : Malloc ItemLl}
  {req : MsgReq} {op : Op}

theorem shortStore_step (hst : ShortStore st) (hop : op.Short) : ShortStore (st.step op).2 := by
  intro n b hb
  cases h : st.lookup n with
  | none =>
    obtain ⟨-, rfl, rfl⟩ := Store.add_of_lookup_step h hb
    exact hop
  | some b₀ =>
    obtain ⟨hn, hv, ho⟩ := hst n b₀ h
    rcases Store.lookup_step_of_bound op h with hsame | ⟨-, -, ⟨-, hset⟩ | ⟨-, hdel⟩⟩
    · cases hsame.symm.trans hb
      exact ⟨hn, hv, ho⟩
    · cases hset.symm.trans hb
      exact ⟨hn, hop.2.1, ho⟩
    · cases hdel.symm.trans hb

/-- What is in the value field matters to `add` and `set` only. -/
theorem serve_value (h : req.cmd ≠ reqAdd ∧ req.cmd ≠ reqSet) (v : CharArray llValueLen) :
    serve malloc { req with item := { req.item with value := v } } s = serve malloc req s := by
  simp only [serve, dispatch, h.1, h.2, ↓reduceIte]
  rfl

/-- A request with a NUL in its value field, if this is looked at, refines a step of the store. -/
theorem refines_of_stands (H : Rep s.mem st l) (hm : malloc.Succeeds) (h : Stands req op) :
    Refines malloc req s st := by
  by_cases hcmd : req.cmd = reqAdd ∨ req.cmd = reqSet
  · exact serve_refines H hm (h.value hcmd)
  · -- the value may be anything, so it may as well be the empty string
    have hne := not_or.mp hcmd
    have hop : st.step { req.op with value := [] } = st.step req.op := by
      have hop : req.op.cmd = Cmd.ofCode req.cmd := rfl
      simp only [Cmd.ofCode, hne.1, hne.2, ↓reduceIte] at hop
      split_ifs at hop
      · exact Store.step_value st (.inl hop) []
      · exact Store.step_value st (.inr hop) []
      · simp [Store.step, hop]
    let req' : MsgReq := { req with item := { req.item with value := .ofBytes llValueLen [] } }
    have hnul : (0 : UInt8) ∈ req'.item.value.val :=
      show (0 : UInt8) ∈ (CharArray.ofBytes llValueLen []).val by decide
    obtain ⟨s', l', hserve, hrep, hobs⟩ := serve_refines H hm hnul
    rw [show req'.op = { req.op with value := [] } from rfl, hop] at hrep hobs
    exact ⟨s', l', (serve_value hne _).symm.trans hserve, hrep, hobs⟩

theorem lstrErr_code (r : ResRes) : lstrErr r.code = some r.text := by
  cases r <;> rfl

/-- An item comes with the answer to a successful `get`, and is one of the store. -/
theorem item_of_step (st : Store) (op : Op) :
    if (st.step op).1.result.code = resOk ∧ op.cmd = .get then
      ∃ b, st.lookup op.name = some b ∧ (st.step op).1.item = some (op.name, b)
    else (st.step op).1.item = none := by
  cases hb : st.lookup op.name with
  | none => cases hc : op.cmd <;> simp [Store.step, hb, hc, ResRes.code, resOk]
  | some b =>
    by_cases ho : b.own = op.own <;> cases hc : op.cmd <;>
      simp [Store.step, hb, hc, ho, ResRes.code, resOk]

/-- Serving a client's request makes the step of the store that the client asks for, and the
response is printed as the answer of the store is. -/
theorem serve_client (H : Rep s.mem st l) (hst : ShortStore st) (hm : malloc.Succeeds)
    (h : Stands req op) :
    ∃ s' l', serve malloc req s = some s' ∧ Rep s'.mem (st.step op).2 l' ∧
      ShortStore (st.step op).2 ∧ req.output s'.res = (st.step op).1.output := by
  obtain ⟨s', l', hserve, hrep, hobs⟩ := refines_of_stands H hm h
  rw [h.step] at hrep hobs
  obtain ⟨hresult, hitem⟩ := Prod.ext_iff.mp hobs
  refine ⟨s', l', hserve, hrep, shortStore_step hst h.short, ?_⟩
  replace hresult : s'.res.result = (st.step op).1.result.code := hresult
  have hstep := item_of_step st op
  rw [MsgReq.output, Answer.output, Output.mk.injEq, hresult]
  refine ⟨lstrErr_code _, ?_⟩
  by_cases hget : (st.step op).1.result.code = resOk ∧ op.cmd = .get
  · rw [if_pos hget] at hstep
    obtain ⟨b, hb, hanswer⟩ := hstep
    have hcmd : req.cmd = reqGet := h.get.mp hget.2
    simp only [MsgReq.observe, Answer.observe, hresult, hget.1, hcmd, and_self, ↓reduceIte,
      hanswer, Option.some.injEq, Prod.mk.injEq] at hitem
    obtain ⟨hname, hbind⟩ := hitem
    obtain ⟨hn, hv, ho⟩ := hst _ _ hb
    have hshown : s'.res.item.shown = some (op.name, b) := by
      rw [ItemNv.shown_eq (by rw [hname]; exact hn)
        (by rw [← hbind] at hv; exact hv) (by rw [← hbind] at ho; exact ho), hname, hbind]
    rw [if_pos ⟨hget.1, hcmd⟩, hshown, hanswer]
    rfl
  · rw [if_neg hget] at hstep
    rw [if_neg fun hc => hget ⟨hc.1, h.get.mpr hc.2⟩, hstep]
    rfl

end Serve

/-! ### Whole runs -/

/-- Arguments shorter than their fields, and memory for the new item. -/
def Event.Ok : Event T → Prop
  | .call _ a _ => a.Short
  | .serve _ malloc _ => malloc.Succeeds
  | _ => True

/-- How far each client has got. -/
def Service.status (s : Service T) : T → Monitor.Status Op Output := Pc.status ∘ s.pc

/-- The list represents the store, and each request that has not been served stands for what its
client was started with. -/
structure Sim (s : Service T) (st : Store) : Prop where
  rep : ∃ l, Rep s.server.mem st l
  short : ShortStore st
  sending : ∀ t op req, s.pc t = .sending op req → Stands req op
  waiting : ∀ t op req, s.pc t = .waiting op req → Stands req op

section Run

variable {s s' : Service T} {st : Store} {t : T} {hist : List (Monitor.Event T Op Output)}

theorem Service.status_goto (s : Service T) (t : T) (c : Pc) :
    (s.goto t c).status = Function.update s.status t c.status :=
  Function.comp_update ..

/-- A client that moves on without the server. -/
theorem Sim.goto (h : Sim s st) (t : T) {c : Pc}
    (hsend : ∀ op req, c = .sending op req → Stands req op)
    (hwait : ∀ op req, c = .waiting op req → Stands req op) : Sim (s.goto t c) st := by
  refine ⟨h.rep, h.short, fun u op req hu => ?_, fun u op req hu => ?_⟩ <;>
    rcases eq_or_ne u t with rfl | hne
  · exact hsend op req ((Function.update_self ..).symm.trans hu)
  · exact h.sending u op req ((Function.update_of_ne hne ..).symm.trans hu)
  · exact hwait op req ((Function.update_self ..).symm.trans hu)
  · exact h.waiting u op req ((Function.update_of_ne hne ..).symm.trans hu)

/-- A client that moves on without the server, and unseen. -/
theorem run_goto {c c' : Pc} (hrun : storeSpec.Run hist s.status st) (hc : s.pc t = c)
    (hsame : c'.status = c.status) : storeSpec.Run hist (s.goto t c').status st := by
  rw [Service.status_goto, hsame, show c.status = s.status t by rw [← hc]; rfl,
    Function.update_eq_self]
  exact hrun

/-- One step: the abstract effect takes place when the server serves a request. -/
theorem Sim.step {a : Event T} (h : Sim s st) (hok : a.Ok) (hstep : s.step a = some s')
    (hrun : storeSpec.Run hist s.status st) :
    ∃ st', storeSpec.Run (hist ++ (s.event a).toList) s'.status st' ∧ Sim s' st' := by
  cases a with
  | call t a req₀ =>
    simp only [Service.step] at hstep
    split at hstep
    case h_2 => cases hstep
    case h_1 code req hpc hcode hreq =>
      cases hstep
      have hstands := stands_of_request hok hcode hreq
      refine ⟨st, ?_, h.goto t (fun op req heq => ?_) (fun _ _ heq => by cases heq)⟩
      · rw [Service.status_goto]
        simp only [Service.event, hcode, Option.map_some, Option.toList_some]
        exact hrun.call _ (by simp [Service.status, hpc, Pc.status])
      · cases heq
        exact hstands
  | send t ok =>
    simp only [Service.step] at hstep
    split at hstep
    case h_2 => cases hstep
    case h_1 op req hpc =>
      cases hstep
      simp only [Service.event, Option.toList_none, List.append_nil]
      have hstands := h.sending t op req hpc
      cases ok with
      | false => exact ⟨st, run_goto hrun hpc rfl, h.goto t nofun nofun⟩
      | true =>
        refine ⟨st, run_goto hrun hpc rfl, h.goto t nofun fun op req heq => ?_⟩
        cases heq
        exact hstands
  | drop t =>
    simp only [Service.step] at hstep
    split at hstep
    case h_2 => cases hstep
    case h_1 op req hpc =>
      cases hstep
      simp only [Service.event, Option.toList_none, List.append_nil]
      exact ⟨st, run_goto hrun hpc rfl, h.goto t nofun nofun⟩
  | serve t malloc ok =>
    simp only [Service.step] at hstep
    split at hstep
    case h_2 => cases hstep
    case h_1 op req hpc =>
      obtain ⟨l, hrep⟩ := h.rep
      obtain ⟨server, l', hserve, hrep', hshort, hout⟩ :=
        serve_client hrep h.short hok (h.waiting t op req hpc)
      rw [hserve] at hstep
      cases hstep
      simp only [Service.event, Option.toList_none, List.append_nil]
      have hst : s.status t = .called op := by simp [Service.status, hpc, Pc.status]
      have heffect : storeSpec.effect st op (req.output server.res) (st.step op).2 := ⟨rfl, hout⟩
      have hmoved : Sim (s.goto t (if ok then .answered req server.res else .cut req server.res))
          st := by
        cases ok <;> exact h.goto t nofun nofun
      have hstatus : (s.goto t (if ok then .answered req server.res
          else .cut req server.res)).status =
            Function.update s.status t (.done (req.output server.res)) := by
        rw [Service.status_goto]
        cases ok <;> rfl
      refine ⟨(st.step op).2, ?_, ⟨l', hrep'⟩, hshort, hmoved.sending, hmoved.waiting⟩
      exact hstatus ▸ hrun.effect hst heffect
  | finish t ok =>
    simp only [Service.step] at hstep
    split at hstep
    case h_2 => cases hstep
    case h_1 req res hpc =>
      cases hstep
      cases ok with
      | false =>
        simp only [Service.event, hpc, Option.toList_none, List.append_nil]
        exact ⟨st, run_goto hrun hpc rfl, h.goto t nofun nofun⟩
      | true =>
        refine ⟨st, ?_, h.goto t nofun nofun⟩
        simp only [Service.event, hpc, Option.toList_some, ↓reduceIte, Service.status_goto]
        exact hrun.ret (by simp [Service.status, hpc, Pc.status])

omit [DecidableEq T] in
theorem outputs_concat (tr : List (Service T × Event T)) (s : Service T) (a : Event T) :
    outputs (tr ++ [(s, a)]) = outputs tr ++ (s.event a).toList := by
  cases h : s.event a <;> simp [outputs, h]

theorem Sim.init (h : (service T).init s) : storeSpec.Run [] s.status ∅ ∧ Sim s ∅ := by
  obtain ⟨⟨m, hm⟩, hpc⟩ := h
  have hst : s.status = fun _ => .idle := by
    funext t
    simp [Service.status, hpc t, Pc.status]
  refine ⟨by rw [hst]; exact .start rfl, ⟨[], by rw [hm]; exact Rep.init m⟩, ?_, ?_, ?_⟩
  · intro n b hb
    simp at hb
  · intro t op req ht
    cases (hpc t).symm.trans ht
  · intro t op req ht
    cases (hpc t).symm.trans ht

theorem Sim.run {tr : List (Service T × Event T)} {s₀ : Service T} (h₀ : (service T).init s₀)
    (hrun : (service T).Run s₀ tr s) (hok : ∀ p ∈ tr, p.2.Ok) :
    ∃ st, storeSpec.Run (outputs tr) s.status st ∧ Sim s st := by
  induction hrun with
  | nil => exact ⟨∅, Sim.init h₀⟩
  | snoc hrun hstep ih =>
    obtain ⟨st, hhist, hsim⟩ := ih fun p hp => hok p (List.mem_append_left _ hp)
    rw [outputs_concat]
    exact hsim.step (hok _ (List.mem_append_right _ (List.mem_singleton_self _))) hstep hhist

/-- However the clients are started, however their steps are interleaved with those of the server,
and whichever connections fail: each client that prints something prints what it would have
printed had it been alone with an atomic store at one instant of its time, in which the store
changed as it does for its request. The server holds just this store, and can serve whoever
waits. -/
theorem service_linearizable {tr : List (Service T × Event T)} {s₀ : Service T}
    (h₀ : (service T).init s₀) (hrun : (service T).Run s₀ tr s) (hok : ∀ p ∈ tr, p.2.Ok) :
    ∃ st, storeSpec.Run (outputs tr) s.status st ∧ (∀ n, stored s.server.mem n = st.lookup n) ∧
      ∀ t op req malloc, s.pc t = .waiting op req → malloc.Succeeds →
        serve malloc req s.server ≠ none := by
  obtain ⟨st, hhist, hsim⟩ := Sim.run h₀ hrun hok
  obtain ⟨l, hrep⟩ := hsim.rep
  refine ⟨st, hhist, hrep.stored_eq, fun t op req malloc hpc hm => ?_⟩
  obtain ⟨s', -, hserve, -⟩ := serve_client hrep hsim.short hm (hsim.waiting t op req hpc)
  rw [hserve]
  exact Option.some_ne_none s'

end Run

/-- Two clients and a server before its loop. -/
def startService : Service Bool :=
  ⟨⟨(llInit ⟨∅, ⟨0, none⟩, 0⟩).2, 0, .ofStrings [] [] []⟩, fun _ => .idle⟩

/-- One client is started to add a name, the other one to get it. The second is served after the
first, whose response does not get through. -/
def addAndGet : List (Event Bool) :=
  [.call false ⟨[117], [97, 100, 100], [97], some [49]⟩ ⟨0, .ofStrings [] [] []⟩,
    .call true ⟨[118], [103, 101, 116], [97], none⟩ ⟨0, .ofStrings [] (List.replicate 32 255) []⟩,
    .send true true, .send false true, .serve false (.next _) false, .serve true (.next _) true,
    .finish true true]

theorem service_linearizable_addAndGet :
    ∃ tr s st, (service Bool).init startService ∧ (service Bool).Run startService tr s ∧
      outputs tr = [.call false ⟨.add, [97], [49], [117]⟩, .call true ⟨.get, [97], [], [118]⟩,
        .ret true ⟨some "Success", some (some ([97], ⟨[49], [117]⟩))⟩] ∧
      storeSpec.Run (outputs tr) s.status st := by
  obtain ⟨s, hexec⟩ : ∃ s, (service Bool).exec startService addAndGet = some s := ⟨_, rfl⟩
  have hrun := Machine.run_of_exec hexec
  have h₀ : (service Bool).init startService := ⟨⟨_, rfl⟩, fun _ => rfl⟩
  have hok : ∀ e ∈ addAndGet, e.Ok := by
    intro e he
    simp only [addAndGet, List.mem_cons, List.not_mem_nil, or_false] at he
    rcases he with rfl | rfl | rfl | rfl | rfl | rfl | rfl
    · exact ⟨by decide, by decide, by decide⟩
    · exact ⟨by decide, by decide, by decide⟩
    · trivial
    · trivial
    · exact Malloc.next_succeeds _
    · exact Malloc.next_succeeds _
    · trivial
  obtain ⟨st, hhist, -⟩ := service_linearizable h₀ hrun fun p hp =>
    hok p.2 (by rw [← Machine.map_snd_trace hexec]; exact List.mem_map_of_mem hp)
  exact ⟨_, s, st, h₀, hrun, rfl, hhist⟩

end NameValue

end Tlpiexer
