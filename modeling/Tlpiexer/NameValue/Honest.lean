import Tlpiexer.NameValue.Server

/-!
# What `RES_OK` says

The server drops the return value of every list operation and infers success from `lerrno` being
zero. Here the result code of a response is compared with what the request did to the list.

## Taking effect

`Effect req res l l'` is the effect a request asks for, as a relation between the items stored
before and after: `ADD` binds its name, `SET` replaces the value of the item with its name and its
owner, `DEL` removes the item, `GET` fills the response. A request is answered honestly
(`Honest`) if it is answered at all, with `RES_OK` exactly when it took effect, and leaves the list
alone otherwise.

## The two failing cases

A failed `malloc` in `ll_add` returns before `lerrno` is set, so nothing is bound and the response
says `RES_OK`. A `SET` by the owner whose `value` and `own` hold no NUL makes `strcpy` read past
the request. Every other request is honest (`honest_iff`).

## Main results

* `NameValue.served_honestly_iff` — when all requests of a sequence are answered honestly
* `NameValue.not_served_honestly` — not all sequences are
-/

namespace Tlpiexer

namespace NameValue

open CString LinkedHeap

/-! ### Effects -/

/-- The stored items, in the order of the list. -/
def items (m : Mem) : Option (List ItemNv) := walk m.heap (fuel m.heap) m.list.first

/-- What a request asks for, on the items stored before and after. -/
def Effect (req : MsgReq) (res : MsgRes) (l l' : List ItemNv) : Prop :=
  match Cmd.ofCode req.cmd with
  | .add => (∀ nv ∈ l, nv.nameStr ≠ req.item.nameStr) ∧ l' = req.item :: l
  | .get => l' = l ∧ ∃ nv ∈ l, nv.nameStr = req.item.nameStr ∧ res.item = nv
  | .set => ∃ l₁ nv nv' l₂, l = l₁ ++ nv :: l₂ ∧ l' = l₁ ++ nv' :: l₂ ∧
      nv.nameStr = req.item.nameStr ∧ nv.ownStr = req.item.ownStr ∧
      nv'.name = nv.name ∧ nv'.own = nv.own ∧ nv'.valueStr = req.item.valueStr
  | .del => ∃ l₁ nv l₂, l = l₁ ++ nv :: l₂ ∧ l' = l₁ ++ l₂ ∧ nv.nameStr = req.item.nameStr
  | .unknown => False

/-- The request took effect between the two states. -/
def TookEffect (req : MsgReq) (s s' : Server) : Prop :=
  ∃ l l', items s.mem = some l ∧ items s'.mem = some l' ∧ Effect req s'.res l l'

/-- The request is answered; with `RES_OK` if and only if it took effect; and if not, the list is
as it was. -/
def Honest (malloc : Malloc ItemLl) (req : MsgReq) (s : Server) : Prop :=
  ∃ s', serve malloc req s = some s' ∧ (s'.res.result = resOk ↔ TookEffect req s s') ∧
    (s'.res.result ≠ resOk → s'.mem.heap = s.mem.heap ∧ s'.mem.list = s.mem.list)

/-- `ADD` of a new name for which there is no memory. -/
def NoMemory (malloc : Malloc ItemLl) (req : MsgReq) (m : Mem) : Prop :=
  req.cmd = reqAdd ∧ stored m req.item.nameStr = none ∧ malloc.alloc m.heap = none

/-- `SET` by the owner of a name, with no NUL in `value` nor in `own`. -/
def Unterminated (req : MsgReq) (m : Mem) : Prop :=
  req.cmd = reqSet ∧ (∃ b, stored m req.item.nameStr = some b ∧ b.own = req.item.ownStr) ∧
    (0 : UInt8) ∉ req.item.value.val ∧ (0 : UInt8) ∉ req.item.own.val

section OneRequest

variable {m : Mem} {s s' : Server} {st : Store} {l l' : List (Addr × ItemNv)}
  {malloc : Malloc ItemLl} {req : MsgReq}

/-! ### Reading the stored items -/

theorem Rep.items_eq (H : Rep m st l) : items m = some (l.map Prod.snd) := H.list.walk

/-- A stored item is bound under its name. -/
theorem Rep.lookup_of_mem (H : Rep m st l) {nv : ItemNv} (h : nv ∈ l.map Prod.snd) :
    st.lookup nv.nameStr = some nv.binding := by
  obtain ⟨e, he, rfl⟩ := List.mem_map.mp h
  exact (H.bound _ _).mpr ⟨e, he, rfl, rfl⟩

/-- A name is absent from the nodes if and only if a walk finds nothing under it. -/
theorem Rep.absent_iff (H : Rep m st l) (item : ItemNv) :
    Absent item l ↔ stored m item.nameStr = none := by
  rw [H.stored_eq]
  constructor
  · intro habs
    cases hb : st.lookup item.nameStr with
    | none => rfl
    | some b =>
      obtain ⟨e, he, hn, -⟩ := (H.bound _ _).mp hb
      exact absurd hn (habs e he)
  · intro hnone e he hn
    rw [← hn, H.lookup_of_mem (List.mem_map_of_mem he)] at hnone
    cases hnone

/-! ### The honest cases -/

/-- A request that succeeds and has the effect it asks for. -/
theorem honest_of_ok (H : Rep s.mem st l) {item : ItemNv} {st' : Store}
    (hserve : serve malloc req s = some ⟨m, resOk, item⟩) (hrep : Rep m st' l')
    (heff : Effect req ⟨resOk, item⟩ (l.map Prod.snd) (l'.map Prod.snd)) :
    Honest malloc req s := by
  refine ⟨_, hserve, iff_of_true rfl ?_, fun hne => absurd rfl hne⟩
  exact ⟨_, _, H.items_eq, hrep.items_eq, heff⟩

/-- A request the store refuses has no effect to take. -/
theorem not_effect_of_refused (H : Rep s.mem st l) {r : ResRes} (hr : r ≠ .ok)
    (hstep : st.step req.op = (⟨r, none⟩, st)) (res : MsgRes) :
    ¬ Effect req res (l.map Prod.snd) (l.map Prod.snd) := by
  have hop : req.op.cmd = Cmd.ofCode req.cmd := rfl
  intro heff
  cases hcmd : Cmd.ofCode req.cmd with
  | add =>
    simp only [Effect, hcmd] at heff
    exact absurd (congrArg List.length heff.2) (by simp)
  | get =>
    simp only [Effect, hcmd] at heff
    obtain ⟨-, nv, hmem, hn, -⟩ := heff
    have hname : req.op.name = nv.nameStr := hn.symm
    have hlook : st.lookup req.op.name = some nv.binding := hname ▸ H.lookup_of_mem hmem
    rw [hcmd] at hop
    simp only [Store.step, hop, hlook, Prod.mk.injEq, Answer.mk.injEq] at hstep
    exact hr hstep.1.1.symm
  | set =>
    simp only [Effect, hcmd] at heff
    obtain ⟨l₁, nv, nv', l₂, hl, -, hn, ho, -⟩ := heff
    have hmem : nv ∈ l.map Prod.snd := by rw [hl]; simp
    have hname : req.op.name = nv.nameStr := hn.symm
    have hlook : st.lookup req.op.name = some nv.binding := hname ▸ H.lookup_of_mem hmem
    have hown : ¬ nv.binding.own ≠ req.op.own := not_not_intro ho
    rw [hcmd] at hop
    simp only [Store.step, hop, hlook, if_neg hown, Prod.mk.injEq, Answer.mk.injEq] at hstep
    exact hr hstep.1.1.symm
  | del =>
    simp only [Effect, hcmd] at heff
    obtain ⟨l₁, nv, l₂, hl, hl', -⟩ := heff
    rw [hl] at hl'
    exact absurd (congrArg List.length hl') (by simp)
  | unknown =>
    simp only [Effect, hcmd] at heff

theorem honest_of_refused (H : Rep s.mem st l) {r : ResRes} (hr : r ≠ .ok)
    (hstep : st.step req.op = (⟨r, none⟩, st)) {item : ItemNv}
    (hserve : serve malloc req s = some ⟨{ s.mem with lerrno := r.code }, r.code, item⟩) :
    Honest malloc req s := by
  have hcode : r.code ≠ resOk := by cases r <;> simp [ResRes.code, resOk] at hr ⊢
  refine ⟨_, hserve, iff_of_false hcode ?_, fun _ => ⟨rfl, rfl⟩⟩
  rintro ⟨l₀, l₁, hl₀, hl₁, heff⟩
  obtain rfl := Option.some.inj (H.items_eq.symm.trans hl₀)
  obtain rfl := Option.some.inj ((H.setLerrno _).items_eq.symm.trans hl₁)
  exact not_effect_of_refused H hr hstep _ heff

/-! ### The failing cases -/

/-- Without memory `ADD` says `RES_OK` and binds nothing. -/
theorem not_honest_of_noMemory (H : Rep s.mem st l) (h : NoMemory malloc req s.mem) :
    ¬ Honest malloc req s := by
  obtain ⟨hc, hnone, hm⟩ := h
  have hserve := serve_add_nomem H hc ((H.absent_iff req.item).mpr hnone) hm
  rintro ⟨s', hs', hiff, -⟩
  obtain rfl := Option.some.inj (hserve.symm.trans hs')
  obtain ⟨l₀, l₁, hl₀, hl₁, heff⟩ := hiff.mp rfl
  obtain rfl := Option.some.inj (H.items_eq.symm.trans hl₀)
  obtain rfl := Option.some.inj ((H.setLerrno 0).items_eq.symm.trans hl₁)
  have hcmd : Cmd.ofCode req.cmd = .add := by rw [hc]; rfl
  simp only [Effect, hcmd] at heff
  exact absurd (congrArg List.length heff.2) (by simp)

/-- Without a NUL the copy of `SET` does not end in the request. -/
theorem not_honest_of_unterminated (H : Rep s.mem st l) (h : Unterminated req s.mem) :
    ¬ Honest malloc req s := by
  obtain ⟨hc, ⟨b, hb, hown⟩, hv, ho⟩ := h
  rcases H.cases req.item with ⟨-, hnone⟩ | ⟨l₁, a, nv, l₂, rfl, hnv, h₁, -, hsome⟩
  · rw [H.stored_eq, hnone] at hb
    cases hb
  · rw [H.stored_eq, hsome] at hb
    obtain rfl := Option.some.inj hb
    rintro ⟨s', hs', -⟩
    rw [serve_set_overrun H hc hnv h₁ hown hv ho] at hs'
    cases hs'

/-- **One request** is answered honestly unless it is one of the two cases. -/
theorem honest_iff (H : Rep s.mem st l) :
    Honest malloc req s ↔ ¬ NoMemory malloc req s.mem ∧ ¬ Unterminated req s.mem := by
  constructor
  · intro h
    exact ⟨fun hm => not_honest_of_noMemory H hm h, fun hu => not_honest_of_unterminated H hu h⟩
  · rintro ⟨hmem, hterm⟩
    have hout := outcome_serve H malloc req
    generalize ho : serve malloc req s = o at hout
    cases hout with
    | refused r hr hstep item hitem => exact honest_of_refused H hr hstep ho
    | nomem hc habs hm => exact absurd ⟨hc, (H.absent_iff _).mp habs, hm⟩ hmem
    | added hc habs a hm m hstep hrep =>
      refine honest_of_ok H ho hrep ?_
      have hcmd : Cmd.ofCode req.cmd = .add := by rw [hc]; rfl
      simp only [Effect, hcmd]
      refine ⟨fun nv hnv => ?_, rfl⟩
      obtain ⟨e, he, rfl⟩ := List.mem_map.mp hnv
      exact habs e he
    | got hc l₁ a nv l₂ hl hnv hstep =>
      refine honest_of_ok H ho (H.setLerrno 0) ?_
      have hcmd : Cmd.ofCode req.cmd = .get := by rw [hc]; rfl
      simp only [Effect, hcmd, true_and]
      exact ⟨nv, by rw [hl]; simp, hnv, rfl⟩
    | replaced hc l₁ a nv nv' l₂ hl hnv hown hnul hname hown' hval m hstep hrep =>
      refine honest_of_ok H ho hrep ?_
      have hcmd : Cmd.ofCode req.cmd = .set := by rw [hc]; rfl
      simp only [Effect, hcmd]
      exact ⟨l₁.map Prod.snd, nv, nv', l₂.map Prod.snd, by rw [hl]; simp, by simp, hnv, hown,
        hname, hown', hval⟩
    | removed hc l₁ a nv l₂ hl hnv m hstep hrep =>
      refine honest_of_ok H ho hrep ?_
      have hcmd : Cmd.ofCode req.cmd = .del := by rw [hc]; rfl
      simp only [Effect, hcmd]
      exact ⟨l₁.map Prod.snd, nv, l₂.map Prod.snd, by rw [hl]; simp, by simp, hnv⟩
    | overrun hc l₁ a nv l₂ hl hnv hown hv hv' =>
      have hmemb : nv ∈ l.map Prod.snd := by rw [hl]; simp
      have hb : stored s.mem req.item.nameStr = some nv.binding := by
        rw [H.stored_eq, ← hnv, H.lookup_of_mem hmemb]
      exact absurd ⟨hc, ⟨nv.binding, hb, hown⟩, hv, hv'⟩ hterm

end OneRequest

/-! ### Sequences of requests -/

section Sequences

variable {s s' : Server} {st : Store} {l : List (Addr × ItemNv)}

/-- Every answered request leaves a well-formed list. -/
theorem rep_of_serve {malloc : Malloc ItemLl} {req : MsgReq} (H : Rep s.mem st l)
    (h : serve malloc req s = some s') : ∃ st' l', Rep s'.mem st' l' := by
  have hout := outcome_serve H malloc req
  rw [h] at hout
  cases hout with
  | refused r hr hstep item hitem => exact ⟨st, l, H.setLerrno _⟩
  | nomem hc habs hm => exact ⟨st, l, H.setLerrno _⟩
  | added hc habs a hm m hstep hrep => exact ⟨_, _, hrep⟩
  | got hc l₁ a nv l₂ hl hnv hstep => exact ⟨st, l, H.setLerrno _⟩
  | replaced hc l₁ a nv nv' l₂ hl hnv hown hnul hname hown' hval m hstep hrep =>
    exact ⟨_, _, hrep⟩
  | removed hc l₁ a nv l₂ hl hnv m hstep hrep => exact ⟨_, _, hrep⟩

theorem rep_of_serveAll {inputs : List (Malloc ItemLl × MsgReq)} :
    ∀ {s s' : Server} {st : Store} {l : List (Addr × ItemNv)} {out : List MsgRes},
      Rep s.mem st l → serveAll inputs s = some (out, s') → ∃ st' l', Rep s'.mem st' l' := by
  induction inputs with
  | nil =>
    intro s s' st l out H h
    obtain ⟨-, rfl⟩ := Prod.mk.inj (Option.some.inj h)
    exact ⟨st, l, H⟩
  | cons i inputs ih =>
    intro s s' st l out H h
    obtain ⟨s₁, hserve, hrest⟩ := Option.bind_eq_some_iff.mp h
    obtain ⟨⟨out₁, s₂⟩, hall, heq⟩ := Option.bind_eq_some_iff.mp hrest
    obtain ⟨-, rfl⟩ := Prod.mk.inj (Option.some.inj heq)
    obtain ⟨st₁, l₁, H₁⟩ := rep_of_serve H hserve
    exact ih H₁ hall

/-- One request more. -/
theorem serveAll_concat {inputs : List (Malloc ItemLl × MsgReq)} {i : Malloc ItemLl × MsgReq} :
    ∀ {s s₁ s' : Server} {out : List MsgRes}, serveAll inputs s = some (out, s₁) →
      serve i.1 i.2 s₁ = some s' →
      serveAll (inputs ++ [i]) s = some (out ++ [s'.res], s') := by
  induction inputs with
  | nil =>
    intro s s₁ s' out h hserve
    obtain ⟨rfl, rfl⟩ := Prod.mk.inj (Option.some.inj h)
    simp [serveAll, hserve]
  | cons j inputs ih =>
    intro s s₁ s' out h hserve
    obtain ⟨s₂, hj, hrest⟩ := Option.bind_eq_some_iff.mp h
    obtain ⟨⟨out₁, s₃⟩, hall, heq⟩ := Option.bind_eq_some_iff.mp hrest
    obtain ⟨rfl, rfl⟩ := Prod.mk.inj (Option.some.inj heq)
    simp [serveAll, hj, ih hall hserve]

end Sequences

/-- **Honest success.** Every request of a sequence is answered honestly if and only if none of
them is an `ADD` of a new name for which `malloc` fails, or a `SET` by the owner of a name with no
NUL in `value` and `own`. -/
theorem served_honestly_iff (m : Mem) (res : MsgRes) (inputs : List (Malloc ItemLl × MsgReq)) :
    (∀ pre i post, inputs = pre ++ i :: post → ∃ out s,
      serveAll pre ⟨(llInit m).2, res⟩ = some (out, s) ∧ Honest i.1 i.2 s) ↔
    ∀ pre i post out s, inputs = pre ++ i :: post →
      serveAll pre ⟨(llInit m).2, res⟩ = some (out, s) →
      ¬ NoMemory i.1 i.2 s.mem ∧ ¬ Unterminated i.2 s.mem := by
  constructor
  · intro h pre i post out s hsplit hpre
    obtain ⟨out', s', hpre', hhonest⟩ := h pre i post hsplit
    obtain ⟨-, rfl⟩ := Prod.mk.inj (Option.some.inj (hpre.symm.trans hpre'))
    obtain ⟨st, l, H⟩ := rep_of_serveAll (s := ⟨(llInit m).2, res⟩) (Rep.init m) hpre
    exact (honest_iff H).mp hhonest
  · intro h
    -- on the number of requests already answered
    have hserved : ∀ pre post, inputs = pre ++ post → ∃ out s st l,
        serveAll pre ⟨(llInit m).2, res⟩ = some (out, s) ∧ Rep s.mem st l := by
      intro pre
      induction pre using List.reverseRecOn with
      | nil =>
        intro post _
        exact ⟨[], _, ∅, [], rfl, Rep.init m⟩
      | append_singleton pre j ih =>
        intro post hsplit
        rw [List.append_assoc, List.singleton_append] at hsplit
        obtain ⟨out, s, st, l, hpre, H⟩ := ih _ hsplit
        obtain ⟨s', hserve, -⟩ := (honest_iff H).mpr (h pre j post out s hsplit hpre)
        obtain ⟨st', l', H'⟩ := rep_of_serve H hserve
        exact ⟨_, s', st', l', serveAll_concat hpre hserve, H'⟩
    intro pre i post hsplit
    obtain ⟨out, s, st, l, hpre, H⟩ := hserved pre (i :: post) hsplit
    exact ⟨out, s, hpre, (honest_iff H).mpr (h pre i post out s hsplit hpre)⟩

/-- **A success that is none.** The first request is an `ADD`, and `malloc` fails. -/
theorem not_served_honestly :
    ¬ ∀ (m : Mem) (res : MsgRes) (inputs : List (Malloc ItemLl × MsgReq)) (pre i post),
      inputs = pre ++ i :: post → ∃ out s,
        serveAll pre ⟨(llInit m).2, res⟩ = some (out, s) ∧ Honest i.1 i.2 s := by
  intro h
  let req : MsgReq := ⟨reqAdd, .ofStrings [97] [49] [117]⟩
  let m : Mem := ⟨∅, ⟨0, none⟩, 0⟩
  have H : Rep (llInit m).2 ∅ [] := Rep.init m
  obtain ⟨out, s, hpre, hhonest⟩ :=
    h m ⟨0, .ofStrings [] [] []⟩ [(Malloc.fails ItemLl, req)] [] (Malloc.fails ItemLl, req) [] rfl
  obtain ⟨-, rfl⟩ := Prod.mk.inj (Option.some.inj hpre)
  have hnone : stored (llInit m).2 req.item.nameStr = none := H.stored_eq _
  exact not_honest_of_noMemory (s := ⟨(llInit m).2, _⟩) H ⟨rfl, hnone, rfl⟩ hhonest

end NameValue

end Tlpiexer
