import Tlpiexer.NameValue.Honest

/-!
# What a response carries over from earlier requests

The response structure `res` of `src/imp/59-04-server.c` lives outside the request loop, and only
`GET` writes its item: the whole of it when the name is found, the name alone when it is not. The
rest is what an earlier request left there, and it is sent to the next client.

## Two histories

The question is about pairs of runs: two sequences of requests that leave the same items stored,
and one more request after each of them. The two responses are always the same if and only if the
request is a `GET` for a stored name (`response_independent_iff`). For every other request there is
a second history with another response: one more `GET` before it changes the name that is left in
`res` (`exists_residue_name`), and `ADD`, `GET` and `DEL` of a name that is not stored changes the
value and the owner as well (`exists_residue_item`).
-/

namespace Tlpiexer

namespace NameValue

open CString LinkedHeap

section OneRun

variable {s₀ s s₁ : Server} {st : Store} {l : List (Addr × ItemNv)} {malloc : Malloc ItemLl}
  {req : MsgReq} {h : List (Malloc ItemLl × MsgReq)} {out : List MsgRes}

/-! ### The item of the response -/

/-- Stored items with the same name are the same. -/
theorem Rep.eq_of_nameStr {m : Mem} (H : Rep m st l) {nv nv' : ItemNv}
    (hmem : nv ∈ l.map Prod.snd) (hmem' : nv' ∈ l.map Prod.snd) (hn : nv.nameStr = nv'.nameStr) :
    nv = nv' := by
  obtain ⟨e, he, rfl⟩ := List.mem_map.mp hmem
  obtain ⟨e', he', rfl⟩ := List.mem_map.mp hmem'
  rw [List.inj_on_of_nodup_map H.names he he' hn]

/-- A `GET` of a stored name answers with the stored item. -/
theorem serve_get_of_mem (H : Rep s.mem st l) (hc : req.cmd = reqGet) {nv : ItemNv}
    (hmem : nv ∈ l.map Prod.snd) (hn : nv.nameStr = req.item.nameStr) :
    serve malloc req s = some ⟨{ s.mem with lerrno := 0 }, resOk, nv⟩ := by
  rcases H.cases req.item with ⟨habs, -⟩ | ⟨l₁, a, nv', l₂, rfl, hnv', h₁, -, -⟩
  · obtain ⟨e, he, rfl⟩ := List.mem_map.mp hmem
    exact absurd hn (habs e he)
  · obtain rfl := H.eq_of_nameStr hmem (by simp) (hn.trans hnv'.symm)
    exact serve_get_found H hc hnv' h₁

/-- Every `GET` leaves the name it asked for in the response, and the list as it was. -/
theorem exists_serve_get (H : Rep s.mem st l) (malloc : Malloc ItemLl) {req : MsgReq}
    (hc : req.cmd = reqGet) :
    ∃ m res, serve malloc req s = some ⟨m, res⟩ ∧ m.heap = s.mem.heap ∧ m.list = s.mem.list ∧
      res.item.nameStr = req.item.nameStr := by
  rcases H.cases req.item with ⟨habs, -⟩ | ⟨l₁, a, nv, l₂, rfl, hnv, h₁, -, -⟩
  · exact ⟨_, _, serve_get_noext H hc habs, rfl, rfl, rfl⟩
  · exact ⟨_, _, serve_get_found H hc hnv h₁, rfl, rfl, hnv⟩

/-- The other commands pass the item on. -/
theorem dispatch_of_ne_get (malloc : Malloc ItemLl) (hc : req.cmd ≠ reqGet) (m : Mem)
    (item item' : ItemNv) :
    dispatch malloc req m item' = (dispatch malloc req m item).map fun r => (r.1, item') := by
  unfold dispatch
  split_ifs with ha hs hd
  · rw [Option.map_map]; rfl
  · rw [Option.map_map]; rfl
  · rw [Option.map_map]; rfl
  · rfl

/-- They do the same to the same list, whatever is in the response. -/
theorem serve_of_ne_get (hc : req.cmd ≠ reqGet) (hserve : serve malloc req s = some s₁)
    {m : Mem} (hheap : m.heap = s.mem.heap) (hlist : m.list = s.mem.list) (res : MsgRes) :
    ∃ m' r, serve malloc req ⟨m, res⟩ = some ⟨m', r, res.item⟩ := by
  have hmem : { m with lerrno := 0 } = { s.mem with lerrno := 0 } := by rw [hheap, hlist]
  obtain ⟨⟨m', item⟩, hd, -⟩ := Option.map_eq_some_iff.mp hserve
  have hd' := dispatch_of_ne_get malloc hc { s.mem with lerrno := 0 } s.res.item res.item
  rw [hd, Option.map_some, ← hmem] at hd'
  exact ⟨_, _, serve_of_dispatch (s := ⟨m, res⟩) hd'⟩

/-! ### Changing what is left in the response -/

/-- **The name left behind.** Before a request that is no `GET`, another client can ask for any
name, and the response to the request will carry it. -/
theorem exists_residue_name (H : Rep s.mem st l) (hc : req.cmd ≠ reqGet)
    (hh : serveAll h s₀ = some (out, s)) (hserve : serve malloc req s = some s₁) (nv : ItemNv) :
    ∃ h' out' s' s₁', serveAll h' s₀ = some (out', s') ∧ items s'.mem = items s.mem ∧
      serve malloc req s' = some s₁' ∧ s₁'.res.item.nameStr = nv.nameStr := by
  let get : MsgReq := ⟨reqGet, nv⟩
  obtain ⟨m, res, hget, hheap, hlist, hname⟩ := exists_serve_get H malloc (rfl : get.cmd = reqGet)
  obtain ⟨m', r, hserve'⟩ := serve_of_ne_get hc hserve hheap hlist res
  refine ⟨h ++ [(malloc, get)], _, _, _, serveAll_concat hh hget, ?_, hserve', hname⟩
  rw [items, items, hheap, hlist]

/-- **The item left behind.** Before a `GET` of a name that is not stored, another client can bind
the name, ask for it and delete it again; the response to the `GET` will carry the value and the
owner of the deleted item. -/
theorem exists_residue_item (H : Rep s.mem st l) (hc : req.cmd = reqGet)
    (habs : Absent req.item l) (hh : serveAll h s₀ = some (out, s)) {nv : ItemNv}
    (hn : nv.nameStr = req.item.nameStr) (malloc : Malloc ItemLl) :
    ∃ h' out' s' s₁', serveAll h' s₀ = some (out', s') ∧ items s'.mem = items s.mem ∧
      serve malloc req s' = some s₁' ∧ s₁'.res = ⟨elNoext, { nv with name := req.item.name }⟩ := by
  have habs' : Absent nv l := fun e he => hn ▸ habs e he
  have hnil : Absent nv [] := fun e he => nomatch he
  let M : Malloc ItemLl := .next ItemLl
  let add : MsgReq := ⟨reqAdd, nv⟩
  let get : MsgReq := ⟨reqGet, nv⟩
  let del : MsgReq := ⟨reqDel, nv⟩
  obtain ⟨a, ha⟩ := Malloc.next_succeeds ItemLl s.mem.heap
  obtain ⟨m₁, hadd, H₁⟩ := serve_add_new H (rfl : add.cmd = reqAdd) habs' ha
  let s₂ : Server := ⟨m₁, resOk, s.res.item⟩
  let s₃ : Server := ⟨{ m₁ with lerrno := 0 }, resOk, nv⟩
  have hget : serve M get s₂ = some s₃ :=
    serve_get_found (s := s₂) H₁ (rfl : get.cmd = reqGet) rfl hnil
  have H₃ : Rep s₃.mem _ ([] ++ (a, nv) :: l) := H₁.setLerrno 0
  obtain ⟨m₄, hdel, H₄⟩ : ∃ m, serve M del s₃ = some ⟨m, resOk, nv⟩ ∧ Rep m _ ([] ++ l) :=
    serve_del_own H₃ rfl rfl hnil habs' rfl
  have hall := serveAll_concat (i := (M, del))
    (serveAll_concat (i := (M, get)) (serveAll_concat (i := (M, add)) hh hadd) hget) hdel
  refine ⟨_, _, _, _, hall, ?_, serve_get_noext (s := ⟨m₄, resOk, nv⟩) H₄ hc habs, rfl⟩
  rw [H₄.items_eq, H.items_eq]
  rfl

end OneRun

/-- **The residue of earlier requests.** After a history of requests, the response to a further one
is the same after all histories that leave the same items stored if and only if the request is a
`GET` for a stored name. -/
theorem response_independent_iff {m : Mem} {res : MsgRes} {h : List (Malloc ItemLl × MsgReq)}
    {out : List MsgRes} {s s₁ : Server} {malloc : Malloc ItemLl} {req : MsgReq}
    (hh : serveAll h ⟨(llInit m).2, res⟩ = some (out, s))
    (hserve : serve malloc req s = some s₁) :
    (∀ h' out' s' malloc' s₁', serveAll h' ⟨(llInit m).2, res⟩ = some (out', s') →
      items s'.mem = items s.mem → serve malloc' req s' = some s₁' → s₁'.res = s₁.res) ↔
    req.cmd = reqGet ∧ stored s.mem req.item.nameStr ≠ none := by
  obtain ⟨st, l, H⟩ := rep_of_serveAll (s := ⟨(llInit m).2, res⟩) (Rep.init m) hh
  constructor
  · intro hall
    by_cases hc : req.cmd = reqGet
    · refine ⟨hc, fun hnone => ?_⟩
      have habs := (H.absent_iff req.item).mpr hnone
      -- two items under the name, with different values
      have hvalue : ∀ v : Bytes,
          s₁.res.item.value = (CharArray.ofBytes llValueLen v) := by
        intro v
        let nv : ItemNv := { req.item with value := .ofBytes _ v }
        have hn : nv.nameStr = req.item.nameStr := rfl
        obtain ⟨h', out', s', s₁', hh', hitems, hserve', hres⟩ :=
          exists_residue_item H hc habs hh hn malloc
        rw [← hall h' out' s' malloc s₁' hh' hitems hserve', hres]
      exact absurd ((hvalue [49]).symm.trans (hvalue [50])) (by decide)
    · -- two `GET`s with different names
      have hname : ∀ n : Bytes, s₁.res.item.nameStr = (ItemNv.ofStrings n [] []).nameStr := by
        intro n
        obtain ⟨h', out', s', s₁', hh', hitems, hserve', hn⟩ :=
          exists_residue_name H hc hh hserve (ItemNv.ofStrings n [] [])
        rw [← hall h' out' s' malloc s₁' hh' hitems hserve', hn]
      exact absurd ((hname [97]).symm.trans (hname [98])) (by decide)
  · rintro ⟨hc, hstored⟩ h' out' s' malloc' s₁' hh' hitems hserve'
    obtain ⟨st', l', H'⟩ := rep_of_serveAll (s := ⟨(llInit m).2, res⟩) (Rep.init m) hh'
    have hl : l'.map Prod.snd = l.map Prod.snd := by
      rw [H.items_eq, H'.items_eq] at hitems
      exact Option.some.inj hitems
    rcases H.cases req.item with ⟨habs, -⟩ | ⟨l₁, a, nv, l₂, rfl, hnv, -⟩
    · exact absurd ((H.absent_iff _).mp habs) hstored
    · have hmem : nv ∈ (l₁ ++ (a, nv) :: l₂).map Prod.snd := by simp
      rw [serve_get_of_mem H hc hmem hnv] at hserve
      rw [serve_get_of_mem H' hc (hl ▸ hmem) hnv] at hserve'
      obtain rfl := Option.some.inj hserve
      obtain rfl := Option.some.inj hserve'
      rfl

/-- A user `u` adds the name `a`. -/
def oneItem : List (Malloc ItemLl × MsgReq) :=
  [(.next ItemLl, ⟨reqAdd, .ofStrings [97] [49] [117]⟩)]

theorem response_independent_iff_oneItem :
    ∃ out s s₁, serveAll oneItem ⟨(llInit ⟨∅, ⟨0, none⟩, 0⟩).2, 0, .ofStrings [] [] []⟩ =
        some (out, s) ∧
      serve (.next ItemLl) ⟨reqGet, .ofStrings [97] [] []⟩ s = some s₁ ∧
      ∀ h' out' s' malloc' s₁',
        serveAll h' ⟨(llInit ⟨∅, ⟨0, none⟩, 0⟩).2, 0, .ofStrings [] [] []⟩ = some (out', s') →
        items s'.mem = items s.mem →
        serve malloc' ⟨reqGet, .ofStrings [97] [] []⟩ s' = some s₁' → s₁'.res = s₁.res := by
  let s₀ : Server := ⟨(llInit ⟨∅, ⟨0, none⟩, 0⟩).2, 0, .ofStrings [] [] []⟩
  let add : MsgReq := ⟨reqAdd, .ofStrings [97] [49] [117]⟩
  let get : MsgReq := ⟨reqGet, .ofStrings [97] [] []⟩
  have H : Rep s₀.mem ∅ [] := Rep.init _
  obtain ⟨a, ha⟩ := Malloc.next_succeeds ItemLl s₀.mem.heap
  obtain ⟨m, hadd, H₁⟩ := serve_add_new H (rfl : add.cmd = reqAdd) (fun _ he => nomatch he) ha
  have hh : serveAll oneItem s₀ = some ([] ++ [⟨resOk, s₀.res.item⟩], ⟨m, resOk, s₀.res.item⟩) :=
    serveAll_concat (i := (.next ItemLl, add)) (rfl : serveAll [] s₀ = some ([], s₀)) hadd
  have hmem : add.item ∈ [(a, add.item)].map Prod.snd := by simp
  have hname : add.item.nameStr = get.item.nameStr := by decide
  have hget : serve (.next ItemLl) get ⟨m, resOk, s₀.res.item⟩ = some _ :=
    serve_get_of_mem H₁ rfl hmem hname
  refine ⟨_, _, _, hh, hget, (response_independent_iff hh hget).mpr ⟨rfl, ?_⟩⟩
  intro hnone
  exact (H₁.absent_iff get.item).mpr hnone _ List.mem_cons_self hname

/-- **A response that carries another client's item.** With nothing stored, a `GET` of the name `a`
fails. After another client has added, fetched and deleted `a` there is again nothing stored; the
`GET` fails, and its response carries the value and the owner of the deleted item. -/
theorem not_response_independent :
    ¬ ∀ (m : Mem) (res : MsgRes) (h h' : List (Malloc ItemLl × MsgReq)) (out out' : List MsgRes)
      (s s' : Server) (malloc malloc' : Malloc ItemLl) (req : MsgReq) (s₁ s₁' : Server),
      serveAll h ⟨(llInit m).2, res⟩ = some (out, s) →
      serveAll h' ⟨(llInit m).2, res⟩ = some (out', s') → items s'.mem = items s.mem →
      serve malloc req s = some s₁ → serve malloc' req s' = some s₁' → s₁'.res = s₁.res := by
  intro hall
  let s₀ : Server := ⟨(llInit ⟨∅, ⟨0, none⟩, 0⟩).2, 0, .ofStrings [] [] []⟩
  let get : MsgReq := ⟨reqGet, .ofStrings [97] [] []⟩
  let nv : ItemNv := .ofStrings [97] [49] [117]
  let M : Malloc ItemLl := .next ItemLl
  have H : Rep s₀.mem ∅ [] := Rep.init _
  have habs : Absent get.item [] := fun e he => nomatch he
  have hh : serveAll [] s₀ = some ([], s₀) := rfl
  have hget : serve M get s₀ = some _ := serve_get_noext H rfl habs
  obtain ⟨h', out', s', s₁', hh', hitems, hserve', hres⟩ :=
    exists_residue_item H (rfl : get.cmd = reqGet) habs hh (by decide : nv.nameStr = _) M
  have heq := hall _ _ [] h' [] out' s₀ s' M M get _ s₁' hh hh' hitems hget hserve'
  rw [hres] at heq
  exact absurd (congrArg (fun r => r.item.value) heq) (by decide)

end NameValue

end Tlpiexer
