import Mathlib.Data.Finmap
import Tlpiexer.Foundations.CString

/-!
# What the name-value store is for

The reference the server is compared with: a finite map from names to a value and an owner, and
one step for each request. Nothing here knows about lists, bytes behind a NUL or error numbers in
a global variable.

## Main results

* `NameValue.Store.lookup_step_of_ne` — a request touches no other name
* `NameValue.Store.changed_by_owner` — a binding is replaced or removed only by a `SET` or `DEL`
  that carries its owner
* `NameValue.Store.exists_add_of_bound` — that owner is the one the name was added with
-/

namespace Tlpiexer

namespace NameValue

open CString

/-- What a request asks for. -/
inductive Cmd
  | add
  | get
  | set
  | del
  | unknown
  deriving DecidableEq, Repr

/-- `enum res_res`. -/
inductive ResRes
  | ok
  | perm
  | exist
  | noext
  | except
  | unkow
  deriving DecidableEq, Repr

/-- The number that stands for a result in a response. -/
def ResRes.code : ResRes → ℕ
  | .ok => 0
  | .perm => 1
  | .exist => 2
  | .noext => 3
  | .except => 4
  | .unkow => 5

/-- What a name is bound to. -/
structure Binding where
  value : Bytes
  own : Bytes
  deriving DecidableEq, Repr

/-- A request, read as strings. -/
structure Op where
  cmd : Cmd
  name : Bytes
  value : Bytes
  own : Bytes
  deriving DecidableEq, Repr

/-- A response, read as strings: the result, and the item a successful `GET` returns. -/
structure Answer where
  result : ResRes
  item : Option (Bytes × Binding)
  deriving DecidableEq, Repr

/-- The bound names. -/
abbrev Store := Finmap fun _ : Bytes => Binding

namespace Store

/-- Answer one request. -/
def step (st : Store) (op : Op) : Answer × Store :=
  match op.cmd, st.lookup op.name with
  | .add, some _ => (⟨.exist, none⟩, st)
  | .add, none => (⟨.ok, none⟩, st.insert op.name ⟨op.value, op.own⟩)
  | .get, some b => (⟨.ok, some (op.name, b)⟩, st)
  | .get, none => (⟨.noext, none⟩, st)
  | .set, some b =>
    if b.own ≠ op.own then (⟨.perm, none⟩, st)
    else (⟨.ok, none⟩, st.insert op.name { b with value := op.value })
  | .set, none => (⟨.noext, none⟩, st)
  | .del, some b =>
    if b.own ≠ op.own then (⟨.perm, none⟩, st)
    else (⟨.ok, none⟩, st.erase op.name)
  | .del, none => (⟨.noext, none⟩, st)
  | .unknown, _ => (⟨.unkow, none⟩, st)

/-- Answer a sequence of requests. -/
def run : Store → List Op → List Answer × Store
  | st, [] => ([], st)
  | st, op :: ops =>
    let (a, st') := st.step op
    let (as, st'') := run st' ops
    (a :: as, st'')

/-- The bindings left by a sequence of requests, starting from none. -/
def after (ops : List Op) : Store := (run ∅ ops).2

theorem run_append (ops ops' : List Op) : ∀ st : Store,
    (run st (ops ++ ops')).2 = (run (run st ops).2 ops').2 := by
  induction ops with
  | nil => intro st; rfl
  | cons op ops ih => intro st; exact ih _

@[simp] theorem after_nil : after [] = ∅ := rfl

theorem after_concat (ops : List Op) (op : Op) :
    after (ops ++ [op]) = ((after ops).step op).2 :=
  run_append ops [op] ∅

/-! ### What a request can change -/

theorem step_noext {st : Store} {op : Op} (hc : op.cmd = .get ∨ op.cmd = .set ∨ op.cmd = .del)
    (h : st.lookup op.name = none) : st.step op = (⟨.noext, none⟩, st) := by
  rcases hc with hc | hc | hc <;> simp only [step, hc, h]

theorem step_perm {st : Store} {op : Op} {b : Binding} (hc : op.cmd = .set ∨ op.cmd = .del)
    (h : st.lookup op.name = some b) (ho : b.own ≠ op.own) :
    st.step op = (⟨.perm, none⟩, st) := by
  rcases hc with hc | hc <;> simp only [step, hc, h, if_pos ho]

theorem lookup_step_of_ne (st : Store) {op : Op} {n : Bytes} (h : n ≠ op.name) :
    (st.step op).2.lookup n = st.lookup n := by
  have hins : ∀ b, (st.insert op.name b).lookup n = st.lookup n := fun b =>
    Finmap.lookup_insert_of_ne st h
  have hers : (st.erase op.name).lookup n = st.lookup n := Finmap.lookup_erase_ne h
  cases hb : st.lookup op.name with
  | none => cases hc : op.cmd <;> simp [step, hb, hc, hins]
  | some b =>
    by_cases ho : b.own = op.own
    · cases hc : op.cmd <;> simp [step, hb, hc, ho, hins, hers]
    · cases hc : op.cmd <;> simp [step, hb, hc, ho]

/-- A name that gets bound is bound by an `ADD`, to what this request carries. -/
theorem add_of_lookup_step {st : Store} {op : Op} {n : Bytes} {b : Binding}
    (h : st.lookup n = none) (h' : (st.step op).2.lookup n = some b) :
    op.cmd = .add ∧ op.name = n ∧ b = ⟨op.value, op.own⟩ := by
  by_cases hn : n = op.name
  · subst hn
    cases hc : op.cmd with
    | add =>
      simp only [step, hc, h, Finmap.lookup_insert] at h'
      exact ⟨rfl, rfl, (Option.some.inj h').symm⟩
    | get | set | del | unknown => simp [step, hc, h] at h'
  · rw [lookup_step_of_ne st hn, h] at h'
    cases h'

/-- What happens to a binding in one step: it stays, or the owner replaces its value, or the owner
removes it. -/
theorem lookup_step_of_bound {st : Store} (op : Op) {n : Bytes} {b : Binding}
    (h : st.lookup n = some b) :
    (st.step op).2.lookup n = some b ∨
      (op.name = n ∧ op.own = b.own ∧
        ((op.cmd = .set ∧ (st.step op).2.lookup n = some ⟨op.value, b.own⟩) ∨
          (op.cmd = .del ∧ (st.step op).2.lookup n = none))) := by
  by_cases hn : n = op.name
  · subst hn
    by_cases ho : b.own = op.own
    · cases hc : op.cmd <;> simp [step, h, hc, ho]
    · cases hc : op.cmd <;> simp [step, h, hc, ho]
  · exact Or.inl ((lookup_step_of_ne st hn).trans h)

/-- **Only the owner changes a binding.** -/
theorem changed_by_owner {st : Store} {op : Op} {n : Bytes} {b : Binding}
    (h : st.lookup n = some b) (h' : (st.step op).2.lookup n ≠ some b) :
    (op.cmd = .set ∨ op.cmd = .del) ∧ op.name = n ∧ op.own = b.own := by
  rcases lookup_step_of_bound op h with hs | ⟨hn, ho, hcmd⟩
  · exact absurd hs h'
  · exact ⟨hcmd.imp And.left And.left, hn, ho⟩

/-- `n` was added with the owner `o` during `ops` and has been bound, to that owner, ever since. -/
def AddedBy (ops : List Op) (n o : Bytes) : Prop :=
  ∃ pre op post, ops = pre ++ op :: post ∧ op.cmd = .add ∧ op.name = n ∧ op.own = o ∧
    (after pre).lookup n = none ∧
    ∀ q, q <+: post → ∃ v, (after (pre ++ op :: q)).lookup n = some ⟨v, o⟩

/-- **The owner of a binding is the one it was added with.** -/
theorem exists_add_of_bound {ops : List Op} : ∀ {n : Bytes} {b : Binding},
    (after ops).lookup n = some b → AddedBy ops n b.own := by
  -- on the last request: it made the binding, or left it to the same owner
  induction ops using List.reverseRecOn with
  | nil => intro n b h; simp at h
  | append_singleton ops op ih =>
    intro n b h
    rw [after_concat] at h
    cases hb : (after ops).lookup n with
    | none =>
      obtain ⟨hc, hn, rfl⟩ := add_of_lookup_step hb h
      refine ⟨ops, op, [], rfl, hc, hn, rfl, hb, fun q hq => ⟨op.value, ?_⟩⟩
      rw [List.prefix_nil.mp hq, after_concat]
      exact h
    | some b₀ =>
      have hown : b.own = b₀.own := by
        rcases lookup_step_of_bound op hb with hs | ⟨-, -, ⟨-, hs⟩ | ⟨-, hs⟩⟩
        · rw [hs] at h; cases h; rfl
        · rw [hs] at h; cases h; rfl
        · rw [hs] at h; cases h
      obtain ⟨pre, op₀, post, rfl, hc, hn, ho, hnone, hsince⟩ := ih hb
      refine ⟨pre, op₀, post ++ [op], by simp, hc, hn, ho.trans hown.symm, hnone, fun q hq => ?_⟩
      rw [hown]
      rcases List.prefix_concat_iff.mp hq with rfl | hq
      · refine ⟨b.value, ?_⟩
        rw [← List.cons_append, ← List.append_assoc, after_concat, h, ← hown]
      · exact hsince q hq

end Store

end NameValue

end Tlpiexer
