import Tlpiexer.Foundations.CString
import Tlpiexer.Foundations.Transition

/-!
# `setenv` and `unsetenv`

The two functions of `src/imp/06-03.c`, which are written with `getenv`, `putenv` and direct access
to `environ`. Seen from outside the environment is a map from names to values; inside it is an array
of strings `name=value` that ends with a null pointer, and a name may be defined in it more than
once.

## The array

`environ` is modelled with its null pointers: `unsetenv` writes one in the place of each definition
it finds, and whatever lies behind the first null pointer is no longer part of the environment,
although it is still there.

## What the two functions call

* `getenv` returns the value of the first definition in front of the first null pointer.
* `putenv` is any function that makes the value of one name the given one and leaves the others
  alone (`Putenv`); where it puts the string is left open.
* `malloc` returns a block of some size or nothing. The string that `setenv` writes into it is one
  byte longer than what it asks for, so whether this goes wrong depends on how much more than that
  it gets. A write behind the block is an outcome of its own: the step has no next state.

## Main results

* `effect_setenv_iff`, `effect_unsetenv_iff` — what one call does to the map
* `environment_is_map_iff` — what a sequence of calls does
-/

namespace Tlpiexer

namespace Environ

open CString Transition

/-! ### Strings -/

/-- `'='`. -/
def equals : UInt8 := 61

/-- A C string, without the NUL behind it. -/
abbrev Str := { s : Bytes // (0 : UInt8) ∉ s }

/-- A name of a variable: not empty, and without `=`. -/
abbrev Name := { n : Bytes // n ≠ [] ∧ (0 : UInt8) ∉ n ∧ equals ∉ n }

/-- `name=value`. -/
def definition (name : Name) (value : Str) : Str :=
  ⟨name.val ++ equals :: value.val, by
    simp only [List.mem_append, List.mem_cons, not_or]
    exact ⟨name.property.2.1, by decide, value.property⟩⟩

/-- The array `environ` points to, up to the null pointer that ends it at first. `none` is a null
pointer, too. -/
abbrev Slots := List (Option Str)

/-- `memcmp(s, name, strlen(name)) == 0 && s[strlen(name)] == '='`. The NUL behind a string that is
shorter than the name differs from the byte of the name in this place. -/
def defines (name : Name) (s : Str) : Bool :=
  (s.val ++ [0]).take name.val.length == name.val &&
    (s.val ++ [0])[name.val.length]? == some equals

/-- `getenv`: what follows the `=` in the first definition. -/
def getenv (name : Name) : Slots → Option Bytes
  | some s :: env =>
    if defines name s then some (s.val.drop (name.val.length + 1)) else getenv name env
  | _ => none

/-! ### The two functions -/

/-- `putenv` with a string of the form `name=value`, as far as it is specified. -/
structure Putenv where
  putenv : Slots → Str → Slots
  getenv_self : ∀ env name value,
    getenv name (putenv env (definition name value)) = some value.val
  getenv_of_ne : ∀ env name value other, other ≠ name →
    getenv other (putenv env (definition name value)) = getenv other env

/-- What there is of memory during one call of `setenv`. -/
structure Memory where
  /-- `malloc`: the size of the block, `none` for a null pointer. -/
  malloc : ℕ → Option ℕ
  /-- `putenv` does not fail. -/
  putenv : Bool

/-- How a call ends. -/
inductive Outcome
  | returns (status : ℤ) (env : Slots)
  /-- Bytes are written behind the block that `malloc` returned. -/
  | overrun

/-- `setenv(name, value, overwrite)`. -/
def setenv (P : Putenv) (env : Slots) (name : Name) (value : Str) (overwrite : ℤ)
    (memory : Memory) : Outcome :=
  if (getenv name env).isSome ∧ overwrite = 0 then .returns 0 env
  else match memory.malloc (name.val.length + value.val.length + 1) with
    | none => .returns (-1) env
    | some size =>
      -- `strcpy` and `strcat` write the definition and the NUL behind it
      if ((definition name value).val ++ [0]).length ≤ size then
        if memory.putenv then .returns 0 (P.putenv env (definition name value))
        else .returns (-1) env
      else .overrun

/-- The loop of `unsetenv` from an element of the array on. -/
def clear (name : Name) : Slots → Slots
  | some s :: env => (if defines name s then none else some s) :: clear name env
  | env => env

/-- `unsetenv(name)`. -/
def unsetenv (env : Slots) (name : Name) : Slots :=
  if getenv name env = none then env else clear name env

/-! ### Sequences of calls -/

/-- A call of one of the two functions. -/
inductive Call
  | setenv (name : Name) (value : Str) (overwrite : ℤ) (memory : Memory)
  | unsetenv (name : Name)

/-- The environment behind a call that does not write behind its block. -/
def call (P : Putenv) (env : Slots) : Call → Option Slots
  | .setenv name value overwrite memory =>
    match setenv P env name value overwrite memory with
    | .returns _ env' => some env'
    | .overrun => none
  | .unsetenv name => some (unsetenv env name)

/-- A program that calls the two functions, in any environment. -/
def machine (P : Putenv) : Machine Slots Call where
  init _ := True
  step := call P

/-- The call changes the map in the way it should and nothing else in it. -/
def Effect (P : Putenv) (env : Slots) (c : Call) : Prop :=
  ∃ env', call P env c = some env' ∧
    match c with
    | .setenv name value overwrite _ =>
      getenv name env' =
          (if getenv name env = none ∨ overwrite ≠ 0 then some value.val else getenv name env) ∧
        ∀ other, other ≠ name → getenv other env' = getenv other env
    | .unsetenv name =>
      getenv name env' = none ∧ ∀ other, other ≠ name → getenv other env' = getenv other env

/-! ### Definitions -/

theorem defines_iff {name : Name} {s : Str} :
    defines name s = true ↔ ∃ value, s.val = name.val ++ equals :: value := by
  simp only [defines, Bool.and_eq_true, beq_iff_eq]
  constructor
  · rintro ⟨hname, heq⟩
    have hlt : name.val.length < s.val.length := by
      -- the `=` is not the NUL behind the string
      by_contra hle
      rw [List.getElem?_append_right (Nat.le_of_not_lt hle)] at heq
      rcases List.getElem?_eq_some_iff.mp heq with ⟨hi, hval⟩
      rw [List.getElem_singleton] at hval
      exact absurd hval (by decide)
    rw [List.take_append_of_le_length (Nat.le_of_lt hlt)] at hname
    rw [List.getElem?_append_left hlt] at heq
    obtain ⟨hi, hval⟩ := List.getElem?_eq_some_iff.mp heq
    have hdrop := List.drop_eq_getElem_cons hi
    rw [hval] at hdrop
    refine ⟨s.val.drop (name.val.length + 1), ?_⟩
    exact (List.take_append_drop name.val.length s.val).symm.trans (by rw [hname, hdrop])
  · rintro ⟨value, hs⟩
    rw [hs, List.append_assoc]
    simp

@[simp] theorem defines_definition (name : Name) (value : Str) :
    defines name (definition name value) = true :=
  defines_iff.mpr ⟨value.val, rfl⟩

/-- The name is what is in front of the first `=`. -/
theorem takeWhile_ne_equals (name : Name) (value : Bytes) :
    (name.val ++ equals :: value).takeWhile (· ≠ equals) = name.val := by
  rw [List.takeWhile_append_of_pos fun b hb => ?_]
  · simp
  · have hne : b ≠ equals := fun hb' => name.property.2.2 (hb' ▸ hb)
    simpa using hne

/-- A string defines one name at most. -/
theorem eq_of_defines {name other : Name} {s : Str} (h : defines name s = true)
    (h' : defines other s = true) : name = other := by
  obtain ⟨value, hs⟩ := defines_iff.mp h
  obtain ⟨value', hs'⟩ := defines_iff.mp h'
  rw [Subtype.ext_iff, ← takeWhile_ne_equals name value, ← takeWhile_ne_equals other value', ← hs,
    ← hs']

theorem defines_eq_false {name other : Name} {s : Str} (h : defines name s = true)
    (hne : other ≠ name) : defines other s = false := by
  cases hd : defines other s with
  | false => rfl
  | true => exact absurd (eq_of_defines hd h) hne

@[simp] theorem getenv_definition_cons (name : Name) (value : Str) (env : Slots) :
    getenv name (some (definition name value) :: env) = some value.val := by
  rw [getenv, if_pos (defines_definition name value)]
  simp [definition]

theorem getenv_cons_of_defines {name : Name} {s : Str} (h : defines name s = true) (env : Slots) :
    getenv name (some s :: env) ≠ none := by
  rw [getenv, if_pos h]
  exact Option.some_ne_none _

theorem getenv_cons_of_not {name : Name} {s : Str} (h : defines name s = false) (env : Slots) :
    getenv name (some s :: env) = getenv name env := by
  rw [getenv, if_neg (by simp [h])]

/-! ### `putenv` on an array -/

/-- The strings define the same name. -/
def sameName (s s' : Str) : Bool :=
  (s.val.takeWhile (· ≠ equals) ++ [equals]).isPrefixOf s'.val

/-- Put a definition in the place of the first one there is of its name, or at the end. -/
def put : Slots → Str → Slots
  | some s :: env, new => if sameName new s then some new :: env else some s :: put env new
  | _, new => [some new]

theorem sameName_definition (name : Name) (value s : Str) :
    sameName (definition name value) s = defines name s := by
  rw [Bool.eq_iff_iff, defines_iff, sameName, definition, takeWhile_ne_equals,
    List.isPrefixOf_iff_prefix]
  constructor
  · rintro ⟨rest, hrest⟩
    exact ⟨rest, by rw [← hrest, List.append_assoc, List.singleton_append]⟩
  · rintro ⟨rest, hrest⟩
    exact ⟨rest, by rw [hrest, List.append_assoc, List.singleton_append]⟩

theorem getenv_put_self (env : Slots) (name : Name) (value : Str) :
    getenv name (put env (definition name value)) = some value.val := by
  induction env with
  | nil => exact getenv_definition_cons name value []
  | cons slot env ih =>
    cases slot with
    | none => exact getenv_definition_cons name value []
    | some s =>
      rw [put, sameName_definition]
      cases hs : defines name s with
      | true => exact getenv_definition_cons name value env
      | false => exact (getenv_cons_of_not hs _).trans ih

theorem getenv_put_of_ne (env : Slots) (name : Name) (value : Str) (other : Name)
    (hne : other ≠ name) : getenv other (put env (definition name value)) = getenv other env := by
  have hnew : defines other (definition name value) = false :=
    defines_eq_false (defines_definition name value) hne
  induction env with
  | nil => exact getenv_cons_of_not hnew []
  | cons slot env ih =>
    cases slot with
    | none => exact getenv_cons_of_not hnew []
    | some s =>
      rw [put, sameName_definition]
      cases hs : defines name s with
      | true =>
        rw [if_pos rfl, getenv_cons_of_not hnew, getenv_cons_of_not (defines_eq_false hs hne)]
      | false =>
        rw [if_neg (by simp), getenv, getenv, ih]

/-- A `putenv` that keeps the order of the array. -/
def inPlace : Putenv where
  putenv := put
  getenv_self := getenv_put_self
  getenv_of_ne := getenv_put_of_ne

/-! ### What one call does -/

section Call

variable {P : Putenv} {env : Slots} {name : Name}

/-- The part of the environment in front of the first definition of a name. -/
def before (name : Name) : Slots → Slots
  | some s :: env => if defines name s then [] else some s :: before name env
  | _ => []

theorem getenv_before_self (env : Slots) : getenv name (before name env) = none := by
  induction env with
  | nil => rfl
  | cons slot env ih =>
    cases slot with
    | none => rfl
    | some s =>
      rw [before]
      cases hs : defines name s with
      | true => rfl
      | false => exact (getenv_cons_of_not hs _).trans ih

/-- The rest of an environment does not change what is defined in front of it. -/
theorem getenv_of_before {other : Name} {value : Bytes}
    (h : getenv other (before name env) = some value) : getenv other env = some value := by
  induction env with
  | nil => cases h
  | cons slot env ih =>
    cases slot with
    | none => cases h
    | some s =>
      rw [before] at h
      cases hs : defines name s with
      | true => rw [hs] at h; cases h
      | false =>
        rw [hs, if_neg (by simp)] at h
        cases ho : defines other s with
        | true => rwa [getenv, if_pos ho] at h ⊢
        | false =>
          rw [getenv_cons_of_not ho] at h ⊢
          exact ih h

/-- **`unsetenv` leaves what is in front of the first definition.** -/
theorem getenv_unsetenv (other : Name) :
    getenv other (unsetenv env name) =
      if getenv name env = none then getenv other env else getenv other (before name env) := by
  rw [unsetenv]
  split
  · rfl
  · rename_i hset
    induction env with
    | nil => exact absurd rfl hset
    | cons slot env ih =>
      cases slot with
      | none => exact absurd rfl hset
      | some s =>
        rw [clear, before]
        cases hs : defines name s with
        | true => rfl
        | false =>
          rw [getenv_cons_of_not hs] at hset
          rw [if_neg (by simp), if_neg (by simp), getenv, getenv, ih hset]

/-- Where the name is not set, the whole environment is in front of its definition. -/
theorem getenv_before_of_none (h : getenv name env = none) (other : Name) :
    getenv other (before name env) = getenv other env := by
  induction env with
  | nil => rfl
  | cons slot env ih =>
    cases slot with
    | none => rfl
    | some s =>
      cases hs : defines name s with
      | true => exact absurd h (getenv_cons_of_defines hs env)
      | false =>
        rw [getenv_cons_of_not hs] at h
        rw [before, if_neg (by simp [hs]), getenv, getenv, ih h]

/-- What a call of `setenv` that stores its string needs: a block with one byte more than it asks
for, and room for a pointer to it. -/
def Stores (name : Name) (value : Str) (memory : Memory) : Prop :=
  ∃ size, memory.malloc (name.val.length + value.val.length + 1) = some size ∧
    name.val.length + value.val.length + 1 < size ∧ memory.putenv = true

/-- A call of `setenv` that fails in an orderly way. -/
def Refused (name : Name) (value : Str) (memory : Memory) : Prop :=
  memory.malloc (name.val.length + value.val.length + 1) = none ∨
    ∃ size, memory.malloc (name.val.length + value.val.length + 1) = some size ∧
      name.val.length + value.val.length + 1 < size ∧ memory.putenv = false

/-- The condition under which a call does what it should. -/
def Safe (env : Slots) : Call → Prop
  | .setenv name value overwrite memory =>
    ((getenv name env).isSome ∧ overwrite = 0) ∨ Stores name value memory ∨
      (Refused name value memory ∧ getenv name env = some value.val)
  | .unsetenv name =>
    ∀ other, other ≠ name → (getenv other env).isSome → (getenv other (before name env)).isSome

variable {value : Str} {overwrite : ℤ} {memory : Memory}

theorem call_of_kept (h : (getenv name env).isSome ∧ overwrite = 0) :
    call P env (.setenv name value overwrite memory) = some env := by
  rw [call, setenv, if_pos h]

/-- What `setenv` does when it is not content with the value there is. -/
theorem call_of_not_kept (P : Putenv) (value : Str) (memory : Memory)
    (h : ¬ ((getenv name env).isSome ∧ overwrite = 0)) :
    (Stores name value memory ∧ call P env (.setenv name value overwrite memory) =
        some (P.putenv env (definition name value))) ∨
      (Refused name value memory ∧
        call P env (.setenv name value overwrite memory) = some env) ∨
      (¬ Stores name value memory ∧ ¬ Refused name value memory ∧
        call P env (.setenv name value overwrite memory) = none) := by
  have hlen : ((definition name value).val ++ [0]).length =
      name.val.length + value.val.length + 1 + 1 := by
    simp only [definition, List.length_append, List.length_cons, List.length_nil]
    omega
  rw [call, setenv, if_neg h]
  cases hmalloc : memory.malloc (name.val.length + value.val.length + 1) with
  | none => exact .inr (.inl ⟨.inl hmalloc, rfl⟩)
  | some size =>
    by_cases hsize : name.val.length + value.val.length + 1 < size
    · simp only [hlen, if_pos (Nat.succ_le_of_lt hsize)]
      cases hput : memory.putenv with
      | true => exact .inl ⟨⟨size, hmalloc, hsize, hput⟩, rfl⟩
      | false => exact .inr (.inl ⟨.inr ⟨size, hmalloc, hsize, hput⟩, rfl⟩)
    · have hover : ¬ name.val.length + value.val.length + 1 + 1 ≤ size := hsize
      simp only [hlen, if_neg hover, and_true]
      refine .inr (.inr ⟨?_, ?_⟩)
      · rintro ⟨size', hsome, hlt, -⟩
        rw [hmalloc] at hsome
        cases hsome
        exact hsize hlt
      · rintro (hnone | ⟨size', hsome, hlt, -⟩)
        · rw [hmalloc] at hnone
          cases hnone
        · rw [hmalloc] at hsome
          cases hsome
          exact hsize hlt

/-- Where `setenv` is to change the value, the new one is expected. -/
theorem expected_of_not_kept (h : ¬ ((getenv name env).isSome ∧ overwrite = 0)) :
    getenv name env = none ∨ overwrite ≠ 0 := by
  by_contra hnot
  rw [not_or, not_not] at hnot
  exact h ⟨Option.isSome_iff_ne_none.mpr hnot.1, hnot.2⟩

theorem Refused.not_stores (h : Refused name value memory) : ¬ Stores name value memory := by
  rintro ⟨size, hsome, -, hput⟩
  rcases h with hnone | ⟨-, -, -, hput'⟩
  · rw [hsome] at hnone
    cases hnone
  · rw [hput] at hput'
    cases hput'

theorem effect_setenv_iff :
    Effect P env (.setenv name value overwrite memory) ↔
      Safe env (.setenv name value overwrite memory) := by
  by_cases hkept : (getenv name env).isSome ∧ overwrite = 0
  · refine iff_of_true ⟨env, call_of_kept hkept, ?_, fun _ _ => rfl⟩ (.inl hkept)
    rw [if_neg]
    rintro (hnone | hne)
    · rw [hnone] at hkept
      cases hkept.1
    · exact hne hkept.2
  · have hexpected := expected_of_not_kept hkept
    simp only [Effect, if_pos hexpected, Safe, hkept, false_or]
    rcases call_of_not_kept P value memory hkept with
      ⟨hstores, hcall⟩ | ⟨hrefused, hcall⟩ | ⟨hstores, hrefused, hcall⟩
    · exact iff_of_true ⟨_, hcall, P.getenv_self env name value, P.getenv_of_ne env name value⟩
        (.inl hstores)
    · -- nothing has changed, so the value must have been the new one before
      simp only [hcall, Option.some.injEq, exists_eq_left', hrefused.not_stores, hrefused,
        true_and, false_or, implies_true, and_true]
    · refine iff_of_false ?_ (by simp [hstores, hrefused])
      rintro ⟨env', henv', -⟩
      rw [hcall] at henv'
      cases henv'

theorem effect_unsetenv_iff :
    Effect P env (.unsetenv name) ↔ Safe env (.unsetenv name) := by
  have hself : getenv name (unsetenv env name) = none := by
    rw [getenv_unsetenv]
    split
    · assumption
    · exact getenv_before_self env
  have hafter : ∀ other, getenv other (unsetenv env name) = getenv other (before name env) := by
    intro other
    rw [getenv_unsetenv]
    split
    · rename_i hnone
      exact (getenv_before_of_none hnone other).symm
    · rfl
  simp only [Effect, call, Option.some.injEq, exists_eq_left', hself, true_and, hafter, Safe]
  refine forall₂_congr fun other _ => ?_
  cases hbefore : getenv other (before name env) with
  | none => cases getenv other env <;> simp
  | some v => simp [getenv_of_before hbefore]

theorem effect_iff_safe (c : Call) : Effect P env c ↔ Safe env c := by
  cases c with
  | setenv => exact effect_setenv_iff
  | unsetenv => exact effect_unsetenv_iff

end Call

/-- **The environment behaves as a map**, in every sequence of calls from any environment, exactly
as long as each of them is made in an environment in which it is safe. -/
theorem environment_is_map_iff (P : Putenv) (env : Slots) (calls : List Call) :
    (∀ p ∈ (machine P).trace env calls, Effect P p.1 p.2) ↔
      ∀ p ∈ (machine P).trace env calls, Safe p.1 p.2 :=
  forall₂_congr fun p _ => effect_iff_safe p.2

/-! ### Calls that go right and calls that go wrong -/

/-- The name `A`. -/
def nameA : Name := ⟨[65], by decide⟩

/-- The name `B`. -/
def nameB : Name := ⟨[66], by decide⟩

/-- The value `1`. -/
def one : Str := ⟨[49], by decide⟩

/-- `B` is set, where `malloc` gives one byte more than it is asked for, and unset again. -/
def setAndUnset : List Call :=
  [.setenv nameB one 1 ⟨fun n => some (n + 1), true⟩, .unsetenv nameB]

/-- `B` is the last variable, so that it can be unset without harm to `A`. -/
theorem environment_is_map_iff_setAndUnset :
    (machine inPlace).exec [some (definition nameA one)] setAndUnset =
        some [some (definition nameA one), none] ∧
      ∀ p ∈ (machine inPlace).trace [some (definition nameA one)] setAndUnset,
        Effect inPlace p.1 p.2 := by
  refine ⟨rfl, (environment_is_map_iff inPlace _ _).mpr ?_⟩
  have htrace : (machine inPlace).trace [some (definition nameA one)] setAndUnset =
      [([some (definition nameA one)], .setenv nameB one 1 ⟨fun n => some (n + 1), true⟩),
        ([some (definition nameA one), some (definition nameB one)], .unsetenv nameB)] := rfl
  rw [htrace, List.forall_mem_cons, List.forall_mem_singleton]
  refine ⟨.inr (.inl ⟨_, rfl, by decide, rfl⟩), fun other hne hsome => ?_⟩
  have hB := defines_eq_false (defines_definition nameB one) hne
  have hbefore : before nameB [some (definition nameA one), some (definition nameB one)] =
      [some (definition nameA one)] := rfl
  simpa [hbefore, getenv, hB] using hsome

/-- After `unsetenv("A")` the variable behind it is gone as well; and where `malloc` gives no more
than it is asked for, the string that `setenv` builds does not fit its block. -/
theorem unset_loses_next :
    getenv nameB [some (definition nameA one), some (definition nameB one)] = some one.val ∧
      getenv nameB (unsetenv [some (definition nameA one), some (definition nameB one)] nameA) =
        none ∧
      call inPlace [] (.setenv nameA one 1 ⟨some, true⟩) = none := by
  decide

end Environ

end Tlpiexer
