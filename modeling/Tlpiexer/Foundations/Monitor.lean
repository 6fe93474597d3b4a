import Tlpiexer.Foundations.Mutex

/-!
# Objects behind one mutex

An object offers operations to any number of threads and protects its memory by one mutex: an
operation locks it, works on the memory in as many small steps as it likes, and leaves the
protected code through the `unlock` or by an early `return`.

## What is meant by atomic

`Spec.Run` produces histories, which are lists of calls and returns. Between its call and its
return an operation has its whole effect in one instant (`Spec.Run.effect`), which no history
shows. A history that such a run can produce is linearizable: the instants order the operations,
each result is the one of that order, and an operation that has returned before another is called
comes before it, because its instant does.

## The simulation

`Sim` relates a state of the threads to a state of the atomic object. While a thread is in the
protected code, the memory is what its operation has made so far of a memory that represents the
abstract state (`Code.Within`). The abstract effect takes place when the protected code is left.

## What callers owe to the object

Code may rely on its callers, and what it relies on is often not about one call: two calls must not
hand over the same memory, say. `Implements` therefore has a condition on each operation and one on
any two of them, and the memory is represented relative to the operations that have been executed
so far. `simulates` asks for the conditions on the calls of the run alone, in whatever order the
operations came to be executed; `Separate` carries them to the operation that is about to be.

## Main results

* `simulates` — every run of the threads has a history of the atomic object
* `Sim.exists_step` — the protected code never faults
-/

namespace Monitor

open Transition Mutex

variable {T Op R S L M : Type*}

/-! ### Atomic objects -/

/-- What the callers of an object see. -/
inductive Event (T Op R : Type*)
  | call (t : T) (op : Op)
  | ret (t : T) (r : R)

/-- An object, by the effects its operations may have. -/
structure Spec (S Op R : Type*) where
  init : S → Prop
  /-- In the first state the operation may answer `r` and leave the second state behind. -/
  effect : S → Op → R → S → Prop

/-- How far a thread has got with its operation. -/
inductive Status (Op R : Type*)
  | idle
  | called (op : Op)
  /-- The operation has had its effect and is still to return. -/
  | done (r : R)

/-- `P.Run h st S`: threads whose operations take effect in one instant can produce the history
`h`, and then stand as `st` says, with the object in state `S`. -/
inductive Spec.Run [DecidableEq T] (P : Spec S Op R) :
    List (Event T Op R) → (T → Status Op R) → S → Prop
  | start {S₀ : S} (hS : P.init S₀) : P.Run [] (fun _ => .idle) S₀
  | call {h : List (Event T Op R)} {st : T → Status Op R} {S₁ : S} (hrun : P.Run h st S₁)
      {t : T} (op : Op) (hst : st t = .idle) :
      P.Run (h ++ [.call t op]) (Function.update st t (.called op)) S₁
  | effect {h : List (Event T Op R)} {st : T → Status Op R} {S₁ S₂ : S} (hrun : P.Run h st S₁)
      {t : T} {op : Op} {r : R} (hst : st t = .called op) (heffect : P.effect S₁ op r S₂) :
      P.Run h (Function.update st t (.done r)) S₂
  | ret {h : List (Event T Op R)} {st : T → Status Op R} {S₁ : S} (hrun : P.Run h st S₁)
      {t : T} {r : R} (hst : st t = .done r) :
      P.Run (h ++ [.ret t r]) (Function.update st t .idle) S₁

/-! ### Code behind a mutex -/

/-- How the protected code is left, with the value the operation returns. -/
inductive Exit (R : Type*)
  | unlock (r : R)
  | early (r : R)

/-- The value returned. -/
def Exit.ret : Exit R → R
  | .unlock r => r
  | .early r => r

/-- The code of an object's operations. -/
structure Code (Op L M R : Type*) where
  /-- What an operation does first: it goes to lock the mutex, and then starts the protected code
  in a local state, or it returns at once. -/
  enter : Op → L ⊕ R
  /-- One step of the protected code on the memory; `none` is a fault. -/
  step : L → M → Option ((L ⊕ Exit R) × M)

namespace Code

variable {C : Code Op L M R} {l l₀ l' : L} {m m₀ m' m'' : M} {e e' : Exit R}

/-- The protected code, started in `l₀` on `m₀`, is now in `l` with the memory `m`. -/
inductive Within (C : Code Op L M R) (l₀ : L) (m₀ : M) : L → M → Prop
  | start : Within C l₀ m₀ l₀ m₀
  | step {l l' : L} {m m' : M} (h : Within C l₀ m₀ l m) (hstep : C.step l m = some (.inl l', m')) :
      Within C l₀ m₀ l' m'

/-- The protected code, started in `l` on `m`, is left by `e` with the memory `m'`. -/
inductive Exec (C : Code Op L M R) : L → M → Exit R → M → Prop
  | exit {l : L} {m m' : M} {e : Exit R} (h : C.step l m = some (.inr e, m')) : Exec C l m e m'
  | step {l l' : L} {m m' m'' : M} {e : Exit R} (h : C.step l m = some (.inl l', m'))
      (hrest : Exec C l' m' e m'') : Exec C l m e m''

theorem Within.trans (h : C.Within l₀ m₀ l m) (h' : C.Within l m l' m') :
    C.Within l₀ m₀ l' m' := by
  induction h' with
  | start => exact h
  | step _ hstep ih => exact ih.step hstep

theorem Exec.of_within (h : C.Within l₀ m₀ l m) (h' : C.Exec l m e m') : C.Exec l₀ m₀ e m' := by
  induction h with
  | start => exact h'
  | step _ hstep ih => exact ih (.step hstep h')

/-- The first `n` steps of the protected code, or fewer if it is left before. -/
def advance (C : Code Op L M R) : ℕ → L → M → Option ((L ⊕ Exit R) × M)
  | 0, l, m => some (.inl l, m)
  | n + 1, l, m => (C.step l m).bind fun r =>
    match r with
    | (.inl l', m') => advance C n l' m'
    | (.inr e, m') => some (.inr e, m')

theorem Within.of_advance {n : ℕ} (h : C.advance n l m = some (.inl l', m')) :
    C.Within l m l' m' := by
  induction n generalizing l m with
  | zero =>
    cases h
    exact .start
  | succ n ih =>
    obtain ⟨⟨l₁ | e, m₁⟩, hstep, hrest⟩ := Option.bind_eq_some_iff.mp h
    · exact Within.trans (.step .start hstep) (ih hrest)
    · cases hrest

theorem Exec.of_advance {n : ℕ} (h : C.advance n l m = some (.inr e, m')) :
    C.Exec l m e m' := by
  induction n generalizing l m with
  | zero => cases h
  | succ n ih =>
    obtain ⟨⟨l₁ | e₁, m₁⟩, hstep, hrest⟩ := Option.bind_eq_some_iff.mp h
    · exact .step hstep (ih hrest)
    · cases hrest
      exact .exit hstep

/-- A step of an execution is the first step of what is left of it. -/
theorem Exec.tail (h : C.Exec l m e m'') (hstep : C.step l m = some (.inl l', m')) :
    C.Exec l' m' e m'' := by
  cases h with
  | exit hexit => cases hstep.symm.trans hexit
  | step hfirst hrest =>
    cases hstep.symm.trans hfirst
    exact hrest

/-- The code is deterministic, so an execution passes through whatever the code gets to. -/
theorem Exec.within (h : C.Exec l₀ m₀ e m'') (h' : C.Within l₀ m₀ l m) : C.Exec l m e m'' := by
  induction h' with
  | start => exact h
  | step _ hstep ih => exact ih.tail hstep

theorem Exec.step_ne_none (h : C.Exec l m e m') : C.step l m ≠ none := by
  cases h with
  | exit hexit => simp [hexit]
  | step hfirst _ => simp [hfirst]

theorem Exec.exit_eq (h : C.Exec l m e m') (hexit : C.step l m = some (.inr e', m'')) :
    e = e' ∧ m' = m'' := by
  cases h with
  | exit hexit' =>
    cases hexit.symm.trans hexit'
    exact ⟨rfl, rfl⟩
  | step hfirst _ => cases hexit.symm.trans hfirst

end Code

/-- The code computes effects of the object: on a memory that represents an abstract state every
operation ends, answers as the object may, and leaves a memory that represents the state after
it. It may count on the operation being sound, and apart from those executed before. -/
structure Implements (C : Code Op L M R) (P : Spec S Op R) (Rep : List Op → M → S → Prop)
    (Sound : Op → Prop) (Apart : Op → Op → Prop) : Prop where
  refuse {op : Op} {r : R} : C.enter op = .inr r → ∀ S₁, P.effect S₁ op r S₁
  body {op : Op} {past : List Op} {l : L} {m : M} {S₁ : S} : C.enter op = .inl l → Sound op →
    (∀ o ∈ past, Apart o op) → Rep past m S₁ →
    ∃ e m' S₂, C.Exec l m e m' ∧ P.effect S₁ op e.ret S₂ ∧ Rep (op :: past) m' S₂

/-! ### Threads -/

/-- Where a thread is. -/
inductive Pc (Op L R : Type*)
  | outside
  /-- At the start of an operation. -/
  | entered (op : Op)
  /-- In the protected code. -/
  | inside (op : Op) (l : L)
  /-- At the `unlock`. -/
  | unlocking (r : R)
  /-- At a `return`. -/
  | returning (r : R)

/-- Between `lock` and the place where the protected code is left. -/
def Pc.Locked : Pc Op L R → Prop
  | .inside _ _ => True
  | .unlocking _ => True
  | _ => False

/-- How far the thread's operation has got, as its caller may imagine it. -/
def Pc.status : Pc Op L R → Status Op R
  | .outside => .idle
  | .entered op => .called op
  | .inside op _ => .called op
  | .unlocking r => .done r
  | .returning r => .done r

/-- The operation that has been called and not been executed yet. -/
def Pc.pending : Pc Op L R → Option Op
  | .entered op => some op
  | .inside op _ => some op
  | _ => none

/-- The threads and what they share. -/
structure State (T Op L M R : Type*) where
  mem : M
  mutex : Option T
  pc : T → Pc Op L R

/-- What happens next: a thread calls an operation, or takes its next step. -/
inductive Label (T Op : Type*)
  | call (t : T) (op : Op)
  | run (t : T)

section Threads

variable [DecidableEq T] {C : Code Op L M R} {P : Spec S Op R} {Rep : List Op → M → S → Prop}
  {Sound : Op → Prop} {Apart : Op → Op → Prop}

/-- Thread `t` moves to `c`. -/
def State.goto (s : State T Op L M R) (t : T) (c : Pc Op L R) : State T Op L M R :=
  { s with pc := Function.update s.pc t c }

/-- One step of a thread. -/
def State.run (C : Code Op L M R) (s : State T Op L M R) (t : T) : Option (State T Op L M R) :=
  match s.pc t with
  | .outside => none
  | .entered op =>
    match C.enter op with
    | .inr r => some (s.goto t (.returning r))
    | .inl l =>
      if s.mutex = none then some { s.goto t (.inside op l) with mutex := some t } else none
  | .inside op l =>
    match C.step l s.mem with
    | none => none
    | some (.inl l', m) => some { s.goto t (.inside op l') with mem := m }
    | some (.inr (.unlock r), m) => some { s.goto t (.unlocking r) with mem := m }
    | some (.inr (.early r), m) => some { s.goto t (.returning r) with mem := m }
  | .unlocking r => some { s.goto t (.returning r) with mutex := none }
  | .returning _ => some (s.goto t .outside)

/-- One step of the program. -/
def State.step (C : Code Op L M R) (s : State T Op L M R) :
    Label T Op → Option (State T Op L M R)
  | .call t op =>
    match s.pc t with
    | .outside => some (s.goto t (.entered op))
    | _ => none
  | .run t => s.run C t

/-- The program, started with an initial memory and no thread in an operation. -/
def machine (T : Type*) [DecidableEq T] (C : Code Op L M R) (init : M → Prop) :
    Machine (State T Op L M R) (Label T Op) where
  init s := init s.mem ∧ s.mutex = none ∧ ∀ t, s.pc t = .outside
  step := State.step C

/-- What a step shows to the callers. -/
def event (s : State T Op L M R) : Label T Op → Option (Event T Op R)
  | .call t op => some (.call t op)
  | .run t =>
    match s.pc t with
    | .returning r => some (.ret t r)
    | _ => none

/-- The calls and returns of a run. -/
def history (tr : List (State T Op L M R × Label T Op)) : List (Event T Op R) :=
  tr.filterMap fun p => event p.1 p.2

omit [DecidableEq T] in
theorem history_concat (tr : List (State T Op L M R × Label T Op)) (s : State T Op L M R)
    (a : Label T Op) : history (tr ++ [(s, a)]) = history tr ++ (event s a).toList := by
  rw [history, List.filterMap_append]
  cases h : event s a <;> simp [history, h]

/-- The operation a step calls. -/
def Label.op? : Label T Op → Option Op
  | .call _ op => some op
  | .run _ => none

/-- The operations called in a run. -/
def calls (tr : List (State T Op L M R × Label T Op)) : List Op := tr.filterMap fun p => p.2.op?

omit [DecidableEq T] in
theorem calls_concat (tr : List (State T Op L M R × Label T Op)) (s : State T Op L M R)
    (a : Label T Op) : calls (tr ++ [(s, a)]) = calls tr ++ a.op?.toList := by
  rw [calls, List.filterMap_append]
  cases a <;> rfl

/-- The steps of thread `t` in state `s`. -/
inductive Move (C : Code Op L M R) (s : State T Op L M R) (t : T) : State T Op L M R → Prop
  | refuse {op : Op} {r : R} (hpc : s.pc t = .entered op) (henter : C.enter op = .inr r) :
      Move C s t (s.goto t (.returning r))
  | lock {op : Op} {l : L} (hpc : s.pc t = .entered op) (henter : C.enter op = .inl l)
      (free : s.mutex = none) : Move C s t { s.goto t (.inside op l) with mutex := some t }
  | work {op : Op} {l l' : L} {m : M} (hpc : s.pc t = .inside op l)
      (hstep : C.step l s.mem = some (.inl l', m)) :
      Move C s t { s.goto t (.inside op l') with mem := m }
  | leave {op : Op} {l : L} {r : R} {m : M} (hpc : s.pc t = .inside op l)
      (hstep : C.step l s.mem = some (.inr (.unlock r), m)) :
      Move C s t { s.goto t (.unlocking r) with mem := m }
  | early {op : Op} {l : L} {r : R} {m : M} (hpc : s.pc t = .inside op l)
      (hstep : C.step l s.mem = some (.inr (.early r), m)) :
      Move C s t { s.goto t (.returning r) with mem := m }
  | unlock {r : R} (hpc : s.pc t = .unlocking r) :
      Move C s t { s.goto t (.returning r) with mutex := none }
  | ret {r : R} (hpc : s.pc t = .returning r) : Move C s t (s.goto t .outside)

variable {s s' : State T Op L M R} {t : T} {a : Label T Op}

theorem move_of_run (h : s.run C t = some s') : Move C s t s' := by
  unfold State.run at h
  split at h
  case h_1 => cases h
  case h_2 hpc =>
    split at h
    case h_1 henter => cases h; exact .refuse hpc henter
    case h_2 henter =>
      split at h
      case isTrue free => cases h; exact .lock hpc henter free
      case isFalse => cases h
  case h_3 hpc =>
    split at h
    case h_1 => cases h
    case h_2 hstep => cases h; exact .work hpc hstep
    case h_3 hstep => cases h; exact .leave hpc hstep
    case h_4 hstep => cases h; exact .early hpc hstep
  case h_4 hpc => cases h; exact .unlock hpc
  case h_5 hpc => cases h; exact .ret hpc

theorem call_step {op : Op} (h : s.step C (.call t op) = some s') :
    s.pc t = .outside ∧ s' = s.goto t (.entered op) := by
  rw [State.step] at h
  split at h
  case h_1 hpc => exact ⟨hpc, (Option.some.inj h).symm⟩
  case h_2 => cases h

/-! ### Mutual exclusion -/

/-- The mutex, and who is in the code it protects. -/
def view (T Op L M R : Type*) : View (State T Op L M R) T := .ofPc State.mutex State.pc Pc.Locked

theorem step_or_leak (hstep : s.step C a = some s') :
    (view T Op L M R).Step s s' ∨ ∃ t, (view T Op L M R).Leak s s' t := by
  cases a with
  | call t op =>
    obtain ⟨hpc, rfl⟩ := call_step hstep
    exact .inl (View.stay_of_update rfl rfl (by simp [hpc, Pc.Locked]))
  | run t =>
    cases move_of_run hstep with
    | refuse hpc _ => exact .inl (View.stay_of_update rfl rfl (by simp [hpc, Pc.Locked]))
    | lock hpc _ free => exact .inl (View.acquire_of_update free rfl rfl trivial)
    | work hpc _ => exact .inl (View.stay_of_update rfl rfl (by simp [hpc, Pc.Locked]))
    | leave hpc _ => exact .inl (View.stay_of_update rfl rfl (by simp [hpc, Pc.Locked]))
    | early hpc _ => exact .inr ⟨t, View.leak_of_update rfl (by simp [hpc, Pc.Locked]) rfl id⟩
    | unlock hpc => exact .inl (View.release_of_update (by simp [hpc, Pc.Locked]) rfl rfl id)
    | ret hpc => exact .inl (View.stay_of_update rfl rfl (by simp [hpc, Pc.Locked]))

theorem safe_step (hs : (view T Op L M R).Safe s) (hstep : s.step C a = some s') :
    (view T Op L M R).Safe s' := by
  rcases step_or_leak hstep with h | ⟨t, h⟩
  · exact h.safe hs
  · exact h.safe hs

/-! ### What the callers owe -/

/-- Of the operations that were called, those executed and those still to be executed are apart from
each other. -/
structure Separate (Apart : Op → Op → Prop) (called past : List Op) (s : State T Op L M R) :
    Prop where
  past_called : ∀ o ∈ past, o ∈ called
  pending_called : ∀ t op, (s.pc t).pending = some op → op ∈ called
  past_pending : ∀ t op, (s.pc t).pending = some op → ∀ o ∈ past, Apart o op
  pending_pending : ∀ t u op op', t ≠ u → (s.pc t).pending = some op →
    (s.pc u).pending = some op' → Apart op op'

namespace Separate

variable {called past : List Op} {op : Op} {c : Pc Op L R}

/-- A pending operation of another thread is what it was. -/
theorem pending_of_update {u : T} (hpc : s'.pc = Function.update s.pc t c) (hut : u ≠ t) :
    (s'.pc u).pending = (s.pc u).pending := by
  rw [hpc, Function.update_of_ne hut]

/-- A step that calls nothing and executes nothing. -/
theorem keep (h : Separate Apart called past s) (hpc : s'.pc = Function.update s.pc t c)
    (hc : ∀ op, c.pending = some op → (s.pc t).pending = some op) :
    Separate Apart called past s' := by
  have hback : ∀ u op, (s'.pc u).pending = some op → (s.pc u).pending = some op := by
    intro u op hu
    by_cases hut : u = t
    · subst hut
      rw [hpc, Function.update_self] at hu
      exact hc op hu
    · rwa [pending_of_update hpc hut] at hu
  exact ⟨h.past_called, fun u op hu => h.pending_called u op (hback u op hu),
    fun u op hu => h.past_pending u op (hback u op hu),
    fun u v op op' huv hu hv => h.pending_pending u v op op' huv (hback u op hu) (hback v op' hv)⟩

/-- A pending operation is executed. -/
theorem execute (h : Separate Apart called past s) (hpc : s'.pc = Function.update s.pc t c)
    (hop : (s.pc t).pending = some op) (hc : c.pending = none) :
    Separate Apart called (op :: past) s' := by
  have hkeep : Separate Apart called past s' := h.keep hpc (by simp [hc])
  refine ⟨?_, hkeep.pending_called, fun u op' hu o ho => ?_, hkeep.pending_pending⟩
  · exact List.forall_mem_cons.mpr ⟨h.pending_called t op hop, h.past_called⟩
  · rcases List.mem_cons.mp ho with rfl | ho
    · have hut : u ≠ t := by
        rintro rfl
        rw [hpc, Function.update_self, hc] at hu
        cases hu
      rw [pending_of_update hpc hut] at hu
      exact h.pending_pending t u o op' hut.symm hop hu
    · exact hkeep.past_pending u op' hu o ho

/-- An operation is called that is apart from all that were called before. -/
theorem call (h : Separate Apart called past s) (hsymm : ∀ o o', Apart o o' → Apart o' o)
    (hpc : s'.pc = Function.update s.pc t c) (hc : c.pending = some op)
    (hapart : ∀ o ∈ called, Apart o op) : Separate Apart (called ++ [op]) past s' := by
  have hnew : ∀ op', (s'.pc t).pending = some op' → op = op' := by
    intro op' hop'
    rw [hpc, Function.update_self, hc] at hop'
    exact Option.some.inj hop'
  have hold : ∀ u op', u ≠ t → (s'.pc u).pending = some op' → (s.pc u).pending = some op' :=
    fun u op' hut hu => by rwa [pending_of_update hpc hut] at hu
  refine ⟨fun o ho => List.mem_append_left _ (h.past_called o ho), fun u op' hu => ?_,
    fun u op' hu o ho => ?_, fun u v op' op'' huv hu hv => ?_⟩
  · by_cases hut : u = t
    · subst hut
      simp [hnew op' hu]
    · exact List.mem_append_left _ (h.pending_called u op' (hold u op' hut hu))
  · by_cases hut : u = t
    · subst hut
      exact hnew op' hu ▸ hapart o (h.past_called o ho)
    · exact h.past_pending u op' (hold u op' hut hu) o ho
  · by_cases hut : u = t
    · subst hut
      have hv' := hold v op'' huv.symm hv
      exact hnew op' hu ▸ hsymm _ _ (hapart _ (h.pending_called v op'' hv'))
    · by_cases hvt : v = t
      · subst hvt
        exact hnew op'' hv ▸ hapart _ (h.pending_called u op' (hold u op' hut hu))
      · exact h.pending_pending u v op' op'' huv (hold u op' hut hu) (hold v op'' hvt hv)

end Separate

/-! ### The simulation -/

/-- `s` is a state of threads that work on an object in state `S₁`, after they have executed the
operations `past`. -/
structure Sim (C : Code Op L M R) (Rep : List Op → M → S → Prop) (past : List Op)
    (s : State T Op L M R) (S₁ : S) : Prop where
  safe : (view T Op L M R).Safe s
  /-- With nobody in the protected code the memory represents the object. -/
  quiet : (∀ t op l, s.pc t ≠ .inside op l) → Rep past s.mem S₁
  /-- Somebody in the protected code started from a memory that does. -/
  busy : ∀ t op l, s.pc t = .inside op l →
    ∃ l₀ m₀, C.enter op = .inl l₀ ∧ Rep past m₀ S₁ ∧ C.Within l₀ m₀ l s.mem

/-- The status of every thread. -/
def State.status (s : State T Op L M R) : T → Status Op R := fun t => (s.pc t).status

theorem status_of_update {c : Pc Op L R} (hpc : s'.pc = Function.update s.pc t c) :
    s'.status = Function.update s.status t c.status := by
  funext u
  by_cases hu : u = t
  · subst hu; simp [State.status, hpc]
  · simp [State.status, hpc, hu]

/-- A step that changes nothing the callers can know keeps all statuses. -/
theorem status_of_update_same {c : Pc Op L R} (hpc : s'.pc = Function.update s.pc t c)
    (h : c.status = (s.pc t).status) : s'.status = s.status := by
  rw [status_of_update hpc, h]
  exact Function.update_eq_self t s.status

namespace Sim

variable {S₁ S₂ : S} {called past past' : List Op}

omit [DecidableEq T] in
/-- Only one thread is in the protected code. -/
theorem eq_of_inside (h : Sim C Rep past s S₁) {u : T} {op op' : Op} {l l' : L}
    (ht : s.pc t = .inside op l) (hu : s.pc u = .inside op' l') : u = t :=
  h.safe.unique (by simp [view, View.ofPc, hu, Pc.Locked])
    (by simp [view, View.ofPc, ht, Pc.Locked])

omit [DecidableEq T] in
/-- Nobody is in the protected code while the mutex is free. -/
theorem not_inside (h : Sim C Rep past s S₁) (free : s.mutex = none) (u : T) (op : Op) (l : L) :
    s.pc u ≠ .inside op l := by
  intro hu
  have hholds : (view T Op L M R).holds s u := by simp [view, View.ofPc, hu, Pc.Locked]
  cases free.symm.trans (h.safe u hholds)

omit [DecidableEq T] in
/-- The operation somebody is in can be executed to its end. -/
theorem exists_exec (hC : Implements C P Rep Sound Apart) (h : Sim C Rep past s S₁)
    (hown : Separate Apart called past s) (hsound : ∀ op ∈ called, Sound op) {op : Op} {l : L}
    (ht : s.pc t = .inside op l) :
    ∃ e m' S₂, C.Exec l s.mem e m' ∧ P.effect S₁ op e.ret S₂ ∧ Rep (op :: past) m' S₂ := by
  have hpending : (s.pc t).pending = some op := by rw [ht]; rfl
  obtain ⟨l₀, m₀, henter, hrep, hwithin⟩ := h.busy t op l ht
  obtain ⟨e, m', S₂, hexec, heffect, hrep'⟩ :=
    hC.body henter (hsound op (hown.pending_called t op hpending)) (hown.past_pending t op hpending)
      hrep
  exact ⟨e, m', S₂, hexec.within hwithin, heffect, hrep'⟩

omit [DecidableEq T] in
/-- **The protected code never faults.** -/
theorem exists_step (hC : Implements C P Rep Sound Apart) (h : Sim C Rep past s S₁)
    (hown : Separate Apart called past s) (hsound : ∀ op ∈ called, Sound op) {op : Op} {l : L}
    (ht : s.pc t = .inside op l) : C.step l s.mem ≠ none := by
  obtain ⟨e, m', S₂, hexec, -⟩ := h.exists_exec hC hown hsound ht
  exact hexec.step_ne_none

/-- A step of a thread outside the protected code that leaves it there. -/
theorem goto (h : Sim C Rep past s S₁) {c : Pc Op L R} {mutex : Option T}
    (hsafe : (view T Op L M R).Safe { s.goto t c with mutex := mutex })
    (hpc : ∀ op l, s.pc t ≠ .inside op l) (hc : ∀ op l, c ≠ .inside op l) :
    Sim C Rep past { s.goto t c with mutex := mutex } S₁ := by
  refine ⟨hsafe, fun hquiet => h.quiet fun u op l hu => ?_, fun u op l hu => ?_⟩
  · by_cases hut : u = t
    · exact hpc op l (hut ▸ hu)
    · exact hquiet u op l (by simpa [State.goto, hut] using hu)
  · by_cases hut : u = t
    · subst hut
      exact absurd (by simpa [State.goto] using hu) (hc op l)
    · exact h.busy u op l (by simpa [State.goto, hut] using hu)

/-- A thread leaves the protected code with a memory that represents the object. -/
theorem leave (h : Sim C Rep past s S₁) {op : Op} {l : L} {c : Pc Op L R} {m : M}
    (hsafe : (view T Op L M R).Safe { s.goto t c with mem := m })
    (hpc : s.pc t = .inside op l) (hc : ∀ op l, c ≠ .inside op l) (hrep : Rep past' m S₂) :
    Sim C Rep past' { s.goto t c with mem := m } S₂ := by
  refine ⟨hsafe, fun _ => hrep, fun u op' l' hu => ?_⟩
  by_cases hut : u = t
  · subst hut
    exact absurd (by simpa [State.goto] using hu) (hc op' l')
  · exact absurd (h.eq_of_inside hpc (by simpa [State.goto, hut] using hu)) hut

/-- A thread goes on in the protected code, or enters it. -/
theorem of_inside (hsafe : (view T Op L M R).Safe s') {op : Op} {l : L}
    (hpc : s'.pc = Function.update s.pc t (.inside op l))
    (hothers : ∀ u op l, u ≠ t → s.pc u ≠ .inside op l)
    (hbusy : ∃ l₀ m₀, C.enter op = .inl l₀ ∧ Rep past m₀ S₁ ∧ C.Within l₀ m₀ l s'.mem) :
    Sim C Rep past s' S₁ := by
  refine ⟨hsafe, fun hquiet => absurd (by simp [hpc]) (hquiet t op l), fun u op' l' hu => ?_⟩
  by_cases hut : u = t
  · subst hut
    obtain ⟨rfl, rfl⟩ : op = op' ∧ l = l' := by simpa [hpc] using hu
    exact hbusy
  · exact absurd (by simpa [hpc, hut] using hu) (hothers u op' l' hut)

/-- **One step.** What a step of the threads shows, the atomic object can show as well. -/
theorem step (hC : Implements C P Rep Sound Apart) (hsymm : ∀ o o', Apart o o' → Apart o' o)
    (h : Sim C Rep past s S₁) (hown : Separate Apart called past s)
    (hsound : ∀ op ∈ called ++ a.op?.toList, Sound op)
    (hapart : (called ++ a.op?.toList).Pairwise Apart) (hstep : s.step C a = some s')
    {hist : List (Event T Op R)} (hhist : P.Run hist s.status S₁) :
    ∃ past' S₂, P.Run (hist ++ (event s a).toList) s'.status S₂ ∧ Sim C Rep past' s' S₂ ∧
      Separate Apart (called ++ a.op?.toList) past' s' := by
  have hsafe := safe_step h.safe hstep
  cases a with
  | call t op =>
    obtain ⟨hpc, rfl⟩ := call_step hstep
    have hnew : ∀ o ∈ called, Apart o op := fun o ho =>
      (List.pairwise_append.mp hapart).2.2 o ho op (by simp [Label.op?])
    refine ⟨past, S₁, ?_, h.goto hsafe (by simp [hpc]) (by simp), hown.call hsymm rfl rfl hnew⟩
    rw [status_of_update rfl]
    exact hhist.call op (by rw [State.status, hpc]; rfl)
  | run t =>
    rw [Label.op?, Option.toList_none, List.append_nil] at hsound ⊢
    cases move_of_run hstep with
    | refuse hpc henter =>
      refine ⟨past, S₁, ?_, h.goto hsafe (by simp [hpc]) (by simp),
        hown.keep rfl (by simp [Pc.pending])⟩
      rw [status_of_update rfl, event, hpc, Option.toList_none, List.append_nil]
      exact hhist.effect (by rw [State.status, hpc]; rfl) (hC.refuse henter S₁)
    | lock hpc henter free =>
      have hrep := h.quiet (h.not_inside free)
      refine ⟨past, S₁, ?_, of_inside hsafe rfl (fun u op l _ => h.not_inside free u op l)
        ⟨_, _, henter, hrep, .start⟩, hown.keep rfl (by simp [hpc, Pc.pending])⟩
      rw [status_of_update_same rfl (by rw [hpc]; rfl), event, hpc, Option.toList_none,
        List.append_nil]
      exact hhist
    | work hpc hwork =>
      obtain ⟨l₀, m₀, henter, hrep, hwithin⟩ := h.busy t _ _ hpc
      refine ⟨past, S₁, ?_, of_inside hsafe rfl (fun u op l hut hu => hut (h.eq_of_inside hpc hu))
        ⟨l₀, m₀, henter, hrep, hwithin.step hwork⟩, hown.keep rfl (by simp [hpc, Pc.pending])⟩
      rw [status_of_update_same rfl (by rw [hpc]; rfl), event, hpc, Option.toList_none,
        List.append_nil]
      exact hhist
    | leave hpc hleave =>
      obtain ⟨e, m', S₂, hexec, heffect, hrep⟩ := h.exists_exec hC hown hsound hpc
      obtain ⟨rfl, rfl⟩ := hexec.exit_eq hleave
      refine ⟨_, S₂, ?_, h.leave hsafe hpc (by simp) hrep,
        hown.execute rfl (by rw [hpc]; rfl) rfl⟩
      rw [status_of_update rfl, event, hpc, Option.toList_none, List.append_nil]
      exact hhist.effect (by rw [State.status, hpc]; rfl) heffect
    | early hpc hleave =>
      obtain ⟨e, m', S₂, hexec, heffect, hrep⟩ := h.exists_exec hC hown hsound hpc
      obtain ⟨rfl, rfl⟩ := hexec.exit_eq hleave
      refine ⟨_, S₂, ?_, h.leave hsafe hpc (by simp) hrep,
        hown.execute rfl (by rw [hpc]; rfl) rfl⟩
      rw [status_of_update rfl, event, hpc, Option.toList_none, List.append_nil]
      exact hhist.effect (by rw [State.status, hpc]; rfl) heffect
    | unlock hpc =>
      refine ⟨past, S₁, ?_, h.goto hsafe (by simp [hpc]) (by simp),
        hown.keep rfl (by simp [Pc.pending])⟩
      rw [status_of_update_same rfl (by rw [hpc]; rfl), event, hpc, Option.toList_none,
        List.append_nil]
      exact hhist
    | ret hpc =>
      refine ⟨past, S₁, ?_, h.goto hsafe (by simp [hpc]) (by simp),
        hown.keep rfl (by simp [Pc.pending])⟩
      rw [status_of_update rfl, event, hpc]
      exact hhist.ret (by rw [State.status, hpc]; rfl)

end Sim

/-- **Code behind a mutex is atomic.** Whatever the threads do and however their steps interleave,
the calls and returns of a run are a history of the atomic object, if the operations called are
sound and apart from each other. -/
theorem simulates (hC : Implements C P Rep Sound Apart)
    (hsymm : ∀ o o', Apart o o' → Apart o' o) {init : M → Prop} {s₀ : State T Op L M R}
    (hinit : ∃ S₀, P.init S₀ ∧ Rep [] s₀.mem S₀) {tr : List (State T Op L M R × Label T Op)}
    (h₀ : (machine T C init).init s₀) (hrun : (machine T C init).Run s₀ tr s)
    (hsound : ∀ op ∈ calls tr, Sound op) (hapart : (calls tr).Pairwise Apart) :
    ∃ past S₁, P.Run (history tr) s.status S₁ ∧ Sim C Rep past s S₁ ∧
      Separate Apart (calls tr) past s := by
  induction hrun with
  | nil =>
    obtain ⟨-, -, hout⟩ := h₀
    obtain ⟨S₀, hS₀, hrep⟩ := hinit
    have hstatus : s₀.status = fun _ => .idle := by
      funext t
      rw [State.status, hout t]
      rfl
    refine ⟨[], S₀, hstatus ▸ .start hS₀, ⟨?_, fun _ => hrep, fun t op l ht => ?_⟩, ?_⟩
    · exact fun t ht => absurd ht (View.not_holds_of_pc_eq id hout t)
    · cases (hout t).symm.trans ht
    · exact ⟨by simp, by simp [hout, Pc.pending], by simp, by simp [hout, Pc.pending]⟩
  | @snoc tr s s' a _ hstep ih =>
    rw [calls_concat] at hsound hapart ⊢
    obtain ⟨past, S₁, hhist, hsim, hown⟩ :=
      ih (fun op hop => hsound op (List.mem_append_left _ hop)) (List.pairwise_append.mp hapart).1
    obtain ⟨past', S₂, hhist', hsim', hown'⟩ :=
      hsim.step hC hsymm hown hsound hapart hstep hhist
    refine ⟨past', S₂, ?_, hsim', hown'⟩
    rw [history_concat]
    exact hhist'

end Threads

end Monitor
