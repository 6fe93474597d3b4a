import Tlpiexer.Foundations.Mutex
import Tlpiexer.Tree.Elements

/-!
# The mutex of the tree

The three operations of `src/imp/30-02.c` run in any number of threads. A thread calls an
operation, waits for `root->mutex`, executes the code behind the lock, and then either unlocks the
mutex and returns, or returns straight away when that code was left by an early `return`.

The code behind the lock is one step. Nothing else reads or writes the elements while a thread is
there, since nobody else is behind the lock (`eq_of_locked`). A thread whose callers have freed too
much has no step there; `Tlpiexer.Tree.Linearizable` says when this does not happen.

## Where the mutex is lost

`tree_add` returns early when the key exists and when `malloc` fails, with the mutex locked. These
are the only such paths, and each of them is final: `mutex_eq_none_iff` says that the mutex of an
idle tree is free exactly if no `tree_add` has taken one of them.

## Main results

* `eq_of_locked` — no two threads are behind the lock
* `mutex_eq_none_iff` — when the mutex of an idle tree is free
* `not_idle_unlocked` — it is not always free
-/

namespace Tlpiexer

namespace Tree

open CString LinkedHeap Transition Mutex

/-! ### Threads -/

/-- An operation with its arguments. -/
inductive Op
  | add (malloc : Malloc TreeElem) (key : Key) (value : Ptr)
  | del (key : Key)
  | look (key : Key) (value : Ptr)

/-- The code of an operation behind its `pthread_mutex_lock`. -/
def Op.body (m : Mem) : Op → Option (Exit × Mem)
  | .add malloc key value => treeAddBody malloc key value m
  | .del key => treeDelBody key m
  | .look key value => (treeLookBody key value m).map fun r => (r.1, m)

/-- Where a thread is. -/
inductive Pc
  /-- In none of the operations. -/
  | outside
  /-- At the start of an operation. -/
  | entered (op : Op)
  /-- Behind `pthread_mutex_lock`. -/
  | locked (op : Op)
  /-- At `pthread_mutex_unlock`. -/
  | unlocking (ret : ℤ)
  /-- At a `return`. -/
  | returning (ret : ℤ)

/-- Between a successful `pthread_mutex_lock` and leaving the code behind it. -/
def Pc.Locked : Pc → Prop
  | .locked _ => True
  | .unlocking _ => True
  | _ => False

/-- The threads and what they share. -/
structure State (T : Type*) where
  mem : Mem
  /-- The holder of `root->mutex`. -/
  mutex : Option T
  pc : T → Pc

/-- What happens next: a thread calls an operation, or executes the next piece of its code. -/
inductive Label (T : Type*)
  | call (t : T) (op : Op)
  | run (t : T)

variable {T : Type*} [DecidableEq T]

/-- Thread `t` moves to `c`. -/
def State.goto (s : State T) (t : T) (c : Pc) : State T :=
  { s with pc := Function.update s.pc t c }

/-- One step of a thread. -/
def State.run (s : State T) (t : T) : Option (State T) :=
  match s.pc t with
  | .outside => none
  -- `tree_look` refuses to overwrite a value before it locks
  | .entered (.look _ (some _)) => some (s.goto t (.returning retFailure))
  | .entered op =>
    if s.mutex = none then some { s.goto t (.locked op) with mutex := some t } else none
  | .locked op =>
    match op.body s.mem with
    | none => none
    | some (.unlock ret, m) => some { s.goto t (.unlocking ret) with mem := m }
    | some (.early ret, m) => some { s.goto t (.returning ret) with mem := m }
  | .unlocking ret => some { s.goto t (.returning ret) with mutex := none }
  | .returning _ => some (s.goto t .outside)

/-- One step of the program. -/
def State.step (s : State T) : Label T → Option (State T)
  | .call t op =>
    match s.pc t with
    | .outside => some (s.goto t (.entered op))
    | _ => none
  | .run t => s.run t

/-- The program after `tree_init`, with every thread still to make its calls. -/
def machine (T : Type*) [DecidableEq T] : Machine (State T) (Label T) where
  init s := (∃ m, s.mem = (treeInit m).2) ∧ s.mutex = none ∧ ∀ t, s.pc t = .outside
  step := State.step

/-- No thread is inside one of the operations. -/
def State.Idle (s : State T) : Prop := ∀ t, s.pc t = .outside

/-- The mutex, and who is in the code it protects. -/
def view (T : Type*) : View (State T) T := .ofPc State.mutex State.pc Pc.Locked

/-! ### Early returns -/

/-- The step is a `tree_add` behind its lock that finds its key in the tree, or gets no memory. -/
def AddFails (s : State T) : Label T → Prop
  | .call _ _ => False
  | .run t => ∃ malloc key value, s.pc t = .locked (.add malloc key value) ∧
      ((∃ a, findKey s.mem key = some (some a)) ∨ malloc.alloc s.mem.heap = none)

/-- A body is left early exactly by a `tree_add` that fails. -/
theorem body_early {m m' : Mem} {op : Op} {ret : ℤ} (h : op.body m = some (.early ret, m')) :
    ∃ malloc key value, op = .add malloc key value ∧
      ((∃ a, findKey m key = some (some a)) ∨ malloc.alloc m.heap = none) := by
  cases op with
  | add malloc key value =>
    refine ⟨malloc, key, value, rfl, ?_⟩
    rw [Op.body, treeAddBody] at h
    obtain ⟨elem, hfind, h⟩ := Option.bind_eq_some_iff.mp h
    cases elem with
    | some a => exact .inl ⟨a, hfind⟩
    | none =>
      cases halloc : malloc.alloc m.heap with
      | none => exact .inr rfl
      | some a =>
        by_cases hfirst : m.root.first = none <;>
          simp [halloc, hfirst, Option.bind_eq_some_iff] at h
  | del key => simp [Op.body, treeDelBody, Option.bind_eq_some_iff] at h
  | look key value =>
    obtain ⟨r, hlook, hr⟩ := Option.map_eq_some_iff.mp h
    obtain ⟨elem, -, hrest⟩ := Option.bind_eq_some_iff.mp hlook
    obtain ⟨v, -, hv⟩ := Option.bind_eq_some_iff.mp hrest
    rw [← Option.some.inj hv] at hr
    cases hr

theorem body_unlock {m m' : Mem} {malloc : Malloc TreeElem} {key : Key} {value : Ptr} {ret : ℤ}
    (h : treeAddBody malloc key value m = some (.unlock ret, m')) :
    (∀ a, findKey m key ≠ some (some a)) ∧ malloc.alloc m.heap ≠ none := by
  refine ⟨fun a ha => ?_, fun hnone => ?_⟩
  · simp [treeAddBody, ha] at h
  · obtain ⟨elem, -, h⟩ := Option.bind_eq_some_iff.mp h
    by_cases helem : elem = none <;> simp [hnone, helem] at h

/-! ### What one step can do -/

/-- The steps of thread `t` in state `s`. -/
inductive Move (s : State T) (t : T) : State T → Prop
  | refuse {op : Op} (hpc : s.pc t = .entered op) : Move s t (s.goto t (.returning retFailure))
  | lock {op : Op} (hpc : s.pc t = .entered op) (free : s.mutex = none) :
      Move s t { s.goto t (.locked op) with mutex := some t }
  | leave {op : Op} {ret : ℤ} {m : Mem} (hpc : s.pc t = .locked op)
      (hbody : op.body s.mem = some (.unlock ret, m)) :
      Move s t { s.goto t (.unlocking ret) with mem := m }
  | early {op : Op} {ret : ℤ} {m : Mem} (hpc : s.pc t = .locked op)
      (hbody : op.body s.mem = some (.early ret, m)) :
      Move s t { s.goto t (.returning ret) with mem := m }
  | unlock {ret : ℤ} (hpc : s.pc t = .unlocking ret) :
      Move s t { s.goto t (.returning ret) with mutex := none }
  | ret {ret : ℤ} (hpc : s.pc t = .returning ret) : Move s t (s.goto t .outside)

theorem move_of_run {s s' : State T} {t : T} (h : s.run t = some s') : Move s t s' := by
  unfold State.run at h
  split at h
  case h_1 => cases h
  case h_2 hpc => cases h; exact .refuse hpc
  case h_3 hpc =>
    split at h
    case isTrue free => cases h; exact .lock hpc free
    case isFalse => cases h
  case h_4 hpc =>
    split at h
    case h_1 => cases h
    case h_2 hbody => cases h; exact .leave hpc hbody
    case h_3 hbody => cases h; exact .early hpc hbody
  case h_5 hpc => cases h; exact .unlock hpc
  case h_6 hpc => cases h; exact .ret hpc

theorem call_step {s s' : State T} {t : T} {op : Op} (h : s.step (.call t op) = some s') :
    s.pc t = .outside ∧ s' = s.goto t (.entered op) := by
  rw [State.step] at h
  split at h
  case h_1 hpc => exact ⟨hpc, (Option.some.inj h).symm⟩
  case h_2 => cases h

/-! ### The mutex -/

section Steps

variable {s s' : State T} {a : Label T}

theorem step_of_not_addFails (hstep : (machine T).step s a = some s') (h : ¬ AddFails s a) :
    (view T).Step s s' := by
  cases a with
  | call t op =>
    obtain ⟨hpc, rfl⟩ := call_step hstep
    exact View.stay_of_update rfl rfl (by simp [hpc, Pc.Locked])
  | run t =>
    cases move_of_run hstep with
    | refuse hpc => exact View.stay_of_update rfl rfl (by simp [hpc, Pc.Locked])
    | lock hpc free => exact View.acquire_of_update free rfl rfl trivial
    | leave hpc hbody => exact View.stay_of_update rfl rfl (by simp [hpc, Pc.Locked])
    | early hpc hbody =>
      obtain ⟨malloc, key, value, rfl, hfail⟩ := body_early hbody
      exact absurd ⟨malloc, key, value, hpc, hfail⟩ h
    | unlock hpc => exact View.release_of_update (by simp [hpc, Pc.Locked]) rfl rfl id
    | ret hpc => exact View.stay_of_update rfl rfl (by simp [hpc, Pc.Locked])

theorem leak_of_addFails (hstep : (machine T).step s a = some s') (h : AddFails s a) :
    ∃ t, (view T).Leak s s' t := by
  cases a with
  | call t op => exact absurd h id
  | run t =>
    obtain ⟨malloc, key, value, hadd, hfail⟩ := h
    cases move_of_run hstep with
    | leave hpc hbody =>
      cases hadd.symm.trans hpc
      obtain ⟨hfind, halloc⟩ := body_unlock hbody
      rcases hfail with ⟨a, ha⟩ | hnone
      · exact absurd ha (hfind a)
      · exact absurd hnone halloc
    | early hpc hbody =>
      exact ⟨t, View.leak_of_update rfl (by simp [hpc, Pc.Locked]) rfl id⟩
    | refuse hpc => cases hadd.symm.trans hpc
    | lock hpc free => cases hadd.symm.trans hpc
    | unlock hpc => cases hadd.symm.trans hpc
    | ret hpc => cases hadd.symm.trans hpc

end Steps

/-- **Mutual exclusion.** No two threads are behind the lock together, leaks or not. -/
theorem eq_of_locked {s : State T} (h : (machine T).Reachable s) {t u : T}
    (ht : (s.pc t).Locked) (hu : (s.pc u).Locked) : t = u := by
  have hsafe : (view T).Safe s := by
    refine h.invariant (I := (view T).Safe) (fun s h₀ t ht => ?_) fun s a s' hs hstep => ?_
    · exact absurd ht (View.not_holds_of_pc_eq id h₀.2.2 t)
    · exact View.safe_step (fun s a s' hstep hfail => step_of_not_addFails hstep hfail)
        (fun s a s' hstep hfail => leak_of_addFails hstep hfail) hs hstep
  exact hsafe.unique ht hu

/-- **When the mutex of an idle tree is free.** Whatever the threads have called, once none of
them is inside an operation `root->mutex` is unlocked if and only if no `tree_add` of the run
found its key in the tree or failed to get memory. -/
theorem mutex_eq_none_iff {s₀ s : State T} {tr : List (State T × Label T)}
    (h₀ : (machine T).init s₀) (hrun : (machine T).Run s₀ tr s) (hidle : s.Idle) :
    s.mutex = none ↔ ∀ p ∈ tr, ¬ AddFails p.1 p.2 := by
  exact View.holder_eq_none_iff (V := view T)
    (fun s a s' hstep hfail => step_of_not_addFails hstep hfail)
    (fun s a s' hstep hfail => leak_of_addFails hstep hfail) hrun h₀.2.1
    (View.not_holds_of_pc_eq id h₀.2.2) (View.not_holds_of_pc_eq id hidle)

/-- An idle program with an empty tree and one thread. -/
def start : State Unit := ⟨⟨∅, ⟨none, none⟩, fun _ => .heap⟩, none, fun _ => .outside⟩

theorem start_init : (machine Unit).init start := ⟨⟨start.mem, rfl⟩, rfl, fun _ => rfl⟩

/-- A thread adds a key: call, lock, body, unlock, return. -/
def addOnce (key : Key) : List (Label Unit) :=
  [.call () (.add (.next _) key (some 1)), .run (), .run (), .run (), .run ()]

/-- A thread adds a key that is in the tree: call, lock, body, return. -/
def addAgain (key : Key) : List (Label Unit) :=
  [.call () (.add (.next _) key (some 1)), .run (), .run (), .run ()]

theorem mutex_eq_none_iff_addOnce :
    ∃ tr s, (machine Unit).init start ∧ (machine Unit).Run start tr s ∧ s.Idle ∧
      s.mutex = none ∧ ∀ p ∈ tr, ¬ AddFails p.1 p.2 := by
  obtain ⟨s, hexec, hidle, hmutex⟩ :
      ∃ s, (machine Unit).exec start (addOnce ⟨2, [97]⟩) = some s ∧ s.Idle ∧ s.mutex = none :=
    ⟨_, rfl, fun _ => rfl, rfl⟩
  have hrun := Machine.run_of_exec hexec
  exact ⟨_, s, start_init, hrun, hidle, hmutex, (mutex_eq_none_iff start_init hrun hidle).1 hmutex⟩

/-- Adding one key twice leaves the tree idle with its mutex locked. -/
theorem not_idle_unlocked :
    ¬ ∀ s : State Unit, (machine Unit).Reachable s → s.Idle → s.mutex = none := by
  intro h
  obtain ⟨s, hexec, hidle, hmutex⟩ :
      ∃ s, (machine Unit).exec start (addOnce ⟨2, [97]⟩ ++ addAgain ⟨3, [97]⟩) = some s ∧ s.Idle ∧
        s.mutex = some () :=
    ⟨_, rfl, fun _ => rfl, rfl⟩
  have hnone := h s (Machine.reachable_of_exec start_init hexec) hidle
  rw [hmutex] at hnone
  cases hnone

end Tree

end Tlpiexer
