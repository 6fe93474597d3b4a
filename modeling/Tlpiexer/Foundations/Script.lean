import Mathlib.Logic.Basic
import Mathlib.Tactic.SplitIfs

/-!
# Scripts

A program that does one thing after the other and gives up at the first that goes wrong, wherever
that is in its calls and loops. When what it does next does not depend on anything but its input,
the whole program comes down to a list of actions, its script, carried out until one of them fails.

`Attempt` is the monad of such programs, `run` carries out a script, and `Follows` says that a
program does what a script says; the rules below it take a program apart at its `bind`s. `φ` is the
type of the ways in which an action can go wrong.

## Main results

* `Script.run_append` — scripts one after the other
* `Script.exists_of_run_eq_some`, `Script.of_run_append_cons` — where a script stops, and where not
* `Script.Follows.bind`, `Script.Fails.bind` — the rules for programs
-/

namespace Script

universe u

variable {σ ε φ : Type*}

/-! ### Carrying out a script -/

/-- Carry out actions until one goes wrong: the state this leads to, and what went wrong. -/
def run (perform : σ → ε → σ × Option φ) : σ → List ε → σ × Option φ
  | s, [] => (s, none)
  | s, a :: as => if (perform s a).2 = none then run perform (perform s a).1 as else perform s a

section Run

variable {perform : σ → ε → σ × Option φ} {s : σ} {a : ε} {as bs : List ε} {x : φ}

@[simp] theorem run_nil : run perform s [] = (s, none) := rfl

theorem run_cons : run perform s (a :: as) =
    if (perform s a).2 = none then run perform (perform s a).1 as else perform s a := rfl

theorem run_cons_of_none (h : (perform s a).2 = none) :
    run perform s (a :: as) = run perform (perform s a).1 as := if_pos h

theorem run_cons_of_some (h : (perform s a).2 = some x) :
    run perform s (a :: as) = perform s a := if_neg (by simp [h])

@[simp] theorem run_singleton : run perform s [a] = perform s a := by
  rw [run_cons]
  split_ifs with h
  · exact Prod.ext rfl h.symm
  · rfl

theorem run_append : run perform s (as ++ bs) =
    if (run perform s as).2 = none then run perform (run perform s as).1 bs
    else run perform s as := by
  induction as generalizing s with
  | nil => rfl
  | cons a as ih =>
    rw [List.cons_append, run_cons, run_cons, ih]
    by_cases h : (perform s a).2 = none
    · simp only [h, if_true]
    · simp only [h, if_false]

theorem run_append_of_none (h : (run perform s as).2 = none) :
    run perform s (as ++ bs) = run perform (run perform s as).1 bs := by
  rw [run_append, if_pos h]

theorem run_append_of_some (h : (run perform s as).2 = some x) :
    run perform s (as ++ bs) = run perform s as := by
  rw [run_append, h, if_neg (by simp)]

/-- **Where a script stops**: at an action that goes wrong, all before it having gone right. -/
theorem exists_of_run_eq_some (h : (run perform s as).2 = some x) :
    ∃ pre b post, as = pre ++ b :: post ∧ (run perform s pre).2 = none ∧
      (perform (run perform s pre).1 b).2 = some x ∧
      run perform s as = perform (run perform s pre).1 b := by
  induction as generalizing s with
  | nil => cases h
  | cons a as ih =>
    cases ha : (perform s a).2 with
    | none =>
      rw [run_cons_of_none ha] at h ⊢
      obtain ⟨pre, b, post, rfl, hpre, hb, hrun⟩ := ih h
      refine ⟨a :: pre, b, post, rfl, ?_⟩
      rw [run_cons_of_none ha]
      exact ⟨hpre, hb, hrun⟩
    | some y =>
      rw [run_cons_of_some ha] at h ⊢
      exact ⟨[], a, as, rfl, rfl, h, rfl⟩

/-- An action that goes wrong after others have gone right ends the script. -/
theorem run_of_stop {pre post : List ε} (hpre : (run perform s pre).2 = none)
    (ha : (perform (run perform s pre).1 a).2 = some x) :
    run perform s (pre ++ a :: post) = perform (run perform s pre).1 a := by
  rw [run_append_of_none hpre, run_cons_of_some ha]

theorem of_run_append (h : (run perform s (as ++ bs)).2 = none) : (run perform s as).2 = none := by
  cases has : (run perform s as).2 with
  | none => rfl
  | some x =>
    rw [run_append_of_some has, has] at h
    cases h

/-- In a script that goes right, so does every action, and all before it. -/
theorem of_run_append_cons {pre post : List ε} (h : (run perform s (pre ++ a :: post)).2 = none) :
    (run perform s pre).2 = none ∧ (perform (run perform s pre).1 a).2 = none := by
  have hpre := of_run_append h
  refine ⟨hpre, ?_⟩
  cases ha : (perform (run perform s pre).1 a).2 with
  | none => rfl
  | some x =>
    rw [run_of_stop hpre ha, ha] at h
    cases h

end Run

/-! ### What a script keeps up -/

/-- From states in `P` the script only comes to an end in `I`, and in `Q` if all goes right. -/
def Keeps (perform : σ → ε → σ × Option φ) (I P : σ → Prop) (as : List ε) (Q : σ → Prop) : Prop :=
  ∀ s, P s → I (run perform s as).1 ∧ ((run perform s as).2 = none → Q (run perform s as).1)

section Keeps

variable {perform : σ → ε → σ × Option φ} {I P Q R : σ → Prop} {as bs : List ε}

theorem Keeps.nil (h : ∀ s, P s → I s) : Keeps perform I P [] P := fun s hs => ⟨h s hs, fun _ => hs⟩

theorem Keeps.action {a : ε} (hI : ∀ s, P s → I (perform s a).1)
    (hQ : ∀ s, P s → (perform s a).2 = none → Q (perform s a).1) :
    Keeps perform I P [a] Q := by
  intro s hs
  rw [run_singleton]
  exact ⟨hI s hs, hQ s hs⟩

theorem Keeps.append (h : Keeps perform I P as Q) (h' : Keeps perform I Q bs R) :
    Keeps perform I P (as ++ bs) R := by
  intro s hs
  obtain ⟨hI, hQ⟩ := h s hs
  cases hrun : (run perform s as).2 with
  | none =>
    rw [run_append_of_none hrun]
    exact h' _ (hQ hrun)
  | some x =>
    rw [run_append_of_some hrun, hrun]
    exact ⟨hI, fun hnone => by cases hnone⟩

theorem Keeps.cons {a : ε} (h : Keeps perform I P [a] Q) (h' : Keeps perform I Q bs R) :
    Keeps perform I P (a :: bs) R := h.append h'

end Keeps

/-! ### Two scripts side by side -/

/-- From states in `P`, a script does to a part of the state what another one does to it alone, and
goes wrong in the same way; if all goes right, it ends in `Q`. -/
def Simulates {τ η : Type*} (perform : σ → ε → σ × Option φ) (perform' : τ → η → τ × Option φ)
    (view : σ → τ) (P : σ → Prop) (as : List ε) (bs : List η) (Q : σ → Prop) : Prop :=
  ∀ s, P s → run perform' (view s) bs = (view (run perform s as).1, (run perform s as).2) ∧
    ((run perform s as).2 = none → Q (run perform s as).1)

section Simulates

variable {τ η : Type*} {perform : σ → ε → σ × Option φ} {perform' : τ → η → τ × Option φ}
  {view : σ → τ} {P Q R : σ → Prop} {as as' : List ε} {bs bs' : List η}

theorem Simulates.nil : Simulates perform perform' view P [] [] P := fun _ hs =>
  ⟨rfl, fun _ => hs⟩

theorem Simulates.append (h : Simulates perform perform' view P as bs Q)
    (h' : Simulates perform perform' view Q as' bs' R) :
    Simulates perform perform' view P (as ++ as') (bs ++ bs') R := by
  intro s hs
  obtain ⟨hrun, hQ⟩ := h s hs
  cases hstop : (run perform s as).2 with
  | none =>
    rw [run_append_of_none hstop, run_append_of_none (by rw [hrun, hstop]), hrun]
    exact h' _ (hQ hstop)
  | some x =>
    rw [run_append_of_some hstop, run_append_of_some (by rw [hrun, hstop]), hrun]
    exact ⟨rfl, fun hnone => by rw [hstop] at hnone; cases hnone⟩

/-- An action that goes right and cannot be seen. -/
theorem Simulates.silent {a : ε} (h : ∀ s, P s → (perform s a).2 = none ∧
    view (perform s a).1 = view s ∧ Q (perform s a).1) :
    Simulates perform perform' view P [a] [] Q := by
  intro s hs
  obtain ⟨hnone, hview, hQ⟩ := h s hs
  rw [run_singleton, run_nil, hnone, hview]
  exact ⟨rfl, fun _ => hQ⟩

/-- An action on the other side that goes right and changes nothing. -/
theorem Simulates.skip {b : η} (h : ∀ t, perform' t b = (t, none)) :
    Simulates perform perform' view P [] [b] P := fun s hs => by
  rw [run_singleton, h]
  exact ⟨rfl, fun _ => hs⟩

theorem Simulates.of_imp {P' : σ → Prop} (h : Simulates perform perform' view P as bs Q)
    (hP : ∀ s, P' s → P s) : Simulates perform perform' view P' as bs Q := fun s hs => h s (hP s hs)

theorem Simulates.append_silent (h : Simulates perform perform' view P as [] Q)
    (h' : Simulates perform perform' view Q as' bs R) :
    Simulates perform perform' view P (as ++ as') bs R := h.append h'

theorem Simulates.cons_silent {a : ε} (h : Simulates perform perform' view P [a] [] Q)
    (h' : Simulates perform perform' view Q as bs R) :
    Simulates perform perform' view P (a :: as) bs R := h.append h'

end Simulates

/-! ### Programs -/

/-- What a program comes to. -/
inductive Result (σ φ : Type*) (α : Type u)
  | value (a : α) (s : σ)
  | stop (x : φ) (s : σ)
  | timeout

/-- A program over the state `σ` that can give up, or not come to an end. -/
def Attempt (σ φ : Type*) (α : Type u) := σ → Result σ φ α

namespace Attempt

variable {α β : Type u}

/-- Go on with the value, if there is one. -/
def bind (m : Attempt σ φ α) (f : α → Attempt σ φ β) : Attempt σ φ β := fun s =>
  match m s with
  | .value a t => f a t
  | .stop x t => .stop x t
  | .timeout => .timeout

instance : Monad (Attempt.{u} σ φ) where
  pure a := fun s => .value a s
  bind := bind

/-- Give up. -/
def stop (x : φ) : Attempt σ φ α := fun s => .stop x s

/-- Come to no end. -/
def timeout : Attempt σ φ α := fun _ => .timeout

/-- Do something only under a condition. -/
def whenever (c : Bool) (m : Attempt σ φ Unit) : Attempt σ φ Unit := if c then m else pure ()

end Attempt

/-! ### Programs that follow a script -/

section Follows

variable {α β : Type u} (perform : σ → ε → σ × Option φ)

/-- The result that goes with the outcome of a script. -/
def ofRun (a : α) (r : σ × Option φ) : Result σ φ α :=
  match r.2 with
  | none => .value a r.1
  | some x => .stop x r.1

theorem ofRun_eq_value_iff {a b : α} {r : σ × Option φ} {t : σ} :
    ofRun a r = .value b t ↔ a = b ∧ r = (t, none) := by
  obtain ⟨s, x⟩ := r
  cases x <;> simp [ofRun]

theorem ofRun_eq_stop_iff {a : α} {r : σ × Option φ} {x : φ} {t : σ} :
    ofRun a r = .stop x t ↔ r = (t, some x) := by
  obtain ⟨s, y⟩ := r
  cases y <;> simp [ofRun, and_comm]

/-- From states in `P` the program does what the script says; if all goes right, its value is `a`
and it ends in `Q`. -/
def Follows (P : σ → Prop) (m : Attempt σ φ α) (as : List ε) (a : α) (Q : σ → Prop) : Prop :=
  ∀ s, P s → m s = ofRun a (run perform s as) ∧
    ((run perform s as).2 = none → Q (run perform s as).1)

/-- From states in `P` the program does what the script says, and that goes wrong. -/
def Fails (P : σ → Prop) (m : Attempt σ φ α) (as : List ε) : Prop :=
  ∀ s, P s → ∃ x, (run perform s as).2 = some x ∧ m s = .stop x (run perform s as).1

variable {perform} {P Q R : σ → Prop} {m : Attempt σ φ α} {f : α → Attempt σ φ β} {v : α} {w : β}
  {as bs : List ε}

theorem Follows.pure (h : ∀ s, P s → Q s) : Follows perform P (Pure.pure v) [] v Q := fun s hs =>
  ⟨rfl, fun _ => h s hs⟩

theorem Fails.follows (h : Fails perform P m as) : Follows perform P m as v Q := by
  intro s hs
  obtain ⟨x, hrun, hm⟩ := h s hs
  rw [hm, ofRun, hrun]
  exact ⟨rfl, fun hnone => by cases hnone⟩

/-- **One program after the other.** -/
theorem Follows.bind (h : Follows perform P m as v Q) (hf : Follows perform Q (f v) bs w R) :
    Follows perform P (m >>= f) (as ++ bs) w R := by
  intro s hs
  obtain ⟨hm, hQ⟩ := h s hs
  change Attempt.bind m f s = _ ∧ _
  rw [Attempt.bind, hm, ofRun]
  cases hrun : (run perform s as).2 with
  | none =>
    rw [run_append_of_none hrun]
    exact hf _ (hQ hrun)
  | some x =>
    rw [run_append_of_some hrun, ofRun, hrun]
    exact ⟨rfl, fun hnone => by cases hnone⟩

theorem Follows.bind_cons {a : ε} (h : Follows perform P m [a] v Q)
    (hf : Follows perform Q (f v) bs w R) : Follows perform P (m >>= f) (a :: bs) w R := h.bind hf

/-- **Nothing comes after a failure.** -/
theorem Fails.bind (h : Fails perform P m as) : Fails perform P (m >>= f) as := by
  intro s hs
  obtain ⟨x, hrun, hm⟩ := h s hs
  refine ⟨x, hrun, ?_⟩
  change Attempt.bind m f s = _
  rw [Attempt.bind, hm]

theorem Follows.action {a : ε} (h : ∀ s, P s → m s = ofRun v (perform s a))
    (hQ : ∀ s, P s → (perform s a).2 = none → Q (perform s a).1) :
    Follows perform P m [a] v Q := by
  intro s hs
  rw [run_singleton]
  exact ⟨h s hs, hQ s hs⟩

theorem Fails.action {a : ε} (h : ∀ s, P s → ∃ x, (perform s a).2 = some x ∧
    m s = .stop x (perform s a).1) : Fails perform P m [a] := by
  intro s hs
  rw [run_singleton]
  exact h s hs

theorem Follows.whenever {c : Bool} {m : Attempt σ φ Unit}
    (h : c = true → Follows perform P m as () Q) (hQ : c = false → ∀ s, P s → Q s) :
    Follows perform P (Attempt.whenever c m) (if c then as else []) () Q := by
  cases c with
  | true => exact h rfl
  | false => exact .pure (hQ rfl)

end Follows

end Script
