import Mathlib.Data.Bool.Basic
import Tlpiexer.Foundations.Transition

/-!
# Two processes and one signal

`src/imp/22-03.c` after the `fork`. In each of `nsig` rounds the child sends `TEST_SIG` to the
parent and waits for one; the parent waits for one and sends one back. Waiting is `sigsuspend` with
a handler, or `sigwaitinfo`.

`TEST_SIG` is blocked except in the waiting call, so a signal that arrives at any other time is
pending, and a second one on top of it is lost. A `kill` of a process that has ended fails if it
was the parent; a child that has ended is not reaped, so a `kill` of it succeeds and has no effect.

## The ball

There is one ball: the turn of a process to send, or a pending signal (`Inv.ball`). The child
starts with it. The two loop counters differ by one exactly while the ball is on its way back to
the child (`Inv.rounds`). `sent` and `took` count signals and are not in the program.

## Main results

* `one_pending` — no signal is lost, and the processes never block each other
-/

namespace Tlpiexer

namespace PingPong

open Transition

/-- The option `-s` or `-w`. -/
inductive Use
  | sigsuspend
  | sigwaitinfo
  deriving DecidableEq

/-- Where a process is. -/
inductive Pc
  /-- At the test `i < nsig`. -/
  | test
  /-- At `kill`. -/
  | kill
  /-- In `sigsuspend` or `sigwaitinfo`. -/
  | wait
  /-- In the handler, called by `sigsuspend`. -/
  | handler
  /-- Behind the loop. -/
  | done
  /-- In `exit_err`. -/
  | failed
  deriving DecidableEq

/-- One process. -/
structure Proc where
  pc : Pc
  i : ℕ
  /-- `TEST_SIG` is pending. -/
  pending : Bool
  /-- How often it was sent `TEST_SIG`. -/
  sent : ℕ
  /-- How often it took one. -/
  took : ℕ

/-- Both processes. -/
structure State where
  child : Proc
  parent : Proc

/-- Whose step it is. -/
inductive Label
  | child
  | parent

/-- `kill`, on the side of the process it is sent to. -/
def Proc.signal (P : Proc) : Proc := { P with pending := true, sent := P.sent + 1 }

/-- The waiting call: a pending signal is taken, and `sigsuspend` runs the handler. The process
goes on at `next` when the call returns. -/
def Proc.await (use : Use) (P : Proc) (next : Proc → Proc) : Option Proc :=
  if P.pending then
    let P := { P with pending := false, took := P.took + 1 }
    match use with
    | .sigsuspend => some { P with pc := .handler }
    | .sigwaitinfo => some (next P)
  else none

/-- The end of a round. -/
def Proc.again (P : Proc) : Proc := { P with pc := .test, i := P.i + 1 }

/-- A step of the child. -/
def State.runChild (use : Use) (nsig : ℕ) (s : State) : Option State :=
  match s.child.pc with
  | .test => some { s with
      child := { s.child with pc := if s.child.i < nsig then .kill else .done } }
  | .kill =>
    if s.parent.pc = .done then some { s with child := { s.child with pc := .failed } }
    else some { child := { s.child with pc := .wait }, parent := s.parent.signal }
  | .wait => (s.child.await use Proc.again).map fun P => { s with child := P }
  | .handler => some { s with child := s.child.again }
  | .done => none
  | .failed => none

/-- A step of the parent. -/
def State.runParent (use : Use) (nsig : ℕ) (s : State) : Option State :=
  match s.parent.pc with
  | .test => some { s with
      parent := { s.parent with pc := if s.parent.i < nsig then .wait else .done } }
  | .wait =>
    (s.parent.await use fun P => { P with pc := .kill }).map fun P => { s with parent := P }
  | .handler => some { s with parent := { s.parent with pc := .kill } }
  | .kill =>
    if s.child.pc = .done then some { s with parent := s.parent.again }
    else some { child := s.child.signal, parent := s.parent.again }
  | .done => none
  | .failed => none

/-- One step of the program. -/
def State.step (use : Use) (nsig : ℕ) (s : State) : Label → Option State
  | .child => s.runChild use nsig
  | .parent => s.runParent use nsig

/-- Both processes before their loops. -/
def start : State := ⟨⟨.test, 0, false, 0, 0⟩, ⟨.test, 0, false, 0, 0⟩⟩

/-- The program with given options. -/
def machine (use : Use) (nsig : ℕ) : Machine State Label where
  init s := s = start
  step := State.step use nsig

/-! ### What one step can do -/

/-- The steps of the program in state `s`. -/
inductive Move (nsig : ℕ) (s : State) : State → Prop
  | childTest (hpc : s.child.pc = .test) (hi : s.child.i < nsig) :
      Move nsig s { s with child := { s.child with pc := .kill } }
  | childEnd (hpc : s.child.pc = .test) (hi : nsig ≤ s.child.i) :
      Move nsig s { s with child := { s.child with pc := .done } }
  | childKill (hpc : s.child.pc = .kill) (hp : s.parent.pc ≠ .done) :
      Move nsig s { child := { s.child with pc := .wait }, parent := s.parent.signal }
  | childFail (hpc : s.child.pc = .kill) (hp : s.parent.pc = .done) :
      Move nsig s { s with child := { s.child with pc := .failed } }
  | childSuspend (hpc : s.child.pc = .wait) (hp : s.child.pending = true) :
      Move nsig s { s with child :=
        { s.child with pending := false, took := s.child.took + 1, pc := .handler } }
  | childWaitinfo (hpc : s.child.pc = .wait) (hp : s.child.pending = true) :
      Move nsig s { s with child :=
        { s.child with pending := false, took := s.child.took + 1 }.again }
  | childReturn (hpc : s.child.pc = .handler) : Move nsig s { s with child := s.child.again }
  | parentTest (hpc : s.parent.pc = .test) (hi : s.parent.i < nsig) :
      Move nsig s { s with parent := { s.parent with pc := .wait } }
  | parentEnd (hpc : s.parent.pc = .test) (hi : nsig ≤ s.parent.i) :
      Move nsig s { s with parent := { s.parent with pc := .done } }
  | parentSuspend (hpc : s.parent.pc = .wait) (hp : s.parent.pending = true) :
      Move nsig s { s with parent :=
        { s.parent with pending := false, took := s.parent.took + 1, pc := .handler } }
  | parentWaitinfo (hpc : s.parent.pc = .wait) (hp : s.parent.pending = true) :
      Move nsig s { s with parent :=
        { s.parent with pending := false, took := s.parent.took + 1, pc := .kill } }
  | parentReturn (hpc : s.parent.pc = .handler) :
      Move nsig s { s with parent := { s.parent with pc := .kill } }
  | parentKill (hpc : s.parent.pc = .kill) (hc : s.child.pc ≠ .done) :
      Move nsig s { child := s.child.signal, parent := s.parent.again }
  | parentKillDead (hpc : s.parent.pc = .kill) (hc : s.child.pc = .done) :
      Move nsig s { s with parent := s.parent.again }

section Inversion

variable {use : Use} {nsig : ℕ} {s s' : State}

/-- Taking a pending signal. -/
theorem await_spec {P P' : Proc} {next : Proc → Proc} (h : P.await use next = some P') :
    P.pending = true ∧
      (P' = { P with pending := false, took := P.took + 1, pc := .handler } ∨
        P' = next { P with pending := false, took := P.took + 1 }) := by
  rw [Proc.await] at h
  split at h
  case isTrue hp =>
    refine ⟨hp, ?_⟩
    cases use with
    | sigsuspend => exact .inl (Option.some.inj h).symm
    | sigwaitinfo => exact .inr (Option.some.inj h).symm
  case isFalse => cases h

theorem move_of_runChild (h : s.runChild use nsig = some s') : Move nsig s s' := by
  unfold State.runChild at h
  split at h
  case h_1 hpc =>
    by_cases hi : s.child.i < nsig
    · rw [if_pos hi] at h; cases h; exact .childTest hpc hi
    · rw [if_neg hi] at h; cases h; exact .childEnd hpc (Nat.le_of_not_lt hi)
  case h_2 hpc =>
    split at h
    case isTrue hp => cases h; exact .childFail hpc hp
    case isFalse hp => cases h; exact .childKill hpc hp
  case h_3 hpc =>
    obtain ⟨P, hP, rfl⟩ := Option.map_eq_some_iff.mp h
    obtain ⟨hp, rfl | rfl⟩ := await_spec hP
    · exact .childSuspend hpc hp
    · exact .childWaitinfo hpc hp
  case h_4 hpc => cases h; exact .childReturn hpc
  case h_5 => cases h
  case h_6 => cases h

theorem move_of_runParent (h : s.runParent use nsig = some s') : Move nsig s s' := by
  unfold State.runParent at h
  split at h
  case h_1 hpc =>
    by_cases hi : s.parent.i < nsig
    · rw [if_pos hi] at h; cases h; exact .parentTest hpc hi
    · rw [if_neg hi] at h; cases h; exact .parentEnd hpc (Nat.le_of_not_lt hi)
  case h_2 hpc =>
    obtain ⟨P, hP, rfl⟩ := Option.map_eq_some_iff.mp h
    obtain ⟨hp, rfl | rfl⟩ := await_spec hP
    · exact .parentSuspend hpc hp
    · exact .parentWaitinfo hpc hp
  case h_3 hpc => cases h; exact .parentReturn hpc
  case h_4 hpc =>
    split at h
    case isTrue hc => cases h; exact .parentKillDead hpc hc
    case isFalse hc => cases h; exact .parentKill hpc hc
  case h_5 => cases h
  case h_6 => cases h

theorem move_of_step {a : Label} (h : (machine use nsig).step s a = some s') : Move nsig s s' := by
  cases a with
  | child => exact move_of_runChild h
  | parent => exact move_of_runParent h

end Inversion

/-! ### The ball -/

/-- The child has the ball. -/
def Pc.childBall : Pc → ℕ
  | .wait => 0
  | _ => 1

/-- The parent has the ball. -/
def Pc.parentBall : Pc → ℕ
  | .handler | .kill => 1
  | _ => 0

/-- The child has taken the signal that ends a round, and not begun the next one. -/
def Pc.handling : Pc → ℕ
  | .handler => 1
  | _ => 0

/-- What the loop of a process knows about its counter. -/
structure Proc.Loop (nsig : ℕ) (P : Proc) : Prop where
  le : P.i ≤ nsig
  lt : P.pc = .kill ∨ P.pc = .wait ∨ P.pc = .handler → P.i < nsig
  done : P.pc = .done → P.i = nsig
  failed : P.pc ≠ .failed
  /-- Every signal sent was taken or is pending. -/
  sent : P.sent = P.took + P.pending.toNat

/-- The invariant. -/
structure Inv (nsig : ℕ) (s : State) : Prop where
  ball : s.child.pc.childBall + s.parent.pending.toNat + s.parent.pc.parentBall +
    s.child.pending.toNat = 1
  rounds : s.parent.i = s.child.i + s.child.pending.toNat + s.child.pc.handling
  child : s.child.Loop nsig
  parent : s.parent.Loop nsig

section Steps

variable {use : Use} {nsig : ℕ} {s s' : State}

theorem inv_start (nsig : ℕ) : Inv nsig start := by
  refine ⟨rfl, rfl, ?_, ?_⟩ <;> exact ⟨Nat.zero_le _, by simp [start], by simp [start],
    by simp [start], rfl⟩

theorem toNat_eq_zero {b : Bool} (h : b.toNat = 0) : b = false := by
  cases b with
  | false => rfl
  | true => cases h

theorem Proc.Loop.signal {P : Proc} (h : P.Loop nsig) (hp : P.pending = false) :
    P.signal.Loop nsig := by
  refine ⟨h.le, h.lt, h.done, h.failed, ?_⟩
  have hsent := h.sent
  simp only [hp, Proc.signal, Bool.toNat_false, Bool.toNat_true] at hsent ⊢
  omega

/-- A step inside a round. -/
theorem Proc.Loop.goto {P : Proc} (h : P.Loop nsig) (hi : P.i < nsig) {c : Pc} (hd : c ≠ .done)
    (hf : c ≠ .failed) : Proc.Loop nsig { P with pc := c } :=
  ⟨h.le, fun _ => hi, fun hc => absurd hc hd, hf, h.sent⟩

theorem Proc.Loop.again {P : Proc} (h : P.Loop nsig) (hi : P.i < nsig) : P.again.Loop nsig :=
  ⟨hi, by simp [Proc.again], nofun, nofun, h.sent⟩

theorem Proc.Loop.finish {P : Proc} (h : P.Loop nsig) (hi : nsig ≤ P.i) :
    Proc.Loop nsig { P with pc := .done } :=
  ⟨h.le, by simp, fun _ => Nat.le_antisymm h.le hi, nofun, h.sent⟩

theorem Proc.Loop.take {P : Proc} (h : P.Loop nsig) (hp : P.pending = true) :
    Proc.Loop nsig { P with pending := false, took := P.took + 1 } := by
  refine ⟨h.le, h.lt, h.done, h.failed, ?_⟩
  have hsent := h.sent
  rw [hp] at hsent
  simpa using hsent

theorem ball_of_move (h : Inv nsig s) (hm : Move nsig s s') :
    s'.child.pc.childBall + s'.parent.pending.toNat + s'.parent.pc.parentBall +
      s'.child.pending.toNat = 1 := by
  have hball := h.ball
  cases hm with
  | childKill hpc hp =>
    simp only [hpc, Pc.childBall] at hball
    simp only [Pc.childBall, Proc.signal, Bool.toNat_true]
    omega
  | parentKill hpc hc =>
    simp only [hpc, Pc.parentBall] at hball
    simp only [Proc.signal, Proc.again, Pc.parentBall, Bool.toNat_true]
    omega
  | _ => simp_all [Pc.childBall, Pc.parentBall, Proc.again] <;> omega

theorem Pc.handling_le_childBall (c : Pc) : c.handling ≤ c.childBall := by
  cases c <;> decide

theorem rounds_of_move (h : Inv nsig s) (hm : Move nsig s s') :
    s'.parent.i = s'.child.i + s'.child.pending.toNat + s'.child.pc.handling := by
  have hball := h.ball
  have hrounds := h.rounds
  cases hm with
  | parentKill hpc hc =>
    -- the parent has the ball, so the child is waiting and has not got the signal of this round
    have hle := s.child.pc.handling_le_childBall
    simp only [hpc, Pc.parentBall] at hball
    simp only [Proc.signal, Proc.again, Bool.toNat_true]
    omega
  | _ => simp_all [Pc.childBall, Pc.parentBall, Pc.handling, Proc.again, Proc.signal] <;> omega

/-- The parent gets behind its loop after the child's last `kill`. -/
theorem Inv.parent_ne_done (h : Inv nsig s) (hpc : s.child.pc = .kill) : s.parent.pc ≠ .done := by
  intro hp
  have hball := h.ball
  have hrounds := h.rounds
  have hlt := h.child.lt (.inl hpc)
  have hnsig := h.parent.done hp
  simp only [hpc, Pc.childBall, Pc.handling] at hball hrounds
  omega

/-- The child gets behind its loop after the parent's last `kill`. -/
theorem Inv.child_ne_done (h : Inv nsig s) (hpc : s.parent.pc = .kill) : s.child.pc ≠ .done := by
  intro hc
  have hball := h.ball
  simp only [hpc, hc, Pc.childBall, Pc.parentBall] at hball
  omega

/-- **A `kill` never meets a pending signal.** -/
theorem Inv.parent_not_pending (h : Inv nsig s) (hpc : s.child.pc = .kill) :
    s.parent.pending = false := by
  have hball := h.ball
  simp only [hpc, Pc.childBall] at hball
  exact toNat_eq_zero (by omega)

@[inherit_doc Inv.parent_not_pending]
theorem Inv.child_not_pending (h : Inv nsig s) (hpc : s.parent.pc = .kill) :
    s.child.pending = false := by
  have hball := h.ball
  simp only [hpc, Pc.parentBall] at hball
  exact toNat_eq_zero (by omega)

theorem inv_of_move (h : Inv nsig s) (hm : Move nsig s s') : Inv nsig s' := by
  refine ⟨ball_of_move h hm, rounds_of_move h hm, ?_, ?_⟩
  · cases hm with
    | childTest hpc hi => exact h.child.goto hi nofun nofun
    | childEnd hpc hi => exact h.child.finish hi
    | childKill hpc hp => exact h.child.goto (h.child.lt (.inl hpc)) nofun nofun
    | childFail hpc hp => exact absurd hp (h.parent_ne_done hpc)
    | childSuspend hpc hp =>
      exact (h.child.take hp).goto (h.child.lt (.inr (.inl hpc))) nofun nofun
    | childWaitinfo hpc hp => exact (h.child.take hp).again (h.child.lt (.inr (.inl hpc)))
    | childReturn hpc => exact h.child.again (h.child.lt (.inr (.inr hpc)))
    | parentKill hpc hc => exact h.child.signal (h.child_not_pending hpc)
    | _ => exact h.child
  · cases hm with
    | parentTest hpc hi => exact h.parent.goto hi nofun nofun
    | parentEnd hpc hi => exact h.parent.finish hi
    | parentSuspend hpc hp =>
      exact (h.parent.take hp).goto (h.parent.lt (.inr (.inl hpc))) nofun nofun
    | parentWaitinfo hpc hp =>
      exact (h.parent.take hp).goto (h.parent.lt (.inr (.inl hpc))) nofun nofun
    | parentReturn hpc => exact h.parent.goto (h.parent.lt (.inr (.inr hpc))) nofun nofun
    | parentKill hpc hc => exact h.parent.again (h.parent.lt (.inl hpc))
    | parentKillDead hpc hc => exact absurd hc (h.child_ne_done hpc)
    | childKill hpc hp => exact h.parent.signal (h.parent_not_pending hpc)
    | _ => exact h.parent

theorem inv_of_reachable (h : (machine use nsig).Reachable s) : Inv nsig s :=
  h.invariant (fun _ h₀ => h₀ ▸ inv_start nsig) fun _ _ _ hs hstep =>
    inv_of_move hs (move_of_step hstep)

/-! ### Progress -/

theorem exists_await (use : Use) {P : Proc} (hp : P.pending = true) (next : Proc → Proc) :
    ∃ P', P.await use next = some P' := by
  cases use with
  | sigsuspend => exact ⟨_, by rw [Proc.await, if_pos hp]⟩
  | sigwaitinfo => exact ⟨_, by rw [Proc.await, if_pos hp]⟩

/-- A child that is not waiting for a signal moves. -/
theorem exists_runChild (use : Use) (nsig : ℕ) (hf : s.child.pc ≠ .failed) (hd : s.child.pc ≠ .done)
    (hw : s.child.pc = .wait → s.child.pending = true) :
    ∃ s', s.runChild use nsig = some s' := by
  unfold State.runChild
  cases hpc : s.child.pc with
  | test => exact ⟨_, rfl⟩
  | kill =>
    by_cases hp : s.parent.pc = .done
    · exact ⟨_, by simp [hp]; rfl⟩
    · exact ⟨_, by simp [hp]; rfl⟩
  | wait =>
    obtain ⟨P, hP⟩ := exists_await use (hw hpc) Proc.again
    exact ⟨_, by simp [hP]; rfl⟩
  | handler => exact ⟨_, rfl⟩
  | done => exact absurd hpc hd
  | failed => exact absurd hpc hf

/-- A parent that is not waiting for a signal moves. -/
theorem exists_runParent (use : Use) (nsig : ℕ) (hf : s.parent.pc ≠ .failed)
    (hd : s.parent.pc ≠ .done) (hw : s.parent.pc = .wait → s.parent.pending = true) :
    ∃ s', s.runParent use nsig = some s' := by
  unfold State.runParent
  cases hpc : s.parent.pc with
  | test => exact ⟨_, rfl⟩
  | wait =>
    obtain ⟨P, hP⟩ := exists_await use (hw hpc) fun P => { P with pc := .kill }
    exact ⟨_, by simp [hP]; rfl⟩
  | handler => exact ⟨_, rfl⟩
  | kill =>
    by_cases hc : s.child.pc = .done
    · exact ⟨_, by simp [hc]; rfl⟩
    · exact ⟨_, by simp [hc]; rfl⟩
  | done => exact absurd hpc hd
  | failed => exact absurd hpc hf

/-- **Progress.** Whoever has the ball moves; if it is a pending signal, the one who waits for it
does. -/
theorem enabled_of_inv (h : Inv nsig s) (hd : ¬ (s.child.pc = .done ∧ s.parent.pc = .done)) :
    (machine use nsig).Enabled s := by
  have hball := h.ball
  have hrounds := h.rounds
  by_cases hc : s.child.pc = .done
  · have hp : s.parent.pc ≠ .done := fun hp => hd ⟨hc, hp⟩
    have hw : s.parent.pc ≠ .wait := by
      intro hw
      have hlt := h.parent.lt (.inr (.inl hw))
      have hnsig := h.child.done hc
      omega
    obtain ⟨s', hs'⟩ := exists_runParent use nsig h.parent.failed hp fun hpc => absurd hpc hw
    exact ⟨.parent, s', hs'⟩
  by_cases hblocked : s.child.pc = .wait ∧ s.child.pending = false
  · obtain ⟨hw, hpending⟩ := hblocked
    simp only [hw, hpending, Pc.childBall, Pc.handling, Bool.toNat_false] at hball hrounds
    have hlt := h.child.lt (.inr (.inl hw))
    have hp : s.parent.pc ≠ .done := by
      intro hp
      have hnsig := h.parent.done hp
      omega
    obtain ⟨s', hs'⟩ := exists_runParent use nsig h.parent.failed hp fun hpc => by
      simp only [hpc, Pc.parentBall] at hball
      cases hpp : s.parent.pending with
      | true => rfl
      | false => simp [hpp] at hball
    exact ⟨.parent, s', hs'⟩
  · obtain ⟨s', hs'⟩ := exists_runChild use nsig h.child.failed hc fun hw => by
      cases hpending : s.child.pending with
      | true => rfl
      | false => exact absurd ⟨hw, hpending⟩ hblocked
    exact ⟨.child, s', hs'⟩

end Steps

/-- **One signal at a time.** In either mode and in every interleaving: at most one `TEST_SIG` is
pending in the two processes together, every one that was sent has been taken or is pending, a
`kill` finds none pending at its target, and unless both loops have finished some process can
move. -/
theorem one_pending {use : Use} {nsig : ℕ} {s : State} (h : (machine use nsig).Reachable s) :
    s.child.pending.toNat + s.parent.pending.toNat ≤ 1 ∧
      s.child.sent = s.child.took + s.child.pending.toNat ∧
      s.parent.sent = s.parent.took + s.parent.pending.toNat ∧
      (s.child.pc = .kill → s.parent.pending = false) ∧
      (s.parent.pc = .kill → s.child.pending = false) ∧
      (¬ (s.child.pc = .done ∧ s.parent.pc = .done) → (machine use nsig).Enabled s) := by
  have hinv := inv_of_reachable h
  have hball := hinv.ball
  exact ⟨by omega, hinv.child.sent, hinv.parent.sent, hinv.parent_not_pending,
    hinv.child_not_pending, enabled_of_inv hinv⟩

/-- One round with `sigsuspend`, up to the handler of the child. -/
def oneRound : List Label :=
  [.child, .child, .parent, .parent, .parent, .parent, .child]

theorem one_pending_oneRound :
    ∃ s, (machine .sigsuspend 1).Reachable s ∧ s.child.pc = .handler ∧
      (machine .sigsuspend 1).Enabled s := by
  obtain ⟨s, hexec, hpc⟩ :
      ∃ s, (machine .sigsuspend 1).exec start oneRound = some s ∧ s.child.pc = .handler :=
    ⟨_, rfl, rfl⟩
  have hreach : (machine .sigsuspend 1).Reachable s := Machine.reachable_of_exec rfl hexec
  refine ⟨s, hreach, hpc, (one_pending hreach).2.2.2.2.2 ?_⟩
  rw [hpc]
  exact fun hd => nomatch hd.1

end PingPong

end Tlpiexer
