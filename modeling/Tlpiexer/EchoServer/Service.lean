import Tlpiexer.EchoServer
import Tlpiexer.Foundations.Progress

/-!
# How long the server serves

`Tlpiexer.EchoServer` counts the permits of `tlpi/sockets/is_echo_sv_60-1.c`. This file asks what
is left of the service after some `fork`s have failed.

## No child is forgotten

`SIGCHLD` is one bit: any number of children that end while it is pending, or while the handler
runs, leave one signal behind. The handler reaps until `waitpid` has nothing more, so wherever
there is a child to reap the signal is pending or the handler is running
(`pending_of_zombies`). Left to themselves, the children therefore end, are reaped, and their
permits return (`exists_quiet`).

## Main results

* `permits_add_failedForks` — every failed `fork` costs one permit
* `forks_again_iff` — the server can start another child until `MAX_CHILDREN` `fork`s have failed,
  and never again after that
-/

namespace Tlpiexer

namespace EchoServer

open Transition

variable {s t : State} {a : Label}

/-! ### Zombies -/

/-- There is a reason why every ended child will be reaped. -/
def Awaited (s : State) : Prop := 0 < s.zombies → s.pending = true ∨ s.handler ≠ .idle

theorem awaited_step (hs : Awaited s) (h : s.step a = some t) : Awaited t := by
  cases a with
  | handler =>
    obtain ⟨-, hrun⟩ := Option.ite_none_right_eq_some.mp h
    unfold State.runHandler at hrun
    split at hrun
    case h_1 => cases hrun
    case h_2 =>
      split at hrun
      case isTrue => cases hrun; exact fun _ => .inr (by simp)
      -- the handler leaves when nothing is left to reap
      case isFalse hz => cases hrun; exact fun h => absurd h hz
    case h_3 => cases hrun; exact fun _ => .inr (by simp)
  | deliver =>
    obtain ⟨-, ⟨⟩⟩ := Option.ite_none_right_eq_some.mp h
    exact fun _ => .inr (by simp)
  | terminate =>
    obtain ⟨-, ⟨⟩⟩ := Option.ite_none_right_eq_some.mp h
    exact fun _ => .inl rfl
  | main =>
    cases move_of_step h with
    | accept => exact hs
    | semWait => exact hs
    | fork => exact hs
  | fail =>
    cases move_of_step h with
    | forkFails => exact hs
    | exit => exact hs

/-- **No child is forgotten.** -/
theorem pending_of_zombies {tr : List (State × Label)} (h : machine.Run start tr s) : Awaited s :=
  h.invariant (I := Awaited) (fun _ _ _ hs hstep => awaited_step hs hstep)
    (by simp [Awaited, start])

/-! ### Permits -/

instance (s : State) (a : Label) : Decidable (ForkFails s a) :=
  inferInstanceAs (Decidable (_ ∧ _))

/-- How many `fork`s have failed. -/
def failedForks (tr : List (State × Label)) : ℕ := tr.countP fun p => ForkFails p.1 p.2

theorem permits_add_failedForks {tr : List (State × Label)} (h : machine.Run start tr s) :
    s.permits + failedForks tr = maxChildren := by
  induction h with
  | nil => rfl
  | @snoc tr s t a _ hstep ih =>
    have hcount : failedForks (tr ++ [(s, a)]) =
        failedForks tr + if ForkFails s a then 1 else 0 := by
      rw [failedForks, List.countP_append, List.countP_singleton]
      simp [failedForks]
    by_cases hf : ForkFails s a
    · have := permits_of_forkFails (move_of_step hstep) hf
      rw [hcount, if_pos hf]
      omega
    · have := permits_of_not_forkFails (move_of_step hstep) hf
      rw [hcount, if_neg hf]
      omega

/-! ### Waiting for the children -/

/-- The steps that do not belong to the loop: children end and are reaped. -/
def Outside : Label → Prop
  | .terminate => True
  | .deliver => True
  | .handler => True
  | _ => False

/-- What is still to happen outside the loop. -/
def State.outstanding (s : State) : ℕ :=
  7 * s.running + 3 * s.zombies + (if s.pending then 3 else 0) +
    match s.handler with | .idle => 0 | .waitpid => 1 | .semPost => 2

theorem outstanding_lt (hout : Outside a) (h : s.step a = some t) :
    t.outstanding < s.outstanding := by
  cases a with
  | main => exact absurd hout id
  | fail => exact absurd hout id
  | terminate =>
    obtain ⟨hr, ⟨⟩⟩ := Option.ite_none_right_eq_some.mp h
    simp only [State.outstanding, ↓reduceIte]
    split <;> omega
  | deliver =>
    obtain ⟨⟨-, hp, hh⟩, ⟨⟩⟩ := Option.ite_none_right_eq_some.mp h
    simp [State.outstanding, hp, hh]
  | handler =>
    cases move_of_step h with
    | reap hh hz => simp only [State.outstanding, hh]; omega
    | leave hh => simp [State.outstanding, hh]
    | semPost hh => simp [State.outstanding, hh]

/-- The loop stands still and no permit is lost. -/
theorem still_of_outside (hout : Outside a) (h : s.step a = some t) :
    t.main = s.main ∧ t.alive = s.alive ∧ t.permits = s.permits := by
  have hf : ¬ ForkFails s a := by
    rintro ⟨rfl, -⟩
    exact hout
  refine ⟨?_, ?_, permits_of_not_forkFails (move_of_step h) hf⟩
  · cases move_of_step h <;> first | exact absurd hout id | rfl
  · cases move_of_step h <;> first | exact absurd hout id | rfl

/-- **The children end and their permits return.** From every state of a living server the
handler, the signals and the children get to where no child is left, and the loop stands where it
stood. -/
theorem exists_quiet (hs : Awaited s) (halive : s.alive) :
    ∃ tr t, machine.Run s tr t ∧ t.alive ∧ t.main = s.main ∧ t.handler = .idle ∧
      t.sem + t.main.permits = s.permits := by
  have hlower : ∀ s a t, Outside a → machine.step s a = some t → t.outstanding < s.outstanding :=
    fun _ _ _ hout h => outstanding_lt hout h
  obtain ⟨tr, t, hrun, ⟨hawaited, hta, hmain, hpermits⟩, hstuck⟩ :=
    Machine.exists_final_restrict
      (I := fun t => Awaited t ∧ t.alive ∧ t.main = s.main ∧ t.permits = s.permits)
      (G := fun _ => Outside) hlower
      (fun u a v hu hout h => by
        obtain ⟨hm, ha, hp⟩ := still_of_outside hout h
        exact ⟨awaited_step hu.1 h, ha ▸ hu.2.1, hm.trans hu.2.2.1, hp.trans hu.2.2.2⟩)
      ⟨hs, halive, rfl, rfl⟩
  have hrunning : t.running = 0 := by
    refine Nat.eq_zero_of_not_pos fun hpos => ?_
    have hnone := hstuck .terminate trivial
    simp [machine, State.step, hpos] at hnone
  have hhandler : t.handler = .idle := by
    have hnone := hstuck .handler trivial
    cases hh : t.handler with
    | idle => rfl
    | waitpid =>
      by_cases hz : 0 < t.zombies <;>
        simp [machine, State.step, State.runHandler, hta, hh, hz] at hnone
    | semPost => simp [machine, State.step, State.runHandler, hta, hh] at hnone
  have hzombies : t.zombies = 0 := by
    refine Nat.eq_zero_of_not_pos fun hpos => ?_
    have hpending := (hawaited hpos).resolve_right (not_not.mpr hhandler)
    have hnone := hstuck .deliver trivial
    simp [machine, State.step, hta, hhandler, hpending] at hnone
  refine ⟨tr, t, hrun, hta, hmain, hhandler, ?_⟩
  rw [← hpermits, State.permits, State.children, hrunning, hzombies, hhandler]
  rfl

/-! ### Service -/

/-- The step starts a child. -/
def Forks (s : State) (a : Label) : Prop := a = .main ∧ s.main = .fork

/-- With a permit left the loop can start a child. -/
theorem exists_fork (hs : Awaited s) (halive : s.alive) (hp : 0 < s.permits) :
    ∃ tr t, machine.Run s tr t ∧ ∃ p ∈ tr, Forks p.1 p.2 := by
  obtain ⟨tr, t, hrun, hta, -, hh, hsem⟩ := exists_quiet hs halive
  -- the labels that take the loop through its `fork`
  obtain ⟨as, u, hexec, hfork⟩ : ∃ as u, machine.exec t as = some u ∧ u.alive ∧
      u.main = .fork ∧ u.handler = .idle := by
    rw [← hsem] at hp
    cases hm : t.main with
    | fork => exact ⟨[], t, rfl, hta, hm, hh⟩
    | semWait =>
      have hpos : 0 < t.sem := by simpa [hm, MainPc.permits] using hp
      refine ⟨[.main], { t with sem := t.sem - 1, main := .fork }, ?_, hta, rfl, hh⟩
      simp [Machine.exec, machine, State.step, State.runMain, hta, hh, hm, hpos]
    | accept =>
      have hpos : 0 < t.sem := by simpa [hm, MainPc.permits] using hp
      refine ⟨[.main, .main], { t with sem := t.sem - 1, main := .fork }, ?_, hta, rfl, hh⟩
      simp [Machine.exec, machine, State.step, State.runMain, hta, hh, hm, hpos]
  obtain ⟨hua, hum, huh⟩ := hfork
  have hstep : machine.step u .main =
      some { u with running := u.running + 1, main := .accept } := by
    simp [machine, State.step, State.runMain, hua, hum, huh]
  refine ⟨_, _, (hrun.append (Machine.run_of_exec hexec)).snoc hstep, (u, .main), by simp, rfl, hum⟩

/-- A child is started with a permit. -/
theorem permits_pos_of_forks {tr : List (State × Label)} (h : machine.Run s tr t)
    (hforks : ∃ p ∈ tr, Forks p.1 p.2) : 0 < s.permits := by
  obtain ⟨p, hp, -, hm⟩ := hforks
  have hle : p.1.permits ≤ s.permits :=
    h.invariant_trace (I := fun t => t.permits ≤ s.permits)
      (fun _ _ _ hs hstep => Nat.le_trans (permits_le_of_step hstep) hs) (Nat.le_refl _) p hp
  refine Nat.lt_of_lt_of_le ?_ hle
  rw [State.permits, hm]
  show 0 < p.1.sem + p.1.children + 1 + p.1.handler.permits
  omega

/-- **How long the server serves.** A living server can still start a child, at once or after some
of its children have ended, if and only if fewer than `MAX_CHILDREN` of its `fork`s have
failed. -/
theorem forks_again_iff {tr : List (State × Label)} (h : machine.Run start tr s)
    (halive : s.alive) :
    (∃ tr' t, machine.Run s tr' t ∧ ∃ p ∈ tr', Forks p.1 p.2) ↔ failedForks tr < maxChildren := by
  have hpermits := permits_add_failedForks h
  constructor
  · rintro ⟨tr', t, hrun, hforks⟩
    have := permits_pos_of_forks hrun hforks
    omega
  · intro hlt
    exact exists_fork (pending_of_zombies h) halive (by omega)

/-- Four connections are accepted and every `fork` fails. -/
def failFour : List Label := (List.replicate 4 [.main, .main, .fail]).flatten

/-- After that no child is started again. -/
theorem forks_again_failFour :
    ∃ tr s, machine.Run start tr s ∧ s.alive ∧
      ¬ ∃ tr' t, machine.Run s tr' t ∧ ∃ p ∈ tr', Forks p.1 p.2 := by
  obtain ⟨s, hexec, halive, hfailed⟩ : ∃ s, machine.exec start failFour = some s ∧ s.alive ∧
      failedForks (machine.trace start failFour) = 4 := ⟨_, rfl, rfl, by decide⟩
  have hrun := Machine.run_of_exec hexec
  refine ⟨_, s, hrun, halive, fun h => ?_⟩
  have := (forks_again_iff hrun halive).mp h
  rw [hfailed] at this
  exact absurd this (by decide)

end EchoServer

end Tlpiexer
