import Tlpiexer.Foundations.Progress
import Tlpiexer.HandOff

/-!
# The hand-off comes to its end

The two threads of `src/imp/53-01.c` never block each other for good, and the program gets through
its input: there is one turn, and a line costs six steps, whichever thread is scheduled.

Thread 0 is the one that leaves, from `getline` and with the turn. Thread 1 is at
`sem_wait(sem_r)` then, where the `pthread_cancel` of `free_resouces` reaches it.

## Main results

* `hand_off_completes` — no deadlock, and every line is printed before the program ends
-/

namespace Tlpiexer

namespace HandOff

open CString Transition

variable {lines : List Bytes} {s s' s₀ : State} {a : Label} {tr : List (State × Label)}

/-! ### How many steps are left -/

/-- The steps before thread 0 is back at `sem_wait(sem_w)`, and the two that end the program. -/
def Pc0.left : Pc0 → ℕ
  | .wait => 0
  | .read => 1
  | .post => 6
  | .gone => 0

/-- The same for thread 1. -/
def Pc1.left : Pc1 → ℕ
  | .wait => 0
  | .print => 4
  | .post => 3

/-- The steps that are left at most. -/
def State.left (s : State) : ℕ :=
  6 * s.input.length + 2 * s.semW + 5 * s.semR + s.thread0.left + s.thread1.left

theorem left_of_move (h : Move s s') : s'.left < s.left := by
  cases h with
  | wait0 h0 hsem =>
    simp only [State.left, h0, Pc0.left]
    omega
  | read h0 hline =>
    simp only [State.left, h0, hline, Pc0.left, List.length_cons]
    omega
  | leave h0 => simp [State.left, h0, Pc0.left]
  | post0 h0 =>
    simp only [State.left, h0, Pc0.left]
    omega
  | wait1 h1 hsem =>
    simp only [State.left, h1, Pc1.left]
    omega
  | print h1 => simp [State.left, h1, Pc1.left]
  | post1 h1 =>
    simp only [State.left, h1, Pc1.left]
    omega

theorem left_lowers : (machine lines).Lowers State.left :=
  fun _ _ _ hstep => left_of_move (move_of_step hstep)

/-! ### Where the threads can stop -/

/-- Who has the turn can take a step, unless thread 0 left with it. -/
theorem enabled_of_inv (h : Inv lines s) (h0 : s.thread0 ≠ .gone) : (machine lines).Enabled s := by
  have hturn := h.turn
  by_cases hw : 0 < s.semW ∧ s.thread0 = .wait
  · exact ⟨.thread0, _, by simp [machine, State.step, State.run0, hw]; rfl⟩
  by_cases hr : 0 < s.semR ∧ s.thread1 = .wait
  · exact ⟨.thread1, _, by simp [machine, State.step, State.run1, hr]; rfl⟩
  cases h0' : s.thread0 with
  | gone => exact absurd h0' h0
  | read => exact ⟨.fail, _, if_pos h0'⟩
  | post => exact ⟨.thread0, _, by simp [machine, State.step, State.run0, h0']; rfl⟩
  | wait =>
    cases h1 : s.thread1 with
    | print => exact ⟨.thread1, _, by simp [machine, State.step, State.run1, h1]; rfl⟩
    | post => exact ⟨.thread1, _, by simp [machine, State.step, State.run1, h1]; rfl⟩
    | wait =>
      simp only [h0', h1, Pc0.turn, Pc1.turn, and_true] at hturn hw hr
      omega

/-- Thread 0 left with the turn, so thread 1 waits for one that does not come. -/
theorem Inv.of_gone (h : Inv lines s) (h0 : s.thread0 = .gone) :
    s.thread1 = .wait ∧ s.semR = 0 ∧ s.semW = 0 := by
  have hturn := h.turn
  cases h1 : s.thread1 <;> simp only [h0, h1, Pc0.turn, Pc1.turn] at hturn <;>
    refine ⟨?_, ?_, ?_⟩ <;> first | rfl | omega

theorem not_enabled_of_gone (h : Inv lines s) (h0 : s.thread0 = .gone) :
    ¬ (machine lines).Enabled s := by
  obtain ⟨h1, hr, -⟩ := h.of_gone h0
  rintro ⟨a, s', hstep⟩
  cases move_of_step hstep <;> simp_all

/-- Thread 0 leaves at the end of the input. -/
def LeftAtEnd (s : State) : Prop := s.thread0 = .gone → s.input = []

theorem leftAtEnd_of_step (h : LeftAtEnd s) (hok : a ≠ .fail) (hstep : s.step a = some s') :
    LeftAtEnd s' := by
  cases a with
  | fail => exact absurd rfl hok
  | thread0 =>
    intro h0
    rw [State.step, State.run0] at hstep
    split at hstep
    case h_1 =>
      split at hstep <;> cases hstep
      cases h0
    case h_2 =>
      split at hstep
      case h_1 hinput => cases hstep; exact hinput
      case h_2 => cases hstep; cases h0
    case h_3 => cases hstep; cases h0
    case h_4 => cases hstep
  | thread1 =>
    rw [State.step, State.run1] at hstep
    split at hstep
    case h_1 => split at hstep <;> cases hstep; exact h
    case h_2 => cases hstep; exact h
    case h_3 => cases hstep; exact h

theorem leftAtEnd_of_run (hinit : (machine lines).init s₀) (hrun : (machine lines).Run s₀ tr s)
    (hok : Label.fail ∉ tr.map Prod.snd) : LeftAtEnd s := by
  refine hrun.invariant_of_forall (G := fun _ a => a ≠ .fail) (fun _ _ _ => leftAtEnd_of_step)
    (fun p hp hfail => hok (hfail ▸ List.mem_map_of_mem hp)) ?_
  obtain ⟨buffer, rfl⟩ := hinit
  exact nofun

/-- **The hand-off completes.** No run takes more than six steps a line, and two more. In every
interleaving one of the threads can go on until thread 0 leaves. At that moment thread 1 is blocked
in its `sem_wait`, and it has printed what was read, once each and in order: all lines, unless
`getline` reported an error. -/
theorem hand_off_completes (hinit : (machine lines).init s₀)
    (hrun : (machine lines).Run s₀ tr s) :
    tr.length ≤ 6 * lines.length + 2 ∧
      ((machine lines).Enabled s ↔ s.thread0 ≠ .gone) ∧
      (s.thread0 = .gone → s.thread1 = .wait ∧ s.semR = 0 ∧
        s.out = (lines.take s.count).map received ∧
        (Label.fail ∉ tr.map Prod.snd → s.out = lines.map received)) := by
  have hinv := inv_of_reachable ⟨_, _, hinit, hrun⟩
  refine ⟨?_, ⟨fun hen h0 => not_enabled_of_gone hinv h0 hen, enabled_of_inv hinv⟩, fun h0 => ?_⟩
  · have hlen := hrun.length_add_le left_lowers
    obtain ⟨buffer, rfl⟩ := hinit
    have hstart : (start buffer lines).left = 6 * lines.length + 2 := rfl
    omega
  · obtain ⟨h1, hr, -⟩ := hinv.of_gone h0
    have hout := hinv.synced (.inr (.inr (.inl h0)))
    refine ⟨h1, hr, hout, fun hok => ?_⟩
    have hrest := hinv.rest
    rw [leftAtEnd_of_run hinit hrun hok h0, eq_comm, List.drop_eq_nil_iff] at hrest
    rw [hout, List.take_of_length_le hrest]

/-- Two lines and the end of the input. -/
theorem hand_off_completes_hiHo :
    ∃ tr s, (machine hiHo).Run (start [] hiHo) tr s ∧ tr.length = 14 ∧
      s.out = hiHo.map received ∧ ¬ (machine hiHo).Enabled s := by
  obtain ⟨s, hexec, h0⟩ : ∃ s, (machine hiHo).exec (start [] hiHo)
      (.thread0 :: oneLine ++ oneLine ++ [.thread0]) = some s ∧ s.thread0 = .gone :=
    ⟨_, rfl, rfl⟩
  have hrun := Machine.run_of_exec hexec
  have hlabels := Machine.map_snd_trace hexec
  obtain ⟨-, hen, hend⟩ := hand_off_completes ⟨[], rfl⟩ hrun
  refine ⟨_, s, hrun, ?_, (hend h0).2.2.2 (by rw [hlabels]; simp [oneLine]), fun h => hen.mp h h0⟩
  rw [← List.length_map (f := Prod.snd), hlabels]
  rfl

end HandOff

end Tlpiexer
