import Tlpiexer.Foundations.Progress
import Tlpiexer.Foundations.Signals

/-!
# Catching every signal

`src/imp/22-02.c`. The program catches and blocks all signals, raises the standard signals in a
random order, queues every realtime signal three times with random values, and unblocks them all.
At the end it tells how many standard signals were caught, and which of them were not.

## Steps

The program never calls `srand`, so that `rand` returns the same numbers in every run. Which ones
these are depends on the C library: they are a parameter, `rand k` being the answer to call `k`. A
label gives whether `sigqueue` succeeds, and which of the pending signals is delivered next; which
one this is, is left open. The handlers run with all signals blocked
(`sa_mask`), so a delivery is one step, and the program goes on only when nothing is pending that
could be delivered. `SIGRTMIN` and `SIGRTMAX` are known at run time only, and are parameters.

## What is missing

`SIGKILL` and `SIGSTOP` are never raised. Of the 29 signals that are, some are discarded while they
are pending: `SIGCONT` by a stop signal raised after it, and the stop signals by a `SIGCONT` raised
after them. Whatever the order, at least one of the four goes missing.

## Main results

* `report_spec` — what is caught and what is reported missing, by the order of the signals raised
* `total_iff` — the number of caught signals reported depends on `rand` alone, and which numbers
  there are
-/

namespace Tlpiexer

namespace SignalCatch

open Signals Transition

/-! ### The program -/

/-- `sighandler` and `rtsighandler`. -/
inductive Handler
  | std
  | rt
  deriving DecidableEq

/-- What is printed. -/
inductive Line
  | raise (sig : ℕ)
  | raised (n : ℕ)
  | caught (sig : ℕ)
  | caughtRt (sig : ℕ) (value : ℕ)
  | total (n : ℕ)
  | missing (sig : ℕ)
  deriving DecidableEq

/-- What the kernel keeps for the process. -/
structure Proc where
  blocked : ℕ → Bool
  handler : ℕ → Option Handler
  pending : List (ℕ × ℕ)

/-- `SIGKILL` and `SIGSTOP`, which are neither blocked nor caught. -/
def reserved (sig : ℕ) : Bool := sig == 9 || sig == 19

/-- `sigprocmask` with `SIG_BLOCK` and the full set. -/
def Proc.block (p : Proc) : Proc := { p with blocked := fun sig => p.blocked sig || !reserved sig }

/-- `sigprocmask` with `SIG_UNBLOCK` and the full set. -/
def Proc.unblock (p : Proc) : Proc := { p with blocked := fun _ => false }

/-- `sigaction`. -/
def Proc.sigaction (p : Proc) (h : Handler) (sig : ℕ) : Proc :=
  { p with handler := Function.update p.handler sig (some h) }

/-- `setup_stdsignal`. -/
def setupStdsignal (p : Proc) : Proc :=
  (List.range' 1 31).foldl (fun p i => if reserved i then p else p.sigaction .std i) p.block

/-- `setup_rtsignal`. -/
def setupRtsignal (rtmin rtmax : ℕ) (p : Proc) : Proc :=
  (List.range' rtmin (rtmax + 1 - rtmin)).foldl (fun p i => p.sigaction .rt i) p.block

/-- `rrand`, where `rand` returns `r`. -/
def rrand (min max r : ℕ) : ℕ := min + r % (max - min + 1)

/-- Where the program is. -/
inductive Pc
  /-- In the loop of `raise_stdsignal`. -/
  | raising
  /-- In the loops of `raise_rtsignal`. -/
  | queueing (t i : ℕ)
  /-- In or behind `unblock_signal`. -/
  | unblocked
  | finished
  /-- In `exit_err`. -/
  | failed
  /-- Terminated by a signal without a handler. -/
  | killed
  deriving DecidableEq

/-- The process and its variables. -/
structure State where
  pc : Pc
  proc : Proc
  sigDone : List ℕ
  nsigDone : ℕ
  nsigCatch : ℕ
  sigCatch : List ℕ
  /-- How often `rand` has been called. -/
  drawn : ℕ
  out : List Line

/-- What happens next. -/
inductive Label
  /-- A round of the loop of `raise_stdsignal`. -/
  | raise
  | raised
  /-- A round of the inner loop of `raise_rtsignal`. -/
  | queue (ok : Bool)
  | nextRound
  | unblock
  /-- The oldest instance of `sig` is delivered. -/
  | deliver (sig : ℕ)
  | report

/-- Nothing can be delivered. -/
def Proc.Quiet (p : Proc) : Prop := ∀ e ∈ p.pending, p.blocked e.1

instance (p : Proc) : Decidable p.Quiet :=
  inferInstanceAs (Decidable (∀ e ∈ p.pending, p.blocked e.1))

/-- The last loop of `main`. -/
def missingLines (sigCatch : List ℕ) : List Line :=
  ((List.range' 1 31).filter fun i => i ∉ sigCatch).map .missing

/-- A signal is delivered. -/
def State.catch (s : State) (sig value : ℕ) (q : List (ℕ × ℕ)) : State :=
  let s := { s with proc := { s.proc with pending := q } }
  match s.proc.handler sig with
  | some .std =>
    { s with
      nsigCatch := s.nsigCatch + 1
      sigCatch := sig :: s.sigCatch
      out := s.out ++ [.caught sig] }
  | some .rt => { s with out := s.out ++ [.caughtRt sig value] }
  | none => { s with pc := .killed }

/-- One step, where `rtmin` and `rtmax` are `SIGRTMIN` and `SIGRTMAX`. -/
def State.step (rand : ℕ → ℕ) (rtmin rtmax : ℕ) (s : State) : Label → Option State
  | .raise =>
    if s.pc = .raising ∧ s.nsigDone < 31 ∧ s.proc.Quiet then
      let sig := rrand 1 31 (rand s.drawn)
      let s := { s with drawn := s.drawn + 1 }
      if sig ∈ s.sigDone then some s
      else some { s with
        proc := { s.proc with pending := generate sig 0 s.proc.pending }
        sigDone := sig :: s.sigDone
        nsigDone := s.nsigDone + 1
        out := s.out ++ [.raise sig] }
    else none
  | .raised =>
    if s.pc = .raising ∧ ¬ s.nsigDone < 31 ∧ s.proc.Quiet then
      some { s with pc := .queueing 0 rtmin, out := s.out ++ [.raised (s.nsigDone - 2)] }
    else none
  | .queue ok =>
    match s.pc with
    | .queueing t i =>
      if t < 3 ∧ i ≤ rtmax ∧ s.proc.Quiet then
        let value := rrand 0 1024 (rand s.drawn)
        let s := { s with drawn := s.drawn + 1 }
        if ok then some { s with
          pc := .queueing t (i + 1)
          proc := { s.proc with pending := generate i value s.proc.pending } }
        else some { s with pc := .failed }
      else none
    | _ => none
  | .nextRound =>
    match s.pc with
    | .queueing t i =>
      if t < 3 ∧ ¬ i ≤ rtmax ∧ s.proc.Quiet then some { s with pc := .queueing (t + 1) rtmin }
      else none
    | _ => none
  | .unblock =>
    match s.pc with
    | .queueing t _ =>
      if ¬ t < 3 ∧ s.proc.Quiet then some { s with pc := .unblocked, proc := s.proc.unblock }
      else none
    | _ => none
  | .deliver sig =>
    if s.pc = .finished ∨ s.pc = .failed ∨ s.pc = .killed ∨ s.proc.blocked sig then none
    else (dequeue sig s.proc.pending).map fun r => s.catch sig r.1 r.2
  | .report =>
    if s.pc = .unblocked ∧ s.proc.Quiet then some { s with
      pc := .finished
      out := s.out ++ .total s.nsigCatch :: missingLines s.sigCatch }
    else none

/-- The state in front of the loop of `raise_stdsignal`; `p` is what the process started with. -/
def start (rtmin rtmax : ℕ) (p : Proc) : State where
  pc := .raising
  proc := setupRtsignal rtmin rtmax (setupStdsignal p)
  sigDone := [19, 9]
  nsigDone := 2
  nsigCatch := 0
  sigCatch := []
  drawn := 0
  out := []

/-- The program, started with no signal pending. -/
def machine (rand : ℕ → ℕ) (rtmin rtmax : ℕ) : Machine State Label where
  init s := ∃ p : Proc, p.pending = [] ∧ s = start rtmin rtmax p
  step := State.step rand rtmin rtmax

/-! ### The output -/

/-- The signals raised, in this order. -/
@[simp] def raisedIn : List Line → List ℕ
  | [] => []
  | .raise sig :: out => sig :: raisedIn out
  | _ :: out => raisedIn out

/-- The standard signals caught. -/
@[simp] def caughtIn : List Line → List ℕ
  | [] => []
  | .caught sig :: out => sig :: caughtIn out
  | _ :: out => caughtIn out

/-- The realtime signals caught, with their values. -/
@[simp] def caughtRtIn : List Line → List (ℕ × ℕ)
  | [] => []
  | .caughtRt sig value :: out => (sig, value) :: caughtRtIn out
  | _ :: out => caughtRtIn out

/-- The realtime signal that a step queues, with its value. -/
def queuedBy (rand : ℕ → ℕ) (s : State) : Label → List (ℕ × ℕ)
  | .queue true =>
    match s.pc with
    | .queueing _ i => [(i, rrand 0 1024 (rand s.drawn))]
    | _ => []
  | _ => []

/-- The realtime signals queued in a run, with their values. -/
def queued (rand : ℕ → ℕ) (tr : List (State × Label)) : List (ℕ × ℕ) :=
  tr.flatMap fun p => queuedBy rand p.1 p.2

/-- The signals that are raised. -/
def sendable : List ℕ := (List.range' 1 31).filter fun i => !reserved i

/-! ### Steps -/

section Steps

variable {rand : ℕ → ℕ} {rtmin rtmax : ℕ} {s s' : State} {a : Label}

/-- What a step does. -/
inductive Move (rand : ℕ → ℕ) (rtmin rtmax : ℕ) (s : State) : Label → State → Prop
  | again (hpc : s.pc = .raising) (hold : rrand 1 31 (rand s.drawn) ∈ s.sigDone) :
      Move rand rtmin rtmax s .raise { s with drawn := s.drawn + 1 }
  | raise {sig : ℕ} (hpc : s.pc = .raising) (hsig : rrand 1 31 (rand s.drawn) = sig)
      (hnew : sig ∉ s.sigDone) :
      Move rand rtmin rtmax s .raise
        { s with
          drawn := s.drawn + 1
          proc := { s.proc with pending := generate sig 0 s.proc.pending }
          sigDone := sig :: s.sigDone
          nsigDone := s.nsigDone + 1
          out := s.out ++ [.raise sig] }
  | raised (hpc : s.pc = .raising) (hall : 31 ≤ s.nsigDone) :
      Move rand rtmin rtmax s .raised
        { s with pc := .queueing 0 rtmin, out := s.out ++ [.raised (s.nsigDone - 2)] }
  | queue {t i : ℕ} (hpc : s.pc = .queueing t i) (ht : t < 3) (hi : i ≤ rtmax) :
      Move rand rtmin rtmax s (.queue true)
        { s with
          drawn := s.drawn + 1
          pc := .queueing t (i + 1)
          proc := { s.proc with
            pending := generate i (rrand 0 1024 (rand s.drawn)) s.proc.pending } }
  | queueFails {t i : ℕ} (hpc : s.pc = .queueing t i) :
      Move rand rtmin rtmax s (.queue false) { s with drawn := s.drawn + 1, pc := .failed }
  | nextRound {t i : ℕ} (hpc : s.pc = .queueing t i) (ht : t < 3) (hi : rtmax < i) :
      Move rand rtmin rtmax s .nextRound { s with pc := .queueing (t + 1) rtmin }
  | unblock {t i : ℕ} (hpc : s.pc = .queueing t i) (ht : 3 ≤ t) :
      Move rand rtmin rtmax s .unblock { s with pc := .unblocked, proc := s.proc.unblock }
  | deliver {sig v : ℕ} {q : List (ℕ × ℕ)} (hpc : s.pc ≠ .finished)
      (hb : s.proc.blocked sig = false) (hd : dequeue sig s.proc.pending = some (v, q)) :
      Move rand rtmin rtmax s (.deliver sig) (s.catch sig v q)
  | report (hpc : s.pc = .unblocked) (hquiet : s.proc.Quiet) :
      Move rand rtmin rtmax s .report
        { s with pc := .finished, out := s.out ++ .total s.nsigCatch :: missingLines s.sigCatch }

theorem move_of_step (h : s.step rand rtmin rtmax a = some s') : Move rand rtmin rtmax s a s' := by
  cases a with
  | raise =>
    simp only [State.step] at h
    split_ifs at h with hg hdone
    · cases h
      exact .again hg.1 hdone
    · cases h
      exact .raise hg.1 rfl hdone
  | raised =>
    obtain ⟨⟨hpc, hall, -⟩, ⟨⟩⟩ := Option.ite_none_right_eq_some.mp h
    exact .raised hpc (Nat.not_lt.mp hall)
  | queue ok =>
    simp only [State.step] at h
    split at h
    case h_2 => cases h
    case h_1 t i hpc =>
      obtain ⟨⟨ht, hi, -⟩, h⟩ := Option.ite_none_right_eq_some.mp h
      cases ok <;> cases h
      · exact .queueFails hpc
      · exact .queue hpc ht hi
  | nextRound =>
    simp only [State.step] at h
    split at h
    case h_2 => cases h
    case h_1 t i hpc =>
      obtain ⟨⟨ht, hi, -⟩, ⟨⟩⟩ := Option.ite_none_right_eq_some.mp h
      exact .nextRound hpc ht (Nat.not_le.mp hi)
  | unblock =>
    simp only [State.step] at h
    split at h
    case h_2 => cases h
    case h_1 t i hpc =>
      obtain ⟨⟨ht, -⟩, ⟨⟩⟩ := Option.ite_none_right_eq_some.mp h
      exact .unblock hpc (Nat.not_lt.mp ht)
  | deliver sig =>
    obtain ⟨hg, h⟩ := Option.ite_none_left_eq_some.mp h
    obtain ⟨⟨v, q⟩, hd, ⟨⟩⟩ := Option.map_eq_some_iff.mp h
    simp only [not_or, Bool.not_eq_true] at hg
    exact .deliver hg.1 hg.2.2.2 hd
  | report =>
    obtain ⟨⟨hpc, hquiet⟩, ⟨⟩⟩ := Option.ite_none_right_eq_some.mp h
    exact .report hpc hquiet

end Steps

/-! ### Handlers and masks -/

section Setup

variable {rand : ℕ → ℕ} {rtmin rtmax : ℕ} {s s' : State} {a : Label}

theorem foldl_sigaction (h : Handler) (l : List ℕ) (p : Proc) :
    l.foldl (fun p i => p.sigaction h i) p =
      { p with handler := fun sig => if sig ∈ l then some h else p.handler sig } := by
  induction l generalizing p with
  | nil => simp
  | cons i l ih =>
    rw [List.foldl_cons, ih, Proc.sigaction]
    congr 1
    funext sig
    by_cases hi : sig = i
    · subst hi
      simp
    · simp [hi]

theorem setupStdsignal_eq (p : Proc) : setupStdsignal p =
    { p.block with handler := fun sig => if sig ∈ sendable then some .std else p.handler sig } := by
  have hfold : setupStdsignal p = sendable.foldl (fun p i => p.sigaction .std i) p.block := by
    rw [setupStdsignal, sendable, List.foldl_filter]
    congr 1
    funext p i
    cases reserved i <;> rfl
  rw [hfold, foldl_sigaction]
  rfl

theorem mem_sendable {sig : ℕ} : sig ∈ sendable ↔ (1 ≤ sig ∧ sig ≤ 31) ∧ reserved sig = false := by
  rw [sendable, List.mem_filter, List.mem_range'_1, Bool.not_eq_true']
  exact and_congr_left fun _ => by omega

/-- Every signal that is pending has its handler, and while the program raises signals they are
all blocked. -/
structure Setup (rtmin rtmax : ℕ) (s : State) : Prop where
  std : ∀ sig ∈ sendable, s.proc.handler sig = some .std
  rt : ∀ sig, rtmin ≤ sig → sig ≤ rtmax → s.proc.handler sig = some .rt
  pending : ∀ e ∈ s.proc.pending, e.1 ∈ sendable ∨ rtmin ≤ e.1 ∧ e.1 ≤ rtmax
  place : s.pc = .raising ∨ (∃ t i, s.pc = .queueing t i ∧ rtmin ≤ i) ∨ s.pc = .unblocked ∨
    s.pc = .finished ∨ s.pc = .failed
  blocked : s.pc = .raising ∨ (∃ t i, s.pc = .queueing t i) →
    ∀ sig, reserved sig = false → s.proc.blocked sig
  unblocked : s.pc = .unblocked → ∀ sig, s.proc.blocked sig = false

theorem setup_start (hrt : 32 ≤ rtmin) {p : Proc} (hp : p.pending = []) :
    Setup rtmin rtmax (start rtmin rtmax p) := by
  have hproc : (start rtmin rtmax p).proc =
      ⟨fun sig => (p.blocked sig || !reserved sig) || !reserved sig,
        fun sig => if sig ∈ List.range' rtmin (rtmax + 1 - rtmin) then some .rt
          else if sig ∈ sendable then some .std else p.handler sig, []⟩ := by
    rw [start, setupRtsignal, foldl_sigaction, setupStdsignal_eq]
    simp [Proc.block, hp]
  refine ⟨fun sig hsig => ?_, fun sig hmin hmax => ?_, fun e he => ?_, .inl rfl,
    fun _ sig hsig => ?_, nofun⟩
  · have hle := (mem_sendable.mp hsig).1.2
    rw [hproc]
    dsimp only
    rw [if_neg fun hc => absurd (List.mem_range'_1.mp hc).1 (by omega), if_pos hsig]
  · rw [hproc]
    dsimp only
    rw [if_pos (List.mem_range'_1.mpr ⟨hmin, by omega⟩)]
  · rw [hproc] at he
    cases he
  · rw [hproc]
    simp [hsig]

/-- The handler of a pending signal is called. -/
theorem Setup.catch (h : Setup rtmin rtmax s) {sig v : ℕ} {q : List (ℕ × ℕ)}
    (hd : dequeue sig s.proc.pending = some (v, q)) :
    sig ∈ sendable ∧ s.catch sig v q =
        { s with
          proc := { s.proc with pending := q }
          nsigCatch := s.nsigCatch + 1
          sigCatch := sig :: s.sigCatch
          out := s.out ++ [.caught sig] } ∨
      (rtmin ≤ sig ∧ sig ≤ rtmax) ∧ s.catch sig v q =
        { s with
          proc := { s.proc with pending := q }
          out := s.out ++ [.caughtRt sig v] } := by
  obtain ⟨e, he, rfl⟩ : ∃ e ∈ s.proc.pending, e.1 = sig := by
    refine List.mem_map.mp (not_not.mp fun hn => ?_)
    rw [← values_eq_nil_iff, (values_of_dequeue hd).1] at hn
    cases hn
  rcases h.pending e he with hsig | hsig
  · exact .inl ⟨hsig, by simp [State.catch, h.std _ hsig]⟩
  · exact .inr ⟨hsig, by simp [State.catch, h.rt _ hsig.1 hsig.2]⟩

theorem rrand_mem (r : ℕ) : 1 ≤ rrand 1 31 r ∧ rrand 1 31 r ≤ 31 := by
  rw [rrand]
  omega

/-- The signals that are pending can be blocked. -/
theorem Setup.not_reserved (hrt : 32 ≤ rtmin) (h : Setup rtmin rtmax s) {sig v : ℕ}
    {q : List (ℕ × ℕ)} (hd : dequeue sig s.proc.pending = some (v, q)) : reserved sig = false := by
  rcases h.catch hd with ⟨hsig, -⟩ | ⟨hsig, -⟩
  · exact (mem_sendable.mp hsig).2
  · simp only [reserved, Bool.or_eq_false_iff, beq_eq_false_iff_ne]
    omega

/-- While the program raises signals, none is delivered. -/
theorem Setup.pc_of_deliver (hrt : 32 ≤ rtmin) (h : Setup rtmin rtmax s) {sig v : ℕ}
    {q : List (ℕ × ℕ)} (hd : dequeue sig s.proc.pending = some (v, q))
    (hb : s.proc.blocked sig = false) : s.pc ≠ .raising ∧ ∀ t i, s.pc ≠ .queueing t i := by
  have hres := h.not_reserved hrt hd
  refine ⟨fun hpc => ?_, fun t i hpc => ?_⟩
  · exact Bool.false_ne_true (hb.symm.trans (h.blocked (.inl hpc) sig hres))
  · exact Bool.false_ne_true (hb.symm.trans (h.blocked (.inr ⟨t, i, hpc⟩) sig hres))

theorem Setup.min_le (h : Setup rtmin rtmax s) {t i : ℕ} (hpc : s.pc = .queueing t i) :
    rtmin ≤ i := by
  rcases h.place with hp | ⟨t', i', hp, hle⟩ | hp | hp | hp <;> cases hpc.symm.trans hp
  exact hle

theorem Setup.step (h : Setup rtmin rtmax s) (hdone : 9 ∈ s.sigDone ∧ 19 ∈ s.sigDone)
    (hmove : Move rand rtmin rtmax s a s') : Setup rtmin rtmax s' := by
  cases hmove with
  | again hpc hold => exact ⟨h.std, h.rt, h.pending, h.place, h.blocked, h.unblocked⟩
  | @raise sig hpc hsig hnew =>
    refine ⟨h.std, h.rt, fun e he => ?_, .inl hpc, fun _ => h.blocked (.inl hpc), fun hc => ?_⟩
    · rcases mem_generate he with he | rfl
      · exact h.pending e he
      · refine .inl (mem_sendable.mpr ⟨hsig ▸ rrand_mem _, ?_⟩)
        refine Bool.eq_false_iff.mpr fun hc => hnew ?_
        simp only [reserved, Bool.or_eq_true, beq_iff_eq] at hc
        rcases hc with hc | hc <;> rw [hc]
        · exact hdone.1
        · exact hdone.2
    · cases hpc.symm.trans hc
  | raised hpc hall =>
    exact ⟨h.std, h.rt, h.pending, .inr (.inl ⟨0, rtmin, rfl, Nat.le_refl _⟩),
      fun _ => h.blocked (.inl hpc), nofun⟩
  | @queue t i hpc ht hi =>
    have hmin := h.min_le hpc
    refine ⟨h.std, h.rt, fun e he => ?_, .inr (.inl ⟨t, i + 1, rfl, Nat.le_succ_of_le hmin⟩),
      fun _ => h.blocked (.inr ⟨_, _, hpc⟩), nofun⟩
    rcases mem_generate he with he | rfl
    · exact h.pending e he
    · exact .inr ⟨hmin, hi⟩
  | queueFails hpc => exact ⟨h.std, h.rt, h.pending, by simp, by simp, nofun⟩
  | nextRound hpc ht hi =>
    exact ⟨h.std, h.rt, h.pending, .inr (.inl ⟨_, rtmin, rfl, Nat.le_refl _⟩),
      fun _ => h.blocked (.inr ⟨_, _, hpc⟩), nofun⟩
  | unblock hpc ht => exact ⟨h.std, h.rt, h.pending, by simp, by simp, fun _ _ => rfl⟩
  | deliver hpc hb hd =>
    have hsub := (values_of_dequeue hd).2.2.subset
    rcases h.catch hd with ⟨-, heq⟩ | ⟨-, heq⟩ <;> rw [heq] <;>
      exact ⟨h.std, h.rt, fun e he => h.pending e (hsub he), h.place, h.blocked, h.unblocked⟩
  | report hpc hquiet => exact ⟨h.std, h.rt, h.pending, by simp, by simp, nofun⟩

end Setup

/-! ### Standard signals -/

section Output

variable (out out' : List Line)

@[simp] theorem raisedIn_append : raisedIn (out ++ out') = raisedIn out ++ raisedIn out' := by
  fun_induction raisedIn out <;> simp [*]

@[simp] theorem caughtIn_append : caughtIn (out ++ out') = caughtIn out ++ caughtIn out' := by
  fun_induction caughtIn out <;> simp [*]

@[simp] theorem caughtRtIn_append :
    caughtRtIn (out ++ out') = caughtRtIn out ++ caughtRtIn out' := by
  fun_induction caughtRtIn out <;> simp [*]

/-- The lines about missing signals say nothing about what was raised or caught. -/
@[simp] theorem in_missingLines (l : List ℕ) : raisedIn (missingLines l) = [] ∧
    caughtIn (missingLines l) = [] ∧ caughtRtIn (missingLines l) = [] := by
  rw [missingLines]
  generalize (List.range' 1 31).filter _ = m
  induction m with
  | nil => simp
  | cons i m ih => simpa using ih

end Output

section Standard

variable {rand : ℕ → ℕ} {rtmin rtmax : ℕ} {s s' : State} {a : Label}

/-- The signals raised and caught so far, as the variables of the program have them, and what is
left of those that are raised: it is pending or it has been caught. -/
structure StdInv (s : State) : Prop where
  done : s.sigDone = (raisedIn s.out).reverse ++ [19, 9]
  count : s.nsigDone = s.sigDone.length
  nodup : s.sigDone.Nodup
  range : ∀ x ∈ s.sigDone, 1 ≤ x ∧ x ≤ 31
  all : s.pc ≠ .raising → 31 ≤ s.nsigDone
  sigCatch : s.sigCatch = (caughtIn s.out).reverse
  nsigCatch : s.nsigCatch = (caughtIn s.out).length
  none : s.pc = .raising → caughtIn s.out = []
  caught : ∀ x ∈ caughtIn s.out, x < 32
  once : ∀ sig < 32, (values sig s.proc.pending).length + (caughtIn s.out).count sig =
    if survives (raisedIn s.out) sig then 1 else 0

theorem StdInv.step (hrt : 32 ≤ rtmin) (hset : Setup rtmin rtmax s) (h : StdInv s)
    (hmove : Move rand rtmin rtmax s a s') : StdInv s' := by
  cases hmove with
  | again hpc hold =>
    exact ⟨h.done, h.count, h.nodup, h.range, h.all, h.sigCatch, h.nsigCatch, h.none, h.caught,
      h.once⟩
  | @raise x hpc hx hnew =>
    have hran : 1 ≤ x ∧ x ≤ 31 := hx ▸ rrand_mem _
    have hlt : x < 32 := Nat.lt_succ_of_le hran.2
    refine ⟨by simp [h.done], by simp [h.count], List.nodup_cons.mpr ⟨hnew, h.nodup⟩, ?_,
      fun hc => absurd hpc hc, by simp [h.sigCatch], by simp [h.nsigCatch],
      fun _ => by simp [h.none hpc], by simpa using h.caught, fun sig hsig => ?_⟩
    · exact List.forall_mem_cons.mpr ⟨hran, h.range⟩
    · have honce := h.once sig hsig
      have hone : (values x s.proc.pending).length ≤ 1 := by
        have := h.once _ hlt
        split at this <;> omega
      simp only [raisedIn_append, raisedIn, caughtIn_append, caughtIn, List.append_nil,
        h.none hpc, List.count_nil, Nat.add_zero] at honce ⊢
      rw [length_values_generate_standard hlt hone, survives_concat, honce]
      by_cases heq : x = sig
      · simp [heq]
      · by_cases hc : cancels x sig <;> simp [heq, hc]
  | raised hpc hall =>
    exact ⟨by simp [h.done], h.count, h.nodup, h.range, fun _ => hall, by simp [h.sigCatch],
      by simp [h.nsigCatch], nofun, by simpa using h.caught, by simpa using h.once⟩
  | @queue t i hpc ht hi =>
    refine ⟨h.done, h.count, h.nodup, h.range, fun _ => h.all (by simp [hpc]), h.sigCatch,
      h.nsigCatch, nofun, h.caught, fun sig hsig => ?_⟩
    have hmin := hset.min_le hpc
    rw [values_generate_of_ne (by omega) (cancels_realtime (.inl (hrt.trans hmin)))]
    exact h.once sig hsig
  | queueFails hpc =>
    exact ⟨h.done, h.count, h.nodup, h.range, fun _ => h.all (by simp [hpc]), h.sigCatch,
      h.nsigCatch, nofun, h.caught, h.once⟩
  | nextRound hpc =>
    exact ⟨h.done, h.count, h.nodup, h.range, fun _ => h.all (by simp [hpc]), h.sigCatch,
      h.nsigCatch, nofun, h.caught, h.once⟩
  | unblock hpc =>
    exact ⟨h.done, h.count, h.nodup, h.range, fun _ => h.all (by simp [hpc]), h.sigCatch,
      h.nsigCatch, nofun, h.caught, h.once⟩
  | @deliver sig v q hpc hb hd =>
    obtain ⟨hraising, -⟩ := hset.pc_of_deliver hrt hd hb
    obtain ⟨hvals, hothers, -⟩ := values_of_dequeue hd
    rcases hset.catch hd with ⟨hsig, heq⟩ | ⟨hsig, heq⟩ <;> rw [heq]
    · refine ⟨by simp [h.done], h.count, h.nodup, h.range, h.all, by simp [h.sigCatch],
        by simp [h.nsigCatch], fun hc => absurd hc hraising, ?_, fun s' hs' => ?_⟩
      · have hlt := (mem_sendable.mp hsig).1.2
        simpa [or_imp, forall_and] using ⟨h.caught, Nat.lt_succ_of_le hlt⟩
      have honce := h.once s' hs'
      simp only [raisedIn_append, raisedIn, caughtIn_append, caughtIn, List.append_nil,
        List.count_append] at honce ⊢
      by_cases hs : s' = sig
      · subst hs
        rw [hvals, List.length_cons] at honce
        rw [List.count_singleton_self]
        omega
      · rw [hothers s' hs, List.count_singleton, if_neg (by simpa using Ne.symm hs)]
        exact honce
    · refine ⟨by simp [h.done], h.count, h.nodup, h.range, h.all, by simp [h.sigCatch],
        by simp [h.nsigCatch], fun hc => absurd hc hraising, by simpa using h.caught,
        fun s' hs' => ?_⟩
      rw [hothers s' (by omega)]
      simpa using h.once s' hs'
  | report hpc =>
    exact ⟨by simp [h.done], h.count, h.nodup, h.range, fun _ => h.all (by simp [hpc]),
      by simp [h.sigCatch], by simp [h.nsigCatch], nofun, by simpa using h.caught,
      by simpa using h.once⟩

theorem StdInv.mem_sigDone (h : StdInv s) : 9 ∈ s.sigDone ∧ 19 ∈ s.sigDone := by
  rw [h.done]
  simp

/-- When the loop is left, every signal but the two has been raised once. -/
theorem StdInv.perm (h : StdInv s) (hall : 31 ≤ s.nsigDone) :
    (raisedIn s.out).Perm sendable := by
  have hsub : s.sigDone ⊆ List.range' 1 31 := fun x hx => by
    have := h.range x hx
    exact List.mem_range'_1.mpr (by omega)
  have hlen : (List.range' 1 31).length ≤ s.sigDone.length := by rw [← h.count]; exact hall
  have hperm : s.sigDone.Perm (sendable ++ [19, 9]) :=
    ((List.subperm_of_subset h.nodup hsub).perm_of_length_le hlen).trans (by decide)
  rw [h.done] at hperm
  exact (List.reverse_perm _).symm.trans ((List.perm_append_right_iff _).mp hperm)

end Standard

/-! ### Realtime signals -/

section Realtime

variable {rand : ℕ → ℕ} {rtmin rtmax : ℕ} {s s' : State} {a : Label} {tr : List (State × Label)}

/-- How often the signal has been queued. -/
def Pc.rounds (sig : ℕ) : Pc → ℕ
  | .raising => 0
  | .queueing t i => t + if sig < i then 1 else 0
  | _ => 3

/-- The realtime signals queued so far are those caught, and behind them those pending. -/
structure RtInv (rand : ℕ → ℕ) (rtmin rtmax : ℕ) (tr : List (State × Label)) (s : State) :
    Prop where
  fifo : ∀ sig, 32 ≤ sig →
    values sig (caughtRtIn s.out) ++ values sig s.proc.pending = values sig (queued rand tr)
  rounds : s.pc ≠ .failed → ∀ sig, rtmin ≤ sig → sig ≤ rtmax →
    (values sig (queued rand tr)).length = s.pc.rounds sig
  last : ∀ t i, s.pc = .queueing t i → t < 3 ∨ t = 3 ∧ i = rtmin

theorem queued_concat (tr : List (State × Label)) (s : State) (a : Label) :
    queued rand (tr ++ [(s, a)]) = queued rand tr ++ queuedBy rand s a := by
  simp [queued]

theorem RtInv.step (hrt : 32 ≤ rtmin) (hset : Setup rtmin rtmax s) (h : RtInv rand rtmin rtmax tr s)
    (hmove : Move rand rtmin rtmax s a s') : RtInv rand rtmin rtmax (tr ++ [(s, a)]) s' := by
  -- only one step queues something
  suffices hq : ∀ q, queuedBy rand s a = q → (∀ sig, 32 ≤ sig →
      values sig (caughtRtIn s'.out) ++ values sig s'.proc.pending =
        values sig (caughtRtIn s.out) ++ values sig s.proc.pending ++ values sig q) ∧
      (s'.pc ≠ .failed → s.pc ≠ .failed ∧ ∀ sig, rtmin ≤ sig → sig ≤ rtmax →
        s'.pc.rounds sig = s.pc.rounds sig + (values sig q).length) ∧
      (∀ t i, s'.pc = .queueing t i → t < 3 ∨ t = 3 ∧ i = rtmin) by
    obtain ⟨hfifo, hrounds, hlast⟩ := hq _ rfl
    refine ⟨fun sig hsig => ?_, fun hpc sig hmin hmax => ?_, hlast⟩
    · rw [queued_concat, values_append, ← h.fifo sig hsig, hfifo sig hsig]
    · obtain ⟨hpc', hrounds⟩ := hrounds hpc
      rw [queued_concat, values_append, List.length_append, h.rounds hpc' sig hmin hmax,
        hrounds sig hmin hmax]
  rintro q rfl
  cases hmove with
  | again hpc => exact ⟨by simp [queuedBy, values], by simp [queuedBy, values], h.last⟩
  | @raise x hpc hx hnew =>
    have hlt : x ≤ 31 := hx ▸ (rrand_mem _).2
    refine ⟨fun sig hsig => ?_, by simp [queuedBy, values], h.last⟩
    rw [values_generate_of_ne (by omega) (cancels_realtime (.inr hsig))]
    simp [queuedBy, values]
  | raised hpc hall =>
    refine ⟨by simp [queuedBy, values], fun _ => ⟨by simp [hpc], fun sig hmin _ => ?_⟩, ?_⟩
    · simp [queuedBy, values, Pc.rounds, hpc, Nat.not_lt.mpr hmin]
    · rintro t i ⟨⟩
      exact .inl (by omega)
  | @queue t i hpc ht hi =>
    have hmin := hset.min_le hpc
    have hby : queuedBy rand s (.queue true) = [(i, rrand 0 1024 (rand s.drawn))] := by
      simp [queuedBy, hpc]
    refine ⟨fun sig hsig => ?_, fun _ => ⟨by simp [hpc], fun sig hsig hmax => ?_⟩, ?_⟩
    · rw [hby, values_generate_realtime (hrt.trans hmin), values_singleton, List.append_assoc]
    · rw [hby, values_singleton]
      simp only [Pc.rounds, hpc]
      split_ifs <;> simp <;> omega
    · rintro t' i' ⟨⟩
      exact .inl ht
  | queueFails hpc => exact ⟨by simp [queuedBy, values], by simp, by simp⟩
  | @nextRound t i hpc ht hi =>
    refine ⟨by simp [queuedBy, values], fun _ => ⟨by simp [hpc], fun sig hmin hmax => ?_⟩, ?_⟩
    · simp only [queuedBy, values, Pc.rounds, hpc, List.length_nil]
      rw [if_neg (by omega), if_pos (by omega)]
    · rintro t' i' ⟨⟩
      omega
  | @unblock t i hpc ht =>
    refine ⟨by simp [queuedBy, values, Proc.unblock], fun _ => ⟨by simp [hpc], ?_⟩, by simp⟩
    intro sig hmin hmax
    obtain h3 | ⟨rfl, rfl⟩ := h.last t i hpc
    · omega
    · simp [queuedBy, values, Pc.rounds, hpc, Nat.not_lt.mpr hmin]
  | @deliver sig v q hpc hb hd =>
    obtain ⟨hvals, hothers, -⟩ := values_of_dequeue hd
    rcases hset.catch hd with ⟨hsig, heq⟩ | ⟨hsig, heq⟩ <;> rw [heq]
    · refine ⟨fun s' hs' => ?_, by simp [queuedBy, values], h.last⟩
      have hlt := (mem_sendable.mp hsig).1.2
      rw [hothers s' (by omega)]
      simp [queuedBy, values]
    · refine ⟨fun s' hs' => ?_, by simp [queuedBy, values], h.last⟩
      simp only [caughtRtIn_append, caughtRtIn, values_append, queuedBy, values, List.append_nil]
      by_cases hs : s' = sig
      · subst hs
        simp [hvals]
      · simp [hothers s' hs, Ne.symm hs]
  | report hpc hquiet =>
    exact ⟨by simp [queuedBy, values], fun _ => ⟨by simp [hpc],
      by simp [queuedBy, values, Pc.rounds, hpc]⟩, by simp⟩

end Realtime

/-! ### The order of the signals -/

section Order

variable {rand : ℕ → ℕ} {rtmin rtmax : ℕ} {s s' : State} {a : Label}

/-- The signals to be raised among the first numbers of `rand`, in this order and once each. -/
def drawnIn (rand : ℕ → ℕ) : ℕ → List ℕ
  | 0 => []
  | k + 1 =>
    if rrand 1 31 (rand k) ∈ (drawnIn rand k).reverse ++ [19, 9] then drawnIn rand k
    else drawnIn rand k ++ [rrand 1 31 (rand k)]

theorem drawnIn_prefix_add (rand : ℕ → ℕ) (k j : ℕ) : drawnIn rand k <+: drawnIn rand (k + j) := by
  induction j with
  | zero => exact List.prefix_refl _
  | succ j ih =>
    rw [← Nat.add_assoc, drawnIn]
    split
    · exact ih
    · exact ih.trans (List.prefix_append _ _)

/-- Two of these lists that are equally long are equal. -/
theorem drawnIn_eq {j k : ℕ} (h : (drawnIn rand j).length = (drawnIn rand k).length) :
    drawnIn rand j = drawnIn rand k := by
  rcases Nat.le_total j k with hle | hle <;> obtain ⟨i, rfl⟩ := Nat.exists_eq_add_of_le hle
  · exact (drawnIn_prefix_add rand j i).eq_of_length h
  · exact ((drawnIn_prefix_add rand k i).eq_of_length h.symm).symm

/-- What has been raised is what has been drawn. -/
def DrawInv (rand : ℕ → ℕ) (s : State) : Prop :=
  ∃ k, raisedIn s.out = drawnIn rand k ∧ (s.pc = .raising → k = s.drawn)

theorem DrawInv.step (hset : Setup rtmin rtmax s) (hstd : StdInv s) (h : DrawInv rand s)
    (hmove : Move rand rtmin rtmax s a s') : DrawInv rand s' := by
  obtain ⟨k, hk, hdrawn⟩ := h
  cases hmove with
  | again hpc hold =>
    obtain rfl := hdrawn hpc
    rw [hstd.done, hk] at hold
    exact ⟨s.drawn + 1, by rw [drawnIn, if_pos hold, hk], fun _ => rfl⟩
  | raise hpc hsig hnew =>
    obtain rfl := hdrawn hpc
    rw [hstd.done, hk] at hnew
    refine ⟨s.drawn + 1, ?_, fun _ => rfl⟩
    rw [drawnIn, hsig, if_neg hnew]
    simp [hk]
  | raised => exact ⟨k, by simpa using hk, nofun⟩
  | queue => exact ⟨k, hk, nofun⟩
  | queueFails => exact ⟨k, hk, nofun⟩
  | nextRound => exact ⟨k, hk, nofun⟩
  | unblock => exact ⟨k, hk, nofun⟩
  | deliver hpc hb hd =>
    rcases hset.catch hd with ⟨-, heq⟩ | ⟨-, heq⟩ <;> rw [heq] <;>
      exact ⟨k, by simpa using hk, hdrawn⟩
  | report => exact ⟨k, by simpa using hk, nofun⟩

end Order

/-! ### Whole runs -/

section Run

variable {rand : ℕ → ℕ} {rtmin rtmax : ℕ} {s s' s₀ : State} {a : Label} {tr : List (State × Label)}

/-- What the end of the output says, once it is there. -/
structure ReportInv (s : State) : Prop where
  pending : s.pc = .finished → s.proc.pending = []
  out : s.pc = .finished → ∃ before,
    s.out = before ++ .total s.nsigCatch :: missingLines s.sigCatch
  total : ∀ n, .total n ∈ s.out ↔ s.pc = .finished ∧ n = s.nsigCatch

theorem ReportInv.step (hset : Setup rtmin rtmax s) (h : ReportInv s)
    (hmove : Move rand rtmin rtmax s a s') : ReportInv s' := by
  have htotal := h.total
  cases hmove with
  | again hpc => exact ⟨h.pending, h.out, h.total⟩
  | raise hpc => exact ⟨by simp [hpc], by simp [hpc], by simpa [hpc] using htotal⟩
  | raised hpc => exact ⟨nofun, nofun, by simpa [hpc] using htotal⟩
  | queue hpc => exact ⟨nofun, nofun, by simpa [hpc] using htotal⟩
  | queueFails hpc => exact ⟨nofun, nofun, by simpa [hpc] using htotal⟩
  | nextRound hpc => exact ⟨nofun, nofun, by simpa [hpc] using htotal⟩
  | unblock hpc => exact ⟨nofun, nofun, by simpa [hpc] using htotal⟩
  | deliver hpc hb hd =>
    rcases hset.catch hd with ⟨hsig, heq⟩ | ⟨hsig, heq⟩ <;> rw [heq] <;>
      exact ⟨fun hc => absurd hc hpc, fun hc => absurd hc hpc, by simpa [hpc] using htotal⟩
  | report hpc hquiet =>
    refine ⟨fun _ => List.eq_nil_iff_forall_not_mem.mpr fun e he => ?_, fun _ => ⟨s.out, rfl⟩, ?_⟩
    · exact Bool.false_ne_true ((hset.unblocked hpc e.1).symm.trans (hquiet e he))
    · simp only [hpc, reduceCtorEq, false_and, iff_false] at htotal
      simp [htotal, missingLines]

/-- All invariants. -/
structure Inv (rand : ℕ → ℕ) (rtmin rtmax : ℕ) (tr : List (State × Label)) (s : State) : Prop where
  setup : Setup rtmin rtmax s
  std : StdInv s
  rt : RtInv rand rtmin rtmax tr s
  draw : DrawInv rand s
  report : ReportInv s

theorem inv_start (hrt : 32 ≤ rtmin) (h₀ : (machine rand rtmin rtmax).init s) :
    Inv rand rtmin rtmax [] s := by
  obtain ⟨p, hp, rfl⟩ := h₀
  have hpend : (start rtmin rtmax p).proc.pending = [] := by
    rw [start, setupRtsignal, foldl_sigaction, setupStdsignal_eq]
    exact hp
  have hdone : (start rtmin rtmax p).sigDone = [19, 9] := rfl
  refine ⟨setup_start hrt hp, ⟨rfl, rfl, by rw [hdone]; decide, by rw [hdone]; decide,
    fun h => absurd rfl h, rfl, rfl, fun _ => rfl, nofun, fun sig _ => ?_⟩,
    ⟨fun sig _ => ?_, fun _ _ _ _ => rfl, nofun⟩, ⟨0, rfl, fun _ => rfl⟩, nofun, nofun, ?_⟩
  · rw [hpend]
    simp [start, values, survives]
  · rw [hpend]
    rfl
  · simp [start]

theorem inv_of_run (hrt : 32 ≤ rtmin) (h₀ : (machine rand rtmin rtmax).init s₀)
    (hrun : (machine rand rtmin rtmax).Run s₀ tr s) : Inv rand rtmin rtmax tr s := by
  induction hrun with
  | nil => exact inv_start hrt h₀
  | snoc _ hstep ih =>
    have hmove := move_of_step hstep
    exact ⟨ih.setup.step ih.std.mem_sigDone hmove, ih.std.step hrt ih.setup hmove,
      ih.rt.step hrt ih.setup hmove, ih.draw.step ih.setup ih.std hmove,
      ih.report.step ih.setup hmove⟩

/-- Of the signals raised, those that are left have been caught, each of them once. -/
theorem Inv.caught_perm (h : Inv rand rtmin rtmax tr s) (hfin : s.pc = .finished) :
    (caughtIn s.out).Perm ((raisedIn s.out).filter (survives (raisedIn s.out))) := by
  have hnodup : (raisedIn s.out).Nodup := by
    have := h.std.nodup
    rw [h.std.done] at this
    exact List.nodup_reverse.mp (List.Nodup.of_append_left this)
  refine List.perm_iff_count.mpr fun sig => ?_
  by_cases hsig : sig < 32
  · have honce := h.std.once sig hsig
    rw [h.report.pending hfin, values, List.length_nil, Nat.zero_add] at honce
    rw [honce]
    by_cases hsurv : survives (raisedIn s.out) sig
    · rw [if_pos hsurv, List.count_filter hsurv,
        List.count_eq_one_of_mem hnodup (mem_of_survives hsurv)]
    · rw [if_neg hsurv, List.count_eq_zero_of_not_mem]
      exact fun hmem => hsurv (List.mem_filter.mp hmem).2
  · rw [List.count_eq_zero_of_not_mem fun hmem => hsig (h.std.caught sig hmem),
      List.count_eq_zero_of_not_mem]
    intro hmem
    have hran := h.std.range sig (by
      rw [h.std.done]
      exact List.mem_append_left _ (List.mem_reverse.mpr (List.mem_filter.mp hmem).1))
    omega

end Run

/-! ### The numbers reported -/

section Total

variable {rand : ℕ → ℕ} {rtmin rtmax : ℕ} {s : State} {l : List ℕ}

/-- Four of the 29 signals discard each other, and whatever their order one to three of them are
left. -/
theorem length_survivors (h : l.Perm sendable) : 26 ≤ (l.filter (survives l)).length ∧
    (l.filter (survives l)).length ≤ 28 := by
  have hother : (l.filter fun s => !isJob s).length = 25 := by
    rw [(h.filter _).length_eq]
    decide
  have hjob : (l.filter isJob) ∈ List.permutations' [18, 20, 21, 22] :=
    List.mem_permutations'.mpr (h.filter isJob)
  have horders : ∀ m ∈ List.permutations' [18, 20, 21, 22],
      1 ≤ (m.filter (survives m)).length ∧ (m.filter (survives m)).length ≤ 3 := by decide
  have := horders _ hjob
  rw [length_filter_survives, hother]
  omega

theorem setup_of_reachable (hrt : 32 ≤ rtmin) (hs : (machine rand rtmin rtmax).Reachable s) :
    Setup rtmin rtmax s := by
  obtain ⟨s₀, tr, h₀, hrun⟩ := hs
  exact (inv_of_run hrt h₀ hrun).setup

/-- The program can go on while all signals are blocked. -/
theorem quiet_of_reachable (hrt : 32 ≤ rtmin) (hs : (machine rand rtmin rtmax).Reachable s)
    (hpc : s.pc = .raising ∨ ∃ t i, s.pc = .queueing t i) : s.proc.Quiet := by
  have h := setup_of_reachable hrt hs
  intro e he
  refine h.blocked hpc e.1 ?_
  rcases h.pending e he with hsig | hsig
  · exact (mem_sendable.mp hsig).2
  · simp only [reserved, Bool.or_eq_false_iff, beq_eq_false_iff_ne]
    omega

/-- If `rand` gives signals that are still to be raised, they are raised in this order. -/
theorem exists_raised (hrt : 32 ≤ rtmin) (hs : (machine rand rtmin rtmax).Reachable s)
    (hpc : s.pc = .raising) (hl : ∀ i x, l[i]? = some x → rrand 1 31 (rand (s.drawn + i)) = x)
    (hnew : (l ++ s.sigDone).Nodup) (hlen : s.nsigDone + l.length = 31) :
    ∃ s', (machine rand rtmin rtmax).Reachable s' ∧ s'.pc = .raising ∧ s'.nsigDone = 31 ∧
      raisedIn s'.out = raisedIn s.out ++ l := by
  induction l generalizing s with
  | nil => exact ⟨s, hs, hpc, hlen, (List.append_nil _).symm⟩
  | cons x l ih =>
    have hx : rrand 1 31 (rand s.drawn) = x := hl 0 x rfl
    have hxnew : x ∉ s.sigDone := fun hc =>
      (List.nodup_cons.mp hnew).1 (List.mem_append_right l hc)
    rw [List.length_cons] at hlen
    have hstep : (machine rand rtmin rtmax).step s .raise = some { s with
        drawn := s.drawn + 1
        proc := { s.proc with pending := generate x 0 s.proc.pending }
        sigDone := x :: s.sigDone
        nsigDone := s.nsigDone + 1
        out := s.out ++ [.raise x] } := by
      simp only [machine, State.step]
      rw [if_pos ⟨hpc, by omega, quiet_of_reachable hrt hs (.inl hpc)⟩, hx, if_neg hxnew]
    have hl' : ∀ i y, l[i]? = some y → rrand 1 31 (rand (s.drawn + 1 + i)) = y := by
      intro i y hy
      rw [Nat.add_assoc, Nat.add_comm 1 i]
      exact hl (i + 1) y hy
    obtain ⟨s', hs', hpc', hall, hout⟩ := ih (hs.step hstep) hpc hl'
      (List.perm_middle.nodup_iff.mpr hnew) (by dsimp only; omega)
    exact ⟨s', hs', hpc', hall, by simp [hout]⟩

/-- A round of `raise_rtsignal`. -/
theorem exists_round (hrt : 32 ≤ rtmin) {t : ℕ} (ht : t < 3) (k : ℕ) {i : ℕ}
    (hs : (machine rand rtmin rtmax).Reachable s) (hpc : s.pc = .queueing t i)
    (hk : rtmax + 1 - i = k) :
    ∃ s', (machine rand rtmin rtmax).Reachable s' ∧ s'.pc = .queueing (t + 1) rtmin ∧
      s'.out = s.out := by
  have hquiet := quiet_of_reachable hrt hs (.inr ⟨t, i, hpc⟩)
  induction k generalizing s i with
  | zero =>
    have hstep : (machine rand rtmin rtmax).step s .nextRound =
        some { s with pc := .queueing (t + 1) rtmin } := by
      simp only [machine, State.step, hpc]
      rw [if_pos ⟨ht, by omega, hquiet⟩]
    exact ⟨_, hs.step hstep, rfl, rfl⟩
  | succ k ih =>
    have hstep : (machine rand rtmin rtmax).step s (.queue true) = some { s with
        drawn := s.drawn + 1
        pc := .queueing t (i + 1)
        proc := { s.proc with
          pending := generate i (rrand 0 1024 (rand s.drawn)) s.proc.pending } } := by
      simp only [machine, State.step, hpc]
      rw [if_pos ⟨ht, by omega, hquiet⟩]
      rfl
    have hs' := hs.step hstep
    obtain ⟨s', hround⟩ := ih hs' rfl (by omega) (quiet_of_reachable hrt hs' (.inr ⟨_, _, rfl⟩))
    exact ⟨s', hround⟩

/-- All pending signals are delivered, and the report is printed. -/
theorem exists_report (hrt : 32 ≤ rtmin) (k : ℕ) (hs : (machine rand rtmin rtmax).Reachable s)
    (hpc : s.pc = .unblocked) (hk : s.proc.pending.length = k) :
    ∃ s', (machine rand rtmin rtmax).Reachable s' ∧ s'.pc = .finished ∧
      raisedIn s'.out = raisedIn s.out := by
  induction k generalizing s with
  | zero =>
    have hquiet : s.proc.Quiet := by
      rw [Proc.Quiet, List.length_eq_zero_iff.mp hk]
      exact nofun
    have hstep : (machine rand rtmin rtmax).step s .report = some { s with
        pc := .finished
        out := s.out ++ .total s.nsigCatch :: missingLines s.sigCatch } :=
      if_pos ⟨hpc, hquiet⟩
    exact ⟨_, hs.step hstep, rfl, by simp⟩
  | succ k ih =>
    have hset := setup_of_reachable hrt hs
    obtain ⟨e, q, hq⟩ := List.exists_cons_of_length_eq_add_one hk
    have hd : dequeue e.1 s.proc.pending = some (e.2, q) := by rw [hq, dequeue, if_pos rfl]
    have hstep : (machine rand rtmin rtmax).step s (.deliver e.1) = some (s.catch e.1 e.2 q) := by
      simp [machine, State.step, hpc, hset.unblocked hpc, hd]
    have hs' := hs.step hstep
    rw [hq, List.length_cons, Nat.add_right_cancel_iff] at hk
    rcases hset.catch hd with ⟨-, heq⟩ | ⟨-, heq⟩ <;> rw [heq] at hs' <;>
      obtain ⟨s', hs', hfin, hout⟩ := ih hs' hpc hk <;>
      exact ⟨s', hs', hfin, by simpa using hout⟩

/-- A sequence that gives the signals of a list. -/
def randOf (l : List ℕ) (k : ℕ) : ℕ := l.getD k 1 - 1

/-- Every order of the 29 signals is the order of a run that ends with a report, for some `rand`. -/
theorem exists_finished (hrt : 32 ≤ rtmin) (rtmax : ℕ) (h : l.Perm sendable) :
    ∃ s, (machine (randOf l) rtmin rtmax).Reachable s ∧ s.pc = .finished ∧
      raisedIn s.out = l := by
  let p : Proc := ⟨fun _ => false, fun _ => none, []⟩
  have h₀ : (machine (randOf l) rtmin rtmax).Reachable (start rtmin rtmax p) :=
    ⟨_, [], ⟨p, rfl, rfl⟩, .nil⟩
  have hrand : ∀ i x, l[i]? = some x →
      rrand 1 31 (randOf l ((start rtmin rtmax p).drawn + i)) = x := by
    intro i x hx
    have hrange := (mem_sendable.mp (h.mem_iff.mp (List.mem_of_getElem? hx))).1
    rw [show (start rtmin rtmax p).drawn + i = i from Nat.zero_add i, randOf,
      List.getD_eq_getElem?_getD, hx, Option.getD_some, rrand]
    omega
  have hnodup : (l ++ [19, 9]).Nodup := (h.append_right [19, 9]).nodup_iff.mpr (by decide)
  have hlen : 2 + l.length = 31 := by
    rw [h.length_eq]
    decide
  obtain ⟨s, hs, hpc, hall, hout⟩ := exists_raised hrt h₀ rfl hrand hnodup hlen
  have hstep : (machine (randOf l) rtmin rtmax).step s .raised = some { s with
      pc := .queueing 0 rtmin, out := s.out ++ [.raised (s.nsigDone - 2)] } :=
    if_pos ⟨hpc, by omega, quiet_of_reachable hrt hs (.inl hpc)⟩
  obtain ⟨s₁, hs₁, hpc₁, hout₁⟩ := exists_round hrt (by decide) _ (hs.step hstep) rfl rfl
  obtain ⟨s₂, hs₂, hpc₂, hout₂⟩ := exists_round hrt (by decide) _ hs₁ hpc₁ rfl
  obtain ⟨s₃, hs₃, hpc₃, hout₃⟩ := exists_round hrt (by decide) _ hs₂ hpc₂ rfl
  have hstep₃ : (machine (randOf l) rtmin rtmax).step s₃ .unblock =
      some { s₃ with pc := .unblocked, proc := s₃.proc.unblock } := by
    simp only [machine, State.step, hpc₃]
    rw [if_pos ⟨by decide, quiet_of_reachable hrt hs₃ (.inr ⟨_, _, hpc₃⟩)⟩]
  obtain ⟨s₄, hs₄, hfin, hout₄⟩ := exists_report hrt _ (hs₃.step hstep₃) rfl rfl
  refine ⟨s₄, hs₄, hfin, ?_⟩
  rw [hout₄, hout₃, hout₂, hout₁]
  simp [hout, start]

/-- The number reported, by the order of the signals raised. -/
theorem Inv.total_eq {tr : List (State × Label)} (h : Inv rand rtmin rtmax tr s) {n : ℕ}
    (hout : .total n ∈ s.out) : (raisedIn s.out).Perm sendable ∧
      n = ((raisedIn s.out).filter (survives (raisedIn s.out))).length := by
  obtain ⟨hfin, rfl⟩ := (h.report.total n).mp hout
  refine ⟨h.std.perm (h.std.all (by simp [hfin])), ?_⟩
  rw [h.std.nsigCatch, (h.caught_perm hfin).length_eq]

/-- **One of the 29 signals is always missing.** The numbers that are reported for some sequence of
`rand` are 26, 27 and 28, and no two runs with one sequence report different numbers. -/
theorem total_iff (hrt : 32 ≤ rtmin) (rtmax : ℕ) :
    (∀ n, (∃ rand s, (machine rand rtmin rtmax).Reachable s ∧ .total n ∈ s.out) ↔
      26 ≤ n ∧ n ≤ 28) ∧
    ∀ rand s s' n n', (machine rand rtmin rtmax).Reachable s →
      (machine rand rtmin rtmax).Reachable s' → .total n ∈ s.out → .total n' ∈ s'.out →
      n = n' := by
  refine ⟨fun n => ⟨?_, fun hn => ?_⟩, ?_⟩
  · rintro ⟨rand, s, ⟨s₀, tr, h₀, hrun⟩, hout⟩
    obtain ⟨hperm, rfl⟩ := (inv_of_run hrt h₀ hrun).total_eq hout
    exact length_survivors hperm
  · obtain ⟨l, hperm, hlen⟩ : ∃ l : List ℕ, l.Perm sendable ∧
        (l.filter (survives l)).length = n := by
      obtain rfl | rfl | rfl : n = 26 ∨ n = 27 ∨ n = 28 := by omega
      · exact ⟨20 :: 21 :: ((sendable.erase 20).erase 21), by decide, by decide⟩
      · exact ⟨20 :: sendable.erase 20, by decide, by decide⟩
      · exact ⟨sendable, .refl _, by decide⟩
    obtain ⟨s, hs, hfin, hraised⟩ := exists_finished hrt rtmax hperm
    obtain ⟨s₀, tr, h₀, hrun⟩ := hs
    have h := inv_of_run hrt h₀ hrun
    refine ⟨randOf l, s, ⟨s₀, tr, h₀, hrun⟩, (h.report.total n).mpr ⟨hfin, ?_⟩⟩
    rw [h.std.nsigCatch, (h.caught_perm hfin).length_eq, hraised, hlen]
  · rintro rand s s' n n' ⟨s₀, tr, h₀, hrun⟩ ⟨s₀', tr', h₀', hrun'⟩ hout hout'
    have h := inv_of_run hrt h₀ hrun
    have h' := inv_of_run hrt h₀' hrun'
    obtain ⟨hperm, rfl⟩ := h.total_eq hout
    obtain ⟨hperm', rfl⟩ := h'.total_eq hout'
    obtain ⟨k, hk, -⟩ := h.draw
    obtain ⟨k', hk', -⟩ := h'.draw
    have heq : raisedIn s.out = raisedIn s'.out := by
      rw [hk, hk']
      refine drawnIn_eq ?_
      rw [← hk, ← hk', hperm.length_eq, hperm'.length_eq]
    rw [heq]

theorem total_iff_linux :
    (∃ rand s, (machine rand 34 64).Reachable s ∧ .total 27 ∈ s.out) ∧
      (¬ ∃ rand s, (machine rand 34 64).Reachable s ∧ .total 29 ∈ s.out) ∧
      ∀ s n, (machine (randOf sendable) 34 64).Reachable s → .total n ∈ s.out → n = 28 := by
  obtain ⟨hnumbers, hone⟩ := total_iff (by decide : 32 ≤ 34) 64
  refine ⟨(hnumbers 27).mpr (by decide), fun h => absurd ((hnumbers 29).mp h) (by decide),
    fun s n hs hout => ?_⟩
  obtain ⟨s', hs', hfin, hraised⟩ := exists_finished (by decide : 32 ≤ 34) 64 (.refl sendable)
  obtain ⟨s₀, tr, h₀, hrun⟩ := hs'
  have h' := inv_of_run (by decide) h₀ hrun
  have hlen : s'.nsigCatch = 28 := by
    rw [h'.std.nsigCatch, (h'.caught_perm hfin).length_eq, hraised]
    decide
  exact hone _ s s' n 28 hs ⟨s₀, tr, h₀, hrun⟩ hout ((h'.report.total 28).mpr ⟨hfin, hlen.symm⟩)

end Total

/-! ### The report -/

section Report

variable {rand : ℕ → ℕ} {rtmin rtmax : ℕ} {s s₀ : State} {tr : List (State × Label)}

/-- Whatever `rand` returns and whichever signal is delivered first: the 29 signals are raised in
some order; those of them that no later one discards are caught, once each; their number is
reported, and so is each signal that was not caught. A realtime signal is caught three times, with
the values it was queued with and in their order. -/
theorem report_spec (hrt : 32 ≤ rtmin) (h₀ : (machine rand rtmin rtmax).init s₀)
    (hrun : (machine rand rtmin rtmax).Run s₀ tr s) (hfin : s.pc = .finished) :
    (raisedIn s.out).Perm sendable ∧
    (caughtIn s.out).Perm ((raisedIn s.out).filter (survives (raisedIn s.out))) ∧
    (∃ before, s.out = before ++ .total (caughtIn s.out).length ::
      ((List.range' 1 31).filter fun sig => !survives (raisedIn s.out) sig).map .missing) ∧
    ∀ sig, rtmin ≤ sig → sig ≤ rtmax →
      values sig (caughtRtIn s.out) = values sig (queued rand tr) ∧
        (values sig (queued rand tr)).length = 3 := by
  have h := inv_of_run hrt h₀ hrun
  have hperm := h.std.perm (h.std.all (by simp [hfin]))
  have hcaught := h.caught_perm hfin
  have hpend := h.report.pending hfin
  refine ⟨hperm, hcaught, ?_, fun sig hmin hmax => ⟨?_, ?_⟩⟩
  · obtain ⟨before, hout⟩ := h.report.out hfin
    refine ⟨before, ?_⟩
    have hmissing : missingLines s.sigCatch =
        ((List.range' 1 31).filter fun sig => !survives (raisedIn s.out) sig).map .missing := by
      rw [missingLines]
      congr 1
      refine List.filter_congr fun sig _ => ?_
      have hmem : sig ∈ s.sigCatch ↔ survives (raisedIn s.out) sig = true := by
        rw [h.std.sigCatch, List.mem_reverse, hcaught.mem_iff, List.mem_filter]
        exact ⟨And.right, fun hs => ⟨mem_of_survives hs, hs⟩⟩
      cases hs : survives (raisedIn s.out) sig <;> simp [hmem, hs]
    rw [← hmissing, ← h.std.nsigCatch]
    exact hout
  · have hfifo := h.rt.fifo sig (hrt.trans hmin)
    rwa [hpend, values, List.append_nil] at hfifo
  · rw [h.rt.rounds (by simp [hfin]) sig hmin hmax, hfin]
    rfl

/-- `SIGTSTP` is raised before `SIGCONT` and the other stop signals after it, as in the output that
the source shows. -/
theorem report_spec_sample : ∃ rand s₀ tr s, (machine rand 34 64).init s₀ ∧
    (machine rand 34 64).Run s₀ tr s ∧ s.pc = .finished ∧ raisedIn s.out = 20 :: sendable.erase 20 ∧
    ∃ before, s.out =
      before ++ [.total 27, .missing 9, .missing 18, .missing 19, .missing 20] := by
  obtain ⟨s, ⟨s₀, tr, h₀, hrun⟩, hfin, hraised⟩ :=
    exists_finished (by decide : 32 ≤ 34) 64 (by decide : (20 :: sendable.erase 20).Perm sendable)
  obtain ⟨-, hcaught, ⟨before, hout⟩, -⟩ := report_spec (by decide) h₀ hrun hfin
  rw [hraised] at hcaught hout
  have hlen : (caughtIn s.out).length = 27 := hcaught.length_eq.trans (by decide)
  have hmissing : (List.range' 1 31).filter (fun sig => !survives (20 :: sendable.erase 20) sig) =
      [9, 18, 19, 20] := by decide
  rw [hlen, hmissing] at hout
  exact ⟨_, s₀, tr, s, h₀, hrun, hfin, hraised, before, hout⟩

end Report

end SignalCatch

end Tlpiexer
