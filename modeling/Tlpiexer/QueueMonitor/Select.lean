import Mathlib.Data.Finset.Card
import Mathlib.Data.Finset.Insert
import Tlpiexer.QueueMonitor.Threads

/-!
# The loop around `select`

The loop of `main` in `src/imp/63-03.c`. In each round `select` leaves in the set the descriptors
that are ready, out of standard input and the pipe, and returns how many there are; `main` then
looks at the set as many times as that.

## One set, looked at twice

The set is not changed between two looks, and the pipe is looked for first. With one descriptor
ready this reads that one. With both ready it reads the pipe twice and leaves standard input alone;
if there was one message in the pipe, the second `read_pipe` waits (`read_pipe_twice_blocks`).

## Main results

* `read_once_iff` — when every round reads what is ready, once
-/

namespace Tlpiexer

namespace QueueMonitor

/-! ### Rounds -/

/-- `STDIN_FILENO`. -/
def stdinFileno : ℕ := 0

/-- A call that reads from a descriptor. -/
inductive ReadCall
  | readPipe (fd : ℕ)
  | readFd (fd : ℕ)
  deriving DecidableEq

def ReadCall.fd : ReadCall → ℕ
  | .readPipe fd => fd
  | .readFd fd => fd

/-- What `select` leaves in the set, for the descriptors it finds ready. -/
def selected (pipeFd : ℕ) (ready : ℕ → Bool) : Finset ℕ :=
  ({stdinFileno, pipeFd} : Finset ℕ).filter fun fd => ready fd

/-- The loop over `i < result`. -/
def dispatch (pipeFd : ℕ) (fdset : Finset ℕ) : ℕ → List ReadCall
  | 0 => []
  | result + 1 =>
    (if pipeFd ∈ fdset then [.readPipe pipeFd]
      else if stdinFileno ∈ fdset then [.readFd stdinFileno]
      else []) ++ dispatch pipeFd fdset result

/-- A round: the set that `select` left, and the calls made in it. -/
structure Round where
  fdset : Finset ℕ
  calls : List ReadCall

/-- The rounds of `main`, by the answers of `select`; a failing `select` ends the process. -/
def rounds (pipeFd : ℕ) : List (Option (ℕ → Bool)) → List Round
  | [] => []
  | none :: _ => []
  | some ready :: answers =>
    let fdset := selected pipeFd ready
    ⟨fdset, dispatch pipeFd fdset fdset.card⟩ :: rounds pipeFd answers

/-! ### What a round reads -/

/-- Every descriptor in the set is read once, and no other. -/
def Round.ReadsOnce (r : Round) : Prop :=
  ∀ fd, r.calls.countP (fun c => c.fd = fd) = if fd ∈ r.fdset then 1 else 0

section

variable {pipeFd : ℕ} {fdset : Finset ℕ}

/-- With the pipe in the set, every look is for the pipe. -/
theorem dispatch_of_mem (h : pipeFd ∈ fdset) (n : ℕ) :
    dispatch pipeFd fdset n = List.replicate n (.readPipe pipeFd) := by
  induction n with
  | zero => rfl
  | succ n ih => rw [dispatch, if_pos h, ih, List.replicate_succ, List.singleton_append]

/-- Otherwise every look is for standard input. -/
theorem dispatch_of_notMem (h : pipeFd ∉ fdset) (hin : stdinFileno ∈ fdset) (n : ℕ) :
    dispatch pipeFd fdset n = List.replicate n (.readFd stdinFileno) := by
  induction n with
  | zero => rfl
  | succ n ih =>
    rw [dispatch, if_neg h, if_pos hin, ih, List.replicate_succ, List.singleton_append]

/-- Reading one descriptor, when it is the only one in the set. -/
theorem readsOnce_singleton {c : ReadCall} :
    Round.ReadsOnce ⟨{c.fd}, List.replicate 1 c⟩ := by
  intro fd
  by_cases h : fd = c.fd
  · simp [h]
  · simp [h, Ne.symm h]

/-- A set of at most two elements without the second. -/
theorem eq_singleton_of_subset {a b : ℕ} (hsub : fdset ⊆ {a, b}) (ha : a ∈ fdset)
    (hb : b ∈ fdset → b = a) : fdset = {a} := by
  refine Finset.Subset.antisymm (fun fd hfd => ?_) (Finset.singleton_subset_iff.mpr ha)
  rw [Finset.mem_singleton]
  rcases Finset.mem_insert.mp (hsub hfd) with h | h
  · exact h
  · rw [Finset.mem_singleton] at h
    subst h
    exact hb hfd

/-- With both in the set, standard input is not read. -/
theorem not_readsOnce_of_both (hne : pipeFd ≠ stdinFileno) (hin : stdinFileno ∈ fdset)
    (hpipe : pipeFd ∈ fdset) : ¬ Round.ReadsOnce ⟨fdset, dispatch pipeFd fdset fdset.card⟩ := by
  intro h
  have hcount := h stdinFileno
  rw [if_pos hin, dispatch_of_mem hpipe, List.countP_eq_zero.mpr] at hcount
  · cases hcount
  · intro c hc
    rw [List.eq_of_mem_replicate hc]
    exact fun hfd => hne (of_decide_eq_true hfd)

/-- **One round.** -/
theorem round_readsOnce_iff (hsub : fdset ⊆ {stdinFileno, pipeFd}) :
    Round.ReadsOnce ⟨fdset, dispatch pipeFd fdset fdset.card⟩ ↔
      ¬ (pipeFd ≠ stdinFileno ∧ stdinFileno ∈ fdset ∧ pipeFd ∈ fdset) := by
  by_cases hboth : pipeFd ≠ stdinFileno ∧ stdinFileno ∈ fdset ∧ pipeFd ∈ fdset
  · exact iff_of_false (not_readsOnce_of_both hboth.1 hboth.2.1 hboth.2.2) fun h => h hboth
  refine iff_of_true ?_ hboth
  by_cases hpipe : pipeFd ∈ fdset
  · -- the pipe is the only one
    have honly : stdinFileno ∈ fdset → stdinFileno = pipeFd := fun hin =>
      by_contra fun hne => hboth ⟨Ne.symm hne, hin, hpipe⟩
    rw [Finset.pair_comm] at hsub
    rw [dispatch_of_mem hpipe, eq_singleton_of_subset hsub hpipe honly, Finset.card_singleton]
    exact readsOnce_singleton
  by_cases hin : stdinFileno ∈ fdset
  · -- standard input is the only one
    rw [dispatch_of_notMem hpipe hin,
      eq_singleton_of_subset hsub hin fun h => absurd h hpipe, Finset.card_singleton]
    exact readsOnce_singleton
  · have hnone : fdset = ∅ := by
      refine Finset.eq_empty_of_forall_notMem fun fd hfd => ?_
      rcases Finset.mem_insert.mp (hsub hfd) with rfl | hfd'
      · exact hin hfd
      · rw [Finset.mem_singleton.mp hfd'] at hfd
        exact hpipe hfd
    subst hnone
    intro fd
    rfl

theorem exists_of_mem_rounds {r : Round} {answers : List (Option (ℕ → Bool))}
    (h : r ∈ rounds pipeFd answers) : ∃ fdset ⊆ {stdinFileno, pipeFd},
      r = ⟨fdset, dispatch pipeFd fdset fdset.card⟩ := by
  induction answers with
  | nil => cases h
  | cons answer answers ih =>
    cases answer with
    | none => cases h
    | some ready =>
      rcases List.mem_cons.mp h with rfl | hmem
      · exact ⟨_, Finset.filter_subset _ _, rfl⟩
      · exact ih hmem

end

/-- **When every round reads what is ready, once.** For every sequence of answers of `select`: no
round has both the pipe and standard input ready. -/
theorem read_once_iff (pipeFd : ℕ) (answers : List (Option (ℕ → Bool))) :
    (∀ r ∈ rounds pipeFd answers, r.ReadsOnce) ↔
      ∀ r ∈ rounds pipeFd answers,
        ¬ (pipeFd ≠ stdinFileno ∧ stdinFileno ∈ r.fdset ∧ pipeFd ∈ r.fdset) := by
  refine forall₂_congr fun r hr => ?_
  obtain ⟨fdset, hsub, rfl⟩ := exists_of_mem_rounds hr
  exact round_readsOnce_iff hsub

/-- Both are ready: the pipe is read twice. -/
theorem read_twice : ¬ ∀ r ∈ rounds 3 [some fun _ => true], r.ReadsOnce := by
  intro h
  have hround := h _ List.mem_cons_self 3
  exact absurd hround (by decide)

/-- With one message in the pipe and no thread writing, the second of two calls of `read_pipe`
waits. -/
theorem read_pipe_twice_blocks {ι : Type*} {s₀ s : State ι} {e : ι × Msg}
    (h : Pending s₀ s [e]) (hr : s.reader = .idle) :
    ∃ t u, s.runRead = some t ∧ t.runRead = some u ∧ u.runRead = none := by
  have hpayload : Pending s₀ { s with
      pipe := e.2.val ++ ([].map s₀.frame).flatten
      reader := .payload (s₀.threads e.1).qmsg.qid (.ofNat 64 e.2.val.length) } [e] :=
    ⟨h.1, e, [], rfl, rfl, rfl, rfl⟩
  obtain ⟨e', rest', hrest, hread⟩ := hpayload.readPayload rfl
  obtain ⟨rfl, rfl⟩ := List.cons.inj hrest
  exact ⟨_, _, h.readHeader hr, hread, rfl⟩

end QueueMonitor

end Tlpiexer
