import Mathlib.Data.List.Permutation
import Mathlib.Data.Nat.Notation

/-!
# Pending signals

Signals that have been generated for a process and not delivered to it yet, in the order in which
they were generated. The numbers are those of Linux.

## Two kinds of signals

A standard signal (below 32) is pending once, however often it is generated. A realtime signal is
queued: all its instances are delivered, in the order in which they were generated and each with
its own value. Nothing is said about the order between signals of different numbers.

## Stop signals and `SIGCONT`

Generating one of the stop signals discards a pending `SIGCONT`, and generating `SIGCONT` discards
the stop signals that are pending. This takes place when the signal is generated, so it makes no
difference whether these signals are blocked or caught.

## Main results

* `length_values_generate_standard`, `values_generate_realtime` — what is pending afterwards
* `values_of_dequeue` — a signal delivers its oldest instance and leaves the others alone
* `length_filter_survives` — how many signals of a list are left when it has been generated
-/

namespace Signals

variable {V : Type*}

/-! ### Generating and delivering -/

/-- `SIGCONT`. -/
def sigCont : ℕ := 18

/-- `SIGSTOP`, `SIGTSTP`, `SIGTTIN` and `SIGTTOU`. -/
def isStop (sig : ℕ) : Bool := 19 ≤ sig && sig ≤ 22

/-- Generating `x` discards a pending `sig`. -/
def cancels (x sig : ℕ) : Bool := isStop x && sig == sigCont || x == sigCont && isStop sig

/-- The pending signals after `sig` has been generated. -/
def generate (sig : ℕ) (v : V) (q : List (ℕ × V)) : List (ℕ × V) :=
  let q := q.filter fun p => !cancels sig p.1
  if sig < 32 ∧ sig ∈ q.map Prod.fst then q else q ++ [(sig, v)]

/-- The oldest instance of `sig` and what is pending without it. -/
def dequeue (sig : ℕ) : List (ℕ × V) → Option (V × List (ℕ × V))
  | [] => none
  | p :: q => if p.1 = sig then some (p.2, q) else (dequeue sig q).map fun r => (r.1, p :: r.2)

/-- The values of the instances of `sig`, the oldest first. -/
def values (sig : ℕ) : List (ℕ × V) → List V
  | [] => []
  | p :: q => if p.1 = sig then p.2 :: values sig q else values sig q

/-- `sig` is left when the signals of the list have been generated one after the other. -/
def survives : List ℕ → ℕ → Bool
  | [], _ => false
  | x :: l, sig => survives l sig || x == sig && l.all fun y => !cancels y sig

/-! ### What is pending -/

section Pending

variable {sig s x : ℕ} {v : V} {q q' : List (ℕ × V)}

@[simp] theorem values_append (sig : ℕ) (q q' : List (ℕ × V)) :
    values sig (q ++ q') = values sig q ++ values sig q' := by
  induction q with
  | nil => rfl
  | cons p q ih =>
    rw [List.cons_append, values, values, ih]
    split <;> rfl

theorem values_singleton (sig s : ℕ) (v : V) :
    values s [(sig, v)] = if sig = s then [v] else [] := rfl

theorem values_eq_nil_iff : values sig q = [] ↔ sig ∉ q.map Prod.fst := by
  induction q with
  | nil => simp [values]
  | cons p q ih =>
    rw [values, List.map_cons, List.mem_cons, not_or, ← ih]
    split
    next h => simp [h]
    next h => simp [Ne.symm h]

theorem values_filter (f : ℕ → Bool) (s : ℕ) (q : List (ℕ × V)) :
    values s (q.filter fun p => f p.1) = if f s then values s q else [] := by
  induction q with
  | nil => simp [values]
  | cons p q ih =>
    by_cases hp : p.1 = s
    · subst hp
      by_cases hf : f p.1 <;> simp [values, hf, ih]
    · by_cases hf : f p.1 <;> simp [values, hf, ih, hp]

theorem cancels_self (x : ℕ) : cancels x x = false := by
  by_cases hx : x = sigCont
  · subst hx
    rfl
  · simp [cancels, hx]

theorem cancels_realtime (h : 32 ≤ x ∨ 32 ≤ s) : cancels x s = false := by
  simp only [cancels, isStop, sigCont, Bool.or_eq_false_iff, Bool.and_eq_false_iff,
    decide_eq_false_iff_not, beq_eq_false_iff_ne]
  omega

/-- A realtime signal gets one more instance, and no other signal changes. -/
theorem values_generate_realtime (h : 32 ≤ sig) (v : V) (q : List (ℕ × V)) (s : ℕ) :
    values s (generate sig v q) = values s q ++ if sig = s then [v] else [] := by
  rw [generate, if_neg fun hc => absurd hc.1 (Nat.not_lt.mpr h), values_append,
    values_filter fun x => !cancels sig x, cancels_realtime (.inl h), values_singleton]
  rfl

theorem values_generate_of_ne (h : sig ≠ s) (hc : cancels sig s = false) (v : V)
    (q : List (ℕ × V)) : values s (generate sig v q) = values s q := by
  have hfilter := values_filter (fun x => !cancels sig x) s q
  rw [hc, Bool.not_false, if_pos rfl] at hfilter
  rw [generate]
  split
  · exact hfilter
  · rw [values_append, hfilter, values_singleton, if_neg h, List.append_nil]

/-- A standard signal is pending afterwards, and what it discards is not. -/
theorem length_values_generate_standard (h : sig < 32) (hq : (values sig q).length ≤ 1) (v : V)
    (s : ℕ) : (values s (generate sig v q)).length =
      if sig = s then 1 else if cancels sig s then 0 else (values s q).length := by
  have hfilter := values_filter (fun x => !cancels sig x) s q
  have hmem : sig ∈ (q.filter fun p => !cancels sig p.1).map Prod.fst ↔ values sig q ≠ [] := by
    have hsig := values_filter (fun x => !cancels sig x) sig q
    rw [cancels_self, Bool.not_false, if_pos rfl] at hsig
    rw [← hsig, Ne, values_eq_nil_iff, not_not]
  rw [generate]
  by_cases hpend : values sig q = []
  · rw [if_neg fun hc => hmem.mp hc.2 hpend, values_append, hfilter, values_singleton]
    by_cases hs : sig = s
    · subst hs
      simp [hpend]
    · by_cases hc : cancels sig s <;> simp [hs, hc]
  · rw [if_pos ⟨h, hmem.mpr hpend⟩, hfilter]
    by_cases hs : sig = s
    · subst hs
      have hpos : 0 < (values sig q).length := List.length_pos_of_ne_nil hpend
      simp [cancels_self]
      omega
    · by_cases hc : cancels sig s <;> simp [hs, hc]

/-- A standard signal that is pending stays as it is, with the value it has. -/
theorem values_generate_standard (h : sig < 32) (v : V) (q : List (ℕ × V)) :
    values sig (generate sig v q) = if values sig q = [] then [v] else values sig q := by
  have hfilter := values_filter (fun x => !cancels sig x) sig q
  rw [cancels_self, Bool.not_false, if_pos rfl] at hfilter
  rw [generate]
  by_cases hpend : values sig q = []
  · rw [if_neg fun hc => values_eq_nil_iff.mp (hfilter.trans hpend) hc.2, values_append, hfilter,
      hpend, values_singleton]
    simp
  · rw [if_pos ⟨h, by rwa [← not_not (a := sig ∈ _), ← values_eq_nil_iff, hfilter]⟩, hfilter,
      if_neg hpend]

theorem mem_generate {p : ℕ × V} (h : p ∈ generate sig v q) : p ∈ q ∨ p = (sig, v) := by
  rw [generate] at h
  split at h
  · exact .inl (List.mem_of_mem_filter h)
  · rcases List.mem_append.mp h with h | h
    · exact .inl (List.mem_of_mem_filter h)
    · exact .inr (List.mem_singleton.mp h)

/-- The oldest instance goes, and everything else stays as it was. -/
theorem values_of_dequeue (h : dequeue sig q = some (v, q')) :
    values sig q = v :: values sig q' ∧ (∀ s, s ≠ sig → values s q' = values s q) ∧
      q'.Sublist q := by
  induction q generalizing q' with
  | nil => cases h
  | cons p q ih =>
    rw [dequeue] at h
    by_cases hp : p.1 = sig
    · rw [if_pos hp] at h
      cases h
      exact ⟨by rw [values, if_pos hp], fun s hs => by rw [values, if_neg (hp ▸ hs.symm)],
        List.sublist_cons_self p q⟩
    · rw [if_neg hp] at h
      obtain ⟨⟨w, r⟩, hr, hw⟩ := Option.map_eq_some_iff.mp h
      cases hw
      obtain ⟨hsig, hother, hsub⟩ := ih hr
      refine ⟨by simp [values, hp, hsig], fun s hs => ?_, hsub.cons_cons p⟩
      rw [values, values, hother s hs]

theorem exists_dequeue (h : sig ∈ q.map Prod.fst) : ∃ v q', dequeue sig q = some (v, q') := by
  induction q with
  | nil => cases h
  | cons p q ih =>
    by_cases hp : p.1 = sig
    · exact ⟨p.2, q, by rw [dequeue, if_pos hp]⟩
    · have hq : sig ∈ q.map Prod.fst := (List.mem_cons.mp h).resolve_left (Ne.symm hp)
      obtain ⟨v, q', hd⟩ := ih hq
      exact ⟨v, p :: q', by rw [dequeue, if_neg hp, hd]; rfl⟩

end Pending

/-! ### What is left of a list of signals -/

section Survives

variable {l : List ℕ} {s x : ℕ}

theorem survives_concat (l : List ℕ) (x s : ℕ) :
    survives (l ++ [x]) s = (x == s || survives l s && !cancels x s) := by
  induction l with
  | nil => simp [survives]
  | cons y l ih =>
    rw [List.cons_append, survives, survives, ih, List.all_append]
    cases hx : x == s <;> cases survives l s <;> cases hy : y == s <;> cases hc : cancels x s <;>
      simp [hc]

theorem mem_of_survives (h : survives l s = true) : s ∈ l := by
  induction l with
  | nil => cases h
  | cons x l ih =>
    rw [survives, Bool.or_eq_true, Bool.and_eq_true, beq_iff_eq] at h
    rcases h with h | ⟨rfl, -⟩
    · exact List.mem_cons_of_mem x (ih h)
    · exact List.mem_cons_self

/-- The signals that discard others or are discarded. -/
def isJob (sig : ℕ) : Bool := sig == sigCont || isStop sig

theorem cancels_eq_false (h : isJob x = false ∨ isJob s = false) : cancels x s = false := by
  rcases h with h | h <;> simp_all [isJob, cancels]

/-- The other signals have no part in it. -/
theorem survives_filter (h : isJob s = true) (l : List ℕ) :
    survives (l.filter isJob) s = survives l s := by
  induction l with
  | nil => rfl
  | cons x l ih =>
    have hall : ((l.filter isJob).all fun y => !cancels y s) = l.all fun y => !cancels y s := by
      rw [List.all_filter]
      congr 1
      funext y
      by_cases hy : isJob y
      · simp [hy]
      · simp [hy, cancels_eq_false (.inl (Bool.eq_false_iff.mpr hy))]
    by_cases hx : isJob x
    · rw [List.filter_cons_of_pos hx, survives, survives, ih, hall]
    · have hne : (x == s) = false := beq_eq_false_iff_ne.mpr fun heq => hx (heq ▸ h)
      rw [List.filter_cons_of_neg hx, survives, ih, hne, Bool.false_and, Bool.or_false]

theorem survives_of_not_isJob (h : isJob s = false) (l : List ℕ) :
    survives l s = decide (s ∈ l) := by
  induction l with
  | nil => rfl
  | cons x l ih =>
    have hall : (l.all fun y => !cancels y s) = true := by
      simp [cancels_eq_false (.inr h)]
    rw [survives, ih, hall, Bool.and_true]
    by_cases hx : x = s
    · simp [hx]
    · simp [hx, Ne.symm hx]

/-- The signals that are left, counted apart: all of the others, and of the four kinds that
discard each other those that are left among themselves. -/
theorem length_filter_survives (l : List ℕ) :
    (l.filter (survives l)).length =
      (l.filter fun s => !isJob s).length +
        ((l.filter isJob).filter (survives (l.filter isJob))).length := by
  have hjob : ((l.filter isJob).filter (survives (l.filter isJob))) =
      (l.filter (survives l)).filter isJob := by
    rw [List.filter_filter, List.filter_filter]
    refine List.filter_congr fun s _ => ?_
    cases hs : isJob s with
    | false => simp
    | true => simp [survives_filter hs]
  have hrest : (l.filter fun s => !isJob s) = (l.filter (survives l)).filter fun s => !isJob s := by
    rw [List.filter_filter]
    refine List.filter_congr fun s hs => ?_
    cases hjob : isJob s with
    | false => simp [survives_of_not_isJob hjob, hs]
    | true => simp
  rw [hjob, hrest, Nat.add_comm]
  exact (List.length_eq_length_filter_add isJob)

end Survives

end Signals
