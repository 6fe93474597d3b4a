import Mathlib.Data.List.Perm.Basic
import Mathlib.Order.Lattice

/-!
# Sorting by exchanges

The two nested loops that compare each element of an array with all those behind it, and exchange
the two if the first is the smaller one. Each round of the outer loop leaves the greatest of the
elements that are left at its place, so that the result is in decreasing order.

The loops work on the first `n` elements of an array, and have no answer if there are not so many.

## Main results

* `ExchangeSort.innerLoop_spec` — a round of the outer loop
* `ExchangeSort.outerLoop_spec` — the elements are permuted into decreasing order
-/

namespace ExchangeSort

variable {α : Type*} [LinearOrder α]

/-- `if (arr[i] < arr[j])`, exchange the two. -/
def exchange (arr : List α) (i j : ℕ) : Option (List α) := do
  let a ← arr[i]?
  let b ← arr[j]?
  some (if a < b then (arr.set i b).set j a else arr)

/-- The inner loop: `k` steps from `j` on. -/
def innerLoop (i : ℕ) : ℕ → ℕ → List α → Option (List α)
  | 0, _, arr => some arr
  | k + 1, j, arr => do
    let arr ← exchange arr i j
    innerLoop i k (j + 1) arr

/-- The outer loop over the first `n` elements: `k` rounds from `i` on. -/
def outerLoop (n : ℕ) : ℕ → ℕ → List α → Option (List α)
  | 0, _, arr => some arr
  | k + 1, i, arr => do
    let arr ← innerLoop i (n - (i + 1)) (i + 1) arr
    outerLoop n k (i + 1) arr

theorem exchange_append (front done rest : List α) (a b : α) :
    exchange (front ++ a :: (done ++ b :: rest)) front.length (front.length + 1 + done.length) =
      some (if a < b then front ++ b :: (done ++ a :: rest)
        else front ++ a :: (done ++ b :: rest)) := by
  have hi : (front ++ a :: (done ++ b :: rest))[front.length]? = some a := by simp
  have hj : (front ++ a :: (done ++ b :: rest))[front.length + 1 + done.length]? = some b := by
    rw [List.getElem?_append_right (by omega)]
    simp [Nat.add_assoc, Nat.add_comm 1]
  have hset : ((front ++ a :: (done ++ b :: rest)).set front.length b).set
      (front.length + 1 + done.length) a = front ++ b :: (done ++ a :: rest) := by
    rw [List.set_append_right _ _ (Nat.le_refl _), List.set_append_right _ _ (by omega)]
    simp [Nat.add_assoc, Nat.add_comm 1]
  rw [exchange, hi, hj, ← hset]
  rfl

/-- **A round of the outer loop** leaves the greatest element at its place. -/
theorem innerLoop_spec (front done todo beyond : List α) {a : α} (hdone : ∀ x ∈ done, x ≤ a) :
    ∃ m ys, innerLoop front.length todo.length (front.length + 1 + done.length)
        (front ++ a :: (done ++ todo ++ beyond)) = some (front ++ m :: (ys ++ beyond)) ∧
      (m :: ys).Perm (a :: (done ++ todo)) ∧ ∀ y ∈ ys, y ≤ m := by
  induction todo generalizing done a with
  | nil => exact ⟨a, done, by simp [innerLoop], by simp, hdone⟩
  | cons b todo ih =>
    have hnext : ∀ x, front.length + 1 + done.length + 1 =
        front.length + 1 + (done ++ [x]).length := by simp [Nat.add_assoc]
    rw [List.length_cons, innerLoop, List.append_assoc, List.cons_append, exchange_append]
    by_cases hab : a < b
    · -- `b` takes the place, and `a` is one of those it has been compared with
      have hdone' : ∀ x ∈ done ++ [a], x ≤ b := by
        intro x hx
        rcases List.mem_append.mp hx with hx | hx
        · exact (hdone x hx).trans hab.le
        · exact (List.mem_singleton.mp hx).le.trans hab.le
      obtain ⟨m, ys, hloop, hperm, hys⟩ := ih (done ++ [a]) hdone'
      refine ⟨m, ys, ?_, hperm.trans ?_, hys⟩
      · rw [if_pos hab, hnext a, ← hloop]
        simp
      · have hmid : (done ++ [a] ++ todo).Perm (a :: (done ++ todo)) := by
          simp
        have hb : (done ++ b :: todo).Perm (b :: (done ++ todo)) := List.perm_middle
        exact ((hmid.cons b).trans (.swap ..)).trans (hb.symm.cons a)
    · have hdone' : ∀ x ∈ done ++ [b], x ≤ a := by
        intro x hx
        rcases List.mem_append.mp hx with hx | hx
        · exact hdone x hx
        · exact (List.mem_singleton.mp hx).le.trans (not_lt.mp hab)
      obtain ⟨m, ys, hloop, hperm, hys⟩ := ih (done ++ [b]) hdone'
      refine ⟨m, ys, ?_, by simpa using hperm, hys⟩
      rw [if_neg hab, hnext b, ← hloop]
      simp

/-- **The loops permute the elements into decreasing order**, and leave alone what is behind
them. -/
theorem outerLoop_spec {k : ℕ} (front xs beyond : List α) (hk : xs.length = k + 1) :
    ∃ ys, outerLoop (front.length + xs.length) k front.length (front ++ (xs ++ beyond)) =
        some (front ++ (ys ++ beyond)) ∧ ys.Perm xs ∧ ys.Pairwise (· ≥ ·) := by
  induction k generalizing front xs with
  | zero =>
    obtain ⟨x, rfl⟩ := List.length_eq_one_iff.mp hk
    exact ⟨[x], rfl, .refl _, List.pairwise_singleton _ _⟩
  | succ k ih =>
    obtain ⟨x, xs, rfl⟩ := List.exists_cons_of_length_eq_add_one hk
    obtain ⟨m, ys, hinner, hperm, hmax⟩ := innerLoop_spec front [] xs beyond (a := x) (by simp)
    have hlen : ys.length = k + 1 := by
      have := hperm.length_eq
      simp at this hk
      omega
    obtain ⟨zs, houter, hperm', hsorted⟩ := ih (front ++ [m]) ys hlen
    have hsteps : front.length + (x :: xs).length - (front.length + 1) = xs.length := by
      rw [List.length_cons]
      omega
    have hrange : front.length + (x :: xs).length = (front ++ [m]).length + ys.length := by
      simp only [List.length_cons, List.length_append, List.length_nil] at hk ⊢
      omega
    refine ⟨m :: zs, ?_, (hperm'.cons m).trans (by simpa using hperm), ?_⟩
    · rw [outerLoop, hsteps]
      simp only [List.length_nil, Nat.add_zero, List.nil_append] at hinner
      rw [List.cons_append, hinner, hrange]
      simpa using houter
    · exact List.pairwise_cons.mpr ⟨fun y hy => hmax y (hperm'.mem_iff.mp hy), hsorted⟩

end ExchangeSort
