import Tlpiexer.Foundations.Path
import Tlpiexer.Foundations.Transition

/-!
# Dots in a path

`solve_dot` rewrites an absolute path in place: `i` reads, `j` writes, `jy` is the last slash that
was written and recorded and `jx` the one recorded before it. A component is recognised only when
the slash behind it is read, and only by its distance to `jy`.

## The loop as a machine

One iteration is one step. `Vars.body` computes at the same time the indices of `path` that the
iteration reads or writes and the variables it leaves; there are none when the backward scan for
the previous slash runs out of the array, since what it finds there is not part of the path. An
index is an integer, so that such an access can be named.

## What the loop gets right

Nothing is recorded behind a name of one or two letters, nothing is done about the last component,
and a `..` needs the slash before the previous one. `Tame` describes the components in front of
slashes that meet none of this: `solve_dot` brings these into normal form and keeps the last
component as it is (`solveDot_eq`), which is the normal form when that is a name (`Solvable`).

## Leaving the path

The only access that can leave the path is the scan of a `..`, which needs a slash recorded before
the previous one. `Secure` asks for two names standing in front of every `..`, and for no short ones
among the components up to there: what the scan meets in place of the slash behind a short name is
whatever byte was left there. Behind the last `..` anything may follow (`solve_dot_in_bounds`).
-/

namespace Tlpiexer

namespace SolveDot

open CString Path Transition

/-- The variables of `solve_dot`; `path` is the array with its NUL, `path_len` the length found at
the start. -/
structure Vars where
  path : Bytes
  path_len : ℕ
  i : ℕ
  j : ℕ
  jx : ℕ
  jy : ℕ
  deriving DecidableEq, Repr

/-- `path[k]`. -/
def Vars.char (s : Vars) (k : ℕ) : UInt8 := s.path.getD k 0

/-- `for (jx--; path[jx] != '/'; jx--);` from the given `jx`: the indices it reads and where it
stops. -/
def back (path : Bytes) : ℕ → List ℤ × Option ℕ
  | 0 => ([-1], none)
  | k + 1 =>
    if path.getD k 0 = slash then ([(k : ℤ)], some k)
    else ((k : ℤ) :: (back path k).1, (back path k).2)

/-- One iteration: the indices it reads or writes, in this order, and the variables after it. -/
def Vars.body (s : Vars) : List ℤ × Option Vars :=
  if s.char s.i ≠ slash then
    ([(s.i : ℤ), s.i, s.j],
      some { s with path := s.path.set s.j (s.char s.i), i := s.i + 1, j := s.j + 1 })
  else
    let offset : ℤ := s.j - s.jy
    if offset = 3 then
      if s.char (s.jy + 1) = period then
        if s.char (s.jy + 2) = period then
          ([(s.i : ℤ), s.jy + 1, s.jy + 2] ++ (back s.path s.jx).1,
            (back s.path s.jx).2.map fun k =>
              { s with i := s.i + 1, j := s.jx + 1, jy := s.jx, jx := k })
        else ([(s.i : ℤ), s.jy + 1, s.jy + 2], some { s with i := s.i + 1, j := s.j + 1 })
      else ([(s.i : ℤ), s.jy + 1], some { s with i := s.i + 1, j := s.j + 1 })
    else if offset = 2 then
      if s.char (s.jy + 1) = period then
        ([(s.i : ℤ), s.jy + 1], some { s with i := s.i + 1, j := s.jy + 1 })
      else ([(s.i : ℤ), s.jy + 1], some { s with i := s.i + 1, j := s.j + 1 })
    else if offset = 1 then ([(s.i : ℤ)], some { s with i := s.i + 1, j := s.jy + 1 })
    else
      ([(s.i : ℤ), s.j],
        some { s with path := s.path.set s.j slash, i := s.i + 1, j := s.j + 1, jx := s.jy,
                      jy := s.j })

/-- The indices used from `s` on up to the next test of `i < path_len`; behind the loop this is
`path[j] = 0`. -/
def Vars.accesses (s : Vars) : List ℤ := if s.i < s.path_len then s.body.1 else [(s.j : ℤ)]

/-- The variables at the start of the loop. -/
def start (path : Bytes) : Vars := ⟨path ++ [0], path.length, 0, 0, 0, 0⟩

/-- The loop. -/
def loop : Machine Vars Unit where
  init s := ∃ path : Bytes, path.head? = some slash ∧ s = start path
  step s _ := if s.i < s.path_len then s.body.2 else none

/-- `solve_dot(path)`: `some none` is `NULL`, `none` a call that leaves the array. -/
def solveDot (path : Bytes) : Option (Option Bytes) :=
  if path.head? ≠ some slash then some none
  else
    (loop.exec (start path) (List.replicate path.length ())).map fun s =>
      some (cstr (s.path.set s.j 0))

/-! ### One iteration -/

theorem getD_length_append (A R : Bytes) (b : UInt8) : (A ++ b :: R).getD A.length 0 = b := by
  simp [List.getD]

theorem char_of_append {s : Vars} {A R : Bytes} {b : UInt8} {k : ℕ} (h : s.path = A ++ b :: R)
    (hk : k = A.length) : s.char k = b := by
  rw [Vars.char, h, hk, getD_length_append]

section

variable {s : Vars} (hc : s.char s.i = slash)

include hc

theorem body_dotdot (ho : s.j = s.jy + 3) (h1 : s.char (s.jy + 1) = period)
    (h2 : s.char (s.jy + 2) = period) :
    s.body.2 = (back s.path s.jx).2.map fun k =>
      { s with i := s.i + 1, j := s.jx + 1, jy := s.jx, jx := k } := by
  have ho' : (s.j : ℤ) - s.jy = 3 := by omega
  simp [Vars.body, hc, ho', h1, h2]

theorem body_dot (ho : s.j = s.jy + 2) (h1 : s.char (s.jy + 1) = period) :
    s.body.2 = some { s with i := s.i + 1, j := s.jy + 1 } := by
  have ho' : (s.j : ℤ) - s.jy = 2 := by omega
  simp [Vars.body, hc, ho', h1]

theorem body_empty (ho : s.j = s.jy + 1) :
    s.body.2 = some { s with i := s.i + 1, j := s.jy + 1 } := by
  have ho' : (s.j : ℤ) - s.jy = 1 := by omega
  simp [Vars.body, hc, ho']

theorem body_name (ho : s.j = s.jy ∨ s.jy + 4 ≤ s.j) :
    s.body.2 = some { s with path := s.path.set s.j slash, i := s.i + 1, j := s.j + 1, jx := s.jy,
                             jy := s.j } := by
  have h3 : ¬ (s.j : ℤ) - s.jy = 3 := by omega
  have h2 : ¬ (s.j : ℤ) - s.jy = 2 := by omega
  have h1 : ¬ (s.j : ℤ) - s.jy = 1 := by omega
  simp [Vars.body, hc, h3, h2, h1]

/-- Behind a name of one or two letters nothing happens, not even the slash is written. -/
theorem body_short
    (ho : s.j = s.jy + 2 ∧ s.char (s.jy + 1) ≠ period ∨
      s.j = s.jy + 3 ∧ (s.char (s.jy + 1) ≠ period ∨ s.char (s.jy + 2) ≠ period)) :
    s.body.2 = some { s with i := s.i + 1, j := s.j + 1 } := by
  rcases ho with ⟨ho, h1⟩ | ⟨ho, h1⟩
  · have ho' : (s.j : ℤ) - s.jy = 2 := by omega
    simp [Vars.body, hc, ho', h1]
  · have ho' : (s.j : ℤ) - s.jy = 3 := by omega
    rcases h1 with h1 | h1
    · simp [Vars.body, hc, ho', h1]
    · by_cases h0 : s.char (s.jy + 1) = period <;> simp [Vars.body, hc, ho', h0, h1]

end

theorem body_char {s : Vars} (hc : s.char s.i ≠ slash) :
    s.body.2 = some { s with path := s.path.set s.j (s.char s.i), i := s.i + 1, j := s.j + 1 } := by
  simp [Vars.body, hc]

/-! ### Indices -/

/-- The accesses of this iteration stay between `0` and `len`, and what is written has been read. -/
def Vars.InBounds (len : ℕ) (s : Vars) : Prop :=
  (∀ k ∈ s.accesses, 0 ≤ k ∧ k ≤ (len : ℤ)) ∧ s.j ≤ s.i

instance (len : ℕ) (s : Vars) : Decidable (s.InBounds len) :=
  inferInstanceAs (Decidable ((∀ k ∈ s.accesses, 0 ≤ k ∧ k ≤ (len : ℤ)) ∧ s.j ≤ s.i))

/-- The iteration is about to take a `..` back while no slash is recorded before the last one. -/
def Vars.UpFromTop (s : Vars) : Prop :=
  s.i < s.path_len ∧ s.char s.i = slash ∧ s.j = s.jy + 3 ∧ s.char (s.jy + 1) = period ∧
    s.char (s.jy + 2) = period ∧ s.jx = 0

instance (s : Vars) : Decidable s.UpFromTop :=
  inferInstanceAs (Decidable (s.i < s.path_len ∧ s.char s.i = slash ∧ s.j = s.jy + 3 ∧
    s.char (s.jy + 1) = period ∧ s.char (s.jy + 2) = period ∧ s.jx = 0))

/-- How the variables lie while the loop runs over a path of length `len`. -/
structure Ordered (len : ℕ) (s : Vars) : Prop where
  path_len : s.path_len = len
  length : s.path.length = len + 1
  head : s.char 0 = slash
  jx_le : s.jx ≤ s.jy
  jy_le : s.jy ≤ s.j
  jy_lt : 0 < s.i → s.jy < s.j
  j_le : s.j ≤ s.i
  i_le : s.i ≤ len

theorem ordered_start {path : Bytes} (h : path.head? = some slash) :
    Ordered path.length (start path) := by
  obtain ⟨rest, rfl⟩ : ∃ rest, path = slash :: rest := by
    cases path with
    | nil => simp at h
    | cons b rest => exact ⟨rest, by simpa using h⟩
  exact ⟨rfl, by simp [start], rfl, le_rfl, le_rfl, fun h0 => absurd h0 (by simp [start]), le_rfl,
    Nat.zero_le _⟩

/-- The backward scan stops above index `0` when a slash is there. -/
theorem back_of_head {path : Bytes} (h : path.getD 0 0 = slash) : ∀ {k : ℕ}, 0 < k →
    (∃ m < k, (back path k).2 = some m) ∧ ∀ a ∈ (back path k).1, 0 ≤ a ∧ a < (k : ℤ) := by
  intro k
  induction k with
  | zero => intro h0; omega
  | succ k ih =>
    intro _
    by_cases hk : path.getD k 0 = slash
    · simp only [back, hk, if_true]
      refine ⟨⟨k, by omega, rfl⟩, fun a ha => ?_⟩
      rw [List.mem_singleton.mp ha]
      omega
    · have hpos : 0 < k := Nat.pos_of_ne_zero fun h0 => hk (h0 ▸ h)
      obtain ⟨⟨m, hm, hback⟩, hall⟩ := ih hpos
      simp only [back, hk, if_false]
      refine ⟨⟨m, by omega, hback⟩, ?_⟩
      intro a ha
      rcases List.mem_cons.mp ha with rfl | ha
      · omega
      · have := hall a ha
        omega

/-- A write behind index `0`, or of a slash, keeps the order of the variables. -/
theorem Ordered.write {len : ℕ} {s : Vars} (h : Ordered len s) {k : ℕ} {b : UInt8}
    (hb : k = 0 → b = slash) : Ordered len { s with path := s.path.set k b } := by
  refine { h with length := by simpa using h.length, head := ?_ }
  have hhead : s.path.getD 0 0 = slash := h.head
  show (s.path.set k b).getD 0 0 = slash
  by_cases hk : k = 0
  · have hpos : 0 < s.path.length := by have := h.length; omega
    simp [hk, hb hk, List.getD, List.getElem?_set_self hpos]
  · simpa [List.getD, List.getElem?_set_ne hk] using hhead

/-- The end of an iteration. -/
theorem Ordered.next {len : ℕ} {s : Vars} (h : Ordered len s) (hi : s.i < len) {j jx jy : ℕ}
    (hx : jx ≤ jy) (hy : jy < j) (hj : j ≤ s.i + 1) :
    Ordered len { s with i := s.i + 1, j := j, jx := jx, jy := jy } :=
  { h with jx_le := hx, jy_le := le_of_lt hy, jy_lt := fun _ => hy, j_le := hj, i_le := hi }

/-- The first character that is read is the slash at index `0`. -/
theorem Ordered.char_i_of_j {len : ℕ} {s : Vars} (h : Ordered len s) (hj : s.j = 0) :
    s.char s.i = slash := by
  have hi : s.i = 0 := by
    by_contra hne
    have := h.jy_lt (Nat.pos_of_ne_zero hne)
    omega
  rw [hi, h.head]

/-- **One iteration keeps the order of the variables.** -/
theorem Ordered.body {len : ℕ} {s t : Vars} (h : Ordered len s) (hi : s.i < len)
    (ht : s.body.2 = some t) : Ordered len t := by
  have hx := h.jx_le
  have hy := h.jy_le
  have hj := h.j_le
  simp only [Vars.body] at ht
  split_ifs at ht with hc h3 h1 h2 h2' h1' h1''
  · -- a character is copied
    rw [← Option.some.inj ht]
    exact (h.write fun h0 => absurd (h.char_i_of_j h0) hc).next hi hx (by omega) (by simpa using hj)
  · -- `..`
    obtain ⟨k, hk, rfl⟩ := Option.map_eq_some_iff.mp ht
    have hpos : 0 < s.jx := by
      by_contra h0
      simp [show s.jx = 0 by omega, back] at hk
    obtain ⟨⟨m, hm, hback⟩, -⟩ := back_of_head (show s.path.getD 0 0 = slash from h.head) hpos
    have hmk : m = k := Option.some.inj (hback.symm.trans hk)
    exact h.next hi (by omega) (by omega) (by omega)
  all_goals rw [← Option.some.inj ht]
  · exact h.next hi hx (by omega) (by omega)
  · exact h.next hi hx (by omega) (by omega)
  · exact h.next hi hx (by omega) (by omega)
  · exact h.next hi hx (by omega) (by omega)
  · exact h.next hi hx (by omega) (by omega)
  · exact (h.write fun _ => rfl).next hi hy (by simp) (by simpa using hj)

/-- **The accesses of an iteration.** Only a `..` without a slash to go back to leaves the path. -/
theorem Ordered.inBounds_iff {len : ℕ} {s : Vars} (h : Ordered len s) :
    s.InBounds len ↔ ¬ s.UpFromTop := by
  have hx := h.jx_le
  have hy := h.jy_le
  have hj := h.j_le
  have hle := h.i_le
  have hlen := h.path_len
  rw [Vars.InBounds, and_iff_left hj, Vars.accesses]
  by_cases hi : s.i < s.path_len
  case neg =>
    have hup : ¬ s.UpFromTop := fun hup => hi hup.1
    simp only [hi, if_false, List.forall_mem_singleton, hup, not_false_eq_true, iff_true]
    omega
  simp only [hi, if_true, Vars.body]
  split_ifs with hc h3 h1 h2 h2' h1' h1''
  rotate_left
  · -- `..`: the scan needs a slash before the last one
    by_cases hjx : s.jx = 0
    · have hup : s.UpFromTop := ⟨hi, not_not.mp hc, by omega, h1, h2, hjx⟩
      simp [hup, hjx, back]
    · have hup : ¬ s.UpFromTop := fun hup => hjx hup.2.2.2.2.2
      obtain ⟨-, hall⟩ := back_of_head (show s.path.getD 0 0 = slash from h.head)
        (Nat.pos_of_ne_zero hjx)
      simp only [hup, not_false_eq_true, iff_true, List.forall_mem_append, List.forall_mem_cons]
      refine ⟨⟨by omega, by omega, by omega, by simp⟩, fun a ha => ?_⟩
      have := hall a ha
      omega
  all_goals
    -- every other branch stays between the recorded slash and `i`
    have hup : ¬ s.UpFromTop := by
      rintro ⟨-, hs, ho, hp1, hp2, -⟩
      first | contradiction | omega
    simp only [hup, not_false_eq_true, iff_true, List.forall_mem_cons, List.not_mem_nil,
      false_imp_iff, implies_true, and_true]
    omega

/-- All variables a run goes through, the last ones included. -/
def visited (tr : List (Vars × Unit)) (t : Vars) : List Vars := tr.map Prod.fst ++ [t]

/-- **The accesses stay within the path**, and what is written has been read, in every iteration. -/
def Confined (path : Bytes) : Prop :=
  ∀ tr t, loop.Run (start path) tr t → ∀ s ∈ visited tr t, s.InBounds path.length

theorem back_zero (path : Bytes) : (back path 0).2 = none := rfl

/-- The scan of a `..` without a slash to go back to finds none. -/
theorem Vars.UpFromTop.body {s : Vars} (h : s.UpFromTop) : s.body.2 = none := by
  obtain ⟨-, hc, ho, h1, h2, hjx⟩ := h
  rw [body_dotdot hc ho h1 h2, hjx, back_zero]
  rfl

theorem Ordered.exists_body {len : ℕ} {s : Vars} (h : Ordered len s) (hi : s.i < len)
    (hup : ¬ s.UpFromTop) : ∃ t, s.body.2 = some t := by
  simp only [Vars.body]
  split_ifs with hc h3 h1 h2
  rotate_left
  · -- `..`: the scan has a slash to go back to
    have hjx : 0 < s.jx := by
      refine Nat.pos_of_ne_zero fun hjx => hup ⟨?_, not_not.mp hc, by omega, h1, h2, hjx⟩
      rw [h.path_len]
      exact hi
    obtain ⟨⟨m, -, hm⟩, -⟩ := back_of_head (show s.path.getD 0 0 = slash from h.head) hjx
    exact ⟨_, by rw [hm]; rfl⟩
  all_goals exact ⟨_, rfl⟩

/-- Every iteration reads one byte. -/
theorem body_i {s t : Vars} (h : s.body.2 = some t) : t.i = s.i + 1 := by
  simp only [Vars.body] at h
  split_ifs at h
  rotate_left
  · obtain ⟨k, -, rfl⟩ := Option.map_eq_some_iff.mp h
    rfl
  all_goals rw [← Option.some.inj h]

/-! ### Normal forms -/

/-- `n` iterations. -/
def iterate (n : ℕ) (s : Vars) : Option Vars := loop.exec s (List.replicate n ())

theorem iterate_add (m n : ℕ) (s : Vars) :
    iterate (m + n) s = (iterate m s).bind (iterate n) := by
  rw [iterate, List.replicate_add, Machine.exec_append]
  rfl

theorem iterate_one_eq (s : Vars) : iterate 1 s = if s.i < s.path_len then s.body.2 else none := by
  rw [iterate, List.replicate_one, Machine.exec]
  cases h : loop.step s () with
  | none => exact h.symm
  | some t => exact h.symm

theorem iterate_one {s t : Vars} (hi : s.i < s.path_len) (ht : s.body.2 = some t) :
    iterate 1 s = some t := by
  rw [iterate_one_eq, if_pos hi, ht]

/-- The variables after `n` iterations over a path. -/
theorem ordered_iterate {path : Bytes} (habs : path.head? = some slash) :
    ∀ {n : ℕ} {t : Vars}, iterate n (start path) = some t → Ordered path.length t ∧ t.i = n := by
  intro n
  induction n with
  | zero =>
    intro t h
    cases h
    exact ⟨ordered_start habs, rfl⟩
  | succ n ih =>
    intro t h
    rw [iterate_add] at h
    obtain ⟨s, hs, hone⟩ := Option.bind_eq_some_iff.mp h
    obtain ⟨hord, hi⟩ := ih hs
    rw [iterate_one_eq] at hone
    split_ifs at hone with hlt
    exact ⟨hord.body (hord.path_len ▸ hlt) hone, by rw [body_i hone, hi]⟩

/-- **A path is left** exactly if the loop over it does not come to its end. -/
theorem confined_iff {path : Bytes} (habs : path.head? = some slash) :
    Confined path ↔ ∃ t, iterate path.length (start path) = some t := by
  constructor
  · intro h
    have hall : ∀ n ≤ path.length, ∃ t, iterate n (start path) = some t := by
      intro n
      induction n with
      | zero => exact fun _ => ⟨_, rfl⟩
      | succ n ih =>
        intro hn
        obtain ⟨s, hs⟩ := ih (by omega)
        obtain ⟨hord, hi⟩ := ordered_iterate habs hs
        have hin := h _ s (Machine.run_of_exec hs) s
          (List.mem_append_right _ (List.mem_singleton_self s))
        obtain ⟨t, ht⟩ := hord.exists_body (by omega) (hord.inBounds_iff.mp hin)
        refine ⟨t, ?_⟩
        rw [iterate_add, hs, Option.bind_some, iterate_one (by rw [hord.path_len]; omega) ht]
    exact hall _ le_rfl
  · rintro ⟨u, hu⟩ tr t hrun s hs
    have hstep : ∀ s a u, (∃ n, iterate n (start path) = some s) → loop.step s a = some u →
        ∃ n, iterate n (start path) = some u := by
      rintro s a u ⟨n, hn⟩ hu
      refine ⟨n + 1, ?_⟩
      rw [iterate_add, hn, Option.bind_some, iterate_one_eq]
      exact hu
    obtain ⟨n, hn⟩ : ∃ n, iterate n (start path) = some s := by
      rcases List.mem_append.mp hs with hold | hlast
      · obtain ⟨p, hp, rfl⟩ := List.mem_map.mp hold
        exact hrun.invariant_trace hstep ⟨0, rfl⟩ p hp
      · rw [List.mem_singleton.mp hlast]
        exact hrun.invariant hstep ⟨0, rfl⟩
    obtain ⟨hord, hi⟩ := ordered_iterate habs hn
    refine hord.inBounds_iff.mpr fun hup => ?_
    -- the loop does not go on from here, and it has not come to its end
    have hlt : n < path.length := by
      rw [← hi, ← hord.path_len]
      exact hup.1
    have hsplit : path.length = n + (1 + (path.length - n - 1)) := by omega
    rw [hsplit, iterate_add, hn, Option.bind_some, iterate_add, iterate_one_eq, if_pos hup.1,
      hup.body] at hu
    cases hu

/-- A byte written at the start of the gap before it: the gap moves on by one. -/
theorem exists_set_gap {path A G R : Bytes} {b : UInt8} {k : ℕ} (hpath : path = A ++ G ++ b :: R)
    (hk : k = A.length) : ∃ G₁ : Bytes,
    G₁.length = G.length ∧ path.set k b = A ++ b :: (G₁ ++ R) := by
  subst hpath hk
  cases G with
  | nil => exact ⟨[], rfl, by simp⟩
  | cons g G => exact ⟨G ++ [b], by simp, by simp⟩

/-- Bytes that are not slashes are moved to the front, over a gap of the same size. -/
theorem iterate_copy {R : Bytes} : ∀ {c A G : Bytes} {s : Vars}, slash ∉ c →
    s.path = A ++ G ++ c ++ R → s.j = A.length → s.i = A.length + G.length →
    s.i + c.length ≤ s.path_len → ∃ G' : Bytes, G'.length = G.length ∧
      iterate c.length s = some { s with path := A ++ c ++ G' ++ R, i := s.i + c.length,
                                         j := s.j + c.length } := by
  intro c
  induction c with
  | nil =>
    intro A G s _ hpath _ _ _
    have hsame : A ++ [] ++ G ++ R = s.path := by simp [hpath]
    exact ⟨G, rfl, by rw [hsame]; rfl⟩
  | cons b c ih =>
    intro A G s hslash hpath hj hi hle
    simp only [List.mem_cons, not_or] at hslash
    have hchar : s.char s.i = b :=
      char_of_append (A := A ++ G) (by simpa using hpath) (by simp [hi])
    have hlt : s.i < s.path_len := by
      simp only [List.length_cons] at hle
      omega
    obtain ⟨G₁, hG₁, hset⟩ := exists_set_gap (R := c ++ R) (by simpa using hpath) hj
    have hset : s.path.set s.j b = A ++ [b] ++ G₁ ++ c ++ R := by simp [hset]
    have hone : iterate 1 s =
        some { s with path := s.path.set s.j b, i := s.i + 1, j := s.j + 1 } := by
      rw [iterate_one hlt (body_char (by rw [hchar]; exact Ne.symm hslash.1)), hchar]
    obtain ⟨G', hG', hrest⟩ := ih (A := A ++ [b]) (G := G₁)
      (s := { s with path := s.path.set s.j b, i := s.i + 1, j := s.j + 1 }) hslash.2 hset
      (by simp [hj]) (by simp [hi, hG₁]; omega) (by simp at hle ⊢; omega)
    refine ⟨G', by rw [hG', hG₁], ?_⟩
    rw [List.length_cons, Nat.add_comm, iterate_add, hone, Option.bind_some, hrest]
    simp
    omega

/-- Between two components: the names that stand are written in front, each with its slash, then
comes a gap, then what has not been read. -/
structure Standing (names : List Bytes) (rest : Bytes) (s : Vars) : Prop where
  path : ∃ G : Bytes, s.path = slashed names ++ [slash] ++ G ++ (rest ++ [0]) ∧
    s.i = (slashed names).length + 1 + G.length
  path_len : s.path_len = s.i + rest.length
  jx : s.jx = (slashed names.dropLast).length
  jy : s.jy = (slashed names).length
  j : s.j = (slashed names).length + 1

theorem standing_start (rest : Bytes) :
    ∃ t, iterate 1 (start (slash :: rest)) = some t ∧ Standing [] rest t := by
  refine ⟨⟨slash :: rest ++ [0], (slash :: rest).length, 1, 1, 0, 0⟩, ?_, ?_⟩
  · exact iterate_one (by simp [start]) (by simp [Vars.body, Vars.char, start])
  · exact ⟨⟨[], by simp, rfl⟩, by simp [Nat.add_comm], rfl, rfl, rfl⟩

/-- At the end of a component: it is written behind the names that stand, then comes a gap, then
what has not been read. -/
structure Copied (names : List Bytes) (c G rest : Bytes) (t : Vars) : Prop where
  path : t.path = slashed names ++ [slash] ++ c ++ G ++ (rest ++ [0])
  i : t.i = (slashed names).length + 1 + c.length + G.length
  path_len : t.path_len = t.i + rest.length
  jx : t.jx = (slashed names.dropLast).length
  jy : t.jy = (slashed names).length
  j : t.j = (slashed names).length + 1 + c.length

/-- A component is copied behind the names that stand. -/
theorem Standing.copy {names : List Bytes} {c rest : Bytes} {s : Vars} (hc : slash ∉ c)
    (h : Standing names (c ++ rest) s) :
    ∃ t G, iterate c.length s = some t ∧ Copied names c G rest t := by
  obtain ⟨⟨G, hpath, hi⟩, hlen, hjx, hjy, hj⟩ := h
  obtain ⟨G', hG', hrun⟩ := iterate_copy (R := rest ++ [0]) (c := c)
    (A := slashed names ++ [slash]) (G := G) (s := s) hc (by simp [hpath]) (by simp [hj])
    (by simp [hi]) (by simp [hlen])
  refine ⟨_, G', hrun, by simp, ?_, ?_, hjx, hjy, ?_⟩
  · simp only [hi, hG']
    omega
  · simp only [hlen, List.length_append]
    omega
  · simp only [hj]

/-- The backward scan from behind a name stops at the slash in front of it. -/
theorem back_append (A : Bytes) {a : Bytes} (ha : slash ∉ a) (R : Bytes) :
    (back (A ++ slash :: a ++ R) (A.length + 1 + a.length)).2 = some A.length := by
  induction a using List.reverseRecOn generalizing R with
  | nil => simp [back, List.getD]
  | append_singleton a x ih =>
    simp only [List.mem_append, List.mem_singleton, not_or] at ha
    have hx : (A ++ slash :: (a ++ [x]) ++ R).getD (A.length + 1 + a.length) 0 ≠ slash := by
      have hget := getD_length_append (A ++ slash :: a) R x
      rw [show A ++ slash :: (a ++ [x]) ++ R = (A ++ slash :: a) ++ x :: R by simp,
        show A.length + 1 + a.length = (A ++ slash :: a).length by simp; omega, hget]
      exact Ne.symm ha.2
    rw [List.length_append, List.length_singleton, ← Nat.add_assoc, back, if_neg hx]
    simpa using ih ha.1 (x :: R)

/-- The component in front of a slash is one that the loop recognises for what it is. -/
def Recognised (names : List Bytes) (c : Bytes) : Prop :=
  c = [] ∨ c = dot ∨ (c = dotdot ∧ 2 ≤ names.length) ∨ (Proper c ∧ 3 ≤ c.length)

theorem exists_append_pair {names : List Bytes} (h : 2 ≤ names.length) :
    ∃ names' a b, names = names' ++ [a, b] := by
  obtain rfl | ⟨names₁, b, rfl⟩ := names.eq_nil_or_concat
  · simp at h
  obtain rfl | ⟨names₂, a, rfl⟩ := names₁.eq_nil_or_concat
  · simp at h
  exact ⟨names₂, a, b, by simp⟩

section Copied

variable {names : List Bytes} {c G rest : Bytes} {t : Vars}

theorem Copied.char_i (h : Copied names c G (slash :: rest) t) : t.char t.i = slash :=
  char_of_append (A := slashed names ++ [slash] ++ c ++ G) (by simpa using h.path)
    (by simp [h.i]; omega)

/-- A component that is dropped. -/
theorem Copied.drop (h : Copied names c G (slash :: rest) t) :
    Standing names rest { t with i := t.i + 1, j := t.jy + 1 } := by
  refine ⟨⟨c ++ G ++ [slash], by simp [h.path], ?_⟩, ?_, h.jx, h.jy, by simp [h.jy]⟩
  · simp [h.i]
    omega
  · simp [h.path_len]
    omega

theorem Copied.empty (h : Copied names [] G (slash :: rest) t) :
    ∃ u, t.body.2 = some u ∧ Standing names rest u :=
  ⟨_, body_empty h.char_i (by simpa [h.jy] using h.j), h.drop⟩

theorem Copied.dot (h : Copied names dot G (slash :: rest) t) :
    ∃ u, t.body.2 = some u ∧ Standing names rest u := by
  have h1 : t.char (t.jy + 1) = period :=
    char_of_append (A := slashed names ++ [slash]) (by simpa [Path.dot] using h.path)
      (by simp [h.jy])
  exact ⟨_, body_dot h.char_i (by simpa [h.jy, Path.dot] using h.j) h1, h.drop⟩

theorem Copied.chars_dotdot (h : Copied names dotdot G (slash :: rest) t) :
    t.j = t.jy + 3 ∧ t.char (t.jy + 1) = period ∧ t.char (t.jy + 2) = period := by
  refine ⟨by simpa [h.jy, Path.dotdot] using h.j, ?_, ?_⟩
  · exact char_of_append (A := slashed names ++ [slash]) (by simpa [Path.dotdot] using h.path)
      (by simp [h.jy])
  · exact char_of_append (A := slashed names ++ [slash, period])
      (by simpa [Path.dotdot] using h.path) (by simp [h.jy])

/-- `..` takes the last name away; the slash before the one in front of it is where the backward
scan ends. -/
theorem Copied.dotdot {a b : Bytes} (h : Copied (names ++ [a, b]) dotdot G (slash :: rest) t)
    (ha : slash ∉ a) : ∃ u, t.body.2 = some u ∧ Standing (names ++ [a]) rest u := by
  obtain ⟨ho, h1, h2⟩ := h.chars_dotdot
  have hback : (back t.path t.jx).2 = some (slashed names).length := by
    have hscan := back_append (slashed names) ha
      (slash :: b ++ [slash] ++ Path.dotdot ++ G ++ (slash :: rest ++ [0]))
    rw [h.jx, h.path]
    simpa [Nat.add_assoc, Nat.add_comm] using hscan
  refine ⟨_, (body_dotdot h.char_i ho h1 h2).trans (by rw [hback]; rfl), ?_⟩
  refine ⟨⟨b ++ [slash] ++ Path.dotdot ++ G ++ [slash], ?_, ?_⟩, ?_, ?_, ?_, ?_⟩
  · simp [h.path]
  · simp [h.i]
    omega
  · simp [h.path_len]
    omega
  · simp
  · simp [h.jx]
  · simp [h.jx]

/-- A name of three bytes or more stays. -/
theorem Copied.name (h : Copied names c G (slash :: rest) t) (h3 : 3 ≤ c.length) :
    ∃ u, t.body.2 = some u ∧ Standing (names ++ [c]) rest u := by
  have hj := h.j
  have hjy := h.jy
  obtain ⟨G₁, hG₁, hset⟩ := exists_set_gap (A := slashed names ++ [slash] ++ c) h.path
    (show t.j = _ by simp [hj]; omega)
  refine ⟨_, body_name h.char_i (.inr (by omega)), ⟨G₁, ?_, ?_⟩, ?_, ?_, ?_, ?_⟩
  · rw [hset]
    simp
  · simp [h.i, hG₁]
    omega
  · simp [h.path_len]
    omega
  · simp [hjy]
  · simp [hj]
    omega
  · simp [hj]
    omega

/-- **What the slash behind a component does**, if the component is recognised. -/
theorem Copied.component (h : Copied names c G (slash :: rest) t)
    (hnames : ∀ a ∈ names, slash ∉ a) (hrec : Recognised names c) :
    ∃ u, t.body.2 = some u ∧ Standing (push names c) rest u := by
  rcases hrec with rfl | rfl | ⟨rfl, h2⟩ | ⟨hproper, h3⟩
  case inl => exact h.empty
  case inr.inl => exact h.dot
  case inr.inr.inl =>
    obtain ⟨names, a, b, rfl⟩ := exists_append_pair h2
    have hpush : push (names ++ [a, b]) Path.dotdot = names ++ [a] := by simp
    rw [hpush]
    exact h.dotdot (hnames a (by simp))
  case inr.inr.inr =>
    rw [push_of_proper hproper]
    exact h.name h3

end Copied

/-- **One component and the slash behind it.** -/
theorem Standing.component {names : List Bytes} {c rest : Bytes} {s : Vars}
    (h : Standing names (c ++ slash :: rest) s) (hc : slash ∉ c)
    (hnames : ∀ a ∈ names, slash ∉ a) (hrec : Recognised names c) :
    ∃ t, iterate (c.length + 1) s = some t ∧ Standing (push names c) rest t := by
  obtain ⟨t, G, hrun, hcopied⟩ := h.copy hc
  obtain ⟨u, hu, hstanding⟩ := hcopied.component hnames hrec
  have hlt : t.i < t.path_len := by
    rw [hcopied.path_len, List.length_cons]
    omega
  exact ⟨u, by rw [iterate_add, hrun, Option.bind_some, iterate_one hlt hu], hstanding⟩

/-- Every component of a list is recognised, the given names standing. -/
def Recognises : List Bytes → List Bytes → Prop
  | _, [] => True
  | names, c :: cs => Recognised names c ∧ Recognises (push names c) cs

instance (names : List Bytes) (c : Bytes) : Decidable (Recognised names c) :=
  inferInstanceAs (Decidable (c = [] ∨ c = dot ∨ (c = dotdot ∧ 2 ≤ names.length) ∨
    (Proper c ∧ 3 ≤ c.length)))

instance Recognises.decidable : ∀ names cs : List Bytes, Decidable (Recognises names cs)
  | _, [] => inferInstanceAs (Decidable True)
  | names, c :: cs =>
    have := Recognises.decidable (push names c) cs
    inferInstanceAs (Decidable (Recognised names c ∧ Recognises (push names c) cs))

/-- Bytes that can stand in a component. -/
def Plain (c : Bytes) : Prop := slash ∉ c ∧ (0 : UInt8) ∉ c

theorem zero_notMem_slashed {names : List Bytes} (h : ∀ a ∈ names, Plain a) :
    (0 : UInt8) ∉ slashed names := by
  intro h0
  obtain ⟨a, ha, hmem⟩ := List.mem_flatMap.mp h0
  rcases List.mem_cons.mp hmem with hslash | hmem
  · exact absurd hslash (by decide)
  · exact (h a ha).2 hmem

/-- The last component is copied, and the NUL goes behind it. -/
theorem Standing.last {names : List Bytes} {c : Bytes} {s : Vars} (h : Standing names c s)
    (hc : Plain c) (hnames : ∀ a ∈ names, Plain a) : ∃ t, iterate c.length s = some t ∧
      cstr (t.path.set t.j 0) = slashed names ++ slash :: c := by
  have h' : Standing names (c ++ []) s := by rwa [List.append_nil]
  obtain ⟨t, G, hrun, hcopied⟩ := h'.copy hc.1
  obtain ⟨G₁, -, hset⟩ := exists_set_gap (A := slashed names ++ [slash] ++ c) (R := [])
    (b := 0) hcopied.path (show t.j = _ by simp [hcopied.j]; omega)
  refine ⟨t, hrun, ?_⟩
  have hfree : (0 : UInt8) ∉ slashed names ++ [slash] ++ c := by
    have h1 := zero_notMem_slashed hnames
    have h2 : (0 : UInt8) ≠ slash := by decide
    simp [h1, h2, hc.2]
  rw [hset, cstr_append_zero hfree]
  simp

theorem forall_mem_push {P : Bytes → Prop} {names : List Bytes} {c : Bytes}
    (hnames : ∀ a ∈ names, P a) (hc : P c) : ∀ a ∈ push names c, P a := by
  intro a ha
  rcases List.mem_append.mp (push_subset names c ha) with hold | hnew
  · exact hnames a hold
  · exact List.mem_singleton.mp hnew ▸ hc

/-- **The rest of a path**, from between two components on. -/
theorem Standing.finish {c : Bytes} (hc : Plain c) {cs : List Bytes} :
    ∀ {names : List Bytes} {s : Vars}, Standing names ([slash].intercalate (cs ++ [c])) s →
    Recognises names cs → (∀ b ∈ cs, Plain b) → (∀ a ∈ names, Plain a) →
    ∃ t, iterate ([slash].intercalate (cs ++ [c])).length s = some t ∧
      cstr (t.path.set t.j 0) = slashed (cs.foldl push names) ++ slash :: c := by
  induction cs with
  | nil =>
    intro names s h _ _ hnames
    rw [List.nil_append, List.intercalate_singleton] at h ⊢
    exact h.last hc hnames
  | cons b cs ih =>
    intro names s h ⟨hrec, hrest⟩ hplain hnames
    rw [List.cons_append, List.intercalate_cons_of_ne_nil (by simp)] at h ⊢
    have hpush : ∀ a ∈ push names b, Plain a := forall_mem_push hnames (hplain b (by simp))
    obtain ⟨t, ht, hstanding⟩ := Standing.component (by simpa using h) (hplain b (by simp)).1
      (fun a ha => (hnames a ha).1) hrec
    obtain ⟨u, hu, hres⟩ := ih hstanding hrest (fun a ha => hplain a (by simp [ha])) hpush
    refine ⟨u, ?_, hres⟩
    have hlen : (b ++ [slash] ++ [slash].intercalate (cs ++ [c])).length =
        b.length + 1 + ([slash].intercalate (cs ++ [c])).length := by simp; omega
    rw [hlen, iterate_add, ht, Option.bind_some, hu]

/-! ### Paths without dots -/

/-- The loop has written nothing that was not there. -/
structure Unmoved (p : Bytes) (s : Vars) : Prop where
  path : s.path = p ++ [0]
  path_len : s.path_len = p.length
  j : s.j = s.i
  i_le : s.i ≤ p.length
  jy : s.jy ≤ s.i ∧ s.char s.jy = slash
  jy_lt : 0 < s.i → s.jy < s.i

theorem set_char (s : Vars) {k : ℕ} (h : k < s.path.length) : s.path.set k (s.char k) = s.path := by
  simp [Vars.char, List.getD, List.getElem?_eq_getElem h]

/-- No slash of the path is followed by a component that is not a name, and another slash. -/
def Tidy (path : Bytes) : Prop :=
  ∀ A c B : Bytes, path = A ++ slash :: (c ++ slash :: B) → slash ∉ c → Proper c

theorem drop_eq_char_cons {path : Bytes} {s : Vars} (h : s.path = path ++ [0]) {k : ℕ}
    (hk : k < path.length) : path.drop k = s.char k :: path.drop (k + 1) := by
  rw [List.drop_eq_getElem_cons hk]
  simp [Vars.char, h, List.getD, List.getElem?_append_left hk, List.getElem?_eq_getElem hk]

/-- **One iteration over a tidy path** leaves it as it is. -/
theorem Unmoved.step {path : Bytes} (htidy : Tidy path) {s : Vars} (h : Unmoved path s)
    (hi : s.i < path.length) :
    ∃ t, s.body.2 = some t ∧ t.i = s.i + 1 ∧ Unmoved path t := by
  obtain ⟨hpath, hlen, hj, -, ⟨hy, hjy⟩, hlt⟩ := h
  have hi' : s.i < s.path.length := by simp [hpath]; omega
  by_cases hc : s.char s.i = slash
  case neg =>
    refine ⟨_, body_char hc, rfl, ?_⟩
    rw [hj, set_char s hi']
    exact ⟨hpath, hlen, rfl, hi, ⟨by simp; omega, hjy⟩, fun _ => by simp; omega⟩
  -- a slash: what lies between it and the last recorded one is no component of dots
  have hat : path = path.take s.jy ++ slash :: path.drop (s.jy + 1) := by
    rw [← hjy, ← drop_eq_char_cons hpath (by omega), List.take_append_drop]
  have hset : s.path.set s.j slash = s.path := by
    rw [hj, ← hc, set_char s hi']
  have hkeep : Unmoved path { s with i := s.i + 1, j := s.j + 1 } :=
    ⟨hpath, hlen, by simp [hj], hi, ⟨by simp; omega, hjy⟩, fun _ => by simp; omega⟩
  have hrecord : Unmoved path { s with path := s.path.set s.j slash, i := s.i + 1, j := s.j + 1,
                                       jx := s.jy, jy := s.j } := by
    rw [hset]
    exact ⟨hpath, hlen, by simp [hj], hi, ⟨by simp; omega, by rw [hj]; exact hc⟩,
      fun _ => by simp; omega⟩
  obtain h0 | h1 | h2 | h3 | h4 : s.i = s.jy ∨ s.i = s.jy + 1 ∨ s.i = s.jy + 2 ∨ s.i = s.jy + 3 ∨
      s.jy + 4 ≤ s.i := by omega
  · exact ⟨_, body_name hc (.inl (by omega)), rfl, hrecord⟩
  · rw [← h1, drop_eq_char_cons hpath hi, hc] at hat
    exact absurd rfl (htidy _ [] _ hat (by simp)).1
  · have hdot : s.char (s.jy + 1) ≠ period := by
      intro hdot
      rw [drop_eq_char_cons hpath (by omega), hdot, show s.jy + 1 + 1 = s.i by omega,
        drop_eq_char_cons hpath hi, hc] at hat
      exact absurd rfl (htidy _ dot _ hat (by decide)).2.1
    exact ⟨_, body_short hc (.inl ⟨by omega, hdot⟩), rfl, hkeep⟩
  · have hdots : s.char (s.jy + 1) ≠ period ∨ s.char (s.jy + 2) ≠ period := by
      by_contra hboth
      simp only [not_or, not_not] at hboth
      rw [drop_eq_char_cons hpath (by omega), hboth.1, drop_eq_char_cons hpath (by omega),
        hboth.2, show s.jy + 1 + 1 + 1 = s.i by omega, drop_eq_char_cons hpath hi, hc] at hat
      exact absurd rfl (htidy _ dotdot _ hat (by decide)).2.2
    exact ⟨_, body_short hc (.inr ⟨by omega, hdots⟩), rfl, hkeep⟩
  · exact ⟨_, body_name hc (.inr (by omega)), rfl, hrecord⟩

theorem Unmoved.iterate {path : Bytes} (htidy : Tidy path) : ∀ {n : ℕ} {s : Vars},
    Unmoved path s → s.i + n = path.length →
    ∃ t, iterate n s = some t ∧ Unmoved path t ∧ t.i = path.length := by
  intro n
  induction n with
  | zero => exact fun h hn => ⟨_, rfl, h, hn⟩
  | succ n ih =>
    intro s h hn
    obtain ⟨t, ht, hti, hunmoved⟩ := h.step htidy (by omega)
    obtain ⟨u, hu, hrest⟩ := ih hunmoved (by omega)
    refine ⟨u, ?_, hrest⟩
    rw [Nat.add_comm, iterate_add, iterate_one (by rw [h.path_len]; omega) ht, Option.bind_some, hu]

theorem tidy_of_proper {rest c : Bytes} {cs : List Bytes} (hsplit : rest.splitOn slash = cs ++ [c])
    (h : ∀ b ∈ cs, Proper b) : Tidy (slash :: rest) := by
  intro A b B heq hb
  -- `b` is a component, and there is another one behind it
  have hinner : ∃ X Y : List Bytes, cs ++ [c] = X ++ b :: Y ∧ Y ≠ [] := by
    have hbB : (b ++ slash :: B).splitOn slash = b :: B.splitOn slash := by
      rw [List.splitOn_append_cons_self, List.splitOn_eq_singleton hb]
      rfl
    cases A with
    | nil =>
      have hrest : rest = b ++ slash :: B := by simpa using heq
      exact ⟨[], B.splitOn slash, by rw [← hsplit, hrest, hbB]; rfl, List.splitOn_ne_nil _ _⟩
    | cons a A =>
      have hrest : rest = A ++ slash :: (b ++ slash :: B) := by simpa using (List.cons.inj heq).2
      exact ⟨A.splitOn slash, B.splitOn slash,
        by rw [← hsplit, hrest, List.splitOn_append_cons_self, hbB], List.splitOn_ne_nil _ _⟩
  obtain ⟨X, Y, hXY, hY⟩ := hinner
  have hcs : cs = X ++ b :: Y.dropLast := by
    have hdrop := congrArg List.dropLast hXY
    rwa [List.dropLast_concat, List.dropLast_append_of_ne_nil (by simp),
      List.dropLast_cons_of_ne_nil hY] at hdrop
  exact h b (by simp [hcs])

/-! ### The result -/

/-- The components in front of slashes that `solve_dot` copes with: all of them are names, or each
is recognised. -/
def Tame (cs : List Bytes) : Prop := (∀ c ∈ cs, Proper c) ∨ Recognises [] cs

instance (cs : List Bytes) : Decidable (Tame cs) :=
  inferInstanceAs (Decidable ((∀ c ∈ cs, Proper c) ∨ Recognises [] cs))

/-- **What `solve_dot` does**: the components in front of slashes are brought into normal form, the
last one is kept as it is. -/
theorem solveDot_eq {rest c : Bytes} {cs : List Bytes} (hsplit : rest.splitOn slash = cs ++ [c])
    (hnul : (0 : UInt8) ∉ slash :: rest) (h : Tame cs) :
    solveDot (slash :: rest) = some (some (slashed (normalize cs) ++ slash :: c)) := by
  suffices hrun : ∃ t, iterate (slash :: rest).length (start (slash :: rest)) = some t ∧
      cstr (t.path.set t.j 0) = slashed (normalize cs) ++ slash :: c by
    obtain ⟨t, ht, hres⟩ := hrun
    rw [iterate] at ht
    rw [solveDot, if_neg (by simp), ht, Option.map_some, hres]
  rcases h with hproper | hrec
  · have h0 : Unmoved (slash :: rest) (start (slash :: rest)) :=
      ⟨rfl, rfl, rfl, Nat.zero_le _, ⟨le_rfl, rfl⟩, fun h0 => absurd h0 (by simp [start])⟩
    obtain ⟨t, ht, hunmoved, hti⟩ := h0.iterate (tidy_of_proper hsplit hproper) (Nat.zero_add _)
    refine ⟨t, ht, ?_⟩
    have hsame : slashed (normalize cs) ++ slash :: c = slash :: rest := by
      rw [Path.normalize, foldl_push_of_proper hproper, List.nil_append, ← slashed_splitOn rest,
        hsplit]
      simp
    rw [hsame, hunmoved.j, hti, hunmoved.path]
    simpa using cstr_append_zero hnul []
  · obtain ⟨s, hs, hstanding⟩ := standing_start rest
    have hplain : ∀ b ∈ cs ++ [c], Plain b := by
      intro b hb
      rw [← hsplit] at hb
      exact ⟨(mem_of_mem_splitOn hb).1, fun h0 => hnul (by simp [(mem_of_mem_splitOn hb).2 h0])⟩
    have hjoin : [slash].intercalate (cs ++ [c]) = rest := by
      rw [← hsplit, List.intercalate_splitOn]
    rw [← hjoin] at hstanding
    obtain ⟨t, ht, hres⟩ := Standing.finish (hplain c (by simp)) hstanding hrec
      (fun b hb => hplain b (by simp [hb])) (by simp)
    rw [hjoin] at ht
    refine ⟨t, ?_, hres⟩
    rw [List.length_cons, Nat.add_comm, iterate_add, hs, Option.bind_some, ht]

/-- A last component that may stay: a name, or nothing behind nothing. -/
def Kept (names : List Bytes) (c : Bytes) : Prop := Proper c ∨ (c = [] ∧ names = [])

instance (names : List Bytes) (c : Bytes) : Decidable (Kept names c) :=
  inferInstanceAs (Decidable (Proper c ∨ (c = [] ∧ names = [])))

theorem absolute_kept {names : List Bytes} {c : Bytes} (h : Kept names c) :
    absolute (push names c) = slashed names ++ slash :: c := by
  rcases h with hproper | ⟨rfl, rfl⟩
  · rw [push_of_proper hproper, absolute, if_neg (by simp)]
    simp
  · rfl

/-- The paths whose normal form `solve_dot` finds: what it does to the components in front of
slashes is right, and so is keeping the last one. -/
def Solvable (path : Bytes) : Prop :=
  ∃ cs c, path.tail.splitOn slash = cs ++ [c] ∧ Tame cs ∧ Kept (normalize cs) c

/-- **`solve_dot` computes the lexical normal form** of the paths it copes with. -/
theorem solve_dot_normal_form {path : Bytes} (habs : path.head? = some slash)
    (hnul : (0 : UInt8) ∉ path) (h : Solvable path) :
    solveDot path = some (some (normalForm path)) ∧ Normal (normalForm path) := by
  refine ⟨?_, normal_normalForm path⟩
  obtain ⟨rest, rfl⟩ : ∃ rest, path = slash :: rest := by
    cases path with
    | nil => simp at habs
    | cons b rest => exact ⟨rest, by simpa using habs⟩
  obtain ⟨cs, c, hsplit, htame, hkept⟩ := h
  rw [List.tail_cons] at hsplit
  have hform : normalForm (slash :: rest) = absolute (push (normalize cs) c) := by
    have hslash : (slash :: rest).splitOn slash = [] :: (cs ++ [c]) := by
      simpa [hsplit] using List.splitOn_append_cons_self (a := slash) [] rest
    rw [normalForm, Path.normalize, hslash, List.foldl_cons, push_nil, List.foldl_append]
    rfl
  rw [solveDot_eq hsplit hnul htame, hform, absolute_kept hkept]

/-- `/usr/lib/./gcc//../b`. -/
def dotted : Bytes :=
  [47, 117, 115, 114, 47, 108, 105, 98, 47, 46, 47, 103, 99, 99, 47, 47, 46, 46, 47, 98]

theorem solvable_dotted : Solvable dotted :=
  ⟨[[117, 115, 114], [108, 105, 98], dot, [103, 99, 99], [], dotdot], [98], by decide⟩

theorem solve_dot_normal_form_dotted :
    solveDot dotted = some (some [47, 117, 115, 114, 47, 108, 105, 98, 47, 98]) :=
  (solve_dot_normal_form (by decide) (by decide) solvable_dotted).1

/-- `/usr/..`. -/
def endsUp : Bytes := [47, 117, 115, 114, 47, 46, 46]

/-- The last component is never looked at: `/usr/..` stays as it is. -/
theorem solve_dot_endsUp : solveDot endsUp = some (some endsUp) ∧ normalForm endsUp = [slash] := by
  decide

/-! ### Index safety -/

/-- In the middle of a component: `w` has been read of it, `rest` is still to be read. The component
stands behind the last recorded slash, or behind a short name and the place of a slash that was not
written. -/
structure Reading (w rest : Bytes) (s : Vars) : Prop where
  path : ∃ A : Bytes, s.path = A ++ (rest ++ [0]) ∧ A.length = s.i
  path_len : s.path_len = s.i + rest.length
  j_le : s.j ≤ s.i
  place : (s.j = s.jy + 1 + w.length ∧ ∀ k < w.length, s.char (s.jy + 1 + k) = w.getD k 0) ∨
    (s.jy + 3 + w.length ≤ s.j ∧ (s.j = s.jy + 3 → s.char (s.jy + 1) ≠ period))

theorem Standing.reading {names : List Bytes} {rest : Bytes} {s : Vars}
    (h : Standing names rest s) : Reading [] rest s := by
  obtain ⟨⟨G, hpath, hi⟩, hlen, -, hjy, hj⟩ := h
  refine ⟨⟨slashed names ++ [slash] ++ G, hpath, by simp [hi]; omega⟩, hlen, by omega,
    .inl ⟨?_, ?_⟩⟩
  · rw [hj, hjy]
    rfl
  · exact fun k hk => absurd hk (Nat.not_lt_zero k)

section Reading

variable {w rest : Bytes} {b : UInt8} {s : Vars}

theorem Reading.char_i (h : Reading w (b :: rest) s) : s.char s.i = b := by
  obtain ⟨A, hA, hlen⟩ := h.path
  exact char_of_append (A := A) hA hlen.symm

theorem Reading.lt (h : Reading w (b :: rest) s) : s.i < s.path_len := by
  rw [h.path_len, List.length_cons]
  omega

/-- What has not been read is not overwritten. -/
theorem Reading.exists_set (h : Reading w (b :: rest) s) (x : UInt8) :
    ∃ A : Bytes, s.path.set s.j x = A ++ (rest ++ [0]) ∧ A.length = s.i + 1 := by
  obtain ⟨A, hA, hlen⟩ := h.path
  refine ⟨(A ++ [b]).set s.j x, ?_, by simp [hlen]⟩
  have hj := h.j_le
  rw [hA, ← List.set_append_left _ _ (by simp; omega)]
  simp

theorem Reading.exists_path (h : Reading w (b :: rest) s) :
    ∃ A : Bytes, s.path = A ++ (rest ++ [0]) ∧ A.length = s.i + 1 := by
  obtain ⟨A, hA, hlen⟩ := h.path
  exact ⟨A ++ [b], by simp [hA], by simp [hlen]⟩

theorem Reading.path_len_next (h : Reading w (b :: rest) s) :
    s.path_len = s.i + 1 + rest.length := by
  rw [h.path_len, List.length_cons]
  omega

theorem char_set_self {k : ℕ} {x : UInt8} (hk : k < s.path.length) :
    (s.path.set k x).getD k 0 = x := by
  simp [List.getD, List.getElem?_set_self hk]

theorem char_set_ne {k l : ℕ} {x : UInt8} (hne : l ≠ k) :
    (s.path.set l x).getD k 0 = s.char k := by
  simp [Vars.char, List.getD, List.getElem?_set_ne hne]

/-- A byte of a component is copied. -/
theorem Reading.copy (h : Reading w (b :: rest) s) (hb : b ≠ slash) :
    ∃ t, s.body.2 = some t ∧ Reading (w ++ [b]) rest t := by
  have hj := h.j_le
  have hchar := h.char_i
  refine ⟨_, body_char (by rwa [hchar]), ?_, h.path_len_next, ?_, ?_⟩
  · obtain ⟨A, hA, hlen⟩ := h.exists_set (s.char s.i)
    exact ⟨A, hA, hlen⟩
  · simpa using hj
  · rcases h.place with ⟨ho, hw⟩ | ⟨ho, -⟩
    · refine .inl ⟨by simp [ho]; omega, fun k hk => ?_⟩
      rw [List.length_append, List.length_singleton] at hk
      show (s.path.set s.j (s.char s.i)).getD (s.jy + 1 + k) 0 = _
      by_cases hlast : k = w.length
      · have hlt : s.j < s.path.length := by
          obtain ⟨A, hA, hlen⟩ := h.path
          rw [hA, List.length_append, hlen]
          simp
          omega
        rw [hlast, ← ho, char_set_self hlt, hchar]
        simp [List.getD]
      · rw [char_set_ne (by omega), hw k (by omega)]
        simp [List.getD, List.getElem?_append_left (show k < w.length by omega)]
    · exact .inr ⟨by simp; omega, fun heq => by simp at heq; omega⟩

/-- The component is dropped, and the next one starts where it did. -/
theorem Reading.drop (h : Reading w (slash :: rest) s) (hjy : s.jy + 1 ≤ s.j) :
    Reading [] rest { s with i := s.i + 1, j := s.jy + 1 } := by
  have hj := h.j_le
  obtain ⟨A, hA, hlen⟩ := h.exists_path
  exact ⟨⟨A, hA, hlen⟩, h.path_len_next, by simp; omega,
    .inl ⟨rfl, fun k hk => absurd hk (by simp)⟩⟩

/-- The slash is recorded, and the next component starts behind it. -/
theorem Reading.record (h : Reading w (slash :: rest) s) :
    Reading [] rest { s with path := s.path.set s.j slash, i := s.i + 1, j := s.j + 1, jx := s.jy,
                             jy := s.j } := by
  have hj := h.j_le
  obtain ⟨A, hA, hlen⟩ := h.exists_set slash
  exact ⟨⟨A, hA, hlen⟩, h.path_len_next, by simpa using hj,
    .inl ⟨rfl, fun k hk => absurd hk (by simp)⟩⟩

/-- The slash is passed over, and the next component starts behind its place. -/
theorem Reading.pass (h : Reading w (slash :: rest) s) (ho : s.jy + 2 ≤ s.j)
    (hdot : s.j = s.jy + 2 → s.char (s.jy + 1) ≠ period) :
    Reading [] rest { s with i := s.i + 1, j := s.j + 1 } := by
  have hj := h.j_le
  obtain ⟨A, hA, hlen⟩ := h.exists_path
  refine ⟨⟨A, hA, hlen⟩, h.path_len_next, by simpa using hj, .inr ⟨by simp; omega, fun heq => ?_⟩⟩
  exact hdot (by simpa using heq)

/-- **The slash behind a component that is not `..`** never sends the scan back. -/
theorem Reading.component (h : Reading w (slash :: rest) s) (hw : w ≠ dotdot) :
    ∃ t, s.body.2 = some t ∧ Reading [] rest t := by
  have hc := h.char_i
  rcases h.place with ⟨ho, hread⟩ | ⟨ho, hdot⟩
  · rcases w with _ | ⟨x, _ | ⟨y, _ | ⟨z, w⟩⟩⟩
    · exact ⟨_, body_empty hc ho, h.drop ho.ge⟩
    · have hx : s.char (s.jy + 1) = x := hread 0 (by simp)
      by_cases hdot : x = period
      · exact ⟨_, body_dot hc ho (hx.trans hdot), h.drop (by simp at ho; omega)⟩
      · exact ⟨_, body_short hc (.inl ⟨ho, by rwa [hx]⟩), h.pass ho.ge fun _ => by rwa [hx]⟩
    · have hx : s.char (s.jy + 1) = x := hread 0 (by simp)
      have hy : s.char (s.jy + 2) = y := hread 1 (by simp)
      have hne : s.char (s.jy + 1) ≠ period ∨ s.char (s.jy + 2) ≠ period := by
        by_contra hboth
        simp only [not_or, not_not] at hboth
        exact hw (by rw [← hx, ← hy, hboth.1, hboth.2]; rfl)
      exact ⟨_, body_short hc (.inr ⟨ho, hne⟩),
        h.pass (by simp at ho; omega) fun heq => by simp at ho; omega⟩
    · exact ⟨_, body_name hc (.inr (by simp at ho; omega)), h.record⟩
  · by_cases heq : s.j = s.jy + 3
    · exact ⟨_, body_short hc (.inr ⟨heq, .inl (hdot heq)⟩),
        h.pass (by omega) fun h2 => by omega⟩
    · exact ⟨_, body_name hc (.inr (by omega)), h.record⟩

end Reading

/-- **Without `..` in front of a slash** the loop comes to its end. -/
theorem Reading.finish {rest : Bytes} : ∀ {w : Bytes} {s : Vars}, Reading w rest s → slash ∉ w →
    (∀ c ∈ ((w ++ rest).splitOn slash).dropLast, c ≠ dotdot) →
    ∃ t, iterate rest.length s = some t := by
  induction rest with
  | nil => exact fun _ _ _ => ⟨_, rfl⟩
  | cons b rest ih =>
    intro w s h hw hup
    have hone : ∀ {t : Vars}, s.body.2 = some t → ∀ u, iterate rest.length t = some u →
        iterate (b :: rest).length s = some u := by
      intro t ht u hu
      rw [List.length_cons, Nat.add_comm, iterate_add, iterate_one h.lt ht, Option.bind_some, hu]
    by_cases hb : b = slash
    · subst hb
      rw [List.splitOn_append_cons_self, List.splitOn_eq_singleton hw, List.singleton_append,
        List.dropLast_cons_of_ne_nil (List.splitOn_ne_nil _ _)] at hup
      obtain ⟨t, ht, hnext⟩ := h.component (hup w List.mem_cons_self)
      obtain ⟨u, hu⟩ := ih hnext (by simp) fun c hc => hup c (List.mem_cons_of_mem _ hc)
      exact ⟨u, hone ht u hu⟩
    · obtain ⟨t, ht, hnext⟩ := h.copy hb
      obtain ⟨u, hu⟩ := ih hnext (by simp [hw, Ne.symm hb]) (by simpa using hup)
      exact ⟨u, hone ht u hu⟩

/-- **The components that keep the backward scan within the path**: up to the last `..`, each of
them is recognised. -/
def Secure : List Bytes → List Bytes → Prop
  | _, [] => True
  | names, c :: cs => dotdot ∉ c :: cs ∨ (Recognised names c ∧ Secure (push names c) cs)

instance Secure.decidable : ∀ names cs : List Bytes, Decidable (Secure names cs)
  | _, [] => inferInstanceAs (Decidable True)
  | names, c :: cs =>
    have := Secure.decidable (push names c) cs
    inferInstanceAs (Decidable (dotdot ∉ c :: cs ∨ (Recognised names c ∧ Secure (push names c) cs)))

/-- A name that the loop does not record. -/
def Short (c : Bytes) : Prop := Proper c ∧ c.length < 3

section Secure

variable {c : Bytes}

/-- The rest of a path, split behind its first component. -/
theorem intercalate_cons (b : Bytes) (cs : List Bytes) (c : Bytes) :
    [slash].intercalate (b :: cs ++ [c]) = b ++ slash :: [slash].intercalate (cs ++ [c]) := by
  rw [List.cons_append, List.intercalate_cons_of_ne_nil (by simp)]
  simp

theorem Standing.iterate_secure (hc : slash ∉ c) {cs : List Bytes} :
    ∀ {names : List Bytes} {s : Vars}, Standing names ([slash].intercalate (cs ++ [c])) s →
    Secure names cs → (∀ b ∈ cs, slash ∉ b) → (∀ a ∈ names, slash ∉ a) →
    ∃ t, iterate ([slash].intercalate (cs ++ [c])).length s = some t := by
  induction cs with
  | nil =>
    intro names s h _ _ _
    rw [List.nil_append, List.intercalate_singleton] at h ⊢
    refine h.reading.finish (by simp) ?_
    simp [List.splitOn_eq_singleton hc]
  | cons b cs ih =>
    intro names s h hsecure hcs hnames
    rcases hsecure with hup | ⟨hrec, hrest⟩
    · refine h.reading.finish (by simp) fun a ha => ?_
      have hslash : ∀ a ∈ b :: cs ++ [c], slash ∉ a := by
        intro a ha
        rcases List.mem_append.mp ha with ha | ha
        · exact hcs a ha
        · exact List.mem_singleton.mp ha ▸ hc
      rw [List.nil_append, List.splitOn_intercalate _ hslash (by simp), List.dropLast_concat] at ha
      exact fun heq => hup (heq ▸ ha)
    · rw [intercalate_cons] at h ⊢
      have hb := hcs b List.mem_cons_self
      obtain ⟨t, ht, hstanding⟩ := h.component hb hnames hrec
      obtain ⟨u, hu⟩ := ih hstanding hrest (fun a ha => hcs a (List.mem_cons_of_mem _ ha))
        (forall_mem_push hnames hb)
      refine ⟨u, ?_⟩
      rw [List.length_append, List.length_cons, Nat.add_comm _ 1, ← Nat.add_assoc, iterate_add, ht,
        Option.bind_some, hu]

/-- `..` with fewer than two names standing sends the scan out of the path. -/
theorem Copied.upFromTop {names : List Bytes} {G rest : Bytes} {t : Vars}
    (h : Copied names Path.dotdot G (slash :: rest) t) (hnames : names.length < 2) :
    t.UpFromTop := by
  obtain ⟨ho, h1, h2⟩ := h.chars_dotdot
  refine ⟨by rw [h.path_len, List.length_cons]; omega, h.char_i, ho, h1, h2, ?_⟩
  have hdrop : names.dropLast = [] := List.eq_nil_of_length_eq_zero (by simp; omega)
  rw [h.jx, hdrop]
  rfl

theorem secure_of_iterate {cs : List Bytes} :
    ∀ {names : List Bytes} {s t : Vars}, Standing names ([slash].intercalate (cs ++ [c])) s →
    iterate ([slash].intercalate (cs ++ [c])).length s = some t → (∀ b ∈ cs, ¬ Short b) →
    (∀ b ∈ cs, slash ∉ b) → (∀ a ∈ names, slash ∉ a) → Secure names cs := by
  induction cs with
  | nil => exact fun _ _ _ _ _ => trivial
  | cons b cs ih =>
    intro names s t h ht hshort hcs hnames
    have hb := hcs b List.mem_cons_self
    rw [intercalate_cons] at h ht
    rw [List.length_append, List.length_cons, Nat.add_comm _ 1, ← Nat.add_assoc] at ht
    by_cases hrec : Recognised names b
    · obtain ⟨u, hu, hstanding⟩ := h.component hb hnames hrec
      rw [iterate_add, hu, Option.bind_some] at ht
      exact .inr ⟨hrec, ih hstanding ht (fun a ha => hshort a (List.mem_cons_of_mem _ ha))
        (fun a ha => hcs a (List.mem_cons_of_mem _ ha)) (forall_mem_push hnames hb)⟩
    · -- a component that is neither recognised nor short is a `..` too many
      have hnot : b ≠ [] ∧ b ≠ dot ∧ ¬(b = dotdot ∧ 2 ≤ names.length) ∧
          ¬(Proper b ∧ 3 ≤ b.length) := by
        simpa only [Recognised, not_or] using hrec
      have hup : b = dotdot := by
        by_contra hne
        have hproper : Proper b := ⟨hnot.1, hnot.2.1, hne⟩
        refine hshort b List.mem_cons_self ⟨hproper, ?_⟩
        by_contra hlen
        exact hnot.2.2.2 ⟨hproper, by omega⟩
      subst hup
      obtain ⟨u, G, hu, hcopied⟩ := h.copy hb
      have hfew : names.length < 2 := by
        by_contra hlen
        exact hnot.2.2.1 ⟨rfl, by omega⟩
      have htop := hcopied.upFromTop hfew
      rw [Nat.add_assoc, iterate_add, hu, Option.bind_some, iterate_add, iterate_one_eq,
        if_pos htop.1, htop.body] at ht
      cases ht

end Secure

/-- **The accesses of `solve_dot` stay within a path** whose components in front of slashes are
recognised up to the last `..`. If none of them is a name of one or two letters, this is also
necessary. -/
theorem solve_dot_in_bounds {path c : Bytes} {cs : List Bytes} (habs : path.head? = some slash)
    (hsplit : path.tail.splitOn slash = cs ++ [c]) :
    (Secure [] cs → Confined path) ∧
    ((∀ b ∈ cs, ¬ Short b) → Confined path → Secure [] cs) := by
  obtain ⟨rest, rfl⟩ : ∃ rest, path = slash :: rest := by
    cases path with
    | nil => simp at habs
    | cons b rest => exact ⟨rest, by simpa using habs⟩
  rw [List.tail_cons] at hsplit
  have hslash : ∀ b ∈ cs ++ [c], slash ∉ b := by
    rw [← hsplit]
    exact fun b hb => (mem_of_mem_splitOn hb).1
  have hcs : ∀ b ∈ cs, slash ∉ b := fun b hb => hslash b (List.mem_append_left _ hb)
  have hc : slash ∉ c := hslash c (by simp)
  have hjoin : [slash].intercalate (cs ++ [c]) = rest := by
    rw [← hsplit, List.intercalate_splitOn]
  obtain ⟨s, hs, hstanding⟩ := standing_start rest
  rw [← hjoin] at hstanding
  have hiterate : ∀ t, iterate (slash :: rest).length (start (slash :: rest)) = some t ↔
      iterate ([slash].intercalate (cs ++ [c])).length s = some t := by
    intro t
    rw [hjoin, List.length_cons, Nat.add_comm, iterate_add, hs, Option.bind_some]
  rw [confined_iff habs]
  constructor
  · intro hsecure
    obtain ⟨t, ht⟩ := hstanding.iterate_secure hc hsecure hcs (by simp)
    exact ⟨t, (hiterate t).mpr ht⟩
  · rintro hshort ⟨t, ht⟩
    exact secure_of_iterate hstanding ((hiterate t).mp ht) hshort hcs (by simp)

/-- `/usr/lib/../bin/x/y`. -/
def upOne : Bytes :=
  [47, 117, 115, 114, 47, 108, 105, 98, 47, 46, 46, 47, 98, 105, 110, 47, 120, 47, 121]

theorem solve_dot_in_bounds_upOne : Confined upOne := by
  have hsplit : upOne.tail.splitOn slash =
      [[117, 115, 114], [108, 105, 98], dotdot, [98, 105, 110], [120]] ++ [[121]] := by decide
  exact (solve_dot_in_bounds (by decide) hsplit).1 (by decide)

/-- `/usr/../bin`: there is no slash before the one in front of `usr`. -/
def upTooFar : Bytes := [47, 117, 115, 114, 47, 46, 46, 47, 98, 105, 110]

theorem solve_dot_upTooFar :
    ∃ tr t, loop.Run (start upTooFar) tr t ∧ (-1 : ℤ) ∈ t.accesses := by
  have hexec : loop.exec (start upTooFar) (List.replicate 7 ()) =
      some ⟨upTooFar ++ [0], 11, 7, 7, 0, 4⟩ := by decide
  exact ⟨_, _, Machine.run_of_exec hexec, by decide⟩

end SolveDot

end Tlpiexer
