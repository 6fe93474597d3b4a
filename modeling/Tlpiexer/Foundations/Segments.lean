import Mathlib.Algebra.Group.Nat.Defs
import Mathlib.Data.List.Basic
import Mathlib.Data.Nat.Notation

/-!
# Text cut behind a delimiter

The lines of a text are its segments, each with the delimiter that ends it; what follows the last
delimiter is a segment too, unless it is empty. `segments` cuts a list in this way and
`lastSegments` is the part that its last segments take up.

## Delimiters and segments

A program that looks for the last `n` segments counts delimiters from the end. `afterNthLast` is the
place it finds. The two notions agree only for a text that ends with a delimiter: otherwise the last
segment has no delimiter of its own, and counting `n` delimiters takes one segment too many.

## Main results

* `Segments.afterNthLast_of_split`, `Segments.afterNthLast_of_count_le` — the place that is found
* `Segments.drop_afterNthLast_of_closed` — behind it are the last `n` segments of a closed text
* `Segments.drop_afterNthLast_of_open` — and the last `n + 1` segments of any other text
-/

namespace Segments

variable {α : Type*} [DecidableEq α] {d : α} {n : ℕ} {s t : List α}

/-! ### Segments -/

/-- The segments of a list, each ended by the delimiter `d` or by the end of the list. -/
def segments (d : α) : List α → List (List α)
  | [] => []
  | a :: s =>
    if a = d then [a] :: segments d s
    else match segments d s with
      | [] => [[a]]
      | t :: ts => (a :: t) :: ts

/-- The text ends with a delimiter, or there is none at all. -/
def Closed (d : α) (s : List α) : Prop := s = [] ∨ s.getLast? = some d

instance : Decidable (Closed d s) := inferInstanceAs (Decidable (_ ∨ _))

/-- What the last `n` segments take up; the whole list when it has no more than `n`. -/
def lastSegments (d : α) (n : ℕ) (s : List α) : List α :=
  ((segments d s).drop ((segments d s).length - n)).flatten

@[simp] theorem segments_nil : segments d [] = [] := rfl

theorem segments_delim_cons (s : List α) : segments d (d :: s) = [d] :: segments d s :=
  if_pos rfl

theorem segments_cons_of_ne {a : α} (h : a ≠ d) (s : List α) :
    segments d (a :: s) = (a :: (segments d s).headD []) :: (segments d s).tail := by
  rw [segments, if_neg h]
  cases segments d s <;> rfl

theorem segments_eq_nil_iff : segments d s = [] ↔ s = [] := by
  cases s with
  | nil => simp
  | cons a s =>
    by_cases h : a = d
    · subst h
      simp [segments_delim_cons]
    · simp [segments_cons_of_ne h]

@[simp] theorem flatten_segments (s : List α) : (segments d s).flatten = s := by
  induction s with
  | nil => rfl
  | cons a s ih =>
    by_cases h : a = d
    · subst h
      rw [segments_delim_cons, List.flatten_cons, ih, List.singleton_append]
    · rw [segments_cons_of_ne h]
      cases hs : segments d s with
      | nil =>
        rw [segments_eq_nil_iff.mp hs]
        rfl
      | cons t ts =>
        rw [hs] at ih
        rw [List.headD_cons, List.tail_cons, List.flatten_cons, List.cons_append,
          ← List.flatten_cons, ih]

/-- A delimiter separates what is before it from what is behind it. -/
theorem segments_append (s t : List α) :
    segments d (s ++ d :: t) = segments d (s ++ [d]) ++ segments d t := by
  induction s with
  | nil => simp [segments_delim_cons]
  | cons a s ih =>
    rw [List.cons_append, List.cons_append]
    by_cases h : a = d
    · subst h
      rw [segments_delim_cons, segments_delim_cons, ih, List.cons_append]
    · have hne : segments d (s ++ [d]) ≠ [] := fun hnil => by
        simpa using segments_eq_nil_iff.mp hnil
      obtain ⟨u, us, hu⟩ := List.exists_cons_of_ne_nil hne
      rw [segments_cons_of_ne h, segments_cons_of_ne h, ih, hu]
      rfl

/-- Text without a delimiter is one segment. -/
theorem segments_of_notMem (h : d ∉ s) (hne : s ≠ []) : segments d s = [s] := by
  induction s with
  | nil => exact absurd rfl hne
  | cons a s ih =>
    have ha : a ≠ d := fun ha => h (ha ▸ List.mem_cons_self)
    rw [segments_cons_of_ne ha]
    cases s with
    | nil => rfl
    | cons b s => rw [ih (fun hb => h (List.mem_cons_of_mem _ hb)) (by simp)]; rfl

/-- A line is one segment. -/
theorem segments_line (h : d ∉ s) : segments d (s ++ [d]) = [s ++ [d]] := by
  induction s with
  | nil => exact segments_delim_cons []
  | cons a s ih =>
    have ha : a ≠ d := fun ha => h (ha ▸ List.mem_cons_self)
    rw [List.cons_append, segments_cons_of_ne ha, ih fun hs => h (List.mem_cons_of_mem _ hs)]
    rfl

omit [DecidableEq α] in
theorem closed_append_iff (hne : t ≠ []) : Closed d (s ++ t) ↔ Closed d t := by
  rw [Closed, Closed, List.getLast?_append_of_ne_nil _ hne]
  simp [hne]

omit [DecidableEq α] in
theorem closed_line (s : List α) : Closed d (s ++ [d]) := .inr (by simp)

/-- There is a segment for each delimiter, and one more for what follows the last. -/
theorem length_segments (d : α) (s : List α) :
    (segments d s).length = s.count d + if Closed d s then 0 else 1 := by
  induction s with
  | nil => simp [Closed]
  | cons a s ih =>
    cases s with
    | nil => by_cases h : a = d <;> simp [segments, Closed, h]
    | cons b s =>
      have hclosed : Closed d (a :: b :: s) ↔ Closed d (b :: s) :=
        closed_append_iff (s := [a]) (by simp)
      by_cases h : a = d
      · subst h
        rw [segments_delim_cons, List.length_cons, ih, List.count_cons_self]
        simp only [hclosed]
        omega
      · have hne : segments d (b :: s) ≠ [] := fun hnil => by
          simpa using segments_eq_nil_iff.mp hnil
        obtain ⟨u, us, hu⟩ := List.exists_cons_of_ne_nil hne
        rw [segments_cons_of_ne h, List.length_cons, List.count_cons_of_ne h]
        simp only [hclosed]
        rw [← ih, hu]
        rfl

omit [DecidableEq α] in
/-- Lists that are not empty have at least one element each. -/
theorem length_le_length_flatten {l : List (List α)} (h : ∀ u ∈ l, u ≠ []) :
    l.length ≤ l.flatten.length := by
  induction l with
  | nil => exact Nat.le_refl 0
  | cons u l ih =>
    have hu : 0 < u.length := List.length_pos_iff.mpr (h u List.mem_cons_self)
    have hl := ih fun v hv => h v (List.mem_cons_of_mem _ hv)
    rw [List.flatten_cons, List.length_append, List.length_cons]
    omega

/-- Segments are not empty. -/
theorem ne_nil_of_mem_segments : ∀ u ∈ segments d s, u ≠ [] := by
  induction s with
  | nil => simp
  | cons a s ih =>
    by_cases h : a = d
    · subst h
      rw [segments_delim_cons]
      simpa using ih
    · rw [segments_cons_of_ne h]
      intro u hu
      rcases List.mem_cons.mp hu with rfl | hu
      · simp
      · exact ih u (List.mem_of_mem_tail hu)

/-! ### The last segments -/

theorem lastSegments_of_length_le (h : (segments d s).length ≤ n) : lastSegments d n s = s := by
  rw [lastSegments, Nat.sub_eq_zero_of_le h, List.drop_zero, flatten_segments]

/-- Closed text ends where the text behind it begins. -/
theorem segments_append_of_closed (h : Closed d s) (t : List α) :
    segments d (s ++ t) = segments d s ++ segments d t := by
  rcases h with rfl | hlast
  · rfl
  · obtain ⟨pre, rfl⟩ := List.getLast?_eq_some_iff.mp hlast
    rw [List.append_assoc, List.singleton_append, segments_append]

/-- The last segments of a text are found behind any closed part that leaves so many. -/
theorem lastSegments_append (hs : Closed d s) (h : (segments d t).length = n) :
    lastSegments d n (s ++ t) = t := by
  have hlen : (segments d s ++ segments d t).length - n = (segments d s).length := by
    rw [List.length_append]
    omega
  rw [lastSegments, segments_append_of_closed hs, hlen, List.drop_left, flatten_segments]

theorem lastSegments_append_delim (h : (segments d t).length = n) :
    lastSegments d n (s ++ d :: t) = t := by
  rw [List.append_cons]
  exact lastSegments_append (closed_line s) h

/-- There are at least as many elements in the last segments as there are segments. -/
theorem min_le_length_lastSegments (d : α) (n : ℕ) (s : List α) :
    min n (segments d s).length ≤ (lastSegments d n s).length := by
  have hle := length_le_length_flatten
    (fun u hu => ne_nil_of_mem_segments u (List.mem_of_mem_drop hu) :
      ∀ u ∈ (segments d s).drop ((segments d s).length - n), u ≠ [])
  rw [List.length_drop] at hle
  rw [lastSegments]
  omega

/-! ### Counting delimiters from the end -/

/-- The position just behind the `(n + 1)`-th delimiter counted from the end of the list, `0` when
there is no such delimiter. -/
def afterNthLast (d : α) (n : ℕ) (s : List α) : ℕ :=
  ((s.findIdxs (· == d)).reverse[n]?).elim 0 (· + 1)

theorem afterNthLast_of_count_le (h : s.count d ≤ n) : afterNthLast d n s = 0 := by
  have hlen : (s.findIdxs (· == d)).reverse.length ≤ n := by
    rw [List.length_reverse, List.length_findIdxs]
    exact h
  rw [afterNthLast, List.getElem?_eq_none hlen, Option.elim_none]

theorem afterNthLast_of_split (h : t.count d = n) :
    afterNthLast d n (s ++ d :: t) = s.length + 1 := by
  have hlen : ∀ k, (t.findIdxs (· == d) k).reverse.length = n := fun k => by
    rw [List.length_reverse, List.length_findIdxs]
    exact h
  have hnth : ((s ++ d :: t).findIdxs (· == d)).reverse[n]? = some s.length := by
    rw [List.findIdxs_append, List.findIdxs_cons, if_pos (beq_self_eq_true d),
      List.reverse_append, List.reverse_cons, List.append_assoc,
      List.getElem?_append_right (Nat.le_of_eq (hlen _)), hlen, Nat.sub_self, Nat.zero_add]
    rfl
  rw [afterNthLast, hnth, Option.elim_some]

/-- A text with more than `n` delimiters is cut at the one before the last `n`. -/
theorem exists_split_of_lt_count (h : n < s.count d) :
    ∃ pre post, s = pre ++ d :: post ∧ post.count d = n := by
  induction s with
  | nil => simp at h
  | cons a s ih =>
    by_cases hs : n < s.count d
    · obtain ⟨pre, post, rfl, hpost⟩ := ih hs
      exact ⟨a :: pre, post, rfl, hpost⟩
    · have ha : a = d := by
        by_contra ha
        rw [List.count_cons_of_ne ha] at h
        exact hs h
      subst ha
      rw [List.count_cons_self] at h
      exact ⟨[], s, rfl, by omega⟩

/-- **Behind the place that is found in a closed text are its last segments.** -/
theorem drop_afterNthLast_of_closed (h : Closed d s) :
    s.drop (afterNthLast d n s) = lastSegments d n s := by
  have hlen := length_segments d s
  rw [if_pos h, Nat.add_zero] at hlen
  by_cases hn : s.count d ≤ n
  · rw [afterNthLast_of_count_le hn, List.drop_zero, lastSegments_of_length_le (hlen ▸ hn)]
  · obtain ⟨pre, post, rfl, hpost⟩ := exists_split_of_lt_count (Nat.lt_of_not_le hn)
    have hclosed : Closed d post := by
      by_cases hnil : post = []
      · exact .inl hnil
      · have h' : Closed d ((pre ++ [d]) ++ post) := by simpa using h
        exact (closed_append_iff hnil).mp h'
    have hsegs : (segments d post).length = n := by
      rw [length_segments, if_pos hclosed, hpost, Nat.add_zero]
    rw [afterNthLast_of_split hpost, lastSegments_append_delim hsegs]
    simp

/-- **Behind the place that is found in any other text is one segment more.** -/
theorem drop_afterNthLast_of_open (h : ¬ Closed d s) :
    s.drop (afterNthLast d n s) = lastSegments d (n + 1) s := by
  have hlen := length_segments d s
  rw [if_neg h] at hlen
  by_cases hn : s.count d ≤ n
  · rw [afterNthLast_of_count_le hn, List.drop_zero, lastSegments_of_length_le (by omega)]
  · obtain ⟨pre, post, rfl, hpost⟩ := exists_split_of_lt_count (Nat.lt_of_not_le hn)
    have hopen : ¬ Closed d post := by
      intro hclosed
      refine h ?_
      have h' : Closed d ((pre ++ [d]) ++ post) := by
        by_cases hnil : post = []
        · rw [hnil, List.append_nil]
          exact closed_line pre
        · exact (closed_append_iff hnil).mpr hclosed
      simpa using h'
    have hsegs : (segments d post).length = n + 1 := by
      rw [length_segments, if_neg hopen, hpost]
    rw [afterNthLast_of_split hpost, lastSegments_append_delim hsegs]
    simp

/-- In a text that is not closed, a whole line stands between the place that is found and the last
segments. -/
theorem exists_line_of_open (h : ¬ Closed d s) (hn : 0 < n) (hlt : n < (segments d s).length) :
    ∃ pre line, s = pre ++ (line ++ d :: lastSegments d n s) ∧ Closed d pre ∧ d ∉ line ∧
      (lastSegments d n s).count d + 1 = n ∧
      s.drop (afterNthLast d n s) = line ++ d :: lastSegments d n s := by
  rw [length_segments, if_neg h] at hlt
  obtain ⟨front, rest, hs, hrest⟩ :=
    exists_split_of_lt_count (show n - 1 < s.count d by omega)
  have hopen : ¬ Closed d rest := fun hclosed => by
    refine h ?_
    rw [hs, List.append_cons]
    by_cases hnil : rest = []
    · rw [hnil, List.append_nil]
      exact closed_line front
    · exact (closed_append_iff hnil).mpr hclosed
  have hlast : lastSegments d n s = rest := by
    rw [hs]
    refine lastSegments_append_delim ?_
    rw [length_segments, if_neg hopen, hrest]
    omega
  -- the line in front of the last segments starts behind the delimiter before it
  obtain ⟨pre, line, hfront, hpre, hline⟩ :
      ∃ pre line, front = pre ++ line ∧ Closed d pre ∧ d ∉ line := by
    by_cases hmem : front.count d = 0
    · exact ⟨[], front, rfl, .inl rfl, List.count_eq_zero.mp hmem⟩
    · obtain ⟨pre, line, rfl, hline⟩ := exists_split_of_lt_count (Nat.pos_of_ne_zero hmem)
      exact ⟨pre ++ [d], line, by simp, closed_line pre, List.count_eq_zero.mp hline⟩
  have hsplit : s = pre ++ (line ++ d :: rest) := by rw [hs, hfront, List.append_assoc]
  have hlines : (segments d (line ++ d :: rest)).length = n + 1 := by
    rw [segments_append, segments_line hline, List.length_append, length_segments d rest,
      if_neg hopen, hrest, List.length_singleton]
    omega
  rw [hlast]
  refine ⟨pre, line, hsplit, hpre, hline, by omega, ?_⟩
  rw [drop_afterNthLast_of_open h, hsplit, lastSegments_append hpre hlines]

end Segments
