import Mathlib.Data.Finset.Basic
import Mathlib.Data.Finset.Lattice.Lemmas
import Mathlib.Data.List.Sort
import Tlpiexer.Constants
import Tlpiexer.Foundations.Decimal
import Tlpiexer.Foundations.ExchangeSort

/-!
# Creating and deleting files

`main`, `gennum`, `rrand` and `sorti` of `src/imp/14-01.c`, which create files with numbers for
names, sort the numbers and delete the files in that order.

## The order

`sorti` is meant to sort in increasing order. It exchanges two elements if the first is the smaller
one, so that the order is decreasing.

## The directory

A directory is the set of the paths of its files. A file that is created twice is there once. `main`
stops at the first `unlink` that fails, and the second `unlink` of a file does.

## Main results

* `Benchmark.sorti_increasing_iff` — when the result of `sorti` is in increasing order
* `Benchmark.files_removed_iff` — when no file is left
-/

namespace Tlpiexer

namespace Benchmark

open CString Decimal ExchangeSort

/-- `ARR_MAX`. -/
def arrMax : ℕ := 999999

/-! ### `sorti` -/

/-- `sorti`. There is no answer if there are less than `size` elements. -/
def sorti (arr : List ℤ) (size : ℤ) : Option (List ℤ) :=
  if size = 1 then some arr else outerLoop size.toNat (size - 1).toNat 0 arr

/-- `sorti` sorts in decreasing order. -/
theorem sorti_spec {xs : List ℤ} {size : ℤ} (hlen : xs.length = size.toNat) (beyond : List ℤ) :
    ∃ ys, sorti (xs ++ beyond) size = some (ys ++ beyond) ∧ ys.Perm xs ∧ ys.Pairwise (· ≥ ·) := by
  rw [sorti]
  by_cases hone : size = 1
  · obtain ⟨x, rfl⟩ := List.length_eq_one_iff.mp (by omega : xs.length = 1)
    exact ⟨[x], if_pos hone, .refl _, List.pairwise_singleton _ _⟩
  rw [if_neg hone]
  by_cases hpos : 0 < size
  · obtain ⟨ys, hloop, hperm, hsorted⟩ :=
      outerLoop_spec (k := (size - 1).toNat) [] xs beyond (by omega)
    refine ⟨ys, ?_, hperm, hsorted⟩
    simpa [hlen] using hloop
  · obtain rfl := List.length_eq_zero_iff.mp (by omega : xs.length = 0)
    have hrounds : (size - 1).toNat = 0 := by omega
    exact ⟨[], by rw [hrounds]; rfl, .refl _, .nil⟩

/-- Elements that are in increasing and in decreasing order are all equal. -/
theorem eq_of_pairwise {ys : List ℤ} (hle : ys.Pairwise (· ≤ ·)) (hge : ys.Pairwise (· ≥ ·)) :
    ∀ a ∈ ys, ∀ b ∈ ys, a = b := by
  have heq : ys.Pairwise (· = ·) := hle.imp₂ (fun a b h h' => le_antisymm h h') hge
  exact fun a ha b hb => heq.forall_of_forall_of_flip (fun _ _ => rfl) (heq.imp Eq.symm) ha hb

/-- **When `sorti` does what it should.** -/
theorem sorti_increasing_iff {arr : List ℤ} {size : ℤ} (hpos : 1 ≤ size)
    (hlen : size ≤ arr.length) :
    (∃ out, sorti arr size = some out ∧ (out.take size.toNat).Perm (arr.take size.toNat) ∧
      (out.take size.toNat).Pairwise (· ≤ ·) ∧ out.drop size.toNat = arr.drop size.toNat) ↔
      ∀ a ∈ arr.take size.toNat, ∀ b ∈ arr.take size.toNat, a = b := by
  obtain ⟨n, rfl⟩ := Int.eq_ofNat_of_zero_le (by omega : 0 ≤ size)
  have htake : (arr.take n).length = n := by
    rw [List.length_take]
    omega
  obtain ⟨ys, hsort, hperm, hsorted⟩ := @sorti_spec (arr.take n) n htake (arr.drop n)
  rw [List.take_append_drop] at hsort
  have hys : ys.length = n := hperm.length_eq.trans htake
  have hout : (ys ++ arr.drop n).take n = ys ∧ (ys ++ arr.drop n).drop n = arr.drop n :=
    ⟨List.take_left' hys, List.drop_left' hys⟩
  simp only [Int.toNat_natCast, hsort, Option.some.injEq, exists_eq_left']
  rw [hout.1, hout.2]
  constructor
  · rintro ⟨-, hle, -⟩ a ha b hb
    exact eq_of_pairwise hle hsorted a (hperm.mem_iff.mpr ha) b (hperm.mem_iff.mpr hb)
  · intro heq
    refine ⟨hperm, hsorted.imp_of_mem ?_, rfl⟩
    intro a b ha hb _
    exact (heq a (hperm.mem_iff.mp ha) b (hperm.mem_iff.mp hb)).le

theorem sorti_increasing_equal :
    ∃ out, sorti [5, 5, 3] 2 = some out ∧ (out.take 2).Perm [5, 5] ∧ (out.take 2).Pairwise (· ≤ ·) ∧
      out.drop 2 = [3] :=
  (@sorti_increasing_iff [5, 5, 3] 2 (by decide) (by decide)).mpr (by decide)

/-- Two elements that differ come out in decreasing order. -/
theorem sorti_decreasing : sorti [1, 2] 2 = some [2, 1] := by decide

/-! ### Files -/

/-- What the system calls do; they are numbered. -/
structure Calls where
  /-- `open`, `write` and `close` do not fail. -/
  opened : ℕ → Bool
  written : ℕ → Bool
  closed : ℕ → Bool
  /-- `unlink` fails although the file is there. -/
  refused : ℕ → Bool

/-- `rrand(min, max)`, for the next result of `rand`. -/
def rrand (min max : ℤ) (rand : ℕ) : ℤ := min + rand % (max - min + 1)

/-- The loop of `gennum`: `k` steps from `i` on. There is no answer behind the end of the array. -/
def gennumLoop (f : ℕ → ℤ) : ℕ → ℕ → List ℤ → Option (List ℤ)
  | 0, _, arr => some arr
  | k + 1, i, arr => if i < arr.length then gennumLoop f k (i + 1) (arr.set i (f i)) else none

/-- The `i`-th number: in order, or from the results of `rand`. -/
def number (order : Bool) (rand : ℕ → ℕ) (i : ℕ) : ℤ :=
  if order then i else rrand 0 arrMax (rand i)

/-- `gennum`, for the orders that `main` calls it with. -/
def gennum (arr : List ℤ) (size : ℤ) (order : Bool) (rand : ℕ → ℕ) : Option (List ℤ) :=
  gennumLoop (number order rand) size.toNat 0 arr

/-- `fpath`: `"%s/x%i"`, cut off by `snprintf`. -/
def path (dpath : Bytes) (x : ℤ) : Bytes := (dpath ++ [47, 120] ++ printLong x).take (pathMax - 1)

/-- The directory when a loop ends, the files that have been created, and whether `main` goes on. -/
structure Created where
  dir : Finset Bytes
  files : List Bytes
  goesOn : Bool

/-- The loop that creates the files. -/
def createLoop (calls : Calls) (dpath : Bytes) : ℕ → List ℤ → Finset Bytes → Created
  | _, [], dir => ⟨dir, [], true⟩
  | i, x :: xs, dir =>
    if calls.opened i = false then ⟨dir, [], false⟩
    else
      let p := path dpath x
      if calls.written i = false ∨ calls.closed i = false then ⟨insert p dir, [p], false⟩
      else
        let r := createLoop calls dpath (i + 1) xs (insert p dir)
        { r with files := p :: r.files }

/-- The loop that deletes the files. -/
def deleteLoop (refused : ℕ → Bool) : ℕ → List Bytes → Finset Bytes → Finset Bytes
  | _, [], dir => dir
  | i, p :: ps, dir =>
    if p ∈ dir ∧ refused i = false then deleteLoop refused (i + 1) ps (dir.erase p) else dir

/-- What `main` leaves in the directory, and the files that it has created. -/
structure Outcome where
  dir : Finset Bytes
  created : List Bytes

/-- `main` behind the options; `dpath` is `NULL` if there was no `-d`. The exit status is always
`EXIT_SUCCESS`. -/
def main (calls : Calls) (rand : ℕ → ℕ) (numarr : { l : List ℤ // l.length = arrMax }) (size : ℤ)
    (order : Bool) (dpath : Option Bytes) (dir : Finset Bytes) : Option Outcome :=
  match dpath with
  | none => some ⟨dir, []⟩
  | some dpath =>
    if size = 0 then some ⟨dir, []⟩
    else do
      let numarr ← gennum numarr.val size order rand
      let r := createLoop calls dpath 0 (numarr.take size.toNat) dir
      if r.goesOn = false then some ⟨r.dir, r.files⟩
      else do
        let numarr ← sorti numarr size
        some ⟨deleteLoop calls.refused 0 ((numarr.take size.toNat).map (path dpath)) r.dir, r.files⟩

/-- The numbers of the files. -/
def numbers (order : Bool) (rand : ℕ → ℕ) (size : ℤ) : List ℤ :=
  (List.range size.toNat).map (number order rand)

/-- An `unlink` fails only after all of the names have come up: it is refused, or the name has come
up before. -/
def FailsLate (refused : ℕ → Bool) (ps : List Bytes) : Prop :=
  ∀ before p after, ps = before ++ p :: after → p ∈ before ∨ refused before.length = true →
    ∀ q ∈ p :: after, q ∈ before

section Loops

variable {refused : ℕ → Bool} {dpath : Bytes}

theorem gennumLoop_append (f : ℕ → ℤ) (k : ℕ) (front rest : List ℤ) :
    gennumLoop f k front.length (front ++ rest) =
      if k ≤ rest.length then
        some (front ++ ((List.range' front.length k).map f ++ rest.drop k))
      else none := by
  induction k generalizing front rest with
  | zero => simp [gennumLoop]
  | succ k ih =>
    cases rest with
    | nil => simp [gennumLoop]
    | cons y rest =>
      have hset : (front ++ y :: rest).set front.length (f front.length) =
          (front ++ [f front.length]) ++ rest := by simp
      have hlen : front.length + 1 = (front ++ [f front.length]).length := by simp
      rw [gennumLoop, if_pos (by simp), hset, hlen, ih]
      simp [List.range'_succ]

theorem createLoop_eq {calls : Calls} {i : ℕ} {xs : List ℤ} {dir : Finset Bytes}
    (hcalls : ∀ k < xs.length,
      calls.opened (i + k) ∧ calls.written (i + k) ∧ calls.closed (i + k)) :
    createLoop calls dpath i xs dir =
      ⟨dir ∪ (xs.map (path dpath)).toFinset, xs.map (path dpath), true⟩ := by
  induction xs generalizing i dir with
  | nil => simp [createLoop]
  | cons x xs ih =>
    obtain ⟨hopened, hwritten, hclosed⟩ := hcalls 0 (by simp)
    have hrest := @ih (i + 1) (insert (path dpath x) dir) fun k hk => by
      have := hcalls (k + 1) (by simpa using hk)
      rwa [Nat.add_comm k 1, ← Nat.add_assoc] at this
    rw [Nat.add_zero] at hopened hwritten hclosed
    rw [createLoop, if_neg (by simp [hopened]), if_neg (by simp [hwritten, hclosed]), hrest]
    simp [Finset.insert_union, Finset.union_insert]

/-- The same for the rest of the names, with those that have come up already. -/
def FailsLateFrom (refused : ℕ → Bool) (before ps : List Bytes) : Prop :=
  ∀ mid p after, ps = mid ++ p :: after →
    p ∈ before ++ mid ∨ refused (before ++ mid).length = true → ∀ q ∈ p :: after, q ∈ before ++ mid

/-- After an `unlink` that does not fail, it is about the next one. -/
theorem failsLateFrom_cons_iff {before ps : List Bytes} {x : Bytes} (hx : x ∉ before)
    (hok : refused before.length = false) :
    FailsLateFrom refused before (x :: ps) ↔ FailsLateFrom refused (before ++ [x]) ps := by
  constructor
  · intro h mid p after heq hfails
    rw [← List.append_cons] at hfails ⊢
    exact h (x :: mid) p after (by rw [heq, List.cons_append]) hfails
  · intro h mid p after heq hfails
    cases mid with
    | nil =>
      obtain ⟨rfl, -⟩ := List.cons.inj heq
      simp [hx, hok] at hfails
    | cons y mid =>
      obtain ⟨rfl, hps⟩ := List.cons.inj heq
      rw [List.append_cons] at hfails ⊢
      exact h mid p after hps hfails

/-- At an `unlink` that fails, all names must have come up. -/
theorem failsLateFrom_cons_of_fails {before ps : List Bytes} {x : Bytes}
    (hfails : x ∈ before ∨ refused before.length = true) :
    FailsLateFrom refused before (x :: ps) ↔ ∀ q ∈ x :: ps, q ∈ before := by
  constructor
  · intro h q hq
    simpa using h [] x ps rfl (by simpa using hfails) q hq
  · intro h mid p after heq _ q hq
    exact List.mem_append_left _ (h q (heq ▸ List.mem_append_right _ hq))

/-- **The loop that deletes the files**, with the names that are gone already. -/
theorem deleteLoop_removes_iff {before ps : List Bytes} {dir : Finset Bytes}
    (hdir : ∀ q ∈ before ++ ps, q ∈ dir ↔ q ∉ before) :
    (∀ q ∈ before ++ ps, q ∉ deleteLoop refused before.length ps dir) ↔
      FailsLateFrom refused before ps := by
  induction ps generalizing before dir with
  | nil =>
    refine iff_of_true (fun q hq => ?_) (by simp [FailsLateFrom])
    rw [deleteLoop, hdir q hq]
    simpa using hq
  | cons x ps ih =>
    rw [deleteLoop]
    by_cases hok : x ∈ dir ∧ refused before.length = false
    · have hdir' : ∀ q ∈ before ++ [x] ++ ps, q ∈ dir.erase x ↔ q ∉ before ++ [x] := by
        intro q hq
        rw [Finset.mem_erase, hdir q (by simpa using hq)]
        simp [and_comm]
      have hrec := ih hdir'
      rw [List.length_append, List.length_singleton] at hrec
      rw [if_pos hok, List.append_cons, hrec,
        failsLateFrom_cons_iff ((hdir x (by simp)).mp hok.1) hok.2]
    · have hfails : x ∈ before ∨ refused before.length = true := by
        rw [hdir x (by simp), not_and_or, not_not, Bool.not_eq_false] at hok
        exact hok
      rw [if_neg hok, failsLateFrom_cons_of_fails hfails]
      constructor
      · intro h q hq
        have hq' : q ∈ before ++ x :: ps := List.mem_append_right _ hq
        exact not_not.mp fun hn => h q hq' ((hdir q hq').mpr hn)
      · intro h q hq hmem
        have hn := (hdir q hq).mp hmem
        rcases List.mem_append.mp hq with hq | hq
        · exact hn hq
        · exact hn (h q hq)

end Loops

section Main

variable {rand : ℕ → ℕ} {numarr : { l : List ℤ // l.length = arrMax }} {size : ℤ} {order : Bool}

theorem length_numbers : (numbers order rand size).length = size.toNat := by simp [numbers]

theorem gennum_eq : gennum numarr.val size order rand =
    if size ≤ arrMax then some (numbers order rand size ++ numarr.val.drop size.toNat)
    else none := by
  have hloop := gennumLoop_append (number order rand) size.toNat [] numarr.val
  rw [numarr.property] at hloop
  rw [gennum, numbers, List.range_eq_range']
  simpa using hloop

theorem main_eq_none {calls : Calls} {dpath : Bytes} {dir : Finset Bytes} (h : ¬ size ≤ arrMax) :
    main calls rand numarr size order (some dpath) dir = none := by
  have hzero : size ≠ 0 := by
    rintro rfl
    exact h (by decide)
  rw [main]
  dsimp only
  rw [if_neg hzero, gennum_eq, if_neg h]
  rfl

/-- What `main` does if the files can be created. -/
theorem main_eq {calls : Calls} {dpath : Bytes} {dir : Finset Bytes} (hmax : size ≤ arrMax)
    (hcalls : ∀ i < size.toNat, calls.opened i ∧ calls.written i ∧ calls.closed i) :
    main calls rand numarr size order (some dpath) dir =
      some ⟨deleteLoop calls.refused 0
          (((numbers order rand size).insertionSort (· ≥ ·)).map (path dpath))
          (dir ∪ ((numbers order rand size).map (path dpath)).toFinset),
        (numbers order rand size).map (path dpath)⟩ := by
  rw [main]
  dsimp only
  by_cases hzero : size = 0
  · simp [hzero, numbers, deleteLoop]
  have hlen : (numbers order rand size).length = size.toNat := length_numbers
  obtain ⟨ys, hsort, hperm, hsorted⟩ := sorti_spec hlen (numarr.val.drop size.toNat)
  have hys : ys = (numbers order rand size).insertionSort (· ≥ ·) :=
    List.Perm.eq_of_pairwise' hsorted (List.pairwise_insertionSort _ _)
      (hperm.trans (List.perm_insertionSort _ _).symm)
  have hcreate : createLoop calls dpath 0 (numbers order rand size) dir = _ :=
    createLoop_eq (by simpa [hlen] using hcalls)
  rw [← hys]
  simp only [if_neg hzero, gennum_eq, if_pos hmax, Option.bind_eq_bind, Option.bind_some,
    List.take_left' hlen, hcreate, hsort, List.take_left' (hperm.length_eq.trans hlen),
    Bool.true_eq_false, if_false]

end Main

/-- A list in decreasing order, cut at an element. -/
theorem le_of_mem_append {before after : List ℤ} {x y : ℤ}
    (h : (before ++ x :: after).Pairwise (· ≥ ·)) :
    (y ∈ before → x ≤ y) ∧ (y ∈ after → y ≤ x) := by
  obtain ⟨-, hright, hcross⟩ := List.pairwise_append.mp h
  exact ⟨fun hy => hcross y hy x List.mem_cons_self, (List.pairwise_cons.mp hright).1 y⟩

/-- An element that comes twice has a place with another one before it. -/
theorem one_lt_count_iff {l : List ℤ} {x : ℤ} :
    1 < l.count x ↔ ∃ before after, l = before ++ x :: after ∧ x ∈ before := by
  constructor
  · intro h
    obtain ⟨b, a, rfl, hb⟩ :=
      List.eq_append_cons_of_mem (List.count_pos_iff.mp (Nat.lt_of_succ_lt h))
    rw [List.count_append, List.count_eq_zero_of_not_mem hb, List.count_cons_self] at h
    obtain ⟨b', a', rfl, -⟩ :=
      List.eq_append_cons_of_mem (List.count_pos_iff.mp (by omega : 0 < a.count x))
    exact ⟨b ++ x :: b', a', by simp, by simp⟩
  · rintro ⟨before, after, rfl, hx⟩
    have hpos := List.count_pos_iff.mpr hx
    rw [List.count_append, List.count_cons_self]
    omega

/-- **Repetitions.** If different numbers have different names and no `unlink` is refused, no number
but the smallest may come twice. -/
theorem failsLate_iff {refused : ℕ → Bool} {f : ℤ → Bytes} {nums : List ℤ}
    (hrefused : ∀ i, refused i = false) (hf : ∀ x ∈ nums, ∀ y ∈ nums, f x = f y → x = y) :
    FailsLate refused ((nums.insertionSort (· ≥ ·)).map f) ↔
      ∀ x ∈ nums, 1 < nums.count x → ∀ y ∈ nums, x ≤ y := by
  have hsorted := List.pairwise_insertionSort (· ≥ ·) nums
  have hperm := List.perm_insertionSort (· ≥ ·) nums
  set sorted := nums.insertionSort (· ≥ ·)
  have hmem : ∀ {z}, z ∈ sorted ↔ z ∈ nums := hperm.mem_iff
  constructor
  · -- cut at the second `x`; a smaller number would come behind it, and is not there before
    intro h x hx hcount y hy
    by_contra hlt
    obtain ⟨b, a, hsplit, hxb⟩ := one_lt_count_iff.mp (hperm.count_eq x ▸ hcount)
    have hbefore : y ∉ b := fun hyb => hlt ((le_of_mem_append (hsplit ▸ hsorted)).1 hyb)
    have hafter : y ∈ a := by
      have hy' := hmem.mpr hy
      rw [hsplit, List.mem_append, List.mem_cons] at hy'
      rcases hy' with hyb | rfl | hya
      · exact absurd hyb hbefore
      · exact absurd le_rfl hlt
      · exact hya
    have hy' := h (b.map f) (f x) (a.map f) (by simp [hsplit]) (.inl (List.mem_map_of_mem hxb))
      (f y) (List.mem_cons_of_mem _ (List.mem_map_of_mem hafter))
    obtain ⟨z, hz, hfz⟩ := List.mem_map.mp hy'
    have hz' : z ∈ nums := hmem.mp (by rw [hsplit]; exact List.mem_append_left _ hz)
    exact hbefore (hf z hz' y hy hfz ▸ hz)
  · -- a name that has come up before is that of the smallest number, and so are all behind it
    intro h before p after heq hfails q hq
    obtain ⟨b, c, hsplit, rfl, hc⟩ := List.map_eq_append_iff.mp heq
    obtain ⟨x, a, rfl, rfl, rfl⟩ := List.map_eq_cons_iff.mp hc
    have hnums : ∀ z ∈ b ++ x :: a, z ∈ nums := fun z hz => hmem.mp (hsplit ▸ hz)
    have hxb : x ∈ b := by
      rcases hfails with hp | hr
      · obtain ⟨z, hz, hfz⟩ := List.mem_map.mp hp
        exact hf z (hnums z (by simp [hz])) x (hnums x (by simp)) hfz ▸ hz
      · simp [hrefused] at hr
    have hcount : 1 < nums.count x :=
      hperm.count_eq x ▸ one_lt_count_iff.mpr ⟨b, a, hsplit, hxb⟩
    rw [← List.map_cons] at hq
    obtain ⟨z, hz, rfl⟩ := List.mem_map.mp hq
    have hle : z ≤ x := by
      rcases List.mem_cons.mp hz with rfl | hza
      · exact le_rfl
      · exact (le_of_mem_append (hsplit ▸ hsorted)).2 hza
    have hge := h x (hnums x (by simp)) hcount z (hnums z (List.mem_append_right _ hz))
    rw [le_antisymm hle hge]
    exact List.mem_map_of_mem hxb

/-- Nothing fails if the names are different and no `unlink` is refused. -/
theorem failsLate_of_nodup {refused : ℕ → Bool} {ps : List Bytes} (hps : ps.Nodup)
    (hrefused : ∀ i, refused i = false) : FailsLate refused ps := by
  rintro before p after rfl hfails
  have hp : p ∉ before := fun h => (List.nodup_append.mp hps).2.2 p h p (by simp) rfl
  simp [hp, hrefused] at hfails

/-- **When no file is left**: all numbers are in the array, and in decreasing order the first name
whose `unlink` fails comes after all others. It does not matter what was in the directory before. -/
theorem files_removed_iff (calls : Calls) (rand : ℕ → ℕ)
    (numarr : { l : List ℤ // l.length = arrMax }) (size : ℤ) (order : Bool) (dpath : Bytes)
    (dir : Finset Bytes)
    (hcalls : ∀ i < size.toNat, calls.opened i ∧ calls.written i ∧ calls.closed i) :
    (∃ out, main calls rand numarr size order (some dpath) dir = some out ∧
      ∀ p ∈ out.created, p ∉ out.dir) ↔
      size ≤ arrMax ∧ FailsLate calls.refused
        (((numbers order rand size).insertionSort (· ≥ ·)).map (path dpath)) := by
  by_cases hmax : size ≤ arrMax
  case neg => simp [main_eq_none hmax, hmax]
  case pos =>
    have hnames : ∀ q, q ∈ (numbers order rand size).map (path dpath) ↔
        q ∈ ((numbers order rand size).insertionSort (· ≥ ·)).map (path dpath) := fun q =>
      ((List.perm_insertionSort _ _).map (path dpath)).mem_iff.symm
    have hdelete := @deleteLoop_removes_iff calls.refused []
      (((numbers order rand size).insertionSort (· ≥ ·)).map (path dpath))
      (dir ∪ ((numbers order rand size).map (path dpath)).toFinset) fun q hq => by
        rw [List.nil_append, ← hnames] at hq
        simp only [Finset.mem_union, List.mem_toFinset, hq, or_true, List.not_mem_nil,
          not_false_eq_true]
    simp only [main_eq hmax hcalls, Option.some.injEq, exists_eq_left', hnames]
    rw [and_iff_right hmax]
    exact hdelete

/-- System calls that do not fail. -/
def noFailures : Calls := ⟨fun _ => true, fun _ => true, fun _ => true, fun _ => false⟩

/-- Three files in order. -/
theorem files_removed_in_order :
    ∃ out, main noFailures (fun _ => 0) ⟨List.replicate arrMax 0, List.length_replicate ..⟩ 3 true
        (some [47]) ∅ = some out ∧ ∀ p ∈ out.created, p ∉ out.dir :=
  (files_removed_iff noFailures (fun _ => 0) _ 3 true [47] ∅ (by decide)).mpr
    ⟨by decide, failsLate_of_nodup (by decide +kernel) fun _ => rfl⟩

/-- The numbers 5, 5 and 3: the second `unlink` of `x5` fails, and `x3` is left. -/
theorem files_left :
    ∃ out, main noFailures (fun i => if i < 2 then 5 else 3)
        ⟨List.replicate arrMax 0, List.length_replicate ..⟩ 3 false (some [46]) ∅ = some out ∧
      [46, 47, 120, 51] ∈ out.created ∧ [46, 47, 120, 51] ∈ out.dir :=
  ⟨_, main_eq (by decide) (by decide), by decide +kernel, by decide +kernel⟩

end Benchmark

end Tlpiexer
