import Tlpiexer.Constants
import Tlpiexer.Foundations.CString
import Tlpiexer.Foundations.Transfers

/-!
# Copying a file

`main` of `src/imp/04-02.c`, which copies a file block by block.

`read` may deliver less than it is asked for and `write` may take less than it is given. The program
works for every way in which `read` delivers the file. It does not look at the number of bytes that
`write` has taken: what was left over is skipped.

## Main results

* `CopyFile.copy_exact_iff` — when a copy that succeeds is exact
-/

namespace Tlpiexer

namespace CopyFile

open CString Transfers

/-- What the system calls do. The calls of `read` and `write` are numbered. -/
structure Env where
  /-- `open` does not fail for the source and for the destination. -/
  source : Bool
  dest : Bool
  /-- How many of the bytes that are there for it a call of `read` delivers. -/
  read : ℕ → ℕ → Option ℕ
  read_le : ∀ t n k, read t n = some k → k ≤ n
  read_pos : ∀ t n k, read t n = some k → 0 < n → 0 < k
  /-- How many of the bytes it is given a call of `write` takes. -/
  write : ℕ → ℕ → Option ℕ
  write_le : ∀ t n k, write t n = some k → k ≤ n

/-- The loop that copies the blocks: the exit status and the destination. The first argument bounds
the number of rounds, the second is the number of the round; `rest` is what is left of the
source. -/
def copyLoop (env : Env) : ℕ → ℕ → Bytes → Bytes → Option (ℤ × Bytes)
  | 0, _, _, _ => none
  | fuel + 1, t, rest, dest =>
    match env.read t (rest.take bufSize).length with
    | none => some (exitFailure, dest)
    | some rsize =>
      if rsize = 0 then some (exitSuccess, dest)
      else
        let buf := rest.take rsize
        match env.write t rsize with
        | none => some (exitFailure, dest)
        | some wsize => copyLoop env fuel (t + 1) (rest.drop rsize) (dest ++ buf.take wsize)

/-- `main`: the exit status and the destination. -/
def main (env : Env) (argc : ℕ) (source : Bytes) : Option (ℤ × Bytes) :=
  if argc ≠ 3 then some (exitFailure, [])
  else if env.source = false then some (exitFailure, [])
  else if env.dest = false then some (exitFailure, [])
  else copyLoop env (source.length + 1) 0 source []

/-! ### Blocks -/

/-- The blocks that `read` delivers, unless it fails. -/
def blocks (env : Env) : ℕ → ℕ → Bytes → Option (List Bytes)
  | 0, _, _ => none
  | fuel + 1, t, rest =>
    match env.read t (rest.take bufSize).length with
    | none => none
    | some rsize =>
      if rsize = 0 then some []
      else (blocks env fuel (t + 1) (rest.drop rsize)).map (rest.take rsize :: ·)

/-- The blocks with the number of bytes that `write` takes of each, unless it fails. -/
def writes (env : Env) : ℕ → List Bytes → Option (List (Bytes × ℕ))
  | _, [] => some []
  | t, b :: bs => do
    let k ← env.write t b.length
    let l ← writes env (t + 1) bs
    some ((b, k) :: l)

/-- What is read and written if nothing fails. -/
def transfers (env : Env) (source : Bytes) : Option (List (Bytes × ℕ)) := do
  let bs ← blocks env (source.length + 1) 0 source
  writes env 0 bs

section Loop

variable {env : Env} {fuel t : ℕ} {rest dest : Bytes}

/-- A `read` delivers nothing only at the end of the file. -/
theorem read_eq_zero (h : env.read t (rest.take bufSize).length = some 0) : rest = [] := by
  by_contra hne
  have hpos : 0 < (rest.take bufSize).length := by
    have := List.length_pos_iff.mpr hne
    rw [List.length_take, bufSize]
    omega
  exact absurd (env.read_pos _ _ _ h hpos) (Nat.lt_irrefl 0)

theorem read_le_length {k : ℕ} (h : env.read t (rest.take bufSize).length = some k) :
    k ≤ rest.length :=
  (env.read_le _ _ _ h).trans (List.length_take_le' ..)

/-- The blocks are the file. -/
theorem flatten_of_blocks {bs : List Bytes} (h : blocks env fuel t rest = some bs) :
    bs.flatten = rest := by
  induction fuel generalizing t rest bs with
  | zero => cases h
  | succ fuel ih =>
    rw [blocks] at h
    cases hread : env.read t (rest.take bufSize).length with
    | none =>
      rw [hread] at h
      cases h
    | some rsize =>
      rw [hread] at h
      dsimp only at h
      by_cases hzero : rsize = 0
      · subst hzero
        rw [read_eq_zero hread, ← Option.some.inj h]
        rfl
      · rw [if_neg hzero] at h
        obtain ⟨bs', hbs', rfl⟩ := Option.map_eq_some_iff.mp h
        rw [List.flatten_cons, ih hbs', List.take_append_drop]

theorem contents_of_writes {bs : List Bytes} {l : List (Bytes × ℕ)} (h : writes env t bs = some l) :
    contents l = bs.flatten := by
  induction bs generalizing t l with
  | nil =>
    rw [← Option.some.inj h]
    rfl
  | cons b bs ih =>
    simp only [writes, Option.bind_eq_bind, Option.bind_eq_some_iff, Option.some.injEq] at h
    obtain ⟨k, -, l', hl', rfl⟩ := h
    rw [contents, List.flatMap_cons, List.flatten_cons, ← ih hl']
    rfl

/-- The first block is written before it is known whether the others can be read. -/
theorem bind_writes_cons (b : Bytes) (bs : Option (List Bytes)) :
    (bs.map (b :: ·)).bind (writes env t) =
      (env.write t b.length).bind fun k => (bs.bind (writes env (t + 1))).map ((b, k) :: ·) := by
  cases bs with
  | none => cases env.write t b.length <;> rfl
  | some bs =>
    rw [Option.map_some, Option.bind_some, Option.bind_some, writes]
    cases env.write t b.length with
    | none => rfl
    | some k => cases writes env (t + 1) bs <;> rfl

/-- **The loop** succeeds if nothing fails, and leaves what was written of each block. -/
theorem copyLoop_spec (hfuel : rest.length < fuel) :
    match (blocks env fuel t rest).bind (writes env t) with
    | some l => copyLoop env fuel t rest dest = some (exitSuccess, dest ++ transferred l)
    | none => ∃ out, copyLoop env fuel t rest dest = some (exitFailure, out) := by
  induction fuel generalizing t rest dest with
  | zero => omega
  | succ fuel ih =>
    rw [blocks, copyLoop]
    cases hread : env.read t (rest.take bufSize).length with
    | none => exact ⟨dest, rfl⟩
    | some rsize =>
      by_cases hzero : rsize = 0
      · simp [hzero, writes, transferred]
      have hle := read_le_length hread
      have hlen : (rest.take rsize).length = rsize := by
        rw [List.length_take]
        omega
      dsimp only
      rw [if_neg hzero, if_neg hzero, bind_writes_cons, hlen]
      cases hwrite : env.write t rsize with
      | none => exact ⟨dest, rfl⟩
      | some wsize =>
        have hrest : (rest.drop rsize).length < fuel := by
          rw [List.length_drop]
          omega
        have hloop := @ih (t + 1) _ (dest ++ (rest.take rsize).take wsize) hrest
        rw [Option.bind_some]
        cases hothers : (blocks env fuel (t + 1) (rest.drop rsize)).bind (writes env (t + 1)) with
        | none =>
          rw [hothers] at hloop
          exact hloop
        | some l =>
          rw [hothers] at hloop
          simpa [transferred] using hloop

end Loop

/-- **When a copy that succeeds is exact.** Unless something fails, every `write` has to take all of
the block that it is given. -/
theorem copy_exact_iff (env : Env) (argc : ℕ) (source : Bytes) :
    (∃ status dest, main env argc source = some (status, dest) ∧
      (status = exitSuccess → dest = source)) ↔
      argc ≠ 3 ∨ env.source = false ∨ env.dest = false ∨
        ∀ l, transfers env source = some l → ∀ e ∈ l, e.1.length ≤ e.2 := by
  have hne : exitFailure ≠ exitSuccess := by decide
  rw [main]
  by_cases hargc : argc ≠ 3
  · simp [hargc, hne]
  by_cases hsource : env.source = false
  · simp [hargc, hsource, hne]
  by_cases hdest : env.dest = false
  · simp [hargc, hsource, hdest, hne]
  rw [if_neg hargc, if_neg hsource, if_neg hdest, or_iff_right hargc, or_iff_right hsource,
    or_iff_right hdest]
  have hloop := @copyLoop_spec env (source.length + 1) 0 source [] (Nat.lt_succ_self _)
  change match transfers env source with | some l => _ | none => _ at hloop
  cases hl : transfers env source with
  | none =>
    rw [hl] at hloop
    obtain ⟨out, hout⟩ := hloop
    exact iff_of_true ⟨_, _, hout, fun h => absurd h hne⟩ (by simp)
  | some l =>
    rw [hl] at hloop
    obtain ⟨bs, hbs, hwrites⟩ := Option.bind_eq_some_iff.mp hl
    have hcontents : contents l = source :=
      (contents_of_writes hwrites).trans (flatten_of_blocks hbs)
    have hall := transferred_eq_contents_iff (l := l)
    rw [hcontents] at hall
    simp [hloop, hall]

/-- A `read` delivers two bytes at most, and a `write` takes one. -/
def shortWrites : Env where
  source := true
  dest := true
  read _ n := some (min 2 n)
  read_le _ n _ h := Option.some.inj h ▸ Nat.min_le_right 2 n
  read_pos _ _ _ h hn := Option.some.inj h ▸ Nat.lt_min.mpr ⟨Nat.two_pos, hn⟩
  write _ n := some (min 1 n)
  write_le _ n _ h := Option.some.inj h ▸ Nat.min_le_right 1 n

/-- `"abc"` is read as `"ab"` and `"c"`: the copy succeeds, without the second byte. -/
theorem copy_short_write :
    main shortWrites 3 [97, 98, 99] = some (exitSuccess, [97, 99]) := by
  decide

end CopyFile

end Tlpiexer
