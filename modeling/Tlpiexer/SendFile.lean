import Tlpiexer.Constants
import Tlpiexer.Foundations.CString
import Tlpiexer.Foundations.RegularFile

/-!
# A replacement for `sendfile`

`sendfile_x` of `src/lib/61-03.c`, which copies part of a file to another descriptor with `read`,
`write` and `lseek`.

## The environment

`read` may deliver less than it is asked for and `write` may take less than it is given. What they
do is an `Env`, which says for each of the calls how many bytes it moves; `read` delivers nothing
only at the end of the file. Every call of `write` is recorded next to its result.

## Sizes

`count` is a `size_t` and `total_wsize` a `ssize_t` that is never negative, so that they are
compared as numbers. `*offset` is an `off_t`; where it stands in the place of `whence`, an `int`,
its lower 32 bits count.

## Main results

* `sendfile_x_copies` — what is copied without an offset, however the data is split
* `sendfile_x_offset_iff` — when the call with an offset does what it should
-/

namespace Tlpiexer

namespace SendFile

open CString RegularFile

/-! ### The environment -/

/-- What the system calls do. The calls of `read` and `write` are numbered. -/
structure Env where
  /-- `fstat` does not fail, and `S_ISREG`. -/
  fstat : Option Bool
  /-- How many of the bytes that are there for it a call of `read` delivers. -/
  read : ℕ → ℕ → Option ℕ
  read_le : ∀ t n k, read t n = some k → k ≤ n
  read_pos : ∀ t n k, read t n = some k → 0 < n → 0 < k
  /-- How many of the bytes it is given a call of `write` takes. -/
  write : ℕ → ℕ → Option ℕ
  write_le : ∀ t n k, write t n = some k → k ≤ n
  /-- `lseek` with a `whence` other than `SEEK_SET`, `SEEK_CUR` and `SEEK_END`. -/
  lseek : ℤ → ℤ → Option ℕ

/-- A call of `write`: the number of bytes it is given, and what it returns. -/
structure Write where
  size : ℕ
  result : Option ℕ
  deriving DecidableEq

/-- All bytes have been written. -/
def Write.Complete (w : Write) : Prop := w.result = some w.size

instance (w : Write) : Decidable w.Complete := inferInstanceAs (Decidable (_ = _))

/-- What a copy leaves: the number of bytes written, unless something has failed, the input, the
output, and the calls of `write`. -/
structure Copied where
  total : Option ℕ
  input : File
  out : Bytes
  writes : List Write

/-! ### `sendfile_x` -/

/-- The bytes to ask for. -/
def toRsize (count total : ℕ) : ℕ :=
  if count - total ≥ bufSize then bufSize else count - total

/-- The loop that transfers data. The first argument bounds the number of rounds, the second is the
number of the round. -/
def transfer (env : Env) (count : ℕ) : ℕ → ℕ → ℕ → File → Bytes → Option Copied
  | 0, _, _, _, _ => none
  | fuel + 1, t, total, input, out =>
    if total ≥ count then some ⟨some total, input, out, []⟩
    else
      let ready := input.rest.take (toRsize count total)
      match env.read t ready.length with
      | none => some ⟨none, input, out, []⟩
      | some rsize =>
        if rsize = 0 then some ⟨some total, input, out, []⟩
        else
          match env.write t rsize with
          | none => some ⟨none, input.advance rsize, out, [⟨rsize, none⟩]⟩
          | some wsize =>
            let out := out ++ (ready.take rsize).take wsize
            if wsize ≠ rsize then
              some ⟨none, input.advance rsize, out, [⟨rsize, some wsize⟩]⟩
            else
              (transfer env count fuel (t + 1) (total + wsize) (input.advance rsize) out).map
                fun r => { r with writes := ⟨rsize, some wsize⟩ :: r.writes }

/-- What a call of `sendfile_x` returns and leaves. -/
structure Result where
  status : ℤ
  input : File
  out : Bytes
  /-- `*offset`, if there is an offset. -/
  offset : Option ℤ
  writes : List Write

/-- An `int` from a wider integer. -/
def toInt (n : ℤ) : ℤ := n.bmod (2 ^ 32)

/-- `sendfile_x(out_fd, in_fd, offset, count)`; `offset` is `none` for a null pointer. The transfer
makes no more rounds than there are bytes, and one. -/
def sendfile_x (env : Env) (input : File) (out : Bytes) (offset : Option ℤ) (count : ℕ) :
    Option Result :=
  if env.fstat ≠ some true then some ⟨fnEr, input, out, offset, []⟩
  else
    -- `lseek(in_fd, SEEK_SET, *offset)`
    match offset.elim (some input) fun off => input.lseek env.lseek seekSet (toInt off) with
    | none => some ⟨fnEr, input, out, offset, []⟩
    | some input =>
      (transfer env count (input.content.length + 1) 0 0 input out).bind fun r =>
        match r.total with
        | none => some ⟨fnEr, r.input, r.out, offset, r.writes⟩
        | some total =>
          match offset with
          | none => some ⟨total, r.input, r.out, none, r.writes⟩
          | some _ =>
            -- `lseek(in_fd, SEEK_CUR, 0)`
            match r.input.lseek env.lseek seekCur 0 with
            | none => some ⟨fnEr, r.input, r.out, some fnEr, r.writes⟩
            | some input => some ⟨total, input, r.out, some input.pos, r.writes⟩

/-! ### What the transfer does -/

/-- `r` is what a transfer of `amount` bytes may leave when `total` bytes have been written
before. -/
structure Sent (env : Env) (amount total : ℕ) (input : File) (out : Bytes) (r : Copied) : Prop where
  made : ∀ w ∈ r.writes, ∃ t, env.write t w.size = w.result
  content : r.input.content = input.content
  pos_le : r.input.pos ≤ input.pos + amount
  complete : (∀ w ∈ r.writes, w.Complete) →
    r.total = some (total + amount) ∧ r.input.pos = input.pos + amount ∧
      r.out = out ++ input.rest.take amount
  short : (∃ w ∈ r.writes, ¬ w.Complete) →
    r.total = none ∧ ∃ k ≤ amount, r.out = out ++ input.rest.take k

section Transfer

variable {env : Env} {amount total : ℕ} {input : File} {out : Bytes}

/-- A transfer of nothing. -/
theorem Sent.zero (total : ℕ) (input : File) (out : Bytes) :
    Sent env 0 total input out ⟨some total, input, out, []⟩ where
  made := nofun
  content := rfl
  pos_le := Nat.le_refl _
  complete _ := by simp
  short h := by simp at h

/-- A write that is not complete ends the transfer. -/
theorem Sent.of_short {t rsize k : ℕ} {result : Option ℕ} (hw : env.write t rsize = result)
    (hr : rsize ≤ amount) (hk : k ≤ amount) (h : result ≠ some rsize) (total : ℕ) (input : File)
    (out : Bytes) :
    Sent env amount total input out
      ⟨none, input.advance rsize, out ++ input.rest.take k, [⟨rsize, result⟩]⟩ where
  made := by
    rw [List.forall_mem_singleton]
    exact ⟨t, hw⟩
  content := rfl
  pos_le := Nat.add_le_add_left hr _
  complete hall := absurd (hall _ List.mem_cons_self) h
  short _ := ⟨rfl, k, hk, rfl⟩

/-- **One round**: a block that has been read and written, and a transfer of the rest. -/
theorem Sent.step {t k : ℕ} (hw : env.write t k = some k) (hk : k ≤ amount) {r : Copied}
    (h : Sent env (amount - k) (total + k) (input.advance k) (out ++ input.rest.take k) r) :
    Sent env amount total input out { r with writes := ⟨k, some k⟩ :: r.writes } := by
  have hjoin : ∀ j, out ++ input.rest.take k ++ (input.advance k).rest.take j =
      out ++ input.rest.take (k + j) := by
    intro j
    rw [List.append_assoc, File.rest_advance, ← List.take_add]
  refine ⟨?_, h.content, ?_, ?_, ?_⟩
  · rw [List.forall_mem_cons]
    exact ⟨⟨t, hw⟩, h.made⟩
  · have hpos := h.pos_le
    rw [File.advance_pos] at hpos
    show r.input.pos ≤ input.pos + amount
    omega
  · intro hall
    obtain ⟨htotal, hpos, hout⟩ := h.complete fun w hw => hall w (List.mem_cons_of_mem _ hw)
    rw [File.advance_pos] at hpos
    rw [hjoin] at hout
    refine ⟨htotal.trans (congrArg some ?_), ?_, hout.trans ?_⟩
    · omega
    · show r.input.pos = input.pos + amount
      omega
    · rw [show k + (amount - k) = amount by omega]
  · rintro ⟨w, hw, hshort⟩
    rcases List.mem_cons.mp hw with rfl | hw
    · exact absurd rfl hshort
    · obtain ⟨htotal, j, hj, hout⟩ := h.short ⟨w, hw, hshort⟩
      rw [hjoin] at hout
      exact ⟨htotal, k + j, by omega, hout⟩

theorem toRsize_pos {count total : ℕ} (h : total < count) : 0 < toRsize count total := by
  rw [toRsize]
  split
  · exact Nat.zero_lt_succ _
  · omega

theorem toRsize_le (count total : ℕ) : toRsize count total ≤ count - total := by
  rw [toRsize]
  split <;> omega

/-- **What one round does.** There is nothing left to transfer; or a block is read, and is either
not written completely, which is the end, or written and followed by the next round. -/
theorem transfer_round (hread : ∀ t n, env.read t n ≠ none) (count fuel t total : ℕ) (input : File)
    (out : Bytes) :
    (min (count - total) input.rest.length = 0 ∧
        transfer env count (fuel + 1) t total input out = some ⟨some total, input, out, []⟩) ∨
      ∃ k, 0 < k ∧ k ≤ min (count - total) input.rest.length ∧
        ((∃ result j, env.write t k = result ∧ result ≠ some k ∧ j ≤ k ∧
            transfer env count (fuel + 1) t total input out =
              some ⟨none, input.advance k, out ++ input.rest.take j, [⟨k, result⟩]⟩) ∨
          (env.write t k = some k ∧
            transfer env count (fuel + 1) t total input out =
              (transfer env count fuel (t + 1) (total + k) (input.advance k)
                (out ++ input.rest.take k)).map
                  fun r => { r with writes := ⟨k, some k⟩ :: r.writes })) := by
  rw [transfer]
  by_cases hdone : total ≥ count
  · exact .inl ⟨by omega, if_pos hdone⟩
  rw [if_neg hdone]
  have hask := toRsize_pos (Nat.lt_of_not_le hdone)
  have hask' := toRsize_le count total
  obtain ⟨rsize, hrsize⟩ :=
    Option.ne_none_iff_exists'.mp (hread t (input.rest.take (toRsize count total)).length)
  have hle := env.read_le _ _ _ hrsize
  have hpos := env.read_pos _ _ _ hrsize
  rw [List.length_take] at hle hpos
  simp only [hrsize]
  by_cases hzero : rsize = 0
  · -- the end of the file
    exact .inl ⟨by omega, if_pos hzero⟩
  rw [if_neg hzero]
  refine .inr ⟨rsize, Nat.pos_of_ne_zero hzero, by omega, ?_⟩
  cases hwrite : env.write t rsize with
  | none => exact .inl ⟨none, 0, rfl, (Option.some_ne_none _).symm, Nat.zero_le _, by simp⟩
  | some wsize =>
    have hwle := env.write_le _ _ _ hwrite
    have hwritten : ((input.rest.take (toRsize count total)).take rsize).take wsize =
        input.rest.take wsize := by
      rw [List.take_take, List.take_take]
      congr 1
      omega
    simp only [hwritten]
    by_cases hw : wsize = rsize
    · subst hw
      exact .inr ⟨rfl, if_neg (not_not.mpr rfl)⟩
    · exact .inl ⟨some wsize, wsize, rfl, by simpa using hw, hwle, if_pos hw⟩

/-- **The transfer ends**, and moves what is asked for or what there is. -/
theorem transfer_sent (hread : ∀ t n, env.read t n ≠ none) (count : ℕ) :
    ∀ (fuel t total : ℕ) (input : File) (out : Bytes), input.rest.length < fuel →
      ∃ r, transfer env count fuel t total input out = some r ∧
        Sent env (min (count - total) input.rest.length) total input out r := by
  intro fuel
  induction fuel with
  | zero => intro t total input out hfuel; exact absurd hfuel (Nat.not_lt_zero _)
  | succ fuel ih =>
    intro t total input out hfuel
    obtain ⟨hnone, hround⟩ | ⟨k, hpos, hk, hround⟩ :=
      transfer_round hread count fuel t total input out
    · rw [hround, hnone]
      exact ⟨_, rfl, Sent.zero total input out⟩
    obtain ⟨result, j, hwrite, hshort, hj, hround⟩ | ⟨hwrite, hround⟩ := hround
    · rw [hround]
      exact ⟨_, rfl, Sent.of_short hwrite hk (Nat.le_trans hj hk) hshort total input out⟩
    · have hlen : (input.advance k).rest.length = input.rest.length - k := by
        rw [File.rest_advance, List.length_drop]
      obtain ⟨r, hr, hsent⟩ := ih (t + 1) (total + k) (input.advance k)
        (out ++ input.rest.take k) (by omega)
      rw [hround, hr]
      refine ⟨_, rfl, Sent.step hwrite hk ?_⟩
      rw [hlen, show min (count - (total + k)) (input.rest.length - k) =
        min (count - total) input.rest.length - k by omega] at hsent
      exact hsent

end Transfer

/-! ### Without an offset -/

theorem sendfile_x_eq_none_offset {env : Env} (hstat : env.fstat = some true) (input : File)
    (out : Bytes) (count : ℕ) :
    sendfile_x env input out none count =
      (transfer env count (input.content.length + 1) 0 0 input out).map fun r =>
        ⟨r.total.elim fnEr (↑·), r.input, r.out, none, r.writes⟩ := by
  rw [sendfile_x, if_neg (by simp [hstat])]
  simp only [Option.elim_none]
  cases transfer env count (input.content.length + 1) 0 0 input out with
  | none => rfl
  | some r =>
    simp only [Option.bind_some, Option.map_some]
    cases r.total <;> rfl

/-- **Without an offset the next `count` bytes are copied**, or all that are left, however `read`
splits them: if every write is complete the position moves by the number of bytes copied, which is
returned, and a write that is not complete is an error behind a part of these bytes. The writes are
those that the system has answered. -/
theorem sendfile_x_copies (env : Env) (hstat : env.fstat = some true)
    (hread : ∀ t n, env.read t n ≠ none) (input : File) (out : Bytes) (count : ℕ) :
    ∃ r, sendfile_x env input out none count = some r ∧
      r.input.content = input.content ∧
      r.input.pos ≤ input.pos + min count (input.content.length - input.pos) ∧
      (∀ w ∈ r.writes, ∃ t, env.write t w.size = w.result) ∧
      ((∀ w ∈ r.writes, w.Complete) →
        r.status = (min count (input.content.length - input.pos) : ℕ) ∧
        r.input.pos = input.pos + min count (input.content.length - input.pos) ∧
        r.out = out ++
          (input.content.drop input.pos).take (min count (input.content.length - input.pos))) ∧
      ((∃ w ∈ r.writes, ¬ w.Complete) →
        r.status = fnEr ∧ ∃ k ≤ min count (input.content.length - input.pos),
          r.out = out ++ (input.content.drop input.pos).take k) := by
  have hlen := input.length_rest
  obtain ⟨r, hr, hsent⟩ := transfer_sent hread count (input.content.length + 1) 0 0 input out
    (by omega)
  rw [Nat.sub_zero, hlen] at hsent
  rw [sendfile_x_eq_none_offset hstat, hr]
  refine ⟨_, rfl, hsent.content, hsent.pos_le, hsent.made, fun hall => ?_, fun hshort => ?_⟩
  · obtain ⟨htotal, hpos, hout⟩ := hsent.complete hall
    refine ⟨?_, hpos, hout⟩
    rw [Nat.zero_add] at htotal
    simp only [htotal, Option.elim_some]
  · obtain ⟨htotal, hout⟩ := hsent.short hshort
    refine ⟨?_, hout⟩
    simp only [htotal, Option.elim_none]

/-- Calls of `read` that deliver two bytes at most, and complete writes. -/
def pairs : Env where
  fstat := some true
  read _ n := some (min n 2)
  read_le _ n k h := by cases h; omega
  read_pos _ n k h := by cases h; omega
  write _ n := some n
  write_le _ n k h := by cases h; omega
  lseek _ _ := none

theorem sendfile_x_copies_pairs :
    ∃ r, sendfile_x pairs ⟨[1, 2, 3, 4, 5, 6], 1⟩ [] none 4 = some r ∧ r.status = 4 ∧
      r.input.pos = 5 ∧ r.out = [2, 3, 4, 5] := by
  obtain ⟨r, hr, -, -, hmade, hcomplete, -⟩ :=
    sendfile_x_copies pairs rfl (by simp [pairs]) ⟨[1, 2, 3, 4, 5, 6], 1⟩ [] 4
  refine ⟨r, hr, hcomplete fun w hw => ?_⟩
  obtain ⟨t, ht⟩ := hmade w hw
  exact ht.symm

/-! ### With an offset

The arguments of both calls of `lseek` are in the wrong order: the first takes `*offset` for the
`whence` of a move by `SEEK_SET`, which is `0`, and the second moves to position `SEEK_CUR`, which
is `1`. -/

theorem lseek_seekCur (other : ℤ → ℤ → Option ℕ) (f : File) :
    f.lseek other seekCur 0 = some { f with pos := 1 } := rfl

/-- With complete writes the transfer copies what is asked for or what there is. -/
theorem transfer_complete {env : Env} (hread : ∀ t n, env.read t n ≠ none)
    (hwrite : ∀ t n, env.write t n = some n) (count : ℕ) (input : File) (out : Bytes) :
    ∃ input' writes, transfer env count (input.content.length + 1) 0 0 input out =
      some ⟨some (min count input.rest.length), input',
        out ++ input.rest.take (min count input.rest.length), writes⟩ := by
  have hlen := input.length_rest
  obtain ⟨r, hr, hsent⟩ := transfer_sent hread count (input.content.length + 1) 0 0 input out
    (by omega)
  rw [Nat.sub_zero] at hsent
  obtain ⟨htotal, -, hout⟩ := hsent.complete fun w hw => by
    obtain ⟨t, ht⟩ := hsent.made w hw
    exact ht.symm.trans (hwrite t w.size)
  rw [Nat.zero_add] at htotal
  refine ⟨r.input, r.writes, hr.trans ?_⟩
  rw [← htotal, ← hout]

/-- The call with an offset copies from where `*offset`, taken for a `whence`, leads to, and always
leaves an offset of `1`. -/
theorem sendfile_x_offset_eq {env : Env} (hstat : env.fstat = some true)
    (hread : ∀ t n, env.read t n ≠ none) (hwrite : ∀ t n, env.write t n = some n) {input : File}
    {off : ℤ} {start : File} (hseek : input.lseek env.lseek seekSet (toInt off) = some start)
    (out : Bytes) (count : ℕ) :
    ∃ input' writes, sendfile_x env input out (some off) count =
      some ⟨(min count start.rest.length : ℕ), input',
        out ++ start.rest.take (min count start.rest.length), some 1, writes⟩ := by
  obtain ⟨input', writes, htransfer⟩ := transfer_complete hread hwrite count start out
  refine ⟨{ input' with pos := 1 }, writes, ?_⟩
  rw [sendfile_x, if_neg (by simp [hstat])]
  simp only [Option.elim_some, hseek, htransfer, Option.bind_some, lseek_seekCur]
  rfl

/-- The bytes from `*offset` on are written, their number is returned, and `*offset` is moved on by
it. -/
def Transfers (env : Env) (input : File) (out : Bytes) (off : ℤ) (count : ℕ) : Prop :=
  let amount := min count (input.content.length - off.toNat)
  ∃ r, sendfile_x env input out (some off) count = some r ∧ r.status = amount ∧
    r.out = out ++ (input.content.drop off.toNat).take amount ∧ r.offset = some (off + amount)

/-- The two cases in which the wrong arguments do no harm: one byte is copied from the start of the
file, or nothing from position `1`, where nothing is there to be copied or nothing is asked for. -/
def Harmless (input : File) (off : ℤ) (count : ℕ) : Prop :=
  (off = 0 ∧ min count input.content.length = 1) ∨
    (off = 1 ∧ (count = 0 ∨ (input.content.length ≤ 1 ∧ input.content.length ≤ input.pos)))

section Offset

variable {env : Env} {input start : File} {off : ℤ}

/-- What there is to show when the first `lseek` succeeds. -/
theorem transfers_iff (hstat : env.fstat = some true) (hread : ∀ t n, env.read t n ≠ none)
    (hwrite : ∀ t n, env.write t n = some n)
    (hseek : input.lseek env.lseek seekSet (toInt off) = some start) (out : Bytes) (count : ℕ) :
    Transfers env input out off count ↔
      min count start.rest.length = min count (input.content.length - off.toNat) ∧
        start.rest.take (min count start.rest.length) =
          (input.content.drop off.toNat).take (min count (input.content.length - off.toNat)) ∧
        1 = off + min count (input.content.length - off.toNat) := by
  obtain ⟨input', writes, hcall⟩ := sendfile_x_offset_eq hstat hread hwrite hseek out count
  simp only [Transfers, hcall, Option.some.injEq, exists_eq_left', List.append_cancel_left_eq,
    Int.natCast_inj]

theorem lseek_toInt_zero (other : ℤ → ℤ → Option ℕ) (f : File) :
    f.lseek other seekSet (toInt 0) = some { f with pos := 0 } := rfl

theorem lseek_toInt_one (other : ℤ → ℤ → Option ℕ) (f : File) :
    f.lseek other seekSet (toInt 1) = some f := by
  have hone : toInt 1 = seekCur := by decide
  rw [hone, File.lseek, if_neg (by decide), if_pos rfl, File.seekTo, seekSet, Int.add_zero,
    if_pos (Int.natCast_nonneg _), Int.toNat_natCast]

/-- From an offset above `1` on the call leads nowhere. -/
theorem not_transfers_of_two_le (hstat : env.fstat = some true)
    (hread : ∀ t n, env.read t n ≠ none) (hwrite : ∀ t n, env.write t n = some n) (hoff : 2 ≤ off)
    (out : Bytes) (count : ℕ) : ¬ Transfers env input out off count := by
  cases hseek : input.lseek env.lseek seekSet (toInt off) with
  | none =>
    rintro ⟨r, hr, hstatus, -⟩
    rw [sendfile_x, if_neg (by simp [hstat])] at hr
    simp only [Option.elim_some, hseek] at hr
    cases hr
    simp only [fnEr] at hstatus
    omega
  | some start =>
    rw [transfers_iff hstat hread hwrite hseek]
    rintro ⟨-, -, hone⟩
    omega

end Offset

/-- **With an offset the call does what it should in two cases only.** -/
theorem sendfile_x_offset_iff (env : Env) (hstat : env.fstat = some true)
    (hread : ∀ t n, env.read t n ≠ none) (hwrite : ∀ t n, env.write t n = some n) (input : File)
    (out : Bytes) (off : ℤ) (hoff : 0 ≤ off) (count : ℕ) :
    Transfers env input out off count ↔ Harmless input off count := by
  by_cases hbig : 2 ≤ off
  · refine iff_of_false (not_transfers_of_two_le hstat hread hwrite hbig out count) ?_
    rintro (⟨rfl, -⟩ | ⟨rfl, -⟩) <;> omega
  · obtain rfl | rfl : off = 0 ∨ off = 1 := by omega
    · -- `SEEK_SET` is where the copy should start
      rw [transfers_iff hstat hread hwrite (lseek_toInt_zero env.lseek input)]
      simp only [File.rest, Int.toNat_zero, List.drop_zero, Nat.sub_zero, true_and, Harmless]
      omega
    · -- `SEEK_CUR` is where the copy starts, and position 1 where it should
      have hlen := input.length_rest
      rw [transfers_iff hstat hread hwrite (lseek_toInt_one env.lseek input)]
      simp only [Harmless, Int.toNat_one]
      constructor
      · rintro ⟨hamount, -, hone⟩
        have hzero : min count (input.content.length - 1) = 0 := by omega
        rw [hzero] at hamount
        exact .inr ⟨trivial, by omega⟩
      · intro h
        have hzero : min count input.rest.length = 0 := by omega
        have hzero' : min count (input.content.length - 1) = 0 := by omega
        rw [hzero, hzero', List.take_zero, List.take_zero]
        exact ⟨rfl, rfl, rfl⟩

theorem sendfile_x_offset_iff_oneByte :
    Transfers pairs ⟨[104, 105], 0⟩ [] 0 1 :=
  (sendfile_x_offset_iff pairs rfl (by simp [pairs]) (fun _ _ => rfl) _ [] 0 (by decide) 1).mpr
    (.inl ⟨rfl, rfl⟩)

/-- Two bytes are sent from offset 0, but the offset is left at 1; from offset 2 on, which is
`SEEK_END`, nothing is sent; and offset 7 is an error. -/
theorem sendfile_x_offset_wrong :
    (sendfile_x pairs ⟨[104, 105, 33], 0⟩ [] (some 0) 2).map (fun r => (r.status, r.offset)) =
        some (2, some 1) ∧
      (sendfile_x pairs ⟨[104, 105, 33], 0⟩ [] (some 2) 1).map (fun r => (r.status, r.out)) =
        some (0, []) ∧
      (sendfile_x pairs ⟨[104, 105, 33], 0⟩ [] (some 7) 1).map (fun r => r.status) =
        some fnEr := by
  decide

end SendFile

end Tlpiexer
