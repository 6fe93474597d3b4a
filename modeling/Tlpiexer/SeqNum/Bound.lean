import Tlpiexer.Foundations.Transition
import Tlpiexer.SeqNum.Lbuf

/-!
# What `read_lbuf` copies

`read_lbuf` of `src/lib/59-01.c` never compares the length it copies with the caller's `size`. It
compares `lsize`, the number of bytes its scan has passed, and copies `seek - cur` bytes; that the
two are one number is nowhere in the code. They are counted in different places, and a refill moves
both pointers but not `lsize`.

`readLbuf` gives the array as the call leaves it, and an array has no room for more than `size`
bytes. So the call is cut before its last `memcpy`: `exitLoop` is the loop with the same branches,
which stops with what the call is about to do (`Exit`), and `readLbuf_eq` says that the call is
that, carried out.

## The states

A state is a line buffer with what its descriptor will still deliver. It starts as `init_lbuf`
leaves it, and a step is a call that has found a newline, with any `size`. A call that stops at the
end of the file is no step: it leaves `cur` behind `ebuf`.

## Main results

* `fetch_cases` — what the start of a round does to the two pointers
* `exists_exitLoop` — the loop invariant `seek = cur + lsize`, up to the exit
* `readLbuf_copies` — in every state, the call copies at most `size` bytes and returns their number
-/

namespace Tlpiexer

namespace SeqNum

open CString ByteStream Transition

/-- The end of a call of `read_lbuf`, before it touches the caller's array. -/
inductive Exit
  /-- It returns without a copy. -/
  | leave (ret : ℤ) (b : Lbuf) (conn : Conn)
  /-- It copies the bytes from `cur` to `seek`, where it has found a newline or the end of the
  file, and returns `lsize`. -/
  | copy (lsize : ℤ) (b : Lbuf) (seek : ℕ) (conn : Conn) (newline : Bool)

/-- The number of bytes the last `memcpy` is called with; none if it is not called. -/
def Exit.copied : Exit → ℕ
  | leave _ _ _ => 0
  | copy _ b seek _ _ => seek - b.cur

/-- Carry the exit out. -/
def Exit.finish {size : ℕ} (line : CharArray size) : Exit → ℤ × CharArray size × Lbuf × Conn
  | leave ret b conn => (ret, line, b, conn)
  | copy lsize b seek conn _ => (lsize, (copyLine b line seek).1, (copyLine b line seek).2, conn)

/-- The loop of `read_lbuf` up to the exit, with `readLoop`'s count of bytes it may still pass. -/
def exitLoop (size : ℕ) : ℕ → Conn → Lbuf → ℕ → Option Exit
  | 0, conn, b, _ => some (.leave fnEr b conn)
  | r + 1, conn, b, seek =>
    match fetch conn b seek with
    | .leave ret b conn => some (.leave ret b conn)
    | .endOfFile => some (.copy (size - r) b seek conn false)
    | .found b seek conn =>
      match b.buf.val[seek]? with
      | none => none
      | some c =>
        if c = 10 then some (.copy (size - r) b seek conn true)
        else exitLoop size r conn b (seek + 1)

/-- `read_lbuf` up to the exit. -/
def exit (size : ℕ) (conn : Conn) (b : Lbuf) : Option Exit := exitLoop size (size + 1) conn b b.cur

theorem readLoop_eq {size : ℕ} (line : CharArray size) (r : ℕ) (conn : Conn) (b : Lbuf)
    (seek : ℕ) :
    readLoop line r conn b seek = (exitLoop size r conn b seek).map (Exit.finish line) := by
  induction r generalizing conn b seek with
  | zero => rfl
  | succ r ih =>
    rw [readLoop, exitLoop]
    cases fetch conn b seek with
    | leave ret b conn => rfl
    | endOfFile => rfl
    | found b seek conn =>
      dsimp only
      cases b.buf.val[seek]? with
      | none => rfl
      | some c =>
        dsimp only
        split
        · rfl
        · exact ih conn b (seek + 1)

/-- **`read_lbuf` is its exit, carried out.** -/
theorem readLbuf_eq {size : ℕ} (line : CharArray size) (conn : Conn) (b : Lbuf) :
    readLbuf conn b line = (exit size conn b).map (Exit.finish line) :=
  readLoop_eq line (size + 1) conn b b.cur

/-! ### The loop invariant -/

/-- **The start of a round** leaves, or it stands at the end of the file, or it has a byte of the
buffer to look at. A refill moves `cur` and `seek` by the same distance. -/
theorem fetch_cases {b : Lbuf} {seek : ℕ} (hcur : b.cur ≤ seek) (hseek : seek ≤ bufSize)
    (conn : Conn) :
    (∃ ret b' conn', fetch conn b seek = .leave ret b' conn' ∧ (ret = fnEr ∨ ret = 0)) ∨
      fetch conn b seek = .endOfFile ∨
      ∃ b' seek' conn', fetch conn b seek = .found b' seek' conn' ∧ seek' < bufSize ∧
        b'.cur ≤ seek' ∧ seek' - b'.cur = seek - b.cur := by
  by_cases hend : seek = bufSize
  case neg =>
    exact .inr (.inr ⟨b, seek, conn, fetch_of_ne hend conn b, by omega, hcur, rfl⟩)
  subst hend
  have hrest := b.length_drop b.cur
  cases hefile : b.efile with
  | true => exact .inr (.inl (by rw [fetch, if_pos rfl, hefile]; rfl))
  | false =>
    rw [fetch, if_pos rfl, hefile]
    simp only [hrest]
    rcases hread : read (bufSize - (bufSize - b.cur)) conn with ⟨delivered, conn'⟩
    rcases delivered with - | - | ⟨c, data⟩
    · exact .inl ⟨_, _, _, rfl, .inl rfl⟩
    · exact .inl ⟨_, _, _, rfl, .inr rfl⟩
    · -- something was delivered, so there was room: the rest does not fill the buffer
      have hroom := length_le_of_read hread
      rw [List.length_cons] at hroom
      exact .inr (.inr ⟨_, _, _, rfl, by omega, Nat.zero_le _, Nat.sub_zero _⟩)

/-- What holds at the exit of a call with an array of `size` bytes: without a copy it answers
`FN_ER` or 0, and a copy takes at most `size` bytes, all of them from the buffer, and answers their
number. A newline is a byte of the buffer. -/
def Exit.Fits (size : ℕ) : Exit → Prop
  | leave ret _ _ => ret = fnEr ∨ ret = 0
  | copy lsize b seek _ newline =>
    seek - b.cur ≤ size ∧ lsize = (seek - b.cur : ℕ) ∧ b.cur ≤ seek ∧ seek ≤ bufSize ∧
      (newline = true → seek < bufSize)

/-- **The loop invariant.** The scan has passed `lsize = size + 1 - r` bytes, and these are the
bytes from `cur` to `seek`. -/
theorem exists_exitLoop {size r seek : ℕ} {b : Lbuf} (hcur : b.cur ≤ seek)
    (hseek : seek ≤ bufSize) (hpassed : seek - b.cur + r = size + 1) (conn : Conn) :
    ∃ e, exitLoop size r conn b seek = some e ∧ e.Fits size := by
  induction r generalizing conn b seek with
  | zero => exact ⟨_, rfl, .inl rfl⟩
  | succ r ih =>
    rcases fetch_cases hcur hseek conn with
      ⟨ret, b', conn', hfetch, hret⟩ | hfetch | ⟨b', seek', conn', hfetch, hlt, hcur', hsame⟩
    · exact ⟨.leave ret b' conn', by rw [exitLoop, hfetch], hret⟩
    · refine ⟨.copy (size - r) b seek conn false, by rw [exitLoop, hfetch], ?_⟩
      exact ⟨by omega, by omega, hcur, hseek, nofun⟩
    · have hbyte : seek' < b'.buf.val.length := by rw [b'.buf.property]; exact hlt
      rw [exitLoop, hfetch]
      simp only [List.getElem?_eq_getElem hbyte]
      split
      · exact ⟨_, rfl, by omega, by omega, hcur', by omega, fun _ => hlt⟩
      · exact ih (by omega) (by omega) (by omega) conn'

/-- A call that starts in the buffer has an exit, which fits. -/
theorem exists_exit {b : Lbuf} (hcur : b.cur ≤ bufSize) (size : ℕ) (conn : Conn) :
    ∃ e, exit size conn b = some e ∧ e.Fits size :=
  exists_exitLoop (Nat.le_refl _) hcur (by omega) conn

/-! ### Calls one after the other -/

/-- The calls on one line buffer: a label is the `size` of a call that finds a newline. -/
def calls : Machine (Lbuf × Conn) ℕ where
  init s := ∃ conn b, initLbuf conn b = (fnOk, s)
  step s size :=
    match exit size s.2 s.1 with
    | some (.copy _ b seek conn true) => some ({ b with cur := seek + 1 }, conn)
    | _ => none

theorem cur_of_init {s : Lbuf × Conn} (h : calls.init s) : s.1.cur = 0 := by
  obtain ⟨conn, b, h⟩ := h
  rw [initLbuf] at h
  split at h
  · cases h
  · cases h
    rfl

/-- A call that finds a newline leaves `cur` behind it, which is still in the buffer or at its
end. -/
theorem cur_of_step {s t : Lbuf × Conn} {size : ℕ} (hcur : s.1.cur ≤ bufSize)
    (h : calls.step s size = some t) : t.1.cur ≤ bufSize := by
  obtain ⟨e, he, hfits⟩ := exists_exit hcur size s.2
  simp only [calls, he] at h
  split at h
  · next heq =>
    cases heq
    cases h
    exact hfits.2.2.2.2 rfl
  · cases h

theorem cur_le_of_reachable {s : Lbuf × Conn} (h : calls.Reachable s) : s.1.cur ≤ bufSize :=
  h.invariant (fun _ h0 => by rw [cur_of_init h0]; exact Nat.zero_le _)
    fun _ _ _ hcur hstep => cur_of_step hcur hstep

theorem val_copyLine {b : Lbuf} {size seek : ℕ} (line : CharArray size) (hseek : seek ≤ bufSize)
    (hsize : seek - b.cur ≤ size) :
    (copyLine b line seek).1.val =
      (b.buf.val.drop b.cur).take (seek - b.cur) ++ line.val.drop (seek - b.cur) := by
  have hlen : ((b.buf.val.drop b.cur).take (seek - b.cur)).length = seek - b.cur := by
    rw [List.length_take, b.length_drop]
    omega
  rw [copyLine, CharArray.val_ofBytes_overlay line (hlen.trans_le hsize), overlay, hlen]

/-- **What a call copies.** After `init_lbuf` and any calls that found a newline, and whatever the
descriptor delivers from then on, a call copies at most `size` bytes. It leaves the caller's array
alone and answers `FN_ER` or 0; or it answers the number of bytes it has copied, and the array
starts with the bytes of the buffer from `cur` to `seek` and is as before behind them. -/
theorem readLbuf_copies {s : Lbuf × Conn} (h : calls.Reachable s) (size : ℕ)
    (line : CharArray size) (conn : Conn) :
    ∃ e, exit size conn s.1 = some e ∧ readLbuf conn s.1 line = some (e.finish line) ∧
      e.copied ≤ size ∧
      ((∃ ret b' conn', e = .leave ret b' conn' ∧ (ret = fnEr ∨ ret = 0) ∧
          e.finish line = (ret, line, b', conn')) ∨
        (∃ lsize b' seek conn' newline, e = .copy lsize b' seek conn' newline ∧
          b'.cur ≤ seek ∧ seek ≤ bufSize ∧ (e.finish line).1 = e.copied ∧
          (e.finish line).2.1.val =
            (b'.buf.val.drop b'.cur).take (seek - b'.cur) ++ line.val.drop e.copied)) := by
  obtain ⟨e, he, hfits⟩ := exists_exit (cur_le_of_reachable h) size conn
  refine ⟨e, he, by rw [readLbuf_eq, he]; rfl, ?_⟩
  cases e with
  | leave ret b' conn' => exact ⟨Nat.zero_le size, .inl ⟨ret, b', conn', rfl, hfits, rfl⟩⟩
  | copy lsize b' seek conn' newline =>
    obtain ⟨hsize, hlsize, hcur, hseek, -⟩ := hfits
    exact ⟨hsize, .inr ⟨lsize, b', seek, conn', newline, rfl, hcur, hseek, hlsize,
      val_copyLine line hseek hsize⟩⟩

/-- `"ab\ncd\n"`, delivered by one `read`. -/
def twoLines : Conn := [some [97, 98, 10, 99, 100, 10]]

/-- A line buffer before it is initialised. -/
def blankLbuf : Lbuf := ⟨false, .ofBytes bufSize [], 0⟩

/-- The call for the second line. -/
theorem readLbuf_copies_second :
    ∃ s, calls.exec (initLbuf twoLines blankLbuf).2 [8] = some s ∧
      ∃ e, exit 8 s.2 s.1 = some e ∧ e.copied = 2 ∧
        readLbuf s.2 s.1 (.ofBytes 8 []) = some (e.finish (.ofBytes 8 [])) ∧ e.copied ≤ 8 := by
  obtain ⟨s, hs, hcopied⟩ : ∃ s, calls.exec (initLbuf twoLines blankLbuf).2 [8] = some s ∧
      (exit 8 s.2 s.1).map Exit.copied = some 2 :=
    Option.map_eq_some_iff.mp
      (by decide +kernel : (calls.exec (initLbuf twoLines blankLbuf).2 [8]).map
        (fun s => (exit 8 s.2 s.1).map Exit.copied) = some (some 2))
  have hreach : calls.Reachable s :=
    Machine.reachable_of_exec ⟨twoLines, blankLbuf, rfl⟩ hs
  obtain ⟨e, he, hread, hle, -⟩ := readLbuf_copies hreach 8 (.ofBytes 8 []) s.2
  rw [he, Option.map_some, Option.some.injEq] at hcopied
  exact ⟨s, hs, e, he, hcopied, hread, hle⟩

end SeqNum

end Tlpiexer
