import Mathlib.Algebra.Ring.Int.Defs
import Tlpiexer.Constants
import Tlpiexer.Foundations.ByteStream
import Tlpiexer.Foundations.CString

/-!
# The line buffer

`init_lbuf` and `read_lbuf` of `src/lib/59-01.c`, with `struct lbuf` of `include/tlpiexer/59-01.h`.
The pointers `cur` and `seek` are offsets into `buf`, and `ebuf` is the offset behind its end.

A connection is what its `read`s will deliver (`ByteStream.Conn`), and a function that reads gives
back what is left of it. The scan of `read_lbuf` counts the bytes it passes and gives up when they
are more than the caller's array has, so it needs no bound from outside: `readLoop` recurses on the
number of bytes it may still pass. Looking at a byte behind `ebuf` has no answer.

## Main results

* `readLbuf_newline` — a line that is in the buffer is copied to the caller, without a NUL
* `exists_readLbuf_refill` — a line that one more `read` completes
-/

namespace Tlpiexer

namespace SeqNum

open CString ByteStream

/-- `BUF_SIZE`. -/
abbrev bufSize : ℕ := 2048

/-- `struct lbuf` without the descriptor. -/
structure Lbuf where
  efile : Bool
  buf : CharArray bufSize
  cur : ℕ

/-- `init_lbuf`. -/
def initLbuf (conn : Conn) (b : Lbuf) : ℤ × Lbuf × Conn :=
  match read bufSize conn with
  | (none, conn) => (fnEr, b, conn)
  | (some data, conn) =>
    (fnOk,
      { efile := data.length < bufSize, buf := .ofBytes _ (overlay b.buf.val data), cur := 0 },
      conn)

/-- What stands before a byte can be looked at. -/
inductive Fetch
  /-- It is in the buffer, at an offset. -/
  | found (b : Lbuf) (seek : ℕ) (conn : Conn)
  /-- The file has ended, which counts as a newline. -/
  | endOfFile
  /-- `read_lbuf` returns. -/
  | leave (ret : ℤ) (b : Lbuf) (conn : Conn)

/-- The start of a round of `read_lbuf`: at the end of the buffer, move the rest of the data to
its start and read on behind it. The source moves it by `memcpy`, whose result is undefined if the
two places overlap, that is, if the rest is longer than what is in front of it; the model takes it
for a `memmove`. -/
def fetch (conn : Conn) (b : Lbuf) (seek : ℕ) : Fetch :=
  if seek = bufSize then
    if b.efile then .endOfFile
    else
      let rest := b.buf.val.drop b.cur
      let b := { b with buf := .ofBytes _ (overlay b.buf.val rest) }
      match read (bufSize - rest.length) conn with
      | (none, conn) => .leave fnEr b conn
      | (some [], conn) => .leave 0 { b with efile := true } conn
      | (some data, conn) =>
        .found { b with buf := .ofBytes _ (overlay b.buf.val (rest ++ data)), cur := 0 } rest.length
          conn
  else .found b seek conn

section ReadLine

variable {size : ℕ}

/-- The end of `read_lbuf`: copy the bytes from `cur` to `seek`, and skip the newline. -/
def copyLine (b : Lbuf) (line : CharArray size) (seek : ℕ) : CharArray size × Lbuf :=
  (.ofBytes _ (overlay line.val ((b.buf.val.drop b.cur).take (seek - b.cur))),
    { b with cur := seek + 1 })

/-- The loop of `read_lbuf`, which may pass `r` more bytes: `lsize` is `size + 1 - r`. -/
def readLoop (line : CharArray size) :
    ℕ → Conn → Lbuf → ℕ → Option (ℤ × CharArray size × Lbuf × Conn)
  | 0, conn, b, _ => some (fnEr, line, b, conn)
  | r + 1, conn, b, seek =>
    match fetch conn b seek with
    | .leave ret b conn => some (ret, line, b, conn)
    | .endOfFile =>
      let (line, b) := copyLine b line seek
      some (size - r, line, b, conn)
    | .found b seek conn =>
      match b.buf.val[seek]? with
      | none => none
      | some c =>
        if c = 10 then
          let (line, b) := copyLine b line seek
          some (size - r, line, b, conn)
        else readLoop line r conn b (seek + 1)

/-- `read_lbuf`. -/
def readLbuf (conn : Conn) (b : Lbuf) (line : CharArray size) :
    Option (ℤ × CharArray size × Lbuf × Conn) :=
  readLoop line (size + 1) conn b b.cur

/-! ### A line in the buffer -/

theorem fetch_of_ne {seek : ℕ} (h : seek ≠ bufSize) (conn : Conn) (b : Lbuf) :
    fetch conn b seek = .found b seek conn := by
  rw [fetch, if_neg h]

theorem Lbuf.length_drop (b : Lbuf) (n : ℕ) : (b.buf.val.drop n).length = bufSize - n := by
  rw [List.length_drop, b.buf.property]

/-- The byte at `seek`, if the buffer goes on from there. -/
theorem Lbuf.of_drop_eq_cons {b : Lbuf} {seek : ℕ} {c : UInt8} {t : Bytes}
    (h : b.buf.val.drop seek = c :: t) :
    seek ≠ bufSize ∧ b.buf.val[seek]? = some c ∧ b.buf.val.drop (seek + 1) = t := by
  have hlen := congrArg List.length h
  rw [b.length_drop, List.length_cons] at hlen
  refine ⟨by omega, ?_, ?_⟩
  · have hhead := congrArg List.head? h
    rwa [List.head?_drop, List.head?_cons] at hhead
  · rw [← List.drop_drop, h]
    rfl

/-- The loop passes bytes that are no newlines. -/
theorem readLoop_append {conn : Conn} {line : CharArray size} {b : Lbuf} {w t : Bytes}
    {r seek : ℕ} (hbuf : b.buf.val.drop seek = w ++ t) (hw : (10 : UInt8) ∉ w) :
    readLoop line (w.length + r) conn b seek = readLoop line r conn b (seek + w.length) := by
  induction w generalizing seek with
  | nil => rw [List.length_nil, Nat.zero_add, Nat.add_zero]
  | cons c w ih =>
    obtain ⟨hne, hc, htail⟩ := Lbuf.of_drop_eq_cons hbuf
    have hc10 : c ≠ 10 := fun h => hw (by simp [h])
    have hrest := ih htail fun h => hw (List.mem_cons_of_mem _ h)
    rw [show (c :: w).length + r = w.length + r + 1 by rw [List.length_cons]; omega, readLoop,
      fetch_of_ne hne]
    simp only [hc, if_neg hc10, hrest]
    rw [show seek + 1 + w.length = seek + (w.length + 1) by omega]
    rfl

/-- It stops at the newline. -/
theorem readLoop_newline {conn : Conn} {line : CharArray size} {b : Lbuf} {w t : Bytes}
    {r seek : ℕ} (hbuf : b.buf.val.drop seek = w ++ 10 :: t) (hw : (10 : UInt8) ∉ w) :
    readLoop line (w.length + (r + 1)) conn b seek =
      some ((size : ℤ) - r, (copyLine b line (seek + w.length)).1,
        (copyLine b line (seek + w.length)).2, conn) := by
  have hdrop : b.buf.val.drop (seek + w.length) = 10 :: t := by
    rw [← List.drop_drop, hbuf, List.drop_left]
  obtain ⟨hne, hc, -⟩ := Lbuf.of_drop_eq_cons hdrop
  rw [readLoop_append hbuf hw, readLoop, fetch_of_ne hne]
  simp only [hc, if_true]

/-- `init_lbuf` puts what the first `read` delivers at the start of the buffer. -/
theorem exists_initLbuf {conn : Conn} {w : Bytes} (hconn : conn.head? = some (some (w ++ [10])))
    (hfit : w.length < bufSize) (b : Lbuf) :
    ∃ b' t, initLbuf conn b = (fnOk, b', conn.tail) ∧ b'.cur = 0 ∧ b'.buf.val = w ++ 10 :: t := by
  obtain ⟨conn, rfl⟩ : ∃ rest, conn = some (w ++ [10]) :: rest := List.head?_eq_some_iff.mp hconn
  have hle : (w ++ [10]).length ≤ bufSize := by
    rw [List.length_append, List.length_singleton]
    omega
  have hread : read bufSize (some (w ++ [10]) :: conn) = (some (w ++ [10]), conn) := if_pos hle
  refine ⟨_, b.buf.val.drop (w ++ [10]).length, by rw [initLbuf, hread]; rfl, rfl, ?_⟩
  rw [CharArray.val_ofBytes_overlay b.buf hle, overlay, List.append_assoc, List.singleton_append]

/-- **A line in the buffer.** `read_lbuf` answers its length and writes its bytes over the start
of the caller's array; what was in the array behind them is still there. -/
theorem readLbuf_newline {b : Lbuf} {w t : Bytes} (hbuf : b.buf.val.drop b.cur = w ++ 10 :: t)
    (hw : (10 : UInt8) ∉ w) (hsize : w.length ≤ size) (conn : Conn) (line : CharArray size) :
    readLbuf conn b line =
      some ((w.length : ℤ), .ofBytes _ (overlay line.val w), { b with cur := b.cur + w.length + 1 },
        conn) := by
  obtain ⟨r, rfl⟩ : ∃ r, size = w.length + r := ⟨size - w.length, by omega⟩
  rw [readLbuf, Nat.add_assoc, readLoop_newline hbuf hw, copyLine, hbuf,
    show b.cur + w.length - b.cur = w.length by omega, List.take_left]
  congr 2
  omega

/-! ### The end of the buffer -/

/-- At the end of the buffer, a `read` that delivers something puts it behind the rest of the
data, which has moved to the start. -/
theorem exists_fetch_refill {conn conn' : Conn} {b : Lbuf} {data : Bytes}
    (hcur : b.cur ≤ bufSize) (hefile : b.efile = false)
    (hread : read b.cur conn = (some data, conn')) (hne : data ≠ [])
    (hlen : data.length ≤ b.cur) :
    ∃ b', fetch conn b bufSize = .found b' (bufSize - b.cur) conn' ∧ b'.cur = 0 ∧
      b.buf.val.drop b.cur ++ data <+: b'.buf.val := by
  have hrest := b.length_drop b.cur
  have hread' : read (bufSize - (bufSize - b.cur)) conn = (some data, conn') := by
    rw [show bufSize - (bufSize - b.cur) = b.cur by omega, hread]
  have hfit : (b.buf.val.drop b.cur ++ data).length ≤ bufSize := by
    rw [List.length_append, hrest]
    omega
  obtain ⟨c, data, rfl⟩ := List.exists_cons_of_ne_nil hne
  refine ⟨_, by rw [fetch, if_pos rfl, hefile]; simp only [hrest, hread']; rfl, rfl, ?_⟩
  rw [CharArray.val_ofBytes_overlay _ hfit]
  exact List.prefix_append _ _

/-- After a refill the loop goes on as if it had started behind it. -/
theorem readLoop_of_fetch {conn conn' : Conn} {line : CharArray size} {b b' : Lbuf}
    {r seek seek' : ℕ} (hfetch : fetch conn b seek = .found b' seek' conn')
    (hne : seek' ≠ bufSize) :
    readLoop line (r + 1) conn b seek = readLoop line (r + 1) conn' b' seek' := by
  rw [readLoop, readLoop, hfetch, fetch_of_ne hne]

/-- **A line across a refill.** The line starts in the rest of the buffer and ends in what one more
`read` delivers. -/
theorem exists_readLbuf_refill {conn conn' : Conn} {b : Lbuf} {v t : Bytes}
    (hcur : b.cur ≤ bufSize) (hefile : b.efile = false)
    (hread : read b.cur conn = (some (v ++ 10 :: t), conn'))
    (hlen : (v ++ 10 :: t).length ≤ b.cur) (hw : (10 : UInt8) ∉ b.buf.val.drop b.cur ++ v)
    (hsize : (b.buf.val.drop b.cur ++ v).length ≤ size) (line : CharArray size) :
    ∃ b', readLbuf conn b line =
        some (((b.buf.val.drop b.cur ++ v).length : ℤ),
          .ofBytes _ (overlay line.val (b.buf.val.drop b.cur ++ v)), b', conn') ∧
      b'.cur = (b.buf.val.drop b.cur ++ v).length + 1 ∧
      b.buf.val.drop b.cur ++ (v ++ 10 :: t) <+: b'.buf.val := by
  obtain ⟨b', hfetch, hcur', hbuf'⟩ := exists_fetch_refill hcur hefile hread (by simp) hlen
  obtain ⟨stale, hstale⟩ := hbuf'
  have hrest := b.length_drop b.cur
  have hdrop : b'.buf.val.drop (bufSize - b.cur) = v ++ 10 :: (t ++ stale) := by
    rw [← hstale, List.append_assoc, ← hrest, List.drop_left, List.append_assoc, List.cons_append]
  obtain ⟨hrest10, hv⟩ := not_or.mp (List.mem_append.not.mp hw)
  obtain ⟨r, hr⟩ : ∃ r, size = (b.buf.val.drop b.cur).length + (v.length + r) := by
    rw [List.length_append] at hsize
    exact ⟨size - ((b.buf.val.drop b.cur).length + v.length), by omega⟩
  have hne : bufSize - b.cur ≠ bufSize := by
    rw [List.length_append, List.length_cons] at hlen
    omega
  -- the rest of the buffer, the refill, and what the refill has brought
  have hloop : readLbuf conn b line =
      some ((size : ℤ) - r, (copyLine b' line (bufSize - b.cur + v.length)).1,
        (copyLine b' line (bufSize - b.cur + v.length)).2, conn') := by
    rw [readLbuf, show size + 1 = (b.buf.val.drop b.cur).length + (v.length + r + 1) by omega,
      readLoop_append (List.append_nil _).symm hrest10, hrest,
      show b.cur + (bufSize - b.cur) = bufSize by omega, readLoop_of_fetch hfetch hne,
      Nat.add_assoc v.length, readLoop_newline hdrop hv]
  have hcopied : (b'.buf.val.drop b'.cur).take (bufSize - b.cur + v.length - b'.cur) =
      b.buf.val.drop b.cur ++ v := by
    rw [hcur', List.drop_zero, Nat.sub_zero, ← hrest, ← List.length_append, ← hstale,
      ← List.append_assoc, List.append_assoc _ _ stale, List.take_left]
  refine ⟨(copyLine b' line (bufSize - b.cur + v.length)).2, ?_, ?_, ⟨stale, hstale⟩⟩
  · rw [hloop, copyLine, hcopied, List.length_append]
    congr 2
    omega
  · rw [List.length_append, hrest]
    rfl

/-- Where the buffer is used up and nothing comes any more, `read_lbuf` answers 0. -/
theorem exists_readLbuf_nil {b : Lbuf} (hcur : b.cur = bufSize) (line : CharArray size) :
    ∃ line' b', readLbuf [] b line = some (0, line', b', []) ∧ bufSize ≤ b'.cur := by
  rw [readLbuf, readLoop, fetch, if_pos hcur]
  cases b.efile with
  | true =>
    refine ⟨(copyLine b line b.cur).1, (copyLine b line b.cur).2, ?_, ?_⟩
    · simp
    · exact hcur ▸ Nat.le_succ bufSize
  | false => exact ⟨line, _, rfl, Nat.le_of_eq hcur.symm⟩

end ReadLine

end SeqNum

end Tlpiexer
