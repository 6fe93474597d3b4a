import Tlpiexer.Foundations.Transition
import Tlpiexer.SeqNum.Lbuf

/-!
# Reading a stream line by line

Successive calls of `read_lbuf` after `init_lbuf`, on a connection whose `read`s deliver the stream
in pieces of any sizes.

## The end of the data

`ebuf` is the end of the array, not the end of what `read` has put there, and `efile` is set where
the first `read` is short. So `read_lbuf` is right as long as it finds its newline among bytes that
came from the connection, and not otherwise: behind a short `read` it goes on with whatever the
array held before, and it never asks for more when the first `read` was short. At the end of the
file it drops a last line without newline, and the second call after that looks behind the array.

`fill` counts the bytes of the array that came from the connection; it is not a variable of the
program. `Ready` says when a call is right, in terms of the state it is made in: the newline is
there already, or the array is full and one more `read` brings it, or the stream and the array are
used up.

## Main results

* `SeqNum.lines_of_ready` — what calls return that are all made in such states
* `SeqNum.not_lines` — what they return in general is something else
-/

namespace Tlpiexer

namespace SeqNum

open CString ByteStream Transition

/-! ### Lines -/

/-- The first line of a stream, without its newline. -/
def firstLine (s : Bytes) : Bytes := s.takeWhile (· ≠ 10)

/-- What follows the first line and its newline. -/
def afterLine (s : Bytes) : Bytes := s.drop ((firstLine s).length + 1)

/-- The first `n` lines of a stream; there are empty lines behind its end. -/
def lines : ℕ → Bytes → List Bytes
  | 0, _ => []
  | n + 1, s => firstLine s :: lines n (afterLine s)

/-- What follows the first `n` lines. -/
def afterLines : ℕ → Bytes → Bytes
  | 0, s => s
  | n + 1, s => afterLines n (afterLine s)

theorem lines_succ (n : ℕ) : ∀ s, lines (n + 1) s = lines n s ++ [firstLine (afterLines n s)] := by
  induction n with
  | zero => intro s; rfl
  | succ n ih =>
    intro s
    rw [lines, ih, lines, afterLines, List.cons_append]

theorem afterLines_succ (n : ℕ) : ∀ s, afterLines (n + 1) s = afterLine (afterLines n s) := by
  induction n with
  | zero => intro s; rfl
  | succ n ih =>
    intro s
    rw [afterLines, ih, afterLines]

theorem firstLine_append {w : Bytes} (hw : (10 : UInt8) ∉ w) (t : Bytes) :
    firstLine (w ++ 10 :: t) = w := by
  rw [firstLine, List.takeWhile_append_of_pos fun b hb => ?_]
  · simp
  · have hb10 : b ≠ 10 := fun h => hw (h ▸ hb)
    simpa using hb10

theorem drop_line (w t : Bytes) : (w ++ 10 :: t).drop (w.length + 1) = t := by
  rw [List.drop_length_add_append, List.drop_one, List.tail_cons]

theorem afterLine_append {w : Bytes} (hw : (10 : UInt8) ∉ w) (t : Bytes) :
    afterLine (w ++ 10 :: t) = t := by
  rw [afterLine, firstLine_append hw, drop_line]

/-- Data with a newline is a line, the newline, and the rest. -/
theorem exists_eq_line_append {s : Bytes} (h : (10 : UInt8) ∈ s) :
    ∃ w t, s = w ++ 10 :: t ∧ (10 : UInt8) ∉ w := by
  induction s with
  | nil => simp at h
  | cons b s ih =>
    by_cases hb : b = 10
    · exact ⟨[], s, by rw [hb]; rfl, by simp⟩
    · obtain ⟨w, t, rfl, hw⟩ := ih (by simpa [Ne.symm hb] using h)
      refine ⟨b :: w, t, rfl, ?_⟩
      simp [Ne.symm hb, hw]

/-! ### Calls of `read_lbuf` -/

/-- The variables of a program that reads lines into an array of `size` bytes. -/
structure Reader (size : ℕ) where
  lbuf : Lbuf
  conn : Conn
  line : CharArray size
  /-- The bytes of `lbuf.buf` that came from the connection. -/
  fill : ℕ
  /-- What the calls have returned, and the bytes they have put into `line`. -/
  results : List (ℤ × Bytes)

variable {size : ℕ}

/-- A call of `read_lbuf`. -/
def Reader.call (r : Reader size) : Option (Reader size) :=
  (readLbuf r.conn r.lbuf r.line).map fun (ret, line, lbuf, conn) =>
    let got := (content r.conn).length - (content conn).length
    { lbuf := lbuf
      conn := conn
      line := line
      fill := if got = 0 then r.fill else bufSize - r.lbuf.cur + got
      results := r.results ++ [(ret, line.val.take ret.toNat)] }

/-- After `init_lbuf`. -/
def startReader (conn : Conn) (b : Lbuf) (line : CharArray size) : Reader size :=
  let (_, lbuf, conn') := initLbuf conn b
  ⟨lbuf, conn', line, (content conn).length - (content conn').length, []⟩

/-- What a call that reads a line returns. -/
def result (w : Bytes) : ℤ × Bytes := (w.length, w)

/-- The system: one call after the other. -/
def readerMachine (size : ℕ) : Machine (Reader size) Unit where
  init r := ∃ conn b line, Regular conn ∧ r = startReader conn b line
  step r _ := r.call

/-- The bytes of the buffer that came from the connection and are not used up. -/
def Reader.unused (r : Reader size) : Bytes := (r.lbuf.buf.val.take r.fill).drop r.lbuf.cur

/-- What is left of the stream. -/
def Reader.pending (r : Reader size) : Bytes := r.unused ++ content r.conn

/-- The next newline is in the buffer; or the buffer is full and one more `read` brings it; or
buffer and stream are used up. -/
def Reader.Ready (r : Reader size) : Prop :=
  (10 : UInt8) ∈ r.unused ∨
  (r.fill = bufSize ∧ r.lbuf.cur ≤ bufSize ∧ r.lbuf.efile = false ∧
    ∃ data conn, read r.lbuf.cur r.conn = (some data, conn) ∧ (10 : UInt8) ∈ data) ∨
  (r.fill = bufSize ∧ r.lbuf.cur = bufSize ∧ content r.conn = [])

/-- A call in `r` reads the next line of what is left, and leaves `r'`. -/
structure Reader.Reads (r r' : Reader size) : Prop where
  regular : Regular r'.conn
  fill_le : r'.fill ≤ bufSize
  pending : r'.pending = afterLine r.pending
  results : r'.results = r.results ++ [result (firstLine r.pending)]

theorem Reader.call_eq {r : Reader size} {ret : ℤ} {line : CharArray size} {b : Lbuf} {conn : Conn}
    (h : readLbuf r.conn r.lbuf r.line = some (ret, line, b, conn)) :
    r.call = some
      { lbuf := b
        conn := conn
        line := line
        fill := if (content r.conn).length - (content conn).length = 0 then r.fill
          else bufSize - r.lbuf.cur + ((content r.conn).length - (content conn).length)
        results := r.results ++ [(ret, line.val.take ret.toNat)] } := by
  rw [Reader.call, h]
  rfl

theorem result_eq {w : Bytes} (h : w.length ≤ size) (line : CharArray size) :
    ((w.length : ℤ), (CharArray.ofBytes size (overlay line.val w)).val.take (w.length : ℤ).toNat) =
      result w := by
  rw [Int.toNat_natCast, CharArray.take_ofBytes_overlay line h, result]

/-- The line is in the buffer. -/
theorem Reader.call_of_mem {r : Reader size} (hconn : Regular r.conn) (hfill : r.fill ≤ bufSize)
    (hsize : (firstLine r.pending).length ≤ size) (h : (10 : UInt8) ∈ r.unused) :
    ∃ r', r.call = some r' ∧ r.Reads r' := by
  obtain ⟨w, t, hunused, hw⟩ := exists_eq_line_append h
  have hpending : r.pending = w ++ 10 :: (t ++ content r.conn) := by
    rw [Reader.pending, hunused, List.append_assoc, List.cons_append]
  rw [hpending, firstLine_append hw] at hsize
  -- what came from the connection is a part of what is in the array
  have hbuf : r.lbuf.buf.val.drop r.lbuf.cur = w ++ 10 :: (t ++ r.lbuf.buf.val.drop r.fill) := by
    have hcur : r.lbuf.cur ≤ (r.lbuf.buf.val.take r.fill).length := by
      by_contra hlt
      have hnil : r.unused = [] := List.drop_eq_nil_of_le (by omega)
      simp [hnil] at h
    rw [← List.cons_append, ← List.append_assoc, ← hunused, Reader.unused,
      ← List.drop_append_of_le_length hcur, List.take_append_drop]
  refine ⟨_, Reader.call_eq (readLbuf_newline hbuf hw hsize r.conn r.line), hconn, ?_, ?_, ?_⟩
  · simpa using hfill
  · rw [hpending, afterLine_append hw]
    simp only [Reader.pending, Reader.unused, Nat.sub_self, if_true]
    rw [Nat.add_assoc, ← List.drop_drop, ← Reader.unused, hunused, drop_line]
  · rw [hpending, firstLine_append hw, ← result_eq hsize r.line]

/-- The line ends in what the next `read` brings. -/
theorem Reader.call_of_refill {r : Reader size} (hconn : Regular r.conn)
    (hsize : (firstLine r.pending).length ≤ size) (hunused : (10 : UInt8) ∉ r.unused)
    (hfill : r.fill = bufSize) (hcur : r.lbuf.cur ≤ bufSize) (hefile : r.lbuf.efile = false)
    {data : Bytes} {conn : Conn} (hread : read r.lbuf.cur r.conn = (some data, conn))
    (hdata : (10 : UInt8) ∈ data) : ∃ r', r.call = some r' ∧ r.Reads r' := by
  obtain ⟨v, t, rfl, hv⟩ := exists_eq_line_append hdata
  obtain ⟨data', conn', hread', hconn', hcontent, hlen, -⟩ := read_regular hconn r.lbuf.cur
  obtain ⟨rfl, rfl⟩ : data' = v ++ 10 :: t ∧ conn' = conn := by
    rw [hread, Prod.mk.injEq, Option.some.injEq] at hread'
    exact ⟨hread'.1.symm, hread'.2.symm⟩
  -- the array is full, so all behind `cur` came from the connection
  have hrest : r.unused = r.lbuf.buf.val.drop r.lbuf.cur := by
    rw [Reader.unused, hfill, List.take_of_length_le (Nat.le_of_eq r.lbuf.buf.property)]
  have hrestlen : r.unused.length = bufSize - r.lbuf.cur := by
    rw [hrest, r.lbuf.length_drop]
  have hw : (10 : UInt8) ∉ r.unused ++ v := by
    rw [List.mem_append]
    exact not_or.mpr ⟨hunused, hv⟩
  have hpending : r.pending = (r.unused ++ v) ++ 10 :: (t ++ content conn') := by
    rw [Reader.pending, hcontent]
    simp
  rw [hpending, firstLine_append hw] at hsize
  obtain ⟨b, hcall, hbcur, hbuf⟩ :=
    exists_readLbuf_refill hcur hefile hread hlen (hrest ▸ hw) (hrest ▸ hsize) r.line
  rw [← hrest] at hcall hbcur hbuf
  have hgot : (content r.conn).length - (content conn').length = (v ++ 10 :: t).length := by
    rw [hcontent, List.length_append, Nat.add_sub_cancel]
  have hpos : (v ++ 10 :: t).length ≠ 0 := by simp
  refine ⟨_, Reader.call_eq hcall, hconn', ?_, ?_, ?_⟩
  · rw [hgot, if_neg hpos]
    exact show bufSize - r.lbuf.cur + (v ++ 10 :: t).length ≤ bufSize by omega
  · rw [hpending, afterLine_append hw]
    simp only [Reader.pending]
    rw [Reader.unused, hgot, if_neg hpos, hbcur, ← hrestlen, ← List.length_append,
      ← List.prefix_iff_eq_take.mp hbuf, ← List.append_assoc, drop_line]
  · rw [hpending, firstLine_append hw, ← result_eq hsize r.line]

/-- Nothing is left. -/
theorem Reader.call_of_nil {r : Reader size} (hconn : Regular r.conn) (hfill : r.fill = bufSize)
    (hcur : r.lbuf.cur = bufSize) (hnil : content r.conn = []) :
    ∃ r', r.call = some r' ∧ r.Reads r' := by
  have hconn' := eq_nil_of_content_eq_nil hconn hnil
  have hpending : r.pending = [] := by
    rw [Reader.pending, hnil, List.append_nil, Reader.unused]
    exact List.drop_eq_nil_of_le (by rw [List.length_take]; omega)
  obtain ⟨line, b, hcall, hb⟩ := exists_readLbuf_nil hcur r.line
  rw [← hconn'] at hcall
  have hused (n : ℕ) : (b.buf.val.take n).drop b.cur = [] :=
    List.drop_eq_nil_of_le (by rw [List.length_take, b.buf.property]; omega)
  refine ⟨_, Reader.call_eq hcall, hconn, ?_, ?_, ?_⟩
  · rw [Nat.sub_self, if_pos rfl]
    exact Nat.le_of_eq hfill
  · rw [hpending]
    simp only [Reader.pending]
    rw [Reader.unused, hnil, List.append_nil, hused]
    rfl
  · rw [hpending]
    rfl

/-- **A call in a ready state** returns the next line. -/
theorem Reader.call_of_ready {r : Reader size} (hconn : Regular r.conn) (hfill : r.fill ≤ bufSize)
    (hsize : (firstLine r.pending).length ≤ size) (hready : r.Ready) :
    ∃ r', r.call = some r' ∧ r.Reads r' := by
  by_cases hmem : (10 : UInt8) ∈ r.unused
  · exact Reader.call_of_mem hconn hfill hsize hmem
  · obtain hmem' | ⟨hfull, hcur, hefile, data, conn, hread, hdata⟩ | ⟨hfull, hcur, hnil⟩ := hready
    · exact absurd hmem' hmem
    · exact Reader.call_of_refill hconn hsize hmem hfull hcur hefile hread hdata
    · exact Reader.call_of_nil hconn hfull hcur hnil

/-! ### A whole stream -/

/-- No line of the stream has more than `size` bytes. -/
def Fits (size : ℕ) (s : Bytes) : Prop := ∀ n, ∀ w ∈ lines n s, w.length ≤ size

theorem Fits.firstLine_le {s : Bytes} (h : Fits size s) (n : ℕ) :
    (firstLine (afterLines n s)).length ≤ size :=
  h (n + 1) _ (by rw [lines_succ]; exact List.mem_append_right _ (List.mem_singleton_self _))

theorem length_le_of_mem_lines {w : Bytes} (n : ℕ) : ∀ s, w ∈ lines n s → w.length ≤ s.length := by
  induction n with
  | zero => intro s h; exact absurd h List.not_mem_nil
  | succ n ih =>
    intro s h
    rw [lines, List.mem_cons] at h
    rcases h with rfl | h
    · exact (List.takeWhile_sublist _).length_le
    · exact Nat.le_trans (ih _ h) (List.drop_sublist _ _).length_le

theorem fits_of_length_le {s : Bytes} (h : s.length ≤ size) : Fits size s :=
  fun n _ hw => Nat.le_trans (length_le_of_mem_lines n s hw) h

/-- What has been read so far are the lines of the stream `s`, and what is left is the rest. -/
structure Reader.Sound (s : Bytes) (r : Reader size) : Prop where
  regular : Regular r.conn
  fill_le : r.fill ≤ bufSize
  pending : r.pending = afterLines r.results.length s
  results : r.results = (lines r.results.length s).map result

/-- `init_lbuf` keeps the stream. -/
theorem sound_startReader {conn : Conn} (hconn : Regular conn) (b : Lbuf) (line : CharArray size) :
    (initLbuf conn b).1 = fnOk ∧ (startReader conn b line).Sound (content conn) := by
  obtain ⟨data, conn', hread, hconn', hcontent, hlen, -⟩ := read_regular hconn bufSize
  have hgot : (content conn).length - (content conn').length = data.length := by
    rw [hcontent, List.length_append, Nat.add_sub_cancel]
  simp only [startReader, initLbuf, hread, hgot]
  refine ⟨trivial, hconn', hlen, ?_, rfl⟩
  simp only [Reader.pending, Reader.unused]
  rw [CharArray.take_ofBytes_overlay b.buf hlen, List.drop_zero, hcontent]
  rfl

theorem Reader.Reads.sound {s : Bytes} {r r' : Reader size} (h : r.Reads r') (hr : r.Sound s) :
    r'.Sound s := by
  have hlen : r'.results.length = r.results.length + 1 := by
    rw [h.results, List.length_append, List.length_singleton]
  refine ⟨h.regular, h.fill_le, ?_, ?_⟩
  · rw [hlen, afterLines_succ, h.pending, hr.pending]
  · rw [hlen, lines_succ, List.map_append, ← hr.results, ← hr.pending, h.results]
    rfl

theorem Reader.Sound.exists_call {s : Bytes} (hfits : Fits size s) {r : Reader size}
    (hr : r.Sound s) (hready : r.Ready) : ∃ r', r.call = some r' ∧ r.Reads r' :=
  Reader.call_of_ready hr.regular hr.fill_le (hr.pending ▸ hfits.firstLine_le _) hready

theorem length_results_of_run {r r' : Reader size} {tr : List (Reader size × Unit)}
    (h : (readerMachine size).Run r tr r') : r'.results.length = r.results.length + tr.length := by
  induction h with
  | nil => rfl
  | snoc _ hstep ih =>
    obtain ⟨_, _, rfl⟩ := Option.map_eq_some_iff.mp hstep
    simp only [List.length_append, List.length_singleton, ih]
    omega

/-- **The lines of a stream.** As long as every call is made in a ready state, the calls return the
lines of the stream in order, each with its length and its bytes; and the next such call does
return. -/
theorem lines_of_ready {conn : Conn} (hconn : Regular conn) (hfits : Fits size (content conn))
    (b : Lbuf) (line : CharArray size) {tr : List (Reader size × Unit)} {r : Reader size}
    (hrun : (readerMachine size).Run (startReader conn b line) tr r)
    (hready : ∀ p ∈ tr, p.1.Ready) :
    (initLbuf conn b).1 = fnOk ∧ r.results = (lines tr.length (content conn)).map result ∧
      (r.Ready → ∃ r', (readerMachine size).step r () = some r') := by
  obtain ⟨hinit, hstart⟩ := sound_startReader hconn b line
  have hsound : r.Sound (content conn) := by
    refine hrun.invariant_of_forall (I := Reader.Sound (content conn)) (G := fun r _ => r.Ready)
      (fun r a r' hr hready hstep => ?_) hready hstart
    obtain ⟨r'', hcall, hreads⟩ := hr.exists_call hfits hready
    obtain rfl : r'' = r' := Option.some.inj (hcall.symm.trans hstep)
    exact hreads.sound hr
  have hlen : r.results.length = tr.length := by
    rw [length_results_of_run hrun]
    exact Nat.zero_add _
  refine ⟨hinit, hlen ▸ hsound.results, fun hr => ?_⟩
  obtain ⟨r', hcall, -⟩ := hsound.exists_call hfits hr
  exact ⟨r', hcall⟩

/-- A buffer and a line of NULs. -/
def zeroLbuf : Lbuf := ⟨false, .ofBytes _ [], 0⟩

theorem lines_of_ready_onePiece :
    ∃ tr r, (readerMachine 30).Run
        (startReader [some [97, 10, 98, 10]] zeroLbuf (.ofBytes 30 [])) tr r ∧
      r.results = [(1, [97]), (1, [98])] := by
  obtain ⟨r, hexec, -⟩ := Option.map_eq_some_iff.mp
    (show ((readerMachine 30).exec (startReader [some [97, 10, 98, 10]] zeroLbuf (.ofBytes 30 []))
      [(), ()]).map (fun _ => ()) = some () by decide +kernel)
  have hrun := Machine.run_of_exec hexec
  have hunused : ∀ p ∈ (readerMachine 30).trace
      (startReader [some [97, 10, 98, 10]] zeroLbuf (.ofBytes 30 [])) [(), ()],
      (10 : UInt8) ∈ p.1.unused := by decide +kernel
  have hconn : Regular [some [97, 10, 98, 10]] := regular_cons.mpr ⟨by simp, regular_nil⟩
  exact ⟨_, r, hrun, (lines_of_ready hconn (fits_of_length_le (by decide)) zeroLbuf
    (.ofBytes 30 []) hrun fun p hp => .inl (hunused p hp)).2.1⟩

/-- **A second packet.** When the first `read` gets the first line only, the second call does not
read on: it takes the NULs behind the line for data, and fails. -/
theorem not_lines :
    ¬ ∀ (size : ℕ) (conn : Conn) (b : Lbuf) (line : CharArray size), Regular conn →
      Fits size (content conn) → ∀ tr r,
        (readerMachine size).Run (startReader conn b line) tr r →
          r.results = (lines tr.length (content conn)).map result := by
  intro h
  obtain ⟨r, hexec, hr⟩ := Option.map_eq_some_iff.mp
    (show ((readerMachine 30).exec
        (startReader [some [97, 10], some [98, 10]] zeroLbuf (.ofBytes 30 [])) [(), ()]).map
      Reader.results = some [(1, [97]), (fnEr, [])] by decide +kernel)
  have hconn : Regular [some [97, 10], some [98, 10]] :=
    regular_cons.mpr ⟨by simp, regular_cons.mpr ⟨by simp, regular_nil⟩⟩
  have hlines := h 30 _ zeroLbuf (.ofBytes 30 []) hconn (fits_of_length_le (by decide)) _ r
    (Machine.run_of_exec hexec)
  rw [hr] at hlines
  exact absurd hlines (by decide +kernel)

end SeqNum

end Tlpiexer
