import Tlpiexer.FileServer.Server

/-!
# The client of the file server

The receive loop of `src/imp/52-03-client.c`, and the two programs together.

A part is printed by way of a local buffer: `snprintf(buf, res.size, "%s", res.data)`, then
`printf("%s", buf)`. The size given to `snprintf` counts the terminating NUL, so it leaves room for
one byte less than the part has; and `%s` stops at the first NUL of the data, or, if the 1024 bytes
have none, reads on behind them. In the last case the model has no answer.

## Main results

* `print_file_iff` — what the client prints is the file only if the file is empty
* `stream_iff_delivers` — when the client gets the stream it needs, and that it then comes to an
  end
-/

namespace Tlpiexer

namespace FileServer

open CString

/-! ### The client -/

/-- How the receive loop is left. -/
inductive Ending
  /-- At the message that ends the file. -/
  | done
  /-- At the message that reports an error. -/
  | failed
  /-- Not at all: the client waits for another message. -/
  | waiting
  deriving DecidableEq

/-- The conversion of `res.size` to `size_t`. -/
def Response.sizeT (res : Response) : ℕ := (res.size % 2 ^ 64).toNat

/-- `snprintf(buf, res.size, "%s", res.data); printf("%s", buf);`: what is printed, and the
buffer. -/
def printPart (buf : CharArray bufSize) (res : Response) :
    Option (Bytes × CharArray bufSize) :=
  if (0 : UInt8) ∈ res.data.val then
    let buf : CharArray bufSize := .ofBytes _ (snprintf buf.val res.sizeT (cstr res.data.val))
    if (0 : UInt8) ∈ buf.val then some (cstr buf.val, buf) else none
  else none

/-- The receive loop on the messages that arrive: what is printed, and how the loop is left. -/
def receive (buf : CharArray bufSize) : List Response → Option (Bytes × Ending)
  | [] => some ([], .waiting)
  | res :: msgs =>
    match res.state with
    | .error => some ([], .failed)
    -- a newline for the end of the file
    | .end_ => some ([10], .done)
    | .part => do
      let (out, buf) ← printPart buf res
      let (rest, e) ← receive buf msgs
      some (out ++ rest, e)

/-! ### What is printed -/

section Printing

variable {env : Env} {n i : ℕ} {res : Response} {buf : CharArray bufSize}

/-- **Every part loses a byte**, at least. -/
theorem length_printPart {res : Response} (h : res.IsPart) {out : Bytes}
    {buf' : CharArray bufSize} (hp : printPart buf res = some (out, buf')) :
    (out.length : ℤ) + 1 ≤ res.size := by
  obtain ⟨-, hpos, hfits⟩ := h
  have hfits : res.size ≤ 1024 := hfits
  have hsize : (res.sizeT : ℤ) = res.size := by
    rw [Response.sizeT, Int.emod_eq_of_lt (by omega) (by omega)]
    omega
  have hlen : (snprintf buf.val res.sizeT (cstr res.data.val)).length = bufSize := by
    rw [length_snprintf (by rw [buf.property]; omega), buf.property]
  rw [printPart] at hp
  split at hp
  · simp only [CharArray.val_ofBytes hlen] at hp
    split at hp
    · obtain ⟨rfl, -⟩ := Prod.mk.inj (Option.some.inj hp)
      rw [cstr_snprintf (by omega) _ (zero_notMem_cstr _), List.length_take]
      omega
    · cases hp
  · cases hp

/-- What the client prints is shorter than what the server read by at least one byte for each
part; the newline at the end is extra. -/
theorem length_receive (hs : ∀ i, env.send i = true) {parts : List Bytes}
    (h : env.Delivers i parts) {msgs : List Response} (hloop : sendLoop env n i res = some msgs)
    {out : Bytes} {e : Ending} (hrecv : receive buf msgs = some (out, e)) :
    out.length + parts.length ≤ parts.flatten.length + 1 := by
  induction parts generalizing n i res buf msgs out e with
  | nil =>
    cases n with
    | zero => cases hloop
    | succ n =>
      rw [sendLoop_succ (hs i), show env.read i = .eof from h, round_eof] at hloop
      obtain rfl := Option.some.inj hloop
      obtain ⟨rfl, -⟩ := Prod.mk.inj (Option.some.inj hrecv)
      simp
  | cons b parts ih =>
    obtain ⟨⟨pos, fits, hread⟩, hrest⟩ := h
    cases n with
    | zero => cases hloop
    | succ n =>
      rw [sendLoop_succ (hs i), hread, round_data] at hloop
      obtain ⟨rest, hloop', rfl⟩ := Option.map_eq_some_iff.mp hloop
      obtain ⟨⟨out₁, buf'⟩, hprint, hrecv⟩ := Option.bind_eq_some_iff.mp hrecv
      obtain ⟨⟨out₂, e'⟩, hrecv', hout⟩ := Option.bind_eq_some_iff.mp hrecv
      obtain ⟨rfl, -⟩ := Prod.mk.inj (Option.some.inj hout)
      have hpart := length_printPart ⟨rfl, (by omega : (1 : ℤ) ≤ b.length),
        (by omega : (b.length : ℤ) ≤ bufSize)⟩ hprint
      have hlen := ih hrest hloop' hrecv'
      simp only at hpart
      simp only [List.length_append, List.length_cons, List.flatten_cons]
      omega

/-- The empty file is printed as it is. -/
theorem receive_nil (hs : ∀ i, env.send i = true) (h : env.Delivers i []) (res : Response)
    (buf : CharArray bufSize) :
    ∃ msgs, sendLoop env 1 i res = some msgs ∧ receive buf msgs = some ([10], .done) := by
  refine ⟨[{ res with state := .end_, size := 0 }], ?_, rfl⟩
  rw [sendLoop_succ (hs i), show env.read i = .eof from h, round_eof]
  rfl

/-- A client that gets a stream does not wait for more. -/
theorem receive_stream {msgs : List Response} (h : Stream msgs) (buf : CharArray bufSize)
    (out : Bytes) : receive buf msgs ≠ some (out, .waiting) := by
  obtain ⟨parts, last, rfl, hparts, hlast⟩ := h
  induction parts generalizing buf out with
  | nil =>
    rw [List.nil_append, receive]
    rcases hlast with hl | hl <;> simp [hl]
  | cons p parts ih =>
    rw [List.cons_append, receive, (hparts p (by simp)).1]
    intro hrecv
    obtain ⟨⟨out₁, buf'⟩, -, hrecv⟩ := Option.bind_eq_some_iff.mp hrecv
    obtain ⟨⟨out₂, e⟩, hrecv', hout⟩ := Option.bind_eq_some_iff.mp hrecv
    obtain ⟨-, rfl⟩ := Prod.mk.inj (Option.some.inj hout)
    exact ih buf' out₂ (fun m hm => hparts m (List.mem_cons_of_mem _ hm)) hrecv'

end Printing

/-! ### Server and client -/

section EndToEnd

variable {env : Env}

theorem handleReq_of_not_open (hq : env.QueueOk) (hopen : env.openFile = false) (res : Response)
    (n : ℕ) : handleReq env res n = some (fnEr, []) := by
  rw [handleReq, if_neg (by simp [hq.mqOpen]), if_neg (by simp [hq.msgsize]), if_pos hopen]

theorem handleReq_of_open (hq : env.QueueOk) (hopen : env.openFile = true) (res : Response)
    (n : ℕ) : handleReq env res n = (sendLoop env n 0 res).map fun msgs => (fnOk, msgs) := by
  rw [handleReq, if_neg (by simp [hq.mqOpen]), if_neg (by simp [hq.msgsize]),
    if_neg (by simp [hopen])]

end EndToEnd

/-- **What the client prints.** When the reads deliver a file in some parts, the client prints the
file and a newline if and only if the file is empty. -/
theorem print_file_iff {env : Env} (hq : env.QueueOk) (hopen : env.openFile = true)
    {parts : List Bytes} (h : env.Delivers 0 parts) (res : Response) (buf : CharArray bufSize) :
    (∃ n msgs, handleReq env res n = some (fnOk, msgs) ∧
      receive buf msgs = some (parts.flatten ++ [10], .done)) ↔ parts.flatten = [] := by
  constructor
  · rintro ⟨n, msgs, hreq, hrecv⟩
    rw [handleReq_of_open hq hopen] at hreq
    obtain ⟨msgs', hloop, heq⟩ := Option.map_eq_some_iff.mp hreq
    obtain ⟨-, rfl⟩ := Prod.mk.inj heq
    have hlen := length_receive hq.send h hloop hrecv
    rw [List.length_append, List.length_singleton] at hlen
    have hparts : parts = [] := List.length_eq_zero_iff.mp (by omega)
    rw [hparts, List.flatten_nil]
  · intro hflat
    obtain rfl : parts = [] := by
      cases parts with
      | nil => rfl
      | cons b parts =>
        obtain ⟨⟨pos, -⟩, -⟩ := h
        rw [List.flatten_cons, List.append_eq_nil_iff] at hflat
        simp [hflat.1] at pos
    obtain ⟨msgs, hloop, hrecv⟩ := receive_nil hq.send h res buf
    exact ⟨1, msgs, by rw [handleReq_of_open hq hopen, hloop]; rfl, hrecv⟩

/-- A request whose queue works. -/
def sampleEnv (openFile : Bool) (read : ℕ → ReadResult) : Env :=
  ⟨true, some sizeofResponse, openFile, read, fun _ => true⟩

theorem sampleEnv_queueOk (openFile : Bool) (read : ℕ → ReadResult) :
    (sampleEnv openFile read).QueueOk := ⟨rfl, rfl, fun _ => rfl⟩

/-- A file of one byte. -/
def oneByte : ℕ → ReadResult
  | 0 => .data [65] (by decide) (by decide)
  | _ => .eof

theorem oneByte_delivers : (sampleEnv true oneByte).Delivers 0 [[65]] := ⟨⟨_, _, rfl⟩, rfl⟩

/-- A buffer filled with NULs. -/
def blankBuf : CharArray bufSize := .ofBytes _ []

/-- A message variable filled with NULs. -/
def blankRes : Response := ⟨.end_, 0, blankBuf⟩

theorem emptyFile_delivers : (sampleEnv true fun _ => .eof).Delivers 0 [] := rfl

/-- An empty file is printed right, and one of one byte is not. -/
theorem print_file_iff_emptyFile :
    (∃ n msgs, handleReq (sampleEnv true fun _ => .eof) blankRes n = some (fnOk, msgs) ∧
      receive blankBuf msgs = some ([10], .done)) ∧
    ¬ ∃ n msgs, handleReq (sampleEnv true oneByte) blankRes n = some (fnOk, msgs) ∧
      receive blankBuf msgs = some ([65, 10], .done) := by
  constructor
  · exact (print_file_iff (sampleEnv_queueOk _ _) rfl emptyFile_delivers blankRes blankBuf).mpr rfl
  · intro h
    have hnil :=
      (print_file_iff (sampleEnv_queueOk _ _) rfl oneByte_delivers blankRes blankBuf).mp h
    cases hnil

/-- The file `A` is printed as an empty line. -/
theorem print_oneByte :
    ∃ msgs, handleReq (sampleEnv true oneByte) blankRes 2 = some (fnOk, msgs) ∧
      receive blankBuf msgs = some ([10], .done) ∧ ([10] : Bytes) ≠ [65] ++ [10] :=
  ⟨_, rfl, by decide +kernel, by decide⟩

/-- **When the client gets its stream.** The server sends some parts and then one message that
ends the transfer, if and only if the file can be opened and the reads deliver data up to its end.
A client that gets such a stream comes to an end. -/
theorem stream_iff_delivers {env : Env} (hq : env.QueueOk) (res : Response) :
    ((∃ n ret msgs, handleReq env res n = some (ret, msgs) ∧ Stream msgs) ↔
      env.openFile = true ∧ ∃ parts, env.Delivers 0 parts) ∧
    ∀ n ret msgs, handleReq env res n = some (ret, msgs) → Stream msgs →
      ∀ buf out, receive buf msgs ≠ some (out, .waiting) := by
  refine ⟨⟨?_, ?_⟩, fun n ret msgs _ hstream buf out => receive_stream hstream buf out⟩
  · rintro ⟨n, ret, msgs, hreq, hstream⟩
    cases hopen : env.openFile with
    | false =>
      rw [handleReq_of_not_open hq hopen] at hreq
      obtain ⟨-, rfl⟩ := Prod.mk.inj (Option.some.inj hreq)
      exact absurd hstream not_stream_nil
    | true =>
      rw [handleReq_of_open hq hopen] at hreq
      obtain ⟨msgs', hloop, heq⟩ := Option.map_eq_some_iff.mp hreq
      obtain ⟨-, rfl⟩ := Prod.mk.inj heq
      exact ⟨rfl, delivers_of_stream hq.send hloop hstream⟩
  · rintro ⟨hopen, parts, hparts⟩
    obtain ⟨msgs, hloop, hstream⟩ := exists_sendLoop hq.send hparts res
    exact ⟨_, fnOk, msgs, by rw [handleReq_of_open hq hopen, hloop]; rfl, hstream⟩

theorem stream_iff_delivers_oneByte :
    (sampleEnv true oneByte).QueueOk ∧
      ∃ n ret msgs, handleReq (sampleEnv true oneByte) blankRes n = some (ret, msgs) ∧
        Stream msgs :=
  ⟨sampleEnv_queueOk _ _, (stream_iff_delivers (sampleEnv_queueOk _ _) blankRes).1.mpr
    ⟨rfl, [[65]], oneByte_delivers⟩⟩

theorem sendLoop_error {env : Env} (hs : ∀ i, env.send i = true) {e : ℕ}
    (h : ∀ i, env.read i = .error e) (n i : ℕ) (res : Response) : sendLoop env n i res = none := by
  induction n generalizing i res with
  | zero => rfl
  | succ n ih => rw [sendLoop_succ (hs i), h i, round_error, if_neg (by simp), ih]; rfl

/-- A file that can not be opened gets no answer at all, and one that can not be read (such as a
directory, with `EISDIR`) an answer without end. -/
theorem no_stream_of_failure :
    (∀ n, handleReq (sampleEnv false oneByte) blankRes n = some (fnEr, [])) ∧ ¬ Stream [] ∧
      ∀ n, handleReq (sampleEnv true fun _ => .error 21) blankRes n = none := by
  refine ⟨handleReq_of_not_open (sampleEnv_queueOk _ _) rfl blankRes, not_stream_nil, fun n => ?_⟩
  rw [handleReq_of_open (sampleEnv_queueOk _ _) rfl,
    sendLoop_error (fun _ => rfl) (fun _ => rfl) n 0 blankRes]
  rfl

end FileServer

end Tlpiexer
