import Tlpiexer.Constants
import Tlpiexer.Foundations.CString
import Tlpiexer.Foundations.Transition

/-!
# Two processes and one buffer

The loops of `src/imp/54-01-writer.c` and `src/imp/54-01-reader.c`. The writer reads its standard
input block by block into a shared buffer, the reader copies the buffer to its standard output,
and two semaphores make them take turns.

## Steps

A step is one access to something shared: a `sem_wait` or `sem_post`, the `read` that fills
`shm->data`, the store of its result into `shm->size`, the `write` of the buffer, and each
process's test of `shm->size` after its `sem_post`, which nothing protects. How many bytes a
`read` delivers is chosen by the label of the step: any number from 1 to the size of the buffer,
and 0 exactly at the end of the input.

## Ghost state

`blocks` lists what the `read`s delivered, `copied` is the size of the block the reader wrote out
last. The code does not have them and no step depends on them.

## The token

At any time there is one permission to use the buffer. It sits in one of the semaphores or with a
process, and the writer takes it along when it finishes (`Control.token`). Everything else about
the program counters follows from where it is.

## Main results

* `control_step` — the control invariant, one step
-/

namespace Tlpiexer

namespace ShmTransfer

open CString Transition

/-- `struct shared_mem`. -/
structure SharedMem where
  size : ℕ
  data : CharArray bufSize

/-- Where the writer is. -/
inductive WriterPc
  /-- At `sem_wait(sem_read)` in the loop. -/
  | wait
  /-- At `read(STDIN_FILENO, shm->data, ...)`. -/
  | fill
  /-- About to store the result of `read` into `shm->size`. -/
  | store (k : ℕ)
  /-- At `sem_post(sem_write)`. -/
  | post
  /-- At `if (shm->size == 0)`. -/
  | test
  /-- At `sem_wait(sem_read)` behind the loop. -/
  | lastWait
  | done
  deriving DecidableEq

/-- Where the reader is. -/
inductive ReaderPc
  /-- At `sem_wait(sem_write)`. -/
  | wait
  /-- At `write(STDOUT_FILENO, shm->data, shm->size)`. -/
  | copy
  /-- At `sem_post(sem_read)`. -/
  | post
  /-- At `if (shm->size == 0)`. -/
  | test
  | done
  deriving DecidableEq

/-- The two processes and what they share. -/
structure State where
  semRead : ℕ
  semWrite : ℕ
  shm : SharedMem
  writer : WriterPc
  reader : ReaderPc
  /-- What is still to be read from the writer's standard input. -/
  input : Bytes
  /-- The reader's standard output. -/
  out : Bytes
  blocks : List Bytes
  copied : ℕ

/-- What happens next. -/
inductive Label
  /-- The `read` of the writer delivers `k` bytes. -/
  | read (k : ℕ)
  /-- Any other step of the writer. -/
  | writer
  /-- A step of the reader. -/
  | reader

/-- `read` may deliver `k` bytes of the input. -/
def ReadOk (input : Bytes) (k : ℕ) : Prop :=
  k ≤ bufSize ∧ k ≤ input.length ∧ (k = 0 → input = [])

instance (input : Bytes) (k : ℕ) : Decidable (ReadOk input k) :=
  inferInstanceAs (Decidable (_ ∧ _ ∧ _))

/-- The `read` of the writer. -/
def State.read (s : State) (k : ℕ) : Option State :=
  if s.writer = .fill ∧ ReadOk s.input k then
    some { s with
      shm := { s.shm with data := .ofBytes _ (overlay s.shm.data.val (s.input.take k)) }
      writer := .store k
      input := s.input.drop k
      blocks := s.blocks ++ [s.input.take k] }
  else none

/-- The other steps of the writer. -/
def State.write (s : State) : Option State :=
  match s.writer with
  | .wait => if 0 < s.semRead then
      some { s with semRead := s.semRead - 1, writer := .fill } else none
  | .fill => none
  | .store k => some { s with shm := { s.shm with size := k }, writer := .post }
  | .post => some { s with semWrite := s.semWrite + 1, writer := .test }
  | .test => some { s with writer := if s.shm.size = 0 then .lastWait else .wait }
  | .lastWait => if 0 < s.semRead then
      some { s with semRead := s.semRead - 1, writer := .done } else none
  | .done => none

/-- The steps of the reader. -/
def State.readOut (s : State) : Option State :=
  match s.reader with
  | .wait => if 0 < s.semWrite then
      some { s with semWrite := s.semWrite - 1, reader := .copy } else none
  | .copy => some { s with
      out := s.out ++ s.shm.data.val.take s.shm.size
      copied := s.shm.size
      reader := .post }
  | .post => some { s with semRead := s.semRead + 1, reader := .test }
  | .test => some { s with reader := if s.shm.size = 0 then .done else .wait }
  | .done => none

/-- One step of the program. -/
def State.step (s : State) : Label → Option State
  | .read k => s.read k
  | .writer => s.write
  | .reader => s.readOut

/-- Both processes before their loops; the shared memory is new, so its `size` is 0. -/
def start (data : CharArray bufSize) (input : Bytes) : State where
  semRead := 1
  semWrite := 0
  shm := ⟨0, data⟩
  writer := .wait
  reader := .wait
  input := input
  out := []
  blocks := []
  copied := 0

/-- The program on a given input. -/
def machine (input : Bytes) : Machine State Label where
  init s := ∃ data, s = start data input
  step := State.step

theorem start_init (data : CharArray bufSize) (input : Bytes) :
    (machine input).init (start data input) := ⟨data, rfl⟩

/-! ### What one step can do -/

/-- The steps of the program in state `s`. -/
inductive Move (s : State) : Label → State → Prop
  | read {k : ℕ} (hw : s.writer = .fill) (hk : ReadOk s.input k) :
      Move s (.read k) { s with
        shm := { s.shm with data := .ofBytes _ (overlay s.shm.data.val (s.input.take k)) }
        writer := .store k
        input := s.input.drop k
        blocks := s.blocks ++ [s.input.take k] }
  | enter (hw : s.writer = .wait) (hsem : 0 < s.semRead) :
      Move s .writer { s with semRead := s.semRead - 1, writer := .fill }
  | store {k : ℕ} (hw : s.writer = .store k) :
      Move s .writer { s with shm := { s.shm with size := k }, writer := .post }
  | post (hw : s.writer = .post) :
      Move s .writer { s with semWrite := s.semWrite + 1, writer := .test }
  | again (hw : s.writer = .test) (hsize : s.shm.size ≠ 0) :
      Move s .writer { s with writer := .wait }
  | last (hw : s.writer = .test) (hsize : s.shm.size = 0) :
      Move s .writer { s with writer := .lastWait }
  | finish (hw : s.writer = .lastWait) (hsem : 0 < s.semRead) :
      Move s .writer { s with semRead := s.semRead - 1, writer := .done }
  | take (hr : s.reader = .wait) (hsem : 0 < s.semWrite) :
      Move s .reader { s with semWrite := s.semWrite - 1, reader := .copy }
  | copy (hr : s.reader = .copy) :
      Move s .reader { s with
        out := s.out ++ s.shm.data.val.take s.shm.size
        copied := s.shm.size
        reader := .post }
  | give (hr : s.reader = .post) :
      Move s .reader { s with semRead := s.semRead + 1, reader := .test }
  | more (hr : s.reader = .test) (hsize : s.shm.size ≠ 0) :
      Move s .reader { s with reader := .wait }
  | quit (hr : s.reader = .test) (hsize : s.shm.size = 0) :
      Move s .reader { s with reader := .done }

theorem move_of_step {s s' : State} {a : Label} (h : s.step a = some s') : Move s a s' := by
  cases a with
  | read k =>
    rw [State.step, State.read] at h
    split at h
    case isTrue hk => cases h; exact .read hk.1 hk.2
    case isFalse => cases h
  | writer =>
    rw [State.step, State.write] at h
    split at h
    case h_1 hw =>
      split at h
      case isTrue hsem => cases h; exact .enter hw hsem
      case isFalse => cases h
    case h_2 => cases h
    case h_3 hw => cases h; exact .store hw
    case h_4 hw => cases h; exact .post hw
    case h_5 hw =>
      by_cases hsize : s.shm.size = 0
      · rw [if_pos hsize] at h; cases h; exact .last hw hsize
      · rw [if_neg hsize] at h; cases h; exact .again hw hsize
    case h_6 hw =>
      split at h
      case isTrue hsem => cases h; exact .finish hw hsem
      case isFalse => cases h
    case h_7 => cases h
  | reader =>
    rw [State.step, State.readOut] at h
    split at h
    case h_1 hr =>
      split at h
      case isTrue hsem => cases h; exact .take hr hsem
      case isFalse => cases h
    case h_2 hr => cases h; exact .copy hr
    case h_3 hr => cases h; exact .give hr
    case h_4 hr =>
      by_cases hsize : s.shm.size = 0
      · rw [if_pos hsize] at h; cases h; exact .quit hr hsize
      · rw [if_neg hsize] at h; cases h; exact .more hr hsize
    case h_5 => cases h

/-! ### The control invariant -/

/-- The writer has the token: it is filling the buffer, or has finished with it. -/
def WriterPc.token : WriterPc → ℕ
  | .fill | .store _ | .post | .done => 1
  | _ => 0

/-- The reader has the token. -/
def ReaderPc.token : ReaderPc → ℕ
  | .copy | .post => 1
  | _ => 0

/-- The writer has posted the block that ends the transfer. -/
def State.AtEnd (s : State) : Prop :=
  s.shm.size = 0 ∧ (s.writer = .test ∨ s.writer = .lastWait ∨ s.writer = .done)

/-- The reader has copied a block and not gone back to waiting. -/
def State.HasCopied (s : State) : Prop := s.reader = .post ∨ s.reader = .test

/-- The control invariant. -/
structure Control (s : State) : Prop where
  /-- There is one token. -/
  token : s.semRead + s.semWrite + s.writer.token + s.reader.token = 1
  /-- The writer goes round again only after a block that is not empty. -/
  wait : s.writer = .wait → s.shm.size = 0 → s.semRead = 1 ∧ s.reader = .wait
  last : s.writer = .lastWait ∨ s.writer = .done → s.shm.size = 0
  /-- An empty block that was copied is the last one. -/
  empty : s.HasCopied → s.copied = 0 → s.AtEnd ∧ s.semWrite = 0
  /-- If the block that was copied is not in the buffer any more, the next one is, or about to be
  posted. -/
  stale : s.HasCopied → s.copied ≠ 0 →
    s.shm.size = s.copied ∨ s.writer = .post ∨ s.semWrite = 1
  /-- When the token comes back after the last block, the reader has seen that block. -/
  seen : s.AtEnd → s.semRead = 1 ∨ s.writer = .done → s.reader = .test ∨ s.reader = .done

theorem control_start (data : CharArray bufSize) (input : Bytes) : Control (start data input) where
  token := rfl
  wait _ _ := ⟨rfl, rfl⟩
  last := by simp [start]
  empty := by simp [start, State.HasCopied]
  stale := by simp [start, State.HasCopied]
  seen := by simp [start, State.AtEnd]

section Steps

variable {s s' : State} {a : Label}

theorem WriterPc.eq_of_token_eq_zero {w : WriterPc} (h : w.token = 0) :
    w = .wait ∨ w = .test ∨ w = .lastWait := by
  cases w <;> simp_all [WriterPc.token]

/-- While the reader has the token the writer waits for it, or is about to. -/
theorem Control.of_reader (h : Control s) (hr : s.reader.token = 1) :
    s.semRead = 0 ∧ s.semWrite = 0 ∧
      (s.writer = .wait ∨ s.writer = .test ∨ s.writer = .lastWait) := by
  have htoken := h.token
  exact ⟨by omega, by omega, WriterPc.eq_of_token_eq_zero (by omega)⟩

theorem token_step (h : Control s) (hm : Move s a s') :
    s'.semRead + s'.semWrite + s'.writer.token + s'.reader.token = 1 := by
  have htoken := h.token
  cases hm <;> simp_all [WriterPc.token, ReaderPc.token] <;> omega

/-- The reader that copies an empty block copies the last one: the writer would not be waiting
after any other. -/
theorem empty_of_copy (h : Control s) (hr : s.reader = .copy) (hsize : s.shm.size = 0) :
    s.AtEnd ∧ s.semWrite = 0 := by
  obtain ⟨-, hsem, hw | hw | hw⟩ := h.of_reader (by rw [hr]; rfl)
  · have := (h.wait hw hsize).2
    rw [hr] at this
    cases this
  · exact ⟨⟨hsize, .inl hw⟩, hsem⟩
  · exact ⟨⟨hsize, .inr (.inl hw)⟩, hsem⟩

/-- **The control invariant is kept.** -/
theorem control_step (h : Control s) (hm : Move s a s') : Control s' where
  token := token_step h hm
  wait := by
    have htoken := h.token
    have hwait := h.wait
    cases hm <;> grind [WriterPc.token, ReaderPc.token]
  last := by
    have hlast := h.last
    cases hm <;> grind
  empty := by
    have hempty := h.empty
    cases hm with
    | copy hr =>
      intro _ hsize
      obtain ⟨hend, hsem⟩ := empty_of_copy h hr hsize
      exact ⟨hend, hsem⟩
    | _ => grind [State.AtEnd, State.HasCopied]
  stale := by
    have htoken := h.token
    have hstale := h.stale
    cases hm <;> grind [State.HasCopied, WriterPc.token]
  seen := by
    have htoken := h.token
    have hseen := h.seen
    have hlast := h.last
    cases hm <;> grind [State.AtEnd, WriterPc.token]

end Steps

end ShmTransfer

end Tlpiexer
