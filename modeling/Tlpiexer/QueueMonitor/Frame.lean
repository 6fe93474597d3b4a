import Tlpiexer.Foundations.CString
import Tlpiexer.Foundations.Layout

/-!
# Messages in the pipe

The record `struct queue_msg` of `src/imp/63-03.c` as bytes in memory, what a monitor thread writes
of it into the pipe, and what `read_pipe` makes of the bytes it reads.

## The layout

An `int`, four bytes of padding, a `ssize_t` and the text: `offsetof(struct queue_msg, data)` is 16.
The padding is whatever the thread's stack held there. It goes through the pipe with the rest, so it
is part of the record here, and the proofs must not depend on it.

## Main results

* `QueueMonitor.frame_receive` — what is written for a received message
* `QueueMonitor.qidField_header`, `sizeField_header` — what is read back from its header
-/

namespace Tlpiexer

namespace QueueMonitor

open CString Layout

/-- `MAX_MSG_SIZE`. -/
abbrev maxMsgSize : ℕ := 1024

/-- `PIPE_BUF`: writes up to this many bytes are atomic. -/
def pipeBuf : ℕ := 4096

/-- A message as it comes from a queue, with room for a NUL behind it. -/
abbrev Msg := { b : Bytes // b.length ≤ maxMsgSize - 1 }

theorem length_msg (m : Msg) : m.val.length ≤ 1023 := m.property

/-- `struct queue_msg`. -/
structure QueueMsg where
  qid : BitVec 32
  /-- The bytes between `qid` and `size`. -/
  padding : CharArray 4
  size : BitVec 64
  data : CharArray maxMsgSize
  deriving DecidableEq

/-- `offsetof(struct queue_msg, data)`. -/
def headerSize : ℕ := 16

/-- The record in memory. -/
def QueueMsg.bytes (q : QueueMsg) : Bytes :=
  toBytes 4 q.qid ++ q.padding.val ++ toBytes 8 q.size ++ q.data.val

/-- The record after `mq_receive`, `memcpy` and `qmsg.data[qmsg.size] = 0`. -/
def QueueMsg.receive (q : QueueMsg) (m : Msg) : QueueMsg :=
  { q with
    size := .ofNat 64 m.val.length
    data := .ofBytes _ (overlay q.data.val (m.val ++ [0])) }

/-- The bytes that are written: `size` of them behind the header. -/
def QueueMsg.frame (q : QueueMsg) : Bytes := q.bytes.take (q.size.toNat + headerSize)

/-- The `qid` of a header. -/
def qidField (bs : Bytes) : BitVec 32 := ofBytes 4 (bs.take 4)

/-- The `size` of a header. -/
def sizeField (bs : Bytes) : BitVec 64 := ofBytes 8 ((bs.drop 8).take 8)

/-! ### What is written is what is read -/

/-- The header of a message. -/
def header (qid : BitVec 32) (padding : CharArray 4) (m : Msg) : Bytes :=
  toBytes 4 qid ++ padding.val ++ toBytes 8 (.ofNat 64 m.val.length)

@[simp] theorem length_header (qid : BitVec 32) (padding : CharArray 4) (m : Msg) :
    (header qid padding m).length = headerSize := by
  simp [header, headerSize, padding.property]

theorem toNat_size (m : Msg) : (BitVec.ofNat 64 m.val.length).toNat = m.val.length := by
  have hm := length_msg m
  rw [BitVec.toNat_ofNat, Nat.mod_eq_of_lt]
  omega

theorem toInt_size (m : Msg) : (BitVec.ofNat 64 m.val.length).toInt = m.val.length := by
  have hm := length_msg m
  rw [BitVec.toInt_eq_toNat_of_lt, toNat_size]
  rw [toNat_size]
  omega

/-- **What is written** for a message is its header and its bytes. -/
theorem frame_receive (q : QueueMsg) (m : Msg) :
    (q.receive m).frame = header q.qid q.padding m ++ m.val := by
  have hm := length_msg m
  have hdata : (q.receive m).data.val.take m.val.length = m.val := by
    have hfit : (m.val ++ [0]).length ≤ maxMsgSize := by
      show (m.val ++ [0]).length ≤ 1024
      rw [List.length_append, List.length_singleton]
      omega
    have htake : (q.receive m).data.val.take (m.val ++ [0]).length = m.val ++ [0] :=
      CharArray.take_ofBytes_overlay q.data hfit
    have hle : m.val.length ≤ (m.val ++ [0]).length := by simp
    calc (q.receive m).data.val.take m.val.length
        = ((q.receive m).data.val.take (m.val ++ [0]).length).take m.val.length := by
          rw [List.take_take, Nat.min_eq_left hle]
      _ = (m.val ++ [0]).take m.val.length := by rw [htake]
      _ = m.val := List.take_left
  have hsize : (q.receive m).size.toNat + headerSize =
      (header q.qid q.padding m).length + m.val.length := by
    rw [length_header, Nat.add_comm]
    exact congrArg _ (toNat_size m)
  have hbytes : (q.receive m).bytes = header q.qid q.padding m ++ (q.receive m).data.val := rfl
  rw [QueueMsg.frame, hsize, hbytes, List.take_length_add_append, hdata]

/-- A message is written with one atomic call. -/
theorem length_frame_receive (q : QueueMsg) (m : Msg) : (q.receive m).frame.length ≤ pipeBuf := by
  have hm := length_msg m
  rw [frame_receive, List.length_append, length_header, headerSize, pipeBuf]
  omega

theorem qidField_header (qid : BitVec 32) (padding : CharArray 4) (m : Msg) :
    qidField (header qid padding m) = qid := by
  have htake : (header qid padding m).take 4 = toBytes 4 qid := by
    rw [header, List.append_assoc]
    exact List.take_left' (length_toBytes 4 qid)
  rw [qidField, htake]
  exact ofBytes_toBytes 4 qid

theorem sizeField_header (qid : BitVec 32) (padding : CharArray 4) (m : Msg) :
    sizeField (header qid padding m) = .ofNat 64 m.val.length := by
  have hlen : (toBytes 4 qid ++ padding.val).length = 8 := by
    rw [List.length_append, padding.property]
    simp
  have hdrop : (header qid padding m).drop 8 = toBytes 8 (.ofNat 64 m.val.length) := by
    rw [header]
    exact List.drop_left' hlen
  rw [sizeField, hdrop, List.take_of_length_le (Nat.le_of_eq (length_toBytes 8 _))]
  exact ofBytes_toBytes 8 _

end QueueMonitor

end Tlpiexer
