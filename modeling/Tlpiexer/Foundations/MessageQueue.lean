import Mathlib.Data.Nat.Notation
import Mathlib.Logic.Function.Basic

/-!
# Named message queues

The table of POSIX message queues a system keeps. A name leads to a queue as long as it is linked;
a process that has opened the queue keeps it when the name is unlinked, or linked to a new queue.
A queue is therefore an identifier of its own (`Table.names` is the directory), and what is true of
an identifier for ever is the name it was created under (`Table.qname`).

## Blocking

`send` and `receive` answer `none` where `mq_send` and `mq_receive` block: on a full queue, and on
an empty one.

## Main results

* `Wf.link`, `Wf.unlink`, `Wf.send`, `Wf.receive` — the table stays well formed
* `Later` — what the operations never take back
-/

namespace MessageQueue

variable {N M : Type*}

/-- The queues of a system, with names in `N` and messages in `M`. -/
structure Table (N M : Type*) where
  /-- The directory. -/
  names : N → Option ℕ
  /-- The name a queue was created under; `none` for an identifier that is not in use yet. -/
  qname : ℕ → Option N
  /-- The messages in a queue, oldest first. -/
  msgs : ℕ → List M
  /-- The next identifier. -/
  next : ℕ

namespace Table

/-- A system without queues. -/
def empty : Table N M := ⟨fun _ => none, fun _ => none, fun _ => [], 0⟩

/-- The table with a new, empty queue under the name `n`. -/
def link [DecidableEq N] (t : Table N M) (n : N) : Table N M where
  names := Function.update t.names n (some t.next)
  qname := Function.update t.qname t.next (some n)
  msgs := Function.update t.msgs t.next []
  next := t.next + 1

/-- `mq_open` with `O_CREAT | O_EXCL`: a new queue, if the name is free. -/
def create [DecidableEq N] (t : Table N M) (n : N) : Option (ℕ × Table N M) :=
  if t.names n = none then some (t.next, t.link n) else none

/-- `mq_unlink`. -/
def unlink [DecidableEq N] (t : Table N M) (n : N) : Table N M :=
  { t with names := Function.update t.names n none }

/-- `mq_send` to a queue that holds at most `cap` messages. -/
def send (t : Table N M) (cap q : ℕ) (m : M) : Option (Table N M) :=
  if (t.msgs q).length < cap then
    some { t with msgs := Function.update t.msgs q (t.msgs q ++ [m]) }
  else none

/-- `mq_receive`. -/
def receive (t : Table N M) (q : ℕ) : Option (M × Table N M) :=
  match t.msgs q with
  | [] => none
  | m :: rest => some (m, { t with msgs := Function.update t.msgs q rest })

/-! ### Well-formed tables -/

/-- A linked name leads to a queue that was created under it, and identifiers are used in
order. -/
structure Wf (t : Table N M) : Prop where
  linked : ∀ n q, t.names n = some q → t.qname q = some n
  used : ∀ q n, t.qname q = some n → q < t.next

/-- `t'` comes after `t`: queues keep the names they were created under. -/
def Later (t t' : Table N M) : Prop := ∀ q n, t.qname q = some n → t'.qname q = some n

theorem Later.refl (t : Table N M) : Later t t := fun _ _ h => h

theorem Wf.empty : Wf (empty : Table N M) := ⟨nofun, nofun⟩

section Operations

variable {t t' : Table N M} {n : N} {q cap : ℕ} {m : M}

theorem Wf.later_link [DecidableEq N] (h : Wf t) (n : N) : Later t (t.link n) := by
  intro p k hp
  have hne : p ≠ t.next := Nat.ne_of_lt (h.used p k hp)
  rw [← hp]
  exact Function.update_of_ne hne _ _

theorem Wf.link [DecidableEq N] (h : Wf t) (n : N) : Wf (t.link n) := by
  refine ⟨fun k p hk => ?_, fun p k hp => ?_⟩
  · by_cases hkn : k = n
    · subst hkn
      obtain rfl : t.next = p := by simpa [Table.link] using hk
      exact Function.update_self _ _ _
    · exact h.later_link n p k (h.linked k p (by simpa [Table.link, hkn] using hk))
  · by_cases hpn : p = t.next
    · exact hpn ▸ Nat.lt_succ_self _
    · have hlt := h.used p k (by simpa [Table.link, hpn] using hp)
      exact Nat.lt_succ_of_lt hlt

/-- The queue that is created. -/
theorem qname_link [DecidableEq N] (t : Table N M) (n : N) :
    (t.link n).qname t.next = some n :=
  Function.update_self _ _ _

/-- A message that is in a queue after `mq_open` was there before. -/
theorem mem_of_mem_link [DecidableEq N] {p : ℕ} (hm : m ∈ (t.link n).msgs p) : m ∈ t.msgs p := by
  by_cases hp : p = t.next
  · subst hp
    simp [Table.link] at hm
  · simpa [Table.link, hp] using hm

theorem create_spec [DecidableEq N] (hc : t.create n = some (q, t')) :
    t.names n = none ∧ q = t.next ∧ t' = t.link n := by
  rw [create] at hc
  split at hc
  case isTrue hn => cases hc; exact ⟨hn, rfl, rfl⟩
  case isFalse => cases hc

theorem Wf.unlink [DecidableEq N] (h : Wf t) (n : N) : Wf (t.unlink n) := by
  refine ⟨fun k p hk => ?_, h.used⟩
  by_cases hkn : k = n
  · subst hkn
    simp [Table.unlink] at hk
  · exact h.linked k p (by simpa [Table.unlink, hkn] using hk)

theorem send_spec (hs : t.send cap q m = some t') :
    t' = { t with msgs := Function.update t.msgs q (t.msgs q ++ [m]) } := by
  rw [send] at hs
  split at hs
  case isTrue => exact (Option.some.inj hs).symm
  case isFalse => cases hs

theorem Wf.send (h : Wf t) (hs : t.send cap q m = some t') : Wf t' := by
  rw [send_spec hs]
  exact ⟨h.linked, h.used⟩

theorem later_send (hs : t.send cap q m = some t') : Later t t' := by
  rw [send_spec hs]
  exact fun _ _ h => h

/-- A message that is in a queue after `mq_send` was there before, or is the one sent. -/
theorem mem_send (hs : t.send cap q m = some t') {p : ℕ} {x : M} (hx : x ∈ t'.msgs p) :
    x ∈ t.msgs p ∨ (p = q ∧ x = m) := by
  obtain rfl := send_spec hs
  by_cases hp : p = q
  · subst hp
    simpa using hx
  · exact .inl (by simpa [hp] using hx)

theorem receive_spec (hr : t.receive q = some (m, t')) :
    ∃ rest, t.msgs q = m :: rest ∧ t' = { t with msgs := Function.update t.msgs q rest } := by
  rw [receive] at hr
  split at hr
  case h_1 => cases hr
  case h_2 rest hq => cases hr; exact ⟨rest, hq, rfl⟩

theorem Wf.receive (h : Wf t) (hr : t.receive q = some (m, t')) : Wf t' := by
  obtain ⟨rest, -, rfl⟩ := receive_spec hr
  exact ⟨h.linked, h.used⟩

theorem later_receive (hr : t.receive q = some (m, t')) : Later t t' := by
  obtain ⟨rest, -, rfl⟩ := receive_spec hr
  exact fun _ _ h => h

theorem mem_of_receive (hr : t.receive q = some (m, t')) : m ∈ t.msgs q := by
  obtain ⟨rest, hq, -⟩ := receive_spec hr
  simp [hq]

/-- A message that is in a queue after `mq_receive` was there before. -/
theorem mem_of_mem_receive (hr : t.receive q = some (m, t')) {p : ℕ} {x : M}
    (hx : x ∈ t'.msgs p) : x ∈ t.msgs p := by
  obtain ⟨rest, hq, rfl⟩ := receive_spec hr
  by_cases hp : p = q
  · subst hp
    rw [hq]
    exact List.mem_cons_of_mem _ (by simpa using hx)
  · simpa [hp] using hx

end Operations

end Table

end MessageQueue
