import Mathlib.Data.Int.CharZero
import Tlpiexer.Constants
import Tlpiexer.Foundations.Descriptors

/-!
# A pipe made of sockets

`pipe_x` of `src/lib/61-02.c`. A listening socket is created, a second one is connected to it, the
connection is accepted, the listening socket is closed, and the two ends are shut down in one
direction each. Any failure leads to one place at the end of the function that closes what is open.

## What is open

The function takes a descriptor for open if its variable is positive. The three variables start as
`0`, so that `0` means "not yet", although it is a descriptor as good as any other; and a variable
keeps its value when its descriptor is closed.

## The memory behind `laddr_len`

`memset(&laddr_len, 0, sizeof(laddr))` clears the four bytes of `laddr_len` and 106 bytes behind
them. What these are depends on the compiler. The other local variables are `0` or not yet set at
this point; what does harm is to clear the pointer `pipefd`, which is used at the end of a
successful call, or the return address or a guard word in front of it, with which the function does
not return. A `Frame` says whether this happens.

## Main results

* `pipe_x_balanced_iff` — when the descriptors are balanced
-/

namespace Tlpiexer

namespace PipeX

open Descriptors

/-- The system calls that can fail, in the order in which they are made. -/
inductive Call
  | socket
  | bind
  | listen
  | socketRead
  | connect
  | accept
  | shutdownRead
  | shutdownWrite
  deriving DecidableEq

/-- What is cleared behind `laddr_len`. -/
structure Frame where
  pipefd : Bool
  returnAddress : Bool

/-- The descriptors that are open, and the numbers `close` has been called with. -/
structure State where
  table : Finset ℕ
  closed : List ℤ

/-- `close(fd)`. It has no effect if the descriptor is not open. -/
def State.close (s : State) (fd : ℤ) : State :=
  ⟨s.table.filter fun n => (n : ℤ) ≠ fd, s.closed ++ [fd]⟩

/-- A call that returns a new descriptor, and `-1` if it fails. -/
def State.create (s : State) (ok : Bool) : ℤ × State :=
  if ok then (lowest s.table, { s with table := insert (lowest s.table) s.table }) else (fnEr, s)

/-- How a call ends. -/
inductive Outcome
  /-- The value it returns, the descriptors in `pipefd`, and what is open. -/
  | returns (status : ℤ) (pipefd : Option (ℤ × ℤ)) (s : State)
  /-- Memory is accessed where there is none. -/
  | fault

/-- Behind the label `ERROR`. -/
def error (s : State) (l_fd r_fd w_fd : ℤ) : Outcome :=
  let s := if l_fd > 0 then s.close l_fd else s
  let s := if r_fd > 0 then s.close r_fd else s
  let s := if w_fd > 0 then s.close w_fd else s
  .returns fnEr none s

/-- The body of `pipe_x`, up to a return. -/
def body (frame : Frame) (ok : Call → Bool) (s : State) : Outcome :=
  let (l_fd, s) := s.create (ok .socket)
  if l_fd = fnEr then error s l_fd 0 0
  else if ¬ ok .bind then error s l_fd 0 0
  else if ¬ ok .listen then error s l_fd 0 0
  else
    let (r_fd, s) := s.create (ok .socketRead)
    -- `connect` fails for the descriptor `-1`
    if r_fd = fnEr ∨ ¬ ok .connect then error s l_fd r_fd 0
    else
      let (w_fd, s) := s.create (ok .accept)
      if w_fd = fnEr then error s l_fd r_fd w_fd
      else
        let s := s.close l_fd
        if ¬ ok .shutdownRead then error s l_fd r_fd w_fd
        else if ¬ ok .shutdownWrite then error s l_fd r_fd w_fd
        else if frame.pipefd then .fault
        else .returns fnOk (some (r_fd, w_fd)) s

/-- `pipe_x(pipefd)`. -/
def pipe_x (frame : Frame) (ok : Call → Bool) (table : Finset ℕ) : Outcome :=
  if frame.returnAddress then .fault else body frame ok ⟨table, []⟩

/-- What is expected of a call: after an error the same descriptors are open as before, and none was
closed twice; after a success those in `pipefd` are open in addition. -/
def Balanced (table : Finset ℕ) : Outcome → Prop
  | .fault => True
  | .returns status pipefd s =>
    (status = fnEr → s.table = table ∧ s.closed.Nodup) ∧
      (status = fnOk → ∃ r w : ℕ, pipefd = some (↑r, ↑w) ∧ r ≠ w ∧ r ∉ table ∧ w ∉ table ∧
        s.table = insert r (insert w table))

/-- The calls up to the point where the listening socket is closed succeed. -/
def Accepted (ok : Call → Bool) : Prop :=
  ok .socket ∧ ok .bind ∧ ok .listen ∧ ok .socketRead ∧ ok .connect ∧ ok .accept

/-- The condition for the balance. If descriptor 0 is open, neither call of `shutdown` fails; if it
is not, so that the listening socket gets it, none of the calls before them fails behind the
first. -/
def Sound (ok : Call → Bool) (table : Finset ℕ) : Prop :=
  if 0 ∈ table then Accepted ok → ok .shutdownRead ∧ ok .shutdownWrite
  else ok .socket → Accepted ok

/-! ### The three sockets -/

section Sockets

variable (table : Finset ℕ)

/-- The table with the listening socket. -/
def listening : Finset ℕ := insert (lowest table) table

/-- The table with the socket that is connected to it. -/
def connected : Finset ℕ := insert (lowest (listening table)) (listening table)

/-- The table with the accepted socket. -/
def accepted : Finset ℕ := insert (lowest (connected table)) (connected table)

variable {table}

/-- Only the first of the sockets can get descriptor 0. -/
theorem lowest_listening_pos : 0 < lowest (listening table) :=
  lowest_pos (zero_mem_insert_lowest table)

theorem lowest_connected_pos : 0 < lowest (connected table) :=
  lowest_pos (Finset.mem_insert_of_mem (zero_mem_insert_lowest table))

theorem natCast_ne_fnEr (n : ℕ) : (n : ℤ) ≠ fnEr := by
  rw [fnEr]
  omega

theorem close_natCast (s : State) (n : ℕ) :
    s.close n = ⟨s.table.erase n, s.closed ++ [(n : ℤ)]⟩ := by
  rw [State.close]
  simp only [ne_eq, Int.natCast_inj, Finset.filter_ne']

variable {frame : Frame} {ok : Call → Bool}

/-- Without the first socket there is nothing to close. -/
theorem body_of_fail {s : State} (h : ok .socket = false) :
    body frame ok s = .returns fnEr none s := by
  simp [body, State.create, h, error, fnEr]

/-- Where the calls lead to when there is a listening socket. -/
theorem body_eq (h : ok .socket = true) :
    body frame ok ⟨table, []⟩ =
      if ok .bind ∧ ok .listen ∧ ok .socketRead then
        if ok .connect ∧ ok .accept then
          if ok .shutdownRead ∧ ok .shutdownWrite then
            if frame.pipefd then .fault
            else .returns fnOk (some (lowest (listening table), lowest (connected table)))
              (State.close ⟨accepted table, []⟩ (lowest table))
          else error (State.close ⟨accepted table, []⟩ (lowest table)) (lowest table)
            (lowest (listening table)) (lowest (connected table))
        else error ⟨connected table, []⟩ (lowest table) (lowest (listening table))
          (if ok .connect then fnEr else 0)
      else error ⟨listening table, []⟩ (lowest table)
        (if ok .bind ∧ ok .listen then fnEr else 0) 0 := by
  have hcast := natCast_ne_fnEr
  by_cases hbind : ok .bind = true
  · by_cases hlisten : ok .listen = true
    · by_cases hread : ok .socketRead = true
      · by_cases hconnect : ok .connect = true
        · by_cases haccept : ok .accept = true
          · by_cases hshut : ok .shutdownRead = true
            · by_cases hshut' : ok .shutdownWrite = true
              · simp [body, State.create, *, listening, connected, accepted]
              · simp [body, State.create, *, listening, connected, accepted]
            · simp [body, State.create, *, listening, connected, accepted]
          · simp [body, State.create, *, listening, connected]
        · simp [body, State.create, *, listening, connected]
      · simp [body, State.create, *, listening]
    · simp [body, State.create, *, listening]
  · simp [body, State.create, *, listening]

/-! ### What the label leaves -/

theorem balanced_returns_fnEr {pipefd : Option (ℤ × ℤ)} {s : State} :
    Balanced table (.returns fnEr pipefd s) ↔ s.table = table ∧ s.closed.Nodup := by
  simp [Balanced, fnEr, fnOk]

theorem erase_listening : (listening table).erase (lowest table) = table :=
  Finset.erase_insert (lowest_notMem table)

theorem erase_connected :
    (connected table).erase (lowest (listening table)) = listening table :=
  Finset.erase_insert (lowest_notMem _)

theorem erase_accepted :
    (accepted table).erase (lowest (connected table)) = connected table :=
  Finset.erase_insert (lowest_notMem _)

theorem erase_erase_connected :
    ((connected table).erase (lowest table)).erase (lowest (listening table)) = table := by
  rw [Finset.erase_right_comm, erase_connected, erase_listening]

theorem listening_of_notMem (h : 0 ∉ table) : listening table = insert 0 table := by
  rw [listening, (lowest_eq_zero_iff table).mpr h]

theorem lowest_ne_listening : lowest table ≠ lowest (listening table) := fun h =>
  lowest_notMem (listening table) (h ▸ Finset.mem_insert_self _ _)

theorem lowest_ne_connected : lowest table ≠ lowest (connected table) := fun h =>
  lowest_notMem (connected table)
    (h ▸ Finset.mem_insert_of_mem (Finset.mem_insert_self _ _))

theorem lowest_listening_ne_connected :
    lowest (listening table) ≠ lowest (connected table) := fun h =>
  lowest_notMem (connected table) (h ▸ Finset.mem_insert_self _ _)

/-- The listening socket alone is closed if it is not 0. -/
theorem balanced_error_listening {r_fd : ℤ} (hr : ¬ r_fd > 0) :
    Balanced table (error ⟨listening table, []⟩ (lowest table) r_fd 0) ↔ 0 ∈ table := by
  by_cases hzero : 0 ∈ table
  · have hl := lowest_pos hzero
    simp [error, hr, hl, close_natCast, erase_listening, balanced_returns_fnEr, hzero]
  · have hl := (lowest_eq_zero_iff table).mpr hzero
    simp [error, hr, hl, balanced_returns_fnEr, listening_of_notMem hzero, hzero]

/-- So it is together with the connected one, which is never 0. -/
theorem balanced_error_connected {w_fd : ℤ} (hw : ¬ w_fd > 0) :
    Balanced table (error ⟨connected table, []⟩ (lowest table) (lowest (listening table)) w_fd) ↔
      0 ∈ table := by
  have hr := @lowest_listening_pos table
  by_cases hzero : 0 ∈ table
  · have hl := lowest_pos hzero
    simp [error, hr, hw, hl, close_natCast, balanced_returns_fnEr, erase_erase_connected,
      lowest_ne_listening, hzero]
  · have hl := (lowest_eq_zero_iff table).mpr hzero
    have htable : listening table ≠ table := by
      simp [listening_of_notMem hzero, hzero]
    simp [error, hr, hw, hl, close_natCast, balanced_returns_fnEr, erase_connected, htable, hzero]

/-- The three are closed, and the listening socket a second time if it is not 0. -/
theorem balanced_error_accepted :
    Balanced table (error (State.close ⟨accepted table, []⟩ (lowest table)) (lowest table)
      (lowest (listening table)) (lowest (connected table))) ↔ 0 ∉ table := by
  have hr := @lowest_listening_pos table
  have hw := @lowest_connected_pos table
  by_cases hzero : 0 ∈ table
  · have hl := lowest_pos hzero
    simp [error, hr, hw, hl, close_natCast, balanced_returns_fnEr, hzero]
  · have hl := (lowest_eq_zero_iff table).mpr hzero
    have htable : (((accepted table).erase (lowest table)).erase (lowest (listening table))).erase
        (lowest (connected table)) = table := by
      rw [Finset.erase_right_comm, Finset.erase_right_comm (b := lowest (connected table)),
        erase_accepted, erase_erase_connected]
    have hne : (0 : ℤ) ≠ lowest (listening table) := by omega
    have hne' : (0 : ℤ) ≠ lowest (connected table) := by omega
    rw [hl] at htable
    rw [close_natCast]
    simp [error, hr, hw, hl, close_natCast, balanced_returns_fnEr, htable,
      lowest_listening_ne_connected, hne, hne', hzero]

/-- After a success the two ends are open in addition. -/
theorem balanced_returns_fnOk :
    Balanced table (.returns fnOk (some (lowest (listening table), lowest (connected table)))
      (State.close ⟨accepted table, []⟩ (lowest table))) := by
  have hnotMem : lowest (listening table) ∉ table := fun h =>
    lowest_notMem _ (Finset.mem_insert_of_mem h)
  have hnotMem' : lowest (connected table) ∉ table := fun h =>
    lowest_notMem _ (Finset.mem_insert_of_mem (Finset.mem_insert_of_mem h))
  refine ⟨fun h => absurd h (by decide), fun _ => ⟨_, _, rfl, lowest_listening_ne_connected,
    hnotMem, hnotMem', ?_⟩⟩
  rw [close_natCast]
  calc (accepted table).erase (lowest table)
      = insert (lowest (connected table)) ((connected table).erase (lowest table)) :=
        Finset.erase_insert_of_ne lowest_ne_connected.symm
    _ = insert (lowest (connected table)) (insert (lowest (listening table)) table) := by
        rw [connected, Finset.erase_insert_of_ne lowest_ne_listening.symm, erase_listening]
    _ = insert (lowest (listening table)) (insert (lowest (connected table)) table) :=
        Finset.insert_comm _ _ _

end Sockets

theorem sound_of_not_accepted {ok : Call → Bool} {table : Finset ℕ} (hsocket : ok .socket = true)
    (h : ¬ Accepted ok) : Sound ok table ↔ 0 ∈ table := by
  by_cases hzero : 0 ∈ table <;> simp [Sound, hzero, hsocket, h]

theorem sound_of_accepted {ok : Call → Bool} {table : Finset ℕ} (h : Accepted ok) :
    Sound ok table ↔ (0 ∈ table → ok .shutdownRead = true ∧ ok .shutdownWrite = true) := by
  by_cases hzero : 0 ∈ table <;> simp [Sound, hzero, h]

/-- **The descriptors are balanced** exactly under the condition above, unless the call does not
return at all. -/
theorem pipe_x_balanced_iff (frame : Frame) (ok : Call → Bool) (table : Finset ℕ) :
    Balanced table (pipe_x frame ok table) ↔ frame.returnAddress = true ∨ Sound ok table := by
  by_cases hreturn : frame.returnAddress = true
  · simp [pipe_x, hreturn, Balanced]
  rw [pipe_x, if_neg hreturn, or_iff_right hreturn]
  by_cases hsocket : ok .socket = true
  swap
  · have hsocket' : ok .socket = false := by simpa using hsocket
    simp [body_of_fail hsocket', balanced_returns_fnEr, Sound, Accepted, hsocket']
  rw [body_eq hsocket]
  by_cases hread : ok .bind = true ∧ ok .listen = true ∧ ok .socketRead = true
  swap
  · have hnot : ¬ Accepted ok := fun h => hread ⟨h.2.1, h.2.2.1, h.2.2.2.1⟩
    rw [if_neg hread, balanced_error_listening (by split_ifs <;> decide),
      sound_of_not_accepted hsocket hnot]
  rw [if_pos hread]
  by_cases haccept : ok .connect = true ∧ ok .accept = true
  swap
  · have hnot : ¬ Accepted ok := fun h => haccept h.2.2.2.2
    rw [if_neg haccept, balanced_error_connected (by split_ifs <;> decide),
      sound_of_not_accepted hsocket hnot]
  have haccepted : Accepted ok := ⟨hsocket, hread.1, hread.2.1, hread.2.2, haccept⟩
  rw [if_pos haccept, sound_of_accepted haccepted]
  by_cases hshut : ok .shutdownRead = true ∧ ok .shutdownWrite = true
  · rw [if_pos hshut]
    by_cases hpipefd : frame.pipefd = true
    · simp [hpipefd, Balanced, hshut]
    · rw [if_neg hpipefd]
      exact iff_of_true balanced_returns_fnOk fun _ => hshut
  · rw [if_neg hshut, balanced_error_accepted]
    exact ⟨fun hzero h => absurd h hzero, fun h hzero => hshut (h hzero)⟩

/-- With 0, 1 and 2 open, a failure of `shutdown` closes 3 twice. With descriptor 0 closed, a
failure of `bind` leaves it open. -/
theorem pipe_x_unbalanced :
    pipe_x ⟨false, false⟩ (fun c => decide (c ≠ .shutdownRead)) {0, 1, 2} =
        .returns fnEr none ⟨{0, 1, 2}, [3, 3, 4, 5]⟩ ∧
      pipe_x ⟨false, false⟩ (fun c => decide (c ≠ .bind)) {1, 2} =
        .returns fnEr none ⟨{0, 1, 2}, []⟩ ∧
      ¬ Balanced {0, 1, 2} (.returns fnEr none ⟨{0, 1, 2}, [3, 3, 4, 5]⟩) ∧
      ¬ Balanced {1, 2} (.returns fnEr none ⟨{0, 1, 2}, []⟩) := by
  refine ⟨rfl, rfl, ?_, ?_⟩
  · rw [balanced_returns_fnEr]
    decide
  · rw [balanced_returns_fnEr]
    decide

end PipeX

end Tlpiexer
