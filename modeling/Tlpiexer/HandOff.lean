import Tlpiexer.Foundations.CString
import Tlpiexer.Foundations.Transition

/-!
# Two threads and one line

`src/imp/53-01.c`. Thread 0 reads a line of standard input into `buffer`, thread 1 prints it, and
the semaphores `sem_w` and `sem_r` make them take turns.

A step is one of the calls in the two loops. `getline` stores a line behind which it puts a NUL,
enlarging the buffer if it has to, and `printf` shows the buffer up to the first NUL. At the end of
the input, or at an error, thread 0 leaves the loop through `exit_err` with its turn not given back;
thread 1 runs on until it is cancelled.

`count` is the number of `getline`s that have succeeded, and `out` has one entry for each `printf`;
no step depends on them.

## Main results

* `printed_in_turn` — the threads exclude each other, and no line is lost, repeated or reordered
-/

namespace Tlpiexer

namespace HandOff

open CString Transition

/-- Where thread 0 is. -/
inductive Pc0
  /-- At `sem_wait(sem_w)`. -/
  | wait
  /-- At `getline`. -/
  | read
  /-- At `sem_post(sem_r)`. -/
  | post
  /-- In `exit_err`. -/
  | gone
  deriving DecidableEq

/-- Where thread 1 is. -/
inductive Pc1
  /-- At `sem_wait(sem_r)`. -/
  | wait
  /-- At `printf`. -/
  | print
  /-- At `sem_post(sem_w)`. -/
  | post
  deriving DecidableEq

/-- The two threads and what they share. -/
structure State where
  semW : ℕ
  semR : ℕ
  buffer : Bytes
  thread0 : Pc0
  thread1 : Pc1
  /-- The lines that are still to be read. -/
  input : List Bytes
  count : ℕ
  /-- What was printed. -/
  out : List Bytes

/-- What happens next. -/
inductive Label
  /-- A step of thread 0. -/
  | thread0
  /-- The `getline` of thread 0 answers `-1`. -/
  | fail
  /-- A step of thread 1. -/
  | thread1

/-- "thread-1 received: ". -/
def receivedTmp : Bytes :=
  [116, 104, 114, 101, 97, 100, 45, 49, 32, 114, 101, 99, 101, 105, 118, 101, 100, 58, 32]

/-- `printf("thread-1 received: %s\n", buffer)`. -/
def received (buffer : Bytes) : Bytes := receivedTmp ++ cstr buffer ++ [10]

/-- A step of thread 0. -/
def State.run0 (s : State) : Option State :=
  match s.thread0 with
  | .wait => if 0 < s.semW then some { s with semW := s.semW - 1, thread0 := .read } else none
  | .read =>
    match s.input with
    | [] => some { s with thread0 := .gone }
    | line :: input => some { s with
        buffer := overlay s.buffer (line ++ [0])
        thread0 := .post
        input := input
        count := s.count + 1 }
  | .post => some { s with semR := s.semR + 1, thread0 := .wait }
  | .gone => none

/-- A step of thread 1. -/
def State.run1 (s : State) : Option State :=
  match s.thread1 with
  | .wait => if 0 < s.semR then some { s with semR := s.semR - 1, thread1 := .print } else none
  | .print => some { s with out := s.out ++ [received s.buffer], thread1 := .post }
  | .post => some { s with semW := s.semW + 1, thread1 := .wait }

/-- One step of the program. -/
def State.step (s : State) : Label → Option State
  | .thread0 => s.run0
  | .fail => if s.thread0 = .read then some { s with thread0 := .gone } else none
  | .thread1 => s.run1

/-- Both threads before their loops. -/
def start (buffer : Bytes) (lines : List Bytes) : State :=
  ⟨1, 0, buffer, .wait, .wait, lines, 0, []⟩

/-- The program on a given input. -/
def machine (lines : List Bytes) : Machine State Label where
  init s := ∃ buffer, s = start buffer lines
  step := State.step

/-- Thread 0 is between its `sem_wait` and its `sem_post`. -/
def Pc0.Inside (c : Pc0) : Prop := c = .read ∨ c = .post

/-- Thread 1 is between its `sem_wait` and its `sem_post`. -/
def Pc1.Inside (c : Pc1) : Prop := c = .print ∨ c = .post

/-! ### What one step can do -/

/-- The steps of the program in state `s`. -/
inductive Move (s : State) : State → Prop
  | wait0 (h0 : s.thread0 = .wait) (hsem : 0 < s.semW) :
      Move s { s with semW := s.semW - 1, thread0 := .read }
  | read {line : Bytes} {input : List Bytes} (h0 : s.thread0 = .read)
      (hline : s.input = line :: input) :
      Move s { s with
        buffer := overlay s.buffer (line ++ [0])
        thread0 := .post
        input := input
        count := s.count + 1 }
  | leave (h0 : s.thread0 = .read) : Move s { s with thread0 := .gone }
  | post0 (h0 : s.thread0 = .post) : Move s { s with semR := s.semR + 1, thread0 := .wait }
  | wait1 (h1 : s.thread1 = .wait) (hsem : 0 < s.semR) :
      Move s { s with semR := s.semR - 1, thread1 := .print }
  | print (h1 : s.thread1 = .print) :
      Move s { s with out := s.out ++ [received s.buffer], thread1 := .post }
  | post1 (h1 : s.thread1 = .post) : Move s { s with semW := s.semW + 1, thread1 := .wait }

theorem move_of_step {s s' : State} {a : Label} (h : s.step a = some s') : Move s s' := by
  cases a with
  | thread0 =>
    rw [State.step, State.run0] at h
    split at h
    case h_1 h0 =>
      split at h
      case isTrue hsem => cases h; exact .wait0 h0 hsem
      case isFalse => cases h
    case h_2 h0 =>
      split at h
      case h_1 => cases h; exact .leave h0
      case h_2 hline => cases h; exact .read h0 hline
    case h_3 h0 => cases h; exact .post0 h0
    case h_4 => cases h
  | fail =>
    rw [State.step] at h
    split at h
    case isTrue h0 => cases h; exact .leave h0
    case isFalse => cases h
  | thread1 =>
    rw [State.step, State.run1] at h
    split at h
    case h_1 h1 =>
      split at h
      case isTrue hsem => cases h; exact .wait1 h1 hsem
      case isFalse => cases h
    case h_2 h1 => cases h; exact .print h1
    case h_3 h1 => cases h; exact .post1 h1

/-! ### The turn -/

/-- Thread 0 has the turn, or left with it. -/
def Pc0.turn : Pc0 → ℕ
  | .wait => 0
  | _ => 1

/-- Thread 1 has the turn. -/
def Pc1.turn : Pc1 → ℕ
  | .wait => 0
  | _ => 1

/-- The last line read is in the buffer and has not been printed. -/
def Loaded (lines : List Bytes) (s : State) : Prop :=
  ∃ n line, s.count = n + 1 ∧ lines[n]? = some line ∧ cstr s.buffer = cstr line ∧
    s.out = (lines.take n).map received

/-- The invariant: there is one turn, and where it is says what was printed. -/
structure Inv (lines : List Bytes) (s : State) : Prop where
  turn : s.semW + s.semR + s.thread0.turn + s.thread1.turn = 1
  rest : s.input = lines.drop s.count
  synced : s.semW = 1 ∨ s.thread0 = .read ∨ s.thread0 = .gone ∨ s.thread1 = .post →
    s.out = (lines.take s.count).map received
  loaded : s.thread0 = .post ∨ s.semR = 1 ∨ s.thread1 = .print → Loaded lines s

section Steps

variable {lines : List Bytes} {s s' : State}

theorem inv_start (buffer : Bytes) (lines : List Bytes) : Inv lines (start buffer lines) :=
  ⟨rfl, rfl, fun _ => rfl, by simp [start]⟩

/-- `getline` puts a line into the buffer. -/
theorem cstr_getline (buffer line : Bytes) :
    cstr (overlay buffer (line ++ [0])) = cstr line := by
  rw [overlay, List.append_assoc]
  exact cstr_append_zero_cons _ _

theorem received_congr {b b' : Bytes} (h : cstr b = cstr b') : received b = received b' := by
  rw [received, received, h]

theorem inv_of_move (h : Inv lines s) (hm : Move s s') : Inv lines s' := by
  obtain ⟨hturn, hrest, hsynced, hloaded⟩ := h
  cases hm with
  | @read line input h0 hline =>
    have hout := hsynced (.inr (.inl h0))
    -- the line read is the one the count points at
    have hdrop : lines.drop s.count = line :: input := hrest.symm.trans hline
    have hget : lines[s.count]? = some line := by
      rw [← List.head?_drop, hdrop, List.head?_cons]
    refine ⟨by simpa [h0, Pc0.turn] using hturn, ?_, ?_, fun _ => ?_⟩
    · show input = lines.drop (s.count + 1)
      rw [← List.drop_drop, hdrop, List.drop_one, List.tail_cons]
    · grind [Pc0.turn, Pc1.turn]
    · exact ⟨s.count, line, rfl, hget, cstr_getline _ _, hout⟩
  | print h1 =>
    obtain ⟨n, line, hcount, hget, hbuf, hout⟩ := hloaded (.inr (.inr h1))
    refine ⟨by simpa [h1, Pc1.turn] using hturn, hrest, fun _ => ?_, ?_⟩
    · show s.out ++ [received s.buffer] = (lines.take s.count).map received
      rw [hcount, List.take_add_one, hget, List.map_append, hout, received_congr hbuf]
      rfl
    · grind [Pc0.turn, Pc1.turn]
  | _ =>
    -- the other steps hand the turn on
    refine ⟨?_, hrest, ?_, ?_⟩ <;> grind [Pc0.turn, Pc1.turn, Loaded]

theorem inv_of_reachable (h : (machine lines).Reachable s) : Inv lines s := by
  refine h.invariant (I := Inv lines) ?_ fun s a s' hs hstep => inv_of_move hs (move_of_step hstep)
  rintro _ ⟨buffer, rfl⟩
  exact inv_start buffer lines

end Steps

/-- **The hand-off.** In every interleaving the threads are never both between their `sem_wait` and
`sem_post`. When thread 0 is at a `getline` after `n` of them, thread 1 has printed the first `n`
lines, once each and in order, and nothing else; a line without NULs is printed as it is. -/
theorem printed_in_turn {lines : List Bytes} {s : State} (h : (machine lines).Reachable s) :
    ¬ (s.thread0.Inside ∧ s.thread1.Inside) ∧
      (s.thread0 = .read →
        s.out = (lines.take s.count).map received ∧ s.input = lines.drop s.count) ∧
      ∀ line ∈ lines, (0 : UInt8) ∉ line → received line = receivedTmp ++ line ++ [10] := by
  have hinv := inv_of_reachable h
  refine ⟨?_, fun h0 => ⟨hinv.synced (.inr (.inl h0)), hinv.rest⟩, fun line _ hnul => ?_⟩
  · have hturn := hinv.turn
    rintro ⟨h0 | h0, h1 | h1⟩ <;> rw [h0, h1] at hturn <;> simp [Pc0.turn, Pc1.turn] at hturn
  · rw [received, cstr_eq_self hnul]

/-- `"hi\n"` and `"ho\n"`. -/
def hiHo : List Bytes := [[104, 105, 10], [104, 111, 10]]

/-- A line is read and printed, and thread 0 gets past its next `sem_wait`. -/
def oneLine : List Label := [.thread0, .thread0, .thread1, .thread1, .thread1, .thread0]

theorem printed_in_turn_hiHo :
    ∃ s, (machine hiHo).Reachable s ∧ s.thread0 = .read ∧ s.out = hiHo.map received := by
  obtain ⟨s, hexec, h0, hcount⟩ : ∃ s, (machine hiHo).exec (start [] hiHo)
      (.thread0 :: oneLine ++ oneLine) = some s ∧ s.thread0 = .read ∧ s.count = 2 :=
    ⟨_, rfl, rfl, rfl⟩
  have hreach : (machine hiHo).Reachable s := Machine.reachable_of_exec ⟨[], rfl⟩ hexec
  refine ⟨s, hreach, h0, ?_⟩
  rw [((printed_in_turn hreach).2.1 h0).1, hcount]
  rfl

end HandOff

end Tlpiexer
