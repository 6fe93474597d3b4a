import Tlpiexer.Foundations.CString
import Tlpiexer.Foundations.Progress

/-!
# Upper case over two pipes

`src/imp/44-01.c`. The parent reads words from its input with `scanf`, sends its whole buffer to the
child over one pipe, and prints what comes back over the other. The child turns the string that it
received into upper case.

Both processes have a buffer of `BUF_SIZE` bytes, which is also what `write` puts into a pipe in one
piece. A step is a call of one of the processes, or the loop of the child over its buffer. Where a
process would leave its buffer it stops in `overrun`: the model says nothing about what follows.

## The end of the input

The result of `scanf` is not looked at. At the end of the input the parent goes on with the string
it has just printed, for ever; if there was no word at all, with a buffer that was never written.

## Main results

* `answers_in_order` — a line for each word, and how many steps it takes
* `no_overrun_iff` — the inputs on which both processes stay inside their buffers
-/

namespace Tlpiexer

namespace UpperPipe

open CString Transition

/-! ### The program -/

/-- `BUF_SIZE`. -/
def bufSize : ℕ := 4096

/-- `isspace`. -/
def isSpace (b : UInt8) : Bool := b == 32 || 9 ≤ b && b ≤ 13

/-- `scanf("%s", …)`: the word that is read, and the input behind it. -/
def scanf (input : Bytes) : Option (Bytes × Bytes) :=
  match input.dropWhile isSpace with
  | [] => none
  | b :: rest => some ((b :: rest).takeWhile fun b => !isSpace b,
      (b :: rest).dropWhile fun b => !isSpace b)

/-- `toupper`. -/
def toUpper (b : UInt8) : UInt8 := if 97 ≤ b ∧ b ≤ 122 then b - 32 else b

/-- The loop of the child over its buffer. -/
def upper : Bytes → Bytes
  | [] => []
  | b :: bs => if b = 0 then b :: bs else toUpper b :: upper bs

theorem length_upper (bs : Bytes) : (upper bs).length = bs.length := by
  induction bs with
  | nil => rfl
  | cons b bs ih =>
    rw [upper]
    split
    · rfl
    · rw [List.length_cons, List.length_cons, ih]

/-- Bytes that are put over the start of a buffer. -/
def store (buf : CharArray bufSize) (src : Bytes) : CharArray bufSize :=
  .ofBytes bufSize (overlay buf.val src)

/-- Where the parent is. -/
inductive Parent
  | scan
  | write
  | read
  | print
  | overrun
  deriving DecidableEq

/-- Where the child is; after `read` it knows the number of bytes it got. -/
inductive Child
  | read
  | convert (rsize : ℕ)
  | write (rsize : ℕ)
  | overrun
  deriving DecidableEq

/-- The two processes and their pipes. -/
structure State where
  parent : Parent
  child : Child
  parentBuf : CharArray bufSize
  childBuf : CharArray bufSize
  /-- From the parent to the child. -/
  pipe1 : Bytes
  /-- From the child to the parent. -/
  pipe2 : Bytes
  input : Bytes
  out : List Bytes

/-- Which process goes on. -/
inductive Label
  | parent
  | child

/-- "parent: ". -/
def parentTmp : Bytes := [112, 97, 114, 101, 110, 116, 58, 32]

/-- `printf("parent: %s\n", buf)`, for the string in `buf`. -/
def line (text : Bytes) : Bytes := parentTmp ++ text ++ [10]

/-- A step of the parent. -/
def State.runParent (cap : ℕ) (s : State) : Option State :=
  match s.parent with
  | .scan =>
    match scanf s.input with
    | none => some { s with parent := .write }
    | some (word, rest) =>
      if word.length < bufSize then some { s with
        parent := .write
        parentBuf := store s.parentBuf (word ++ [0])
        input := rest }
      else some { s with parent := .overrun }
  | .write =>
    if s.pipe1.length + bufSize ≤ cap then
      some { s with parent := .read, pipe1 := s.pipe1 ++ s.parentBuf.val }
    else none
  | .read =>
    if s.pipe2 = [] then none
    else some { s with
      parent := .print
      parentBuf := store s.parentBuf (s.pipe2.take bufSize)
      pipe2 := s.pipe2.drop bufSize }
  | .print =>
    if (0 : UInt8) ∈ s.parentBuf.val then
      some { s with parent := .scan, out := s.out ++ [line (cstr s.parentBuf.val)] }
    else some { s with parent := .overrun }
  | .overrun => none

/-- A step of the child. -/
def State.runChild (cap : ℕ) (s : State) : Option State :=
  match s.child with
  | .read =>
    if s.pipe1 = [] then none
    else some { s with
      child := .convert (s.pipe1.take bufSize).length
      childBuf := store s.childBuf (s.pipe1.take bufSize)
      pipe1 := s.pipe1.drop bufSize }
  | .convert rsize =>
    if (0 : UInt8) ∈ s.childBuf.val then some { s with
      child := .write rsize
      childBuf := .set ⟨upper s.childBuf.val, by rw [length_upper, s.childBuf.property]⟩
        (rsize - 1) 0 }
    else some { s with child := .overrun }
  | .write rsize =>
    if s.pipe2.length + rsize ≤ cap then
      some { s with child := .read, pipe2 := s.pipe2 ++ s.childBuf.val.take rsize }
    else none
  | .overrun => none

/-- One step; a pipe holds `cap` bytes. -/
def State.step (cap : ℕ) (s : State) : Label → Option State
  | .parent => s.runParent cap
  | .child => s.runChild cap

/-- The state in front of the loops. -/
def start (parentBuf childBuf : CharArray bufSize) (input : Bytes) : State :=
  ⟨.scan, .read, parentBuf, childBuf, [], [], input, []⟩

/-- The program; its buffers are not initialized. -/
def machine (cap : ℕ) (input : Bytes) : Machine State Label where
  init s := ∃ parentBuf childBuf, s = start parentBuf childBuf input
  step := State.step cap

/-! ### Words -/

section Words

variable {input rest w : Bytes}

/-- The words of an input. -/
def wordsOf (input : Bytes) : List Bytes := (input.splitOnP isSpace).filter fun w => !w.isEmpty

theorem wordsOf_dropWhile (input : Bytes) : wordsOf (input.dropWhile isSpace) = wordsOf input := by
  induction input with
  | nil => rfl
  | cons b input ih =>
    rw [List.dropWhile_cons]
    split
    next hb => rw [ih, wordsOf, wordsOf, List.splitOnP_cons_eq_if_modifyHead, if_pos hb]; rfl
    next => rfl

theorem wordsOf_append (hne : w ≠ []) (hw : ∀ b ∈ w, isSpace b = false)
    (hrest : ∀ b ∈ rest.head?, isSpace b = true) : wordsOf (w ++ rest) = w :: wordsOf rest := by
  have hfirst : ([w].filter fun w => !w.isEmpty) = [w] := by simp [hne]
  cases rest with
  | nil => rw [List.append_nil, wordsOf, List.splitOnP_eq_singleton hw, hfirst]; rfl
  | cons b rest =>
    rw [wordsOf, List.splitOnP_append_cons _ _ (hrest b rfl), List.splitOnP_eq_singleton hw,
      List.filter_append, hfirst, ← wordsOf_dropWhile (b :: rest),
      List.dropWhile_cons_of_pos (hrest b rfl), wordsOf_dropWhile]
    rfl

theorem wordsOf_of_scanf_none (h : scanf input = none) : wordsOf input = [] := by
  rw [scanf] at h
  split at h
  next hnil => rw [← wordsOf_dropWhile, hnil]; rfl
  next => cases h

/-- `scanf` takes the first word. -/
theorem wordsOf_of_scanf (h : scanf input = some (w, rest)) :
    wordsOf input = w :: wordsOf rest := by
  rw [scanf] at h
  split at h
  next => cases h
  next b l hcons =>
    cases h
    have hb : isSpace b = false := by
      have hhead := List.head?_dropWhile_not isSpace input
      simpa [hcons] using hhead
    rw [← wordsOf_dropWhile, hcons,
      ← List.takeWhile_append_dropWhile (p := fun b => !isSpace b) (l := b :: l)]
    refine (wordsOf_append ?_ (fun c hc => ?_) fun c hc => ?_).trans ?_
    · simp [hb]
    · simpa using List.mem_takeWhile_imp hc
    · have hhead := List.head?_dropWhile_not (fun b => !isSpace b) (b :: l)
      rw [Option.mem_def.mp hc] at hhead
      simpa using hhead
    · rw [List.takeWhile_append_dropWhile]

end Words

/-! ### Buffers -/

section Buffers

variable {buf : CharArray bufSize} {src t b : Bytes}

theorem toUpper_ne_zero {c : UInt8} (hc : c ≠ 0) : toUpper c ≠ 0 := by
  rw [toUpper]
  split
  · grind
  · exact hc

theorem toUpper_toUpper (c : UInt8) : toUpper (toUpper c) = toUpper c := by
  by_cases h : 97 ≤ c ∧ c ≤ 122
  · have hlt : ¬ (97 ≤ c - 32 ∧ c - 32 ≤ 122) := by grind
    rw [toUpper, toUpper, if_pos h, if_neg hlt]
  · rw [toUpper, toUpper, if_neg h, if_neg h]

theorem cstr_upper (bs : Bytes) : cstr (upper bs) = (cstr bs).map toUpper := by
  induction bs with
  | nil => rfl
  | cons c bs ih =>
    rw [upper]
    by_cases hc : c = 0
    · rw [if_pos hc, hc, cstr_zero_cons]
      rfl
    · rw [if_neg hc, cstr_cons_of_ne hc, cstr_cons_of_ne (toUpper_ne_zero hc), ih, List.map_cons]

theorem zero_mem_upper {bs : Bytes} (h : (0 : UInt8) ∈ bs) : (0 : UInt8) ∈ upper bs := by
  induction bs with
  | nil => cases h
  | cons c bs ih =>
    rw [upper]
    split
    · exact h
    next hc => exact List.mem_cons_of_mem _ (ih ((List.mem_cons.mp h).resolve_left (Ne.symm hc)))

/-- The NUL at the end of the buffer leaves a string that ends in it as it is. -/
theorem cstr_set_last {bs : Bytes} (h : (0 : UInt8) ∈ bs) :
    cstr (bs.set (bs.length - 1) 0) = cstr bs := by
  induction bs with
  | nil => rfl
  | cons c bs ih =>
    by_cases hc : c = 0
    · subst hc
      cases bs <;> simp
    · have hbs : (0 : UInt8) ∈ bs := (List.mem_cons.mp h).resolve_left (Ne.symm hc)
      obtain ⟨n, hn⟩ : ∃ n, bs.length = n + 1 :=
        Nat.exists_eq_add_one.mpr (List.length_pos_of_mem hbs)
      rw [List.length_cons, Nat.add_sub_cancel, hn, List.set_cons_succ, cstr_cons_of_ne hc,
        cstr_cons_of_ne hc, ← ih hbs, hn, Nat.add_sub_cancel]

theorem val_store (h : src.length ≤ bufSize) : (store buf src).val = overlay buf.val src :=
  CharArray.val_ofBytes_overlay buf h

theorem val_store_full (h : src.length = bufSize) : (store buf src).val = src := by
  rw [val_store h.le, overlay, List.drop_eq_nil_iff.mpr (by rw [buf.property, h]),
    List.append_nil]

/-- A string whose upper case is `t`, with its NUL. -/
structure Loaded (t b : Bytes) : Prop where
  zero : (0 : UInt8) ∈ b
  eq : (cstr b).map toUpper = t

/-- The string `t`, with its NUL. -/
structure Holds (t b : Bytes) : Prop where
  zero : (0 : UInt8) ∈ b
  eq : cstr b = t

/-- What is printed for a word. -/
def answer (w : Bytes) : Bytes := (cstr w).map toUpper

theorem loaded_store {w : Bytes} (h : w.length < bufSize) :
    Loaded (answer w) (store buf (w ++ [0])).val := by
  rw [val_store (by simpa using Nat.succ_le_of_lt h), overlay, List.append_assoc,
    List.singleton_append]
  exact ⟨by simp, by rw [cstr_append_zero_cons]; rfl⟩

/-- Upper case stays upper case. -/
theorem Holds.loaded {w : Bytes} (h : Holds (answer w) b) : Loaded (answer w) b := by
  refine ⟨h.zero, ?_⟩
  rw [h.eq, answer, List.map_map]
  exact List.map_congr_left fun c _ => toUpper_toUpper c

/-- What the child makes of its buffer. -/
theorem Loaded.convert (h : Loaded t buf.val) (hlen : (upper buf.val).length = bufSize) :
    Holds t (CharArray.set ⟨upper buf.val, hlen⟩ (bufSize - 1) 0).val := by
  have hzero := zero_mem_upper h.zero
  have hval : (CharArray.set ⟨upper buf.val, hlen⟩ (bufSize - 1) 0).val =
      (upper buf.val).set ((upper buf.val).length - 1) 0 := by rw [hlen]; rfl
  rw [hval]
  have hpos := List.length_pos_of_mem hzero
  refine ⟨List.mem_set (by omega) 0, ?_⟩
  rw [cstr_set_last hzero, cstr_upper, h.eq]

end Buffers

/-! ### The rounds -/

section Rounds

variable {cap : ℕ} {input : Bytes} {words : List Bytes} {s s' : State} {a : Label} {n : ℕ}

/-- The word that is answered in a round: at the end of the input the last one again. -/
def wordAt (words : List Bytes) (n : ℕ) : Bytes := words[min n (words.length - 1)]?.getD []

theorem wordAt_of_drop {w : Bytes} {l : List Bytes} (h : words.drop n = w :: l) :
    wordAt words n = w := by
  have hlt : n < words.length := by
    rw [← Nat.not_le, ← List.drop_eq_nil_iff, h]
    exact List.cons_ne_nil w l
  rw [wordAt, Nat.min_eq_left (by omega), ← List.head?_drop, h]
  rfl

theorem wordAt_succ (h : words.drop (n + 1) = []) : wordAt words (n + 1) = wordAt words n := by
  have hlen := List.drop_eq_nil_iff.mp h
  have hmin : min (n + 1) (words.length - 1) = min n (words.length - 1) := by omega
  rw [wordAt, wordAt, hmin]

/-- The rounds that are done, and where the string of the next one is. -/
inductive Phase (words : List Bytes) (s : State) : Prop
  | scan (hp : s.parent = .scan) (hc : s.child = .read) (h1 : s.pipe1 = []) (h2 : s.pipe2 = [])
      (hin : wordsOf s.input = words.drop s.out.length)
      (hbuf : ∀ n, s.out.length = n + 1 → Holds (answer (wordAt words n)) s.parentBuf.val)
  | write (hp : s.parent = .write) (hc : s.child = .read) (h1 : s.pipe1 = []) (h2 : s.pipe2 = [])
      (hin : wordsOf s.input = words.drop (s.out.length + 1))
      (hbuf : Loaded (answer (wordAt words s.out.length)) s.parentBuf.val)
  | sent (hp : s.parent = .read) (hc : s.child = .read) (h1 : s.pipe1.length = bufSize)
      (h2 : s.pipe2 = []) (hin : wordsOf s.input = words.drop (s.out.length + 1))
      (hbuf : Loaded (answer (wordAt words s.out.length)) s.pipe1)
  | convert (hp : s.parent = .read) (hc : s.child = .convert bufSize) (h1 : s.pipe1 = [])
      (h2 : s.pipe2 = []) (hin : wordsOf s.input = words.drop (s.out.length + 1))
      (hbuf : Loaded (answer (wordAt words s.out.length)) s.childBuf.val)
  | back (hp : s.parent = .read) (hc : s.child = .write bufSize) (h1 : s.pipe1 = [])
      (h2 : s.pipe2 = []) (hin : wordsOf s.input = words.drop (s.out.length + 1))
      (hbuf : Holds (answer (wordAt words s.out.length)) s.childBuf.val)
  | answered (hp : s.parent = .read) (hc : s.child = .read) (h1 : s.pipe1 = [])
      (h2 : s.pipe2.length = bufSize) (hin : wordsOf s.input = words.drop (s.out.length + 1))
      (hbuf : Holds (answer (wordAt words s.out.length)) s.pipe2)
  | print (hp : s.parent = .print) (hc : s.child = .read) (h1 : s.pipe1 = []) (h2 : s.pipe2 = [])
      (hin : wordsOf s.input = words.drop (s.out.length + 1))
      (hbuf : Holds (answer (wordAt words s.out.length)) s.parentBuf.val)

/-- How many steps of the round have been taken. -/
def State.place (s : State) : ℕ :=
  match s.parent, s.child with
  | .write, _ => 1
  | .read, .read => if s.pipe1 = [] then 5 else 2
  | .read, .convert _ => 3
  | .read, .write _ => 4
  | .print, _ => 6
  | _, _ => 0

/-- The steps taken since the start. -/
def State.taken (s : State) : ℕ := 7 * s.out.length + s.place

/-- The lines of the first rounds. -/
def Lines (words : List Bytes) (s : State) : Prop :=
  s.out = (List.range s.out.length).map fun n => line (answer (wordAt words n))

/-- The word of the next `scanf` fits into the buffer. -/
def Fits (words : List Bytes) (s : State) : Prop :=
  ∀ w ∈ words[s.out.length]?, w.length < bufSize

/-- `scanf` puts the word of the round into the buffer, or leaves the last one there. -/
theorem Phase.scanned (hne : words ≠ []) (hfits : Fits words s) (hp : s.parent = .scan)
    (hc : s.child = .read) (h1 : s.pipe1 = []) (h2 : s.pipe2 = [])
    (hin : wordsOf s.input = words.drop s.out.length)
    (hbuf : ∀ n, s.out.length = n + 1 → Holds (answer (wordAt words n)) s.parentBuf.val)
    (hstep : s.runParent cap = some s') :
    Phase words s' ∧ s'.out = s.out ∧ s'.place = 1 := by
  rw [State.runParent, hp] at hstep
  simp only at hstep
  split at hstep
  next hnone =>
    cases hstep
    have hdrop : words.drop s.out.length = [] := hin ▸ wordsOf_of_scanf_none hnone
    refine ⟨.write rfl hc h1 h2 ?_ ?_, rfl, rfl⟩
    · show wordsOf s.input = _
      rw [hin, hdrop, List.drop_eq_nil_iff.mpr]
      have hlen := List.drop_eq_nil_iff.mp hdrop
      simp only
      omega
    · cases hn : s.out.length with
      | zero => rw [hn] at hdrop; exact absurd hdrop hne
      | succ n =>
        rw [hn] at hdrop
        simp only [wordAt_succ hdrop]
        exact (hbuf n hn).loaded
  next w rest hscan =>
    have hwords := wordsOf_of_scanf hscan
    have hdrop : words.drop s.out.length = w :: wordsOf rest := hin ▸ hwords
    have hget : words[s.out.length]? = some w := by rw [← List.head?_drop, hdrop, List.head?_cons]
    have hlt := hfits w hget
    rw [if_pos hlt] at hstep
    cases hstep
    refine ⟨.write rfl hc h1 h2 ?_ ?_, rfl, rfl⟩
    · show wordsOf rest = words.drop (s.out.length + 1)
      rw [← List.drop_drop, hdrop, List.drop_one, List.tail_cons]
    · simp only [wordAt_of_drop hdrop]
      exact loaded_store hlt

theorem bufSize_pos : 0 < bufSize := by decide

theorem ne_nil_of_length {b : Bytes} (h : b.length = bufSize) : b ≠ [] := by
  rintro rfl
  exact absurd h (Nat.ne_of_lt bufSize_pos)

/-- **A step of a round.** -/
theorem Phase.of_step (h : Phase words s) (hlines : Lines words s) (hne : words ≠ [])
    (hfits : Fits words s) (hstep : s.step cap a = some s') :
    Phase words s' ∧ Lines words s' ∧ s'.taken = s.taken + 1 := by
  cases h with
  | scan hp hc h1 h2 hin hbuf =>
    cases a with
    | child => simp [State.step, State.runChild, hc, h1] at hstep
    | parent =>
      obtain ⟨hphase, hout, hplace⟩ := Phase.scanned hne hfits hp hc h1 h2 hin hbuf hstep
      have hscan : s.place = 0 := by simp [State.place, hp]
      exact ⟨hphase, by rwa [Lines, hout], by rw [State.taken, State.taken, hout, hplace, hscan]⟩
  | write hp hc h1 h2 hin hbuf =>
    cases a with
    | child => simp [State.step, State.runChild, hc, h1] at hstep
    | parent =>
      rw [State.step, State.runParent, hp] at hstep
      obtain ⟨-, ⟨⟩⟩ := Option.ite_none_right_eq_some.mp hstep
      have hval : s.pipe1 ++ s.parentBuf.val = s.parentBuf.val := by rw [h1, List.nil_append]
      refine ⟨.sent rfl hc ?_ h2 hin ?_, hlines, ?_⟩
      · simp only [hval, s.parentBuf.property]
      · simp only [hval, hbuf]
      · simp [State.taken, State.place, hp, hc, hval, ne_nil_of_length s.parentBuf.property]
  | sent hp hc h1 h2 hin hbuf =>
    cases a with
    | parent => simp [State.step, State.runParent, hp, h2] at hstep
    | child =>
      rw [State.step, State.runChild, hc] at hstep
      obtain ⟨-, ⟨⟩⟩ := Option.ite_none_left_eq_some.mp hstep
      have htake : s.pipe1.take bufSize = s.pipe1 := List.take_of_length_le h1.le
      refine ⟨.convert hp ?_ ?_ h2 hin ?_, hlines, ?_⟩
      · simp only [htake, h1]
      · exact List.drop_eq_nil_iff.mpr h1.le
      · simp only [htake, val_store_full h1]
        exact hbuf
      · simp [State.taken, State.place, hp, hc, ne_nil_of_length h1]
  | convert hp hc h1 h2 hin hbuf =>
    cases a with
    | parent => simp [State.step, State.runParent, hp, h2] at hstep
    | child =>
      rw [State.step, State.runChild, hc] at hstep
      simp only [if_pos hbuf.zero] at hstep
      cases hstep
      exact ⟨.back hp rfl h1 h2 hin (hbuf.convert _), hlines, by
        simp [State.taken, State.place, hp, hc]⟩
  | back hp hc h1 h2 hin hbuf =>
    cases a with
    | parent => simp [State.step, State.runParent, hp, h2] at hstep
    | child =>
      rw [State.step, State.runChild, hc] at hstep
      obtain ⟨-, ⟨⟩⟩ := Option.ite_none_right_eq_some.mp hstep
      have hval : s.pipe2 ++ s.childBuf.val.take bufSize = s.childBuf.val := by
        rw [h2, List.nil_append, List.take_of_length_le s.childBuf.property.le]
      refine ⟨.answered hp rfl h1 ?_ hin ?_, hlines, ?_⟩
      · simp only [hval, s.childBuf.property]
      · simp only [hval, hbuf]
      · simp [State.taken, State.place, hp, hc, h1]
  | answered hp hc h1 h2 hin hbuf =>
    cases a with
    | child => simp [State.step, State.runChild, hc, h1] at hstep
    | parent =>
      rw [State.step, State.runParent, hp] at hstep
      obtain ⟨-, ⟨⟩⟩ := Option.ite_none_left_eq_some.mp hstep
      have htake : s.pipe2.take bufSize = s.pipe2 := List.take_of_length_le h2.le
      refine ⟨.print rfl hc h1 ?_ hin ?_, hlines, ?_⟩
      · exact List.drop_eq_nil_iff.mpr h2.le
      · simp only [htake, val_store_full h2]
        exact hbuf
      · simp [State.taken, State.place, hp, hc, h1]
  | print hp hc h1 h2 hin hbuf =>
    cases a with
    | child => simp [State.step, State.runChild, hc, h1] at hstep
    | parent =>
      rw [State.step, State.runParent, hp] at hstep
      simp only [if_pos hbuf.zero] at hstep
      cases hstep
      refine ⟨.scan rfl hc h1 h2 (by simpa using hin) ?_, ?_, ?_⟩
      · intro n hn
        have hlen : s.out.length = n := by simpa using hn
        exact hlen ▸ hbuf
      · rw [Lines, List.length_append, List.length_singleton, List.range_succ, List.map_append,
          ← hlines, hbuf.eq]
        rfl
      · simp [State.taken, State.place, hp]
        omega

theorem place_lt (s : State) : s.place < 7 := by
  rw [State.place]
  split
  case h_2 => split <;> decide
  all_goals decide

/-- In each phase one of the processes can go on. -/
theorem Phase.exists_step (h : Phase words s) (hcap : bufSize ≤ cap) :
    ∃ a s', s.step cap a = some s' := by
  cases h with
  | scan hp =>
    refine ⟨.parent, ?_⟩
    rw [State.step, State.runParent, hp]
    simp only
    split
    · exact ⟨_, rfl⟩
    · split <;> exact ⟨_, rfl⟩
  | write hp hc h1 =>
    exact ⟨.parent, _, by simp [State.step, State.runParent, hp, h1, hcap]; rfl⟩
  | sent hp hc h1 =>
    exact ⟨.child, _, by simp [State.step, State.runChild, hc, ne_nil_of_length h1]; rfl⟩
  | convert hp hc h1 h2 hin hbuf =>
    exact ⟨.child, _, by simp [State.step, State.runChild, hc, hbuf.zero]; rfl⟩
  | back hp hc h1 h2 =>
    exact ⟨.child, _, by simp [State.step, State.runChild, hc, h2, hcap]; rfl⟩
  | answered hp hc h1 h2 =>
    exact ⟨.parent, _, by simp [State.step, State.runParent, hp, ne_nil_of_length h2]; rfl⟩
  | print hp hc h1 h2 hin hbuf =>
    exact ⟨.parent, _, by simp [State.step, State.runParent, hp, hbuf.zero]; rfl⟩

theorem Phase.ne_overrun (h : Phase words s) : s.parent ≠ .overrun ∧ s.child ≠ .overrun := by
  cases h <;> simp [*]

theorem phase_start (parentBuf childBuf : CharArray bufSize) (input : Bytes) :
    Phase (wordsOf input) (start parentBuf childBuf input) ∧
      Lines (wordsOf input) (start parentBuf childBuf input) ∧
      (start parentBuf childBuf input).taken = 0 :=
  ⟨.scan rfl rfl rfl rfl rfl nofun, rfl, rfl⟩

end Rounds

/-! ### Whole runs -/

section Runs

variable {cap : ℕ} {input : Bytes} {s s₀ : State} {tr : List (State × Label)}

/-- There is a word, and every word fits into the buffer with its NUL. -/
def Proper (input : Bytes) : Prop :=
  wordsOf input ≠ [] ∧ ∀ w ∈ wordsOf input, w.length < bufSize

theorem phase_of_run (hinput : Proper input) (hinit : (machine cap input).init s₀)
    (hrun : (machine cap input).Run s₀ tr s) :
    Phase (wordsOf input) s ∧ Lines (wordsOf input) s ∧ s.taken = tr.length := by
  induction hrun with
  | nil =>
    obtain ⟨parentBuf, childBuf, rfl⟩ := hinit
    exact phase_start parentBuf childBuf input
  | @snoc tr s _ _ _ hstep ih =>
    obtain ⟨hphase, hlines, htaken⟩ := ih
    have hfits : Fits (wordsOf input) s := fun w hw => hinput.2 w (List.mem_of_getElem? hw)
    obtain ⟨hphase', hlines', htaken'⟩ := hphase.of_step hlines hinput.1 hfits hstep
    refine ⟨hphase', hlines', ?_⟩
    rw [htaken', htaken, List.length_append, List.length_singleton]

/-- **Every word is answered.** If there are words and they fit into the buffer, some process can
go on in every state, for ever, and every seven steps print one line: the words in their order and
in upper case, and the last of them again and again once the input is used up. -/
theorem answers_in_order (hcap : bufSize ≤ cap) (hinput : Proper input)
    (hinit : (machine cap input).init s₀) (hrun : (machine cap input).Run s₀ tr s) :
    (machine cap input).Enabled s ∧ s.out.length = tr.length / 7 ∧
      s.out = (List.range (tr.length / 7)).map fun n =>
        line ((cstr (wordAt (wordsOf input) n)).map toUpper) := by
  obtain ⟨hphase, hlines, htaken⟩ := phase_of_run hinput hinit hrun
  have hlen : s.out.length = tr.length / 7 := by
    have hplace := place_lt s
    rw [State.taken] at htaken
    omega
  refine ⟨hphase.exists_step hcap, hlen, ?_⟩
  rw [← hlen]
  exact hlines

/-- `"hi ho\n"`. -/
def hiHo : Bytes := [104, 105, 32, 104, 111, 10]

theorem proper_hiHo : Proper hiHo := by
  have hwords : wordsOf hiHo = [[104, 105], [104, 111]] := rfl
  rw [Proper, hwords]
  decide

/-- The rounds up to a word that does not fit. -/
theorem exists_at (hcap : bufSize ≤ cap) (hne : wordsOf input ≠ []) {k : ℕ}
    (hshort : ∀ i < k, ∀ w ∈ (wordsOf input)[i]?, w.length < bufSize) :
    ∀ m ≤ 7 * k, ∃ s, (machine cap input).Reachable s ∧ Phase (wordsOf input) s ∧
      Lines (wordsOf input) s ∧ s.taken = m := by
  intro m
  induction m with
  | zero =>
    intro _
    have hstart := phase_start (.ofBytes bufSize []) (.ofBytes bufSize []) input
    exact ⟨_, ⟨_, [], ⟨_, _, rfl⟩, .nil⟩, hstart⟩
  | succ m ih =>
    intro hm
    obtain ⟨s, hreach, hphase, hlines, htaken⟩ := ih (by omega)
    have hfits : Fits (wordsOf input) s := by
      refine hshort s.out.length ?_
      rw [State.taken] at htaken
      omega
    obtain ⟨a, s', hstep⟩ := hphase.exists_step hcap
    obtain ⟨hphase', hlines', htaken'⟩ := hphase.of_step hlines hne hfits hstep
    exact ⟨s', hreach.step hstep, hphase', hlines', by rw [htaken', htaken]⟩

theorem answers_in_order_hiHo :
    ∃ s₀ tr s, (machine 65536 hiHo).Run s₀ tr s ∧ tr.length = 14 ∧
      s.out = [line [72, 73], line [72, 79]] := by
  have hcap : bufSize ≤ 65536 := by decide
  obtain ⟨s, ⟨s₀, tr, hinit, hrun⟩, -, -, htaken⟩ :=
    exists_at (k := 2) hcap proper_hiHo.1
      (fun i _ w hw => proper_hiHo.2 w (List.mem_of_getElem? hw)) 14 le_rfl
  have hlen : tr.length = 14 := ((phase_of_run proper_hiHo hinit hrun).2.2).symm.trans htaken
  have hout := (answers_in_order hcap proper_hiHo hinit hrun).2.2
  rw [hlen] at hout
  exact ⟨s₀, tr, s, hrun, hlen, hout⟩

/-- A word that does not fit is met, and `scanf` leaves the buffer. -/
theorem exists_overrun_of_long (hcap : bufSize ≤ cap) {k : ℕ} {w : Bytes}
    (hshort : ∀ i < k, ∀ w ∈ (wordsOf input)[i]?, w.length < bufSize)
    (hw : (wordsOf input)[k]? = some w) (hlong : bufSize ≤ w.length) :
    ∃ s, (machine cap input).Reachable s ∧ s.parent = .overrun := by
  have hne : wordsOf input ≠ [] := fun hnil => by simp [hnil] at hw
  obtain ⟨s, hreach, hphase, -, htaken⟩ := exists_at hcap hne hshort _ le_rfl
  have hplace := place_lt s
  rw [State.taken] at htaken
  have hout : s.out.length = k := by omega
  have hzero : s.place = 0 := by omega
  cases hphase with
  | scan hp hc h1 h2 hin =>
    refine ⟨{ s with parent := .overrun }, hreach.step (a := .parent) ?_, rfl⟩
    show s.runParent cap = _
    rw [State.runParent, hp]
    cases hscan : scanf s.input with
    | none =>
      have hdrop := hin.symm.trans (wordsOf_of_scanf_none hscan)
      rw [hout, ← List.head?_eq_none_iff, List.head?_drop, hw] at hdrop
      cases hdrop
    | some r =>
      have hdrop := hin.symm.trans (wordsOf_of_scanf hscan)
      have hfirst : r.1 = w := by
        have hget : (wordsOf input)[k]? = some r.1 := by
          rw [← List.head?_drop, ← hout, hdrop, List.head?_cons]
        rw [hw] at hget
        exact (Option.some.inj hget).symm
      simp [hfirst, Nat.not_lt.mpr hlong]
  | write hp => simp [State.place, hp] at hzero
  | sent hp hc h1 => simp [State.place, hp, hc, ne_nil_of_length h1] at hzero
  | convert hp hc => simp [State.place, hp, hc] at hzero
  | back hp hc => simp [State.place, hp, hc] at hzero
  | answered hp hc h1 => simp [State.place, hp, hc, h1] at hzero
  | print hp => simp [State.place, hp] at hzero

/-- A buffer in which there is no NUL. -/
def noNul : CharArray bufSize := ⟨List.replicate bufSize 1, List.length_replicate⟩

/-- Without a word the child gets a buffer that was never written, and need not find a NUL. -/
theorem exists_overrun_of_empty (hcap : bufSize ≤ cap) (hnil : wordsOf input = []) :
    ∃ s, (machine cap input).Reachable s ∧ s.child = .overrun := by
  have hscan : scanf input = none := by
    cases hscan : scanf input with
    | none => rfl
    | some r => rw [wordsOf_of_scanf hscan] at hnil; cases hnil
  have h0 : (machine cap input).Reachable (start noNul noNul input) := ⟨_, [], ⟨_, _, rfl⟩, .nil⟩
  have h1 := h0.step (a := .parent) (t := { start noNul noNul input with parent := .write })
    (by simp [machine, State.step, State.runParent, start, hscan])
  have h2 := h1.step (a := .parent)
    (t := { start noNul noNul input with parent := .read, pipe1 := noNul.val })
    (by simp [machine, State.step, State.runParent, start, hcap])
  have htake : noNul.val.take bufSize = noNul.val := List.take_of_length_le noNul.property.le
  have hstore : store noNul noNul.val = noNul := Subtype.ext (val_store_full noNul.property)
  have h3 := h2.step (a := .child)
    (t := { start noNul noNul input with parent := .read, child := .convert bufSize })
    (by simp [machine, State.step, State.runChild, start, ne_nil_of_length noNul.property, htake,
      hstore, noNul.property, List.drop_eq_nil_iff.mpr noNul.property.le])
  have hzero : (0 : UInt8) ∉ noNul.val := by simp [noNul]
  exact ⟨_, h3.step (a := .child)
    (t := { start noNul noNul input with parent := .read, child := .overrun })
    (by simp [machine, State.step, State.runChild, start, hzero]), rfl⟩

/-- **Inside the buffers.** The processes stay inside their buffers in every run exactly if the
input has a word and all its words are shorter than `BUF_SIZE`. -/
theorem no_overrun_iff (hcap : bufSize ≤ cap) :
    (∀ s, (machine cap input).Reachable s → s.parent ≠ .overrun ∧ s.child ≠ .overrun) ↔
      wordsOf input ≠ [] ∧ ∀ w ∈ wordsOf input, w.length < bufSize := by
  constructor
  · intro h
    refine ⟨fun hnil => ?_, fun w hw => ?_⟩
    · obtain ⟨s, hreach, hc⟩ := exists_overrun_of_empty hcap hnil
      exact (h s hreach).2 hc
    · obtain ⟨k, hk⟩ := List.getElem?_of_mem hw
      clear hw
      induction k using Nat.strongRecOn generalizing w with
      | ind k ih =>
        by_contra hlong
        obtain ⟨s, hreach, hp⟩ := exists_overrun_of_long hcap (fun i hi w hw => ih i hi w hw) hk
          (Nat.not_lt.mp hlong)
        exact (h s hreach).1 hp
  · rintro hinput s ⟨s₀, tr, hinit, hrun⟩
    exact (phase_of_run hinput hinit hrun).1.ne_overrun

theorem no_overrun_iff_hiHo : bufSize ≤ 65536 ∧ ∀ s, (machine 65536 hiHo).Reachable s →
    s.parent ≠ .overrun ∧ s.child ≠ .overrun :=
  ⟨by decide, (no_overrun_iff (by decide)).mpr proper_hiHo⟩

end Runs

end UpperPipe

end Tlpiexer
