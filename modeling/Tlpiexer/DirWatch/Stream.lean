import Mathlib.Data.List.Forall2
import Tlpiexer.Constants
import Tlpiexer.DirWatch
import Tlpiexer.Foundations.Layout

/-!
# The stream of events

The loop in `main` of `src/imp/19-01.c`, and `eventcb`. The kernel keeps a queue of events; one
`read` returns as many of them as fit in the buffer, each a header of 16 bytes followed by the name,
which is filled up with NULs to a multiple of 16 bytes. The loop goes from one event to the next by
the length in the header.

## How the process ends

The loop itself never ends the process, but `eventcb` can. For a new subdirectory it needs the path
of the parent in `dpath` (which is missing for every directory created since the start, as the new
paths all go to `dpath[0]`), room for the new path, a watch and memory; the block for the path is
one byte too short, so that the NUL fits only if the allocator gives more than it is asked for. For
a deleted subdirectory it takes off the watch on the parent, which works only once.

## Events without a name

An event about a watched directory itself has no name, and its length is 0. `eventcb` prints
`e->name` nevertheless: the bytes behind the header are those of the next event in the buffer, or
what an earlier `read` has left there. If there is no NUL among them, `printf` reads on behind the
buffer.

## What the model leaves out

Which events the kernel puts into the queue (equal ones may be merged, and some are dropped when
the queue is full) is the label's choice. What `inotify_add_watch`, `inotify_rm_watch` and `malloc`
answer when an event is handled is a parameter (`Env`).

## Main results

* `handle_encode` — the loop over the events of one `read`
* `events_in_order` — whole runs
-/

namespace Tlpiexer

namespace DirWatch

namespace Stream

open CString Transition

/-! ### Events in bytes -/

/-- An event, with the name of what it is about if this is not the watched directory itself. -/
structure Event where
  wd : BitVec (8 * 4)
  mask : BitVec (8 * 4)
  cookie : BitVec (8 * 4)
  name : Bytes
  name_nul : (0 : UInt8) ∉ name
  /-- `NAME_MAX` -/
  name_length : name.length ≤ 255

/-- `sizeof(struct inotify_event)`. -/
def headerSize : ℕ := 16

/-- The length of the name as the kernel reports it. -/
def Event.len (e : Event) : ℕ := if e.name = [] then 0 else (e.name.length / 16 + 1) * 16

/-- The name as the kernel reports it. -/
def Event.field (e : Event) : Bytes := e.name ++ List.replicate (e.len - e.name.length) 0

/-- The bytes of an event. -/
def Event.encode (e : Event) : Bytes :=
  Layout.toBytes 4 e.wd ++ (Layout.toBytes 4 e.mask ++ (Layout.toBytes 4 e.cookie ++
    (Layout.toBytes 4 (BitVec.ofNat _ e.len) ++ e.field)))

/-- The number of these bytes. -/
def Event.size (e : Event) : ℕ := headerSize + e.len

/-- `BUF_LEN`. -/
def bufLen : ℕ := 2720

/-- The events that fit in so many bytes, and the others. -/
def fitting : ℕ → List Event → List Event × List Event
  | _, [] => ([], [])
  | count, e :: queue =>
    if e.size ≤ count then
      let (es, rest) := fitting (count - e.size) queue
      (e :: es, rest)
    else ([], e :: queue)

/-! ### The program -/

/-- `IN_MOVED_FROM`. -/
def inMovedFrom : BitVec (8 * 4) := 0x40

/-- `IN_MOVED_TO`. -/
def inMovedTo : BitVec (8 * 4) := 0x80

/-- `IN_CREATE`. -/
def inCreate : BitVec (8 * 4) := 0x100

/-- `IN_DELETE`. -/
def inDelete : BitVec (8 * 4) := 0x200

/-- `IN_DELETE_SELF`. -/
def inDeleteSelf : BitVec (8 * 4) := 0x400

/-- `IN_MOVE_SELF`. -/
def inMoveSelf : BitVec (8 * 4) := 0x800

/-- `IN_ISDIR`. -/
def inIsdir : BitVec (8 * 4) := 0x40000000

/-- The text for a mask. -/
def maskText (mask : BitVec (8 * 4)) : String :=
  if mask &&& inCreate = inCreate then "IN_CREATE"
  else if mask &&& inDelete = inDelete then "IN_DELETE"
  else if mask &&& inDeleteSelf = inDeleteSelf then "IN_DELETE_SELF"
  else if mask &&& inMovedTo = inMovedTo then "IN_MOVED_TO"
  else if mask &&& inMovedFrom = inMovedFrom then "IN_MOVED_FROM"
  else if mask &&& inMoveSelf = inMoveSelf then "IN_MOVE_SELF"
  else "EVENT IS UNWATCHED"

/-- A subdirectory has been created. -/
def Creates (mask : BitVec (8 * 4)) : Prop :=
  mask &&& inCreate = inCreate ∧ mask &&& inIsdir = inIsdir

/-- A subdirectory has been deleted. -/
def Deletes (mask : BitVec (8 * 4)) : Prop :=
  mask &&& inDelete = inDelete ∧ mask &&& inIsdir = inIsdir

instance (mask : BitVec (8 * 4)) : Decidable (Creates mask) := inferInstanceAs (Decidable (_ ∧ _))

instance (mask : BitVec (8 * 4)) : Decidable (Deletes mask) := inferInstanceAs (Decidable (_ ∧ _))

/-- What `eventcb` prints. -/
structure Line where
  name : Bytes
  wd : BitVec (8 * 4)
  mask : String
  cookie : BitVec (8 * 4)

/-- How the process ends. -/
inductive Stop
  /-- `exit_err("read")` -/
  | read
  /-- The loop leaves the buffer. -/
  | outside
  /-- `dpath[e->wd]` is NULL where a string is needed, or `e->wd` is not an index of `dpath`. -/
  | noPath
  /-- The new path does not fit in `ndpath`. -/
  | longPath
  /-- `exit_err("inotify_add_watch")` -/
  | addWatch
  /-- `malloc` returns NULL, or a block without room for the NUL. -/
  | shortBlock
  /-- `exit_err("inotify_rm_watch")` -/
  | rmWatch
  /-- There is no NUL from `e->name` up to the end of the buffer. -/
  | unterminated
  deriving DecidableEq

/-- What the calls made for the event with a given number answer. -/
structure Env where
  /-- `inotify_add_watch` succeeds. -/
  addWatch : ℕ → Bool
  /-- `inotify_rm_watch` succeeds. -/
  rmWatch : ℕ → Bool
  /-- `malloc`: NULL, or by how many bytes the block is larger than it was asked for. -/
  malloc : ℕ → Option ℕ

/-- The variables of the process, and what it has printed. -/
structure Proc where
  dpath : ℕ → Option Bytes
  out : List Line

/-- `dpath[wd]`; a negative `wd` is large as an unsigned number. -/
def Proc.pathOf (p : Proc) (wd : BitVec (8 * 4)) : Option Bytes :=
  if wd.toNat < maxWd then p.dpath wd.toNat else none

/-- The branch of `eventcb` for a new subdirectory, with the string at `e->name` if there is one. -/
def Proc.created (env : Env) (p : Proc) (wd : BitVec (8 * 4)) (name : Option Bytes) :
    Proc × Option Stop :=
  match p.pathOf wd with
  | none => (p, some .noPath)
  | some path =>
    match name with
    | none => (p, some .unterminated)
    | some name =>
      let ndpath := path ++ Path.slash :: name
      if pathMax ≤ ndpath.length then (p, some .longPath)
      else if env.addWatch p.out.length = false then (p, some .addWatch)
      else
        match env.malloc p.out.length with
        | none => (p, some .shortBlock)
        | some 0 => (p, some .shortBlock)
        -- `nwd` is the value of a comparison that failed
        | some (_ + 1) => ({ p with dpath := Function.update p.dpath 0 (some ndpath) }, none)

/-- The branch of `eventcb` for a deleted subdirectory. -/
def Proc.deleted (env : Env) (p : Proc) (wd : BitVec (8 * 4)) : Proc × Option Stop :=
  if env.rmWatch p.out.length = false then (p, some .rmWatch)
  else if maxWd ≤ wd.toNat then (p, some .noPath)
  else ({ p with dpath := Function.update p.dpath wd.toNat none }, none)

/-- Go on if the process has not ended. -/
def andThen (r : Proc × Option Stop) (f : Proc → Proc × Option Stop) : Proc × Option Stop :=
  match r with
  | (p, none) => f p
  | (p, some stop) => (p, some stop)

/-- The last statement of `eventcb`. -/
def Proc.show (p : Proc) (wd mask cookie : BitVec (8 * 4)) : Option Bytes → Proc × Option Stop
  | none => (p, some .unterminated)
  | some name => ({ p with out := p.out ++ [⟨name, wd, maskText mask, cookie⟩] }, none)

/-- `eventcb`, with the fields of the event and the string at `e->name`. -/
def Proc.eventcb (env : Env) (p : Proc) (wd mask cookie : BitVec (8 * 4)) (name : Option Bytes) :
    Proc × Option Stop :=
  andThen (if Creates mask then p.created env wd name else (p, none)) fun p =>
    andThen (if Deletes mask then p.deleted env wd else (p, none)) fun p =>
      p.show wd mask cookie name

/-- `eventcb` for the event at the start of these bytes, which go to the end of the buffer. -/
def eventcb (env : Env) (e : Bytes) (p : Proc) : Proc × Option Stop :=
  p.eventcb env (Layout.ofBytes 4 (e.take 4)) (Layout.ofBytes 4 ((e.drop 4).take 4))
    (Layout.ofBytes 4 ((e.drop 8).take 4)) (printed (e.drop headerSize))

/-- `e->len`. -/
def lenField (e : Bytes) : ℕ := (Layout.ofBytes 4 ((e.drop 12).take 4)).toNat

/-- The loop over the buffer. A loop that takes more rounds than there are bytes would not have left
the buffer by its test. -/
def handle (env : Env) (buf : Bytes) (nread : ℕ) : (fuel seeker : ℕ) → Proc → Proc × Option Stop
  | 0, _, p => (p, some .outside)
  | fuel + 1, seeker, p =>
    if seeker < nread then
      if seeker + headerSize ≤ buf.length then
        let e := buf.drop seeker
        andThen (eventcb env e p) (handle env buf nread fuel (seeker + headerSize + lenField e))
      else (p, some .outside)
    else (p, none)

/-- The kernel's queue and the process. -/
structure State where
  queue : List Event
  buf : CharArray bufLen
  proc : Proc
  stopped : Option Stop

/-- What happens next. -/
inductive Label
  /-- The kernel puts an event into the queue. -/
  | queue (e : Event)
  /-- A round of the loop in `main`. -/
  | read

/-- One step. A `read` waits while the queue is empty, and fails if not even the first event
fits; the process ends then. -/
def State.step (env : Env) (s : State) : Label → Option State
  | .queue e => some { s with queue := s.queue ++ [e] }
  | .read =>
    if s.stopped = none ∧ s.queue ≠ [] then
      match fitting bufLen s.queue with
      | ([], _) => some { s with stopped := some .read }
      | (e :: es, rest) =>
        let bytes := (e :: es).flatMap Event.encode
        let buf := CharArray.ofBytes bufLen (overlay s.buf.val bytes)
        let (p, stop) := handle env buf.val bytes.length (bytes.length + 1) 0 s.proc
        some ⟨rest, buf, p, stop⟩
    else none

/-- The program in front of its loop; the buffer may hold anything, and `dpath` what the walk over
the tree has noted. -/
def machine (env : Env) : Machine State Label where
  init s := s.queue = [] ∧ s.proc.out = [] ∧ s.stopped = none
  step := State.step env

/-- The events put into the queue in a run. -/
def queued (tr : List (State × Label)) : List Event :=
  tr.filterMap fun p =>
    match p.2 with
    | .queue e => some e
    | .read => none

/-! ### One `read` -/

section Read

theorem Event.len_le (e : Event) : e.len ≤ 256 ∧ e.name.length ≤ e.len := by
  have hle := e.name_length
  rw [Event.len]
  split
  next h => simp [h]
  next => omega

theorem Event.length_encode (e : Event) : e.encode.length = e.size := by
  have hle := e.len_le.2
  simp only [Event.encode, Event.field, Event.size, headerSize, List.length_append,
    Layout.length_toBytes, List.length_replicate]
  omega

/-- The events taken and those left are the queue, and those taken fit. -/
theorem fitting_spec {queue es rest : List Event} {count : ℕ}
    (h : fitting count queue = (es, rest)) :
    es ++ rest = queue ∧ (es.flatMap Event.encode).length ≤ count := by
  induction queue generalizing count es with
  | nil =>
    cases h
    exact ⟨rfl, Nat.zero_le count⟩
  | cons e queue ih =>
    rw [fitting] at h
    split at h
    next hle =>
      cases h
      obtain ⟨happ, hlen⟩ := ih rfl
      refine ⟨by simp [happ], ?_⟩
      rw [List.flatMap_cons, List.length_append, e.length_encode]
      omega
    next =>
      cases h
      exact ⟨rfl, Nat.zero_le count⟩

/-- The buffer has room for any event. -/
theorem fitting_ne_nil (e : Event) (queue : List Event) : (fitting bufLen (e :: queue)).1 ≠ [] := by
  have hsize : e.size ≤ bufLen := by
    have := e.len_le.1
    rw [Event.size, headerSize, bufLen]
    omega
  rw [fitting, if_pos hsize]
  exact List.cons_ne_nil _ _

/-- The process after events that stand in the buffer in front of `rest`. -/
def handleAll (env : Env) : List Event → Bytes → Proc → Proc × Option Stop
  | [], _, p => (p, none)
  | e :: es, rest, p =>
    andThen
      (p.eventcb env e.wd e.mask e.cookie
        (printed (e.field ++ (es.flatMap Event.encode ++ rest))))
      (handleAll env es rest)

/-- The fields of an event that stands in front of other bytes. -/
theorem fields_encode (env : Env) (e : Event) (rest : Bytes) :
    lenField (e.encode ++ rest) = e.len ∧
      ∀ p : Proc, eventcb env (e.encode ++ rest) p =
        p.eventcb env e.wd e.mask e.cookie (printed (e.field ++ rest)) := by
  have hdrop : ∀ (x : BitVec (8 * 4)) (t : Bytes), (Layout.toBytes 4 x ++ t).drop 4 = t :=
    fun x t => List.drop_left' (Layout.length_toBytes 4 x)
  have htake : ∀ (x : BitVec (8 * 4)) (t : Bytes),
      (Layout.toBytes 4 x ++ t).take 4 = Layout.toBytes 4 x :=
    fun x t => List.take_left' (Layout.length_toBytes 4 x)
  have h₀ : e.encode ++ rest = Layout.toBytes 4 e.wd ++ (Layout.toBytes 4 e.mask ++
      (Layout.toBytes 4 e.cookie ++ (Layout.toBytes 4 (BitVec.ofNat _ e.len) ++
        (e.field ++ rest)))) := by
    simp only [Event.encode, List.append_assoc]
  -- the header is taken apart field by field
  have h₄ := (congrArg (List.drop 4) h₀).trans (hdrop _ _)
  have h₈ := (congrArg (List.drop 4) h₄).trans (hdrop _ _)
  have h₁₂ := (congrArg (List.drop 4) h₈).trans (hdrop _ _)
  have h₁₆ := (congrArg (List.drop 4) h₁₂).trans (hdrop _ _)
  simp only [List.drop_drop, Nat.reduceAdd] at h₈ h₁₂ h₁₆
  have hlen : (BitVec.ofNat (8 * 4) e.len).toNat = e.len := by
    have := e.len_le.1
    rw [BitVec.toNat_ofNat, Nat.mod_eq_of_lt (by omega)]
  refine ⟨by rw [lenField, h₁₂, htake, Layout.ofBytes_toBytes, hlen], fun p => ?_⟩
  rw [eventcb, headerSize, h₄, h₈, h₁₆, htake, htake, Layout.ofBytes_toBytes,
    Layout.ofBytes_toBytes, h₀, htake, Layout.ofBytes_toBytes]

/-- The loop finds the events one after the other, whatever stands in front of them and behind
them. -/
theorem handle_encode (env : Env) (es : List Event) (front rest : Bytes) {fuel : ℕ}
    (hfuel : es.length < fuel) (p : Proc) :
    handle env (front ++ (es.flatMap Event.encode ++ rest))
      (front.length + (es.flatMap Event.encode).length) fuel front.length p =
        handleAll env es rest p := by
  induction es generalizing front fuel p with
  | nil =>
    obtain ⟨fuel, rfl⟩ : ∃ k, fuel = k + 1 := ⟨fuel - 1, by omega⟩
    rw [handle, if_neg (by simp)]
    rfl
  | cons e es ih =>
    rw [List.length_cons] at hfuel
    obtain ⟨fuel, rfl⟩ : ∃ k, fuel = k + 1 := ⟨fuel - 1, by omega⟩
    have hsize := e.length_encode
    rw [Event.size, headerSize] at hsize
    have hdrop : (front ++ ((e :: es).flatMap Event.encode ++ rest)).drop front.length =
        e.encode ++ (es.flatMap Event.encode ++ rest) := by
      rw [List.drop_left, List.flatMap_cons, List.append_assoc]
    obtain ⟨hlen, hevent⟩ := fields_encode env e (es.flatMap Event.encode ++ rest)
    -- the rest of the loop, with this event in front
    have hrest := ih (front ++ e.encode) (Nat.lt_of_succ_lt_succ hfuel)
    have hbuf : front ++ ((e :: es).flatMap Event.encode ++ rest) =
        front ++ e.encode ++ (es.flatMap Event.encode ++ rest) := by
      rw [List.flatMap_cons, List.append_assoc, List.append_assoc]
    have hread : front.length + ((e :: es).flatMap Event.encode).length =
        (front ++ e.encode).length + (es.flatMap Event.encode).length := by
      rw [List.flatMap_cons, List.length_append, List.length_append, Nat.add_assoc]
    have hseek : front.length + headerSize + e.len = (front ++ e.encode).length := by
      rw [List.length_append, hsize, headerSize, Nat.add_assoc]
    rw [handle, if_pos (by rw [hread, List.length_append, hsize]; omega),
      if_pos (by rw [hbuf, List.length_append, List.length_append, hsize, headerSize]; omega)]
    simp only [hdrop, hlen, hevent, hseek]
    rw [hbuf, hread, handleAll, funext hrest]

end Read

/-! ### One event -/

section Event

variable {env : Env} {p p' : Proc} {e : Event} {stop : Stop}

/-- The line is what the event says. -/
structure Prints (e : Event) (line : Line) : Prop where
  wd : line.wd = e.wd
  mask : line.mask = maskText e.mask
  cookie : line.cookie = e.cookie
  name : e.name ≠ [] → line.name = e.name

/-- How an event can end a process that has handled `k` events. -/
inductive Ends (env : Env) (k : ℕ) (p : Proc) (e : Event) : Stop → Prop
  | noPath (h : Creates e.mask ∧ p.pathOf e.wd = none ∨ Deletes e.mask ∧ maxWd ≤ e.wd.toNat) :
      Ends env k p e .noPath
  | longPath {path name : Bytes} (h : Creates e.mask) (hpath : p.pathOf e.wd = some path)
      (hname : e.name ≠ [] → name = e.name) (hlong : pathMax ≤ path.length + 1 + name.length) :
      Ends env k p e .longPath
  | addWatch (h : Creates e.mask) (hfails : env.addWatch k = false) : Ends env k p e .addWatch
  | shortBlock (h : Creates e.mask) (hblock : env.malloc k = none ∨ env.malloc k = some 0) :
      Ends env k p e .shortBlock
  | rmWatch (h : Deletes e.mask) (hfails : env.rmWatch k = false) : Ends env k p e .rmWatch
  | unterminated (h : e.name = []) : Ends env k p e .unterminated

/-- The string at `e->name` is the name, if there is one. -/
theorem printed_field (hname : e.name ≠ []) (rest : Bytes) :
    printed (e.field ++ rest) = some e.name := by
  have hpad : e.len - e.name.length = (e.len - e.name.length - 1) + 1 := by
    have hlt : e.name.length < e.len := by
      rw [Event.len, if_neg hname]
      omega
    omega
  have hfield : (0 : UInt8) ∈ e.field := by
    rw [Event.field, hpad, List.replicate_succ]
    exact List.mem_append_right _ List.mem_cons_self
  rw [printed_append hfield, Event.field, hpad, List.replicate_succ, cstr_append_zero e.name_nul]

/-- Where there is no string at `e->name`, the event has no name. -/
theorem name_eq_nil (hname : e.name ≠ [] → none = some e.name) : e.name = [] := by
  by_contra hne
  cases hname hne

variable {name : Option Bytes} {r : Option Stop}

/-- What the branch for a new subdirectory does. -/
theorem created_spec (h : Creates e.mask) (hname : e.name ≠ [] → name = some e.name)
    (heq : p.created env e.wd name = (p', r)) :
    p'.out = p.out ∧ ∀ stop, r = some stop → Ends env p.out.length p' e stop := by
  cases hpath : p.pathOf e.wd with
  | none =>
    rw [Proc.created, hpath] at heq
    obtain ⟨rfl, rfl⟩ := Prod.mk.inj heq
    exact ⟨rfl, by rintro _ ⟨⟩; exact .noPath (.inl ⟨h, hpath⟩)⟩
  | some path =>
    cases name with
    | none =>
      rw [Proc.created, hpath] at heq
      obtain ⟨rfl, rfl⟩ := Prod.mk.inj heq
      exact ⟨rfl, by rintro _ ⟨⟩; exact .unterminated (name_eq_nil hname)⟩
    | some name =>
      simp only [Proc.created, hpath] at heq
      split_ifs at heq with hlong hadd
      · obtain ⟨rfl, rfl⟩ := Prod.mk.inj heq
        refine ⟨rfl, ?_⟩
        rintro _ ⟨⟩
        rw [List.length_append, List.length_cons] at hlong
        exact .longPath h hpath (fun hne => Option.some.inj (hname hne)) (by omega)
      · obtain ⟨rfl, rfl⟩ := Prod.mk.inj heq
        exact ⟨rfl, by rintro _ ⟨⟩; exact .addWatch h hadd⟩
      · split at heq
        case h_1 hm =>
          obtain ⟨rfl, rfl⟩ := Prod.mk.inj heq
          exact ⟨rfl, by rintro _ ⟨⟩; exact .shortBlock h (.inl hm)⟩
        case h_2 hm =>
          obtain ⟨rfl, rfl⟩ := Prod.mk.inj heq
          exact ⟨rfl, by rintro _ ⟨⟩; exact .shortBlock h (.inr hm)⟩
        case h_3 =>
          obtain ⟨rfl, rfl⟩ := Prod.mk.inj heq
          exact ⟨rfl, nofun⟩

/-- What the branch for a deleted subdirectory does. -/
theorem deleted_spec (h : Deletes e.mask) (heq : p.deleted env e.wd = (p', r)) :
    p'.out = p.out ∧ ∀ stop, r = some stop → Ends env p.out.length p' e stop := by
  rw [Proc.deleted] at heq
  split_ifs at heq with hrm hwd
  · obtain ⟨rfl, rfl⟩ := Prod.mk.inj heq
    exact ⟨rfl, by rintro _ ⟨⟩; exact .rmWatch h hrm⟩
  · obtain ⟨rfl, rfl⟩ := Prod.mk.inj heq
    exact ⟨rfl, by rintro _ ⟨⟩; exact .noPath (.inr ⟨h, hwd⟩)⟩
  · obtain ⟨rfl, rfl⟩ := Prod.mk.inj heq
    exact ⟨rfl, nofun⟩

/-- What the last statement does. -/
theorem show_spec (hname : e.name ≠ [] → name = some e.name)
    (heq : p.show e.wd e.mask e.cookie name = (p', r)) :
    (r = none → ∃ line, Prints e line ∧ p'.out = p.out ++ [line]) ∧
      ∀ stop, r = some stop → p'.out = p.out ∧ Ends env p.out.length p' e stop := by
  cases name with
  | none =>
    obtain ⟨rfl, rfl⟩ := Prod.mk.inj heq
    exact ⟨nofun, by rintro _ ⟨⟩; exact ⟨rfl, .unterminated (name_eq_nil hname)⟩⟩
  | some name =>
    obtain ⟨rfl, rfl⟩ := Prod.mk.inj heq
    refine ⟨fun _ => ⟨⟨name, e.wd, maskText e.mask, e.cookie⟩, ?_, rfl⟩, nofun⟩
    exact ⟨rfl, rfl, rfl, fun hne => Option.some.inj (hname hne)⟩

/-- Either the first part has ended the process, or the second part has been executed. -/
theorem andThen_cases {x : Proc × Option Stop} {f : Proc → Proc × Option Stop}
    (heq : andThen x f = (p', r)) :
    (∃ stop, x = (p', some stop) ∧ r = some stop) ∨ ∃ q, x = (q, none) ∧ f q = (p', r) := by
  obtain ⟨q, o⟩ := x
  cases o with
  | none => exact .inr ⟨q, rfl, heq⟩
  | some stop =>
    obtain ⟨rfl, rfl⟩ := Prod.mk.inj heq
    exact .inl ⟨stop, rfl, rfl⟩

/-- A part of `eventcb` that is made under a condition, and then what follows it. -/
theorem andThen_branch {C : Prop} [Decidable C] {x : Proc × Option Stop}
    {f : Proc → Proc × Option Stop}
    (hx : C → ∀ q o, x = (q, o) →
      q.out = p.out ∧ ∀ stop, o = some stop → Ends env p.out.length q e stop)
    (heq : andThen (if C then x else (p, none)) f = (p', r)) :
    (∃ stop, r = some stop ∧ p'.out = p.out ∧ Ends env p.out.length p' e stop) ∨
      ∃ q, q.out = p.out ∧ f q = (p', r) := by
  by_cases hC : C
  · rw [if_pos hC] at heq
    rcases andThen_cases heq with ⟨stop, hstop, rfl⟩ | ⟨q, hq, hf⟩
    · obtain ⟨hout, hends⟩ := hx hC _ _ hstop
      exact .inl ⟨stop, rfl, hout, hends stop rfl⟩
    · exact .inr ⟨q, (hx hC _ _ hq).1, hf⟩
  · rw [if_neg hC] at heq
    exact .inr ⟨p, rfl, heq⟩

/-- **One event**: its line is printed, or the process ends. -/
theorem eventcb_spec {behind : Bytes}
    (heq : p.eventcb env e.wd e.mask e.cookie (printed (e.field ++ behind)) = (p', r)) :
    (r = none → ∃ line, Prints e line ∧ p'.out = p.out ++ [line]) ∧
      ∀ stop, r = some stop → p'.out = p.out ∧ Ends env p.out.length p' e stop := by
  have hname : e.name ≠ [] → printed (e.field ++ behind) = some e.name :=
    fun hne => printed_field hne behind
  rcases andThen_branch (fun h _ _ => created_spec h hname) heq with
    ⟨stop, rfl, hends⟩ | ⟨q, hq, heq⟩
  · exact ⟨nofun, by rintro _ ⟨⟩; exact hends⟩
  rcases andThen_branch (fun h _ _ => deleted_spec h) heq with ⟨stop, rfl, hends⟩ | ⟨q', hq', heq⟩
  · exact ⟨nofun, by rintro _ ⟨⟩; rwa [← hq]⟩
  rw [← hq, ← hq']
  exact show_spec hname heq

/-- The events of one `read`: their lines are printed, up to one that ends the process. -/
theorem handleAll_spec {es : List Event} {behind : Bytes}
    (heq : handleAll env es behind p = (p', r)) :
    (r = none → ∃ lines, List.Forall₂ Prints es lines ∧ p'.out = p.out ++ lines) ∧
      ∀ stop, r = some stop → ∃ seen e lost lines, es = seen ++ e :: lost ∧
        List.Forall₂ Prints seen lines ∧ p'.out = p.out ++ lines ∧
        Ends env p'.out.length p' e stop := by
  induction es generalizing p with
  | nil =>
    obtain ⟨rfl, rfl⟩ := Prod.mk.inj heq
    exact ⟨fun _ => ⟨[], .nil, (List.append_nil _).symm⟩, nofun⟩
  | cons e es ih =>
    rcases andThen_cases heq with ⟨stop, hevent, rfl⟩ | ⟨q, hevent, heq⟩
    · obtain ⟨hout, hends⟩ := (eventcb_spec hevent).2 stop rfl
      refine ⟨nofun, ?_⟩
      rintro _ ⟨⟩
      exact ⟨[], e, es, [], rfl, .nil, by simp [hout], hout.symm ▸ hends⟩
    · obtain ⟨line, hprints, hout⟩ := (eventcb_spec hevent).1 rfl
      obtain ⟨hnone, hsome⟩ := ih heq
      refine ⟨fun hr => ?_, fun stop hstop => ?_⟩
      · obtain ⟨lines, hlines, hout'⟩ := hnone hr
        exact ⟨line :: lines, .cons hprints hlines, by simp [hout', hout]⟩
      · obtain ⟨seen, e', lost, lines, hsplit, hlines, hout', hends⟩ := hsome stop hstop
        exact ⟨e :: seen, e', lost, line :: lines, by simp [hsplit], .cons hprints hlines,
          by simp [hout', hout], hends⟩

end Event

/-! ### Whole runs -/

section Run

variable {env : Env} {s₀ s : State} {tr : List (State × Label)}

theorem length_le_length_encode (es : List Event) :
    es.length ≤ (es.flatMap Event.encode).length := by
  induction es with
  | nil => exact Nat.le_refl 0
  | cons e es ih =>
    rw [List.flatMap_cons, List.length_append, List.length_cons, e.length_encode, Event.size,
      headerSize]
    omega

theorem fitting_pos {queue es rest : List Event} (hqueue : queue ≠ [])
    (hfit : fitting bufLen queue = (es, rest)) : 0 < es.length := by
  obtain ⟨e, queue, rfl⟩ := List.exists_cons_of_ne_nil hqueue
  have hne := fitting_ne_nil e queue
  rw [hfit] at hne
  exact List.length_pos_of_ne_nil hne

/-- What a `read` and the loop over its events do. -/
theorem read_spec {es rest : List Event} (env : Env) (hstop : s.stopped = none)
    (hqueue : s.queue ≠ []) (hfit : fitting bufLen s.queue = (es, rest)) :
    ∃ behind buf p stop, handleAll env es behind s.proc = (p, stop) ∧
      (machine env).step s .read = some ⟨rest, buf, p, stop⟩ := by
  have hpos := fitting_pos hqueue hfit
  cases es with
  | nil => exact absurd hpos (Nat.lt_irrefl 0)
  | cons e es =>
    let bytes := (e :: es).flatMap Event.encode
    have hbuf : (CharArray.ofBytes bufLen (overlay s.buf.val bytes)).val =
        [] ++ (bytes ++ s.buf.val.drop bytes.length) :=
      CharArray.val_ofBytes_overlay s.buf (fitting_spec hfit).2
    have hhandle := handle_encode env (e :: es) [] (s.buf.val.drop bytes.length)
      (Nat.lt_succ_of_le (length_le_length_encode (e :: es))) s.proc
    rw [List.length_nil, Nat.zero_add, ← hbuf] at hhandle
    rcases hall : handleAll env (e :: es) (s.buf.val.drop bytes.length) s.proc with ⟨p, r⟩
    refine ⟨_, .ofBytes bufLen (overlay s.buf.val bytes), p, r, hall, ?_⟩
    simp only [machine, State.step]
    rw [if_pos ⟨hstop, hqueue⟩, hfit]
    simp only [hhandle, hall, bytes]

theorem queued_queue (tr : List (State × Label)) (s : State) (e : Event) :
    queued (tr ++ [(s, .queue e)]) = queued tr ++ [e] := by
  simp [queued]

theorem queued_read (tr : List (State × Label)) (s : State) :
    queued (tr ++ [(s, .read)]) = queued tr := by
  simp [queued]

/-- What holds after the events `es` have been put into the queue: those that have been handled have
their lines, and the others wait, unless one of them has ended the process. -/
def Inv (env : Env) (es : List Event) (s : State) : Prop :=
  ∃ seen, List.Forall₂ Prints seen s.proc.out ∧ (s.stopped = none → es = seen ++ s.queue) ∧
    ∀ stop, s.stopped = some stop →
      ∃ e lost, es = seen ++ e :: (lost ++ s.queue) ∧ Ends env seen.length s.proc e stop

theorem inv_queue {es : List Event} (h : Inv env es s) (e : Event) :
    Inv env (es ++ [e]) { s with queue := s.queue ++ [e] } := by
  obtain ⟨seen, hprints, hgoes, hends⟩ := h
  refine ⟨seen, hprints, fun hnone => ?_, fun stop hstop => ?_⟩
  · rw [hgoes hnone, List.append_assoc]
  · obtain ⟨e', lost, hes, h⟩ := hends stop hstop
    exact ⟨e', lost, by simp [hes], h⟩

theorem inv_handleAll {es taken rest : List Event} {behind : Bytes} {buf : CharArray bufLen}
    {p : Proc} {r : Option Stop} (hstop : s.stopped = none) (hqueue : taken ++ rest = s.queue)
    (hall : handleAll env taken behind s.proc = (p, r)) (h : Inv env es s) :
    Inv env es ⟨rest, buf, p, r⟩ := by
  obtain ⟨seen, hprints, hgoes, -⟩ := h
  have hes : es = seen ++ (taken ++ rest) := hqueue ▸ hgoes hstop
  obtain ⟨hnone, hsome⟩ := handleAll_spec hall
  cases r with
  | none =>
    obtain ⟨lines, hlines, hout⟩ := hnone rfl
    refine ⟨seen ++ taken, ?_, fun _ => by rw [hes, List.append_assoc], nofun⟩
    rw [hout]
    exact List.rel_append hprints hlines
  | some stop =>
    obtain ⟨done, e, lost, lines, hsplit, hlines, hout, hends⟩ := hsome stop rfl
    have hprinted : List.Forall₂ Prints (seen ++ done) (s.proc.out ++ lines) :=
      List.rel_append hprints hlines
    refine ⟨seen ++ done, hout ▸ hprinted, nofun, ?_⟩
    rintro _ ⟨⟩
    refine ⟨e, lost, by simp [hes, hsplit], ?_⟩
    rwa [hprinted.length_eq, ← hout]

theorem inv_of_run (h₀ : (machine env).init s₀) (hrun : (machine env).Run s₀ tr s) :
    Inv env (queued tr) s := by
  induction hrun with
  | nil =>
    obtain ⟨hqueue, hout, hstop⟩ := h₀
    refine ⟨[], hout ▸ .nil, fun _ => hqueue.symm, fun stop h => ?_⟩
    rw [hstop] at h
    cases h
  | @snoc tr t u a _ hstep ih =>
    cases a with
    | queue e =>
      cases hstep
      rw [queued_queue]
      exact inv_queue ih e
    | read =>
      obtain ⟨hstop, hqueue⟩ : t.stopped = none ∧ t.queue ≠ [] := by
        by_contra hn
        simp [machine, State.step, hn] at hstep
      rcases hfit : fitting bufLen t.queue with ⟨es, rest⟩
      obtain ⟨behind, buf, p, r, hall, hread⟩ := read_spec env hstop hqueue hfit
      cases hstep.symm.trans hread
      rw [queued_read]
      exact inv_handleAll hstop (fitting_spec hfit).1 hall ih

end Run

/-! ### A new directory, and one more in it -/

/-- `mkdir a` in the watched directory, whose descriptor is 1. -/
def newDir : Event := ⟨1, 0x40000100, 0, [97], by decide, by decide⟩

/-- The watched directory is moved. -/
def moved : Event := ⟨1, 0x800, 0, [], by decide, by decide⟩

/-- `mkdir a/b`, with the descriptor of `a`. -/
def newSubdir : Event := ⟨2, 0x40000100, 0, [98], by decide, by decide⟩

/-- All calls succeed, and the blocks have some room. -/
def sampleEnv : Env := ⟨fun _ => true, fun _ => true, fun _ => some 8⟩

/-- The process behind its walk over a directory without subdirectories. -/
def sampleProc : Proc := ⟨Function.update (fun _ => none) 1 (some [47, 116]), []⟩

end Stream

end DirWatch

end Tlpiexer
