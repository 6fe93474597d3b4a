import Mathlib.Logic.Function.Basic
import Tlpiexer.Foundations.CString
import Tlpiexer.Foundations.DescriptorTable
import Tlpiexer.Foundations.Transition

/-!
# `popen` and `pclose`

`src/imp/44-02.c`. A state is the table of descriptors of the parent, its open streams with what
they have buffered, the array `POPEN_INDEXES` and the children that have not been waited for. The
answers of `pipe`, `fork` and `fdopen` are part of a label, and so are the moments at which a child
terminates and at which the library moves buffered bytes to a pipe. A stream is used until it is
given to `pclose` and not after.

## The child's descriptors

The child calls `dup2(STDOUT_FILENO, fds[1])`, with the arguments the wrong way round: it is the
pipe's descriptor that is replaced, and descriptor 1 still refers to what it did in the parent. In
the parent the descriptors below 3 never change (`Inv.std`), so the child's descriptor 1 is never a
pipe.

## What `pclose` returns

`pclose` closes the descriptor before it flushes the stream, asks for the child without waiting, and
returns the pid instead of the status. The array does find the right child: `Inv` ties each open
stream to its entry, through any reuse of descriptors.

## Main results

* `child_never_wired` — no child has the descriptors it should have
* `pclose_sound_iff` — when `pclose` does what its value says
-/

namespace Tlpiexer

namespace Popen

open CString Descriptors Transition

/-! ### States -/

/-- An end of a pipe. -/
inductive Side
  | read
  | write
  deriving DecidableEq

/-- What a descriptor refers to: a file from before, or an end of a pipe made here. -/
inductive OpenFile
  | file (n : ℕ)
  | pipe (n : ℕ) (side : Side)
  deriving DecidableEq

/-- The types of a stream. -/
inductive Mode
  | r
  | w
  deriving DecidableEq

/-- `strcmp(type, "r")` and `strcmp(type, "w")`. -/
def Mode.ofType (type : Bytes) : Option Mode :=
  if type = [114] then some .r else if type = [119] then some .w else none

/-- The end of the pipe that the parent keeps. -/
def Mode.side : Mode → Side
  | .r => .read
  | .w => .write

/-- The end that the child is to use. -/
def Mode.childSide : Mode → Side
  | .r => .write
  | .w => .read

/-- The descriptor it is to use it as: `STDOUT_FILENO` or `STDIN_FILENO`. -/
def Mode.childFd : Mode → ℕ
  | .r => 1
  | .w => 0

/-- A stream that `popen` has returned. No function looks at `pid`, the child that was started for
it. -/
structure Stream where
  fd : ℕ
  pid : ℕ
  mode : Mode
  buffer : Bytes

/-- A child that has not been waited for. -/
inductive Child
  | running
  | terminated (status : ℤ)
  deriving DecidableEq

/-- `MAX_FD`. -/
def maxFd : ℕ := 65535

structure State where
  table : Table OpenFile
  /-- The pipes made so far. -/
  pipes : ℕ
  /-- `POPEN_INDEXES`. -/
  index : ℕ → ℤ
  /-- The streams in use. -/
  streams : ℕ → Option Stream
  /-- The children, by pid. -/
  children : ℕ → Option Child

section

variable (s : State)

/-- The state with another stream at `id`. -/
def State.setStream (id : ℕ) (st : Option Stream) : State :=
  { s with streams := Function.update s.streams id st }

/-! ### `popen` -/

/-- `fds[0]`. -/
def State.readEnd : ℕ := (s.table.alloc (.pipe s.pipes .read)).1

/-- `fds[1]`. -/
def State.writeEnd : ℕ :=
  (Table.alloc (s.table.alloc (.pipe s.pipes .read)).2 (.pipe s.pipes .write)).1

/-- The table behind `pipe(fds)`. -/
def State.piped : Table OpenFile :=
  (Table.alloc (s.table.alloc (.pipe s.pipes .read)).2 (.pipe s.pipes .write)).2

/-- `fd`. -/
def State.streamFd : Mode → ℕ
  | .r => s.readEnd
  | .w => s.writeEnd

/-- `ufd`. -/
def State.unusedFd : Mode → ℕ
  | .r => s.writeEnd
  | .w => s.readEnd

/-- The table of the child when it gets to `execl`. -/
def State.childTable (limit : ℕ) : Mode → Table OpenFile
  | .r => (Table.dup2 limit (Table.close s.piped s.readEnd).2 1 s.writeEnd).2
  | .w => (Table.dup2 limit (Table.close s.piped s.writeEnd).2 0 s.readEnd).2

/-- The parent when it gets to `fdopen`. -/
def State.spawn (mode : Mode) (pid : ℕ) : State :=
  { s with
    table := (Table.close s.piped (s.unusedFd mode)).2
    pipes := s.pipes + 1
    index := Function.update s.index (s.streamFd mode) pid
    children := Function.update s.children pid (some .running) }

/-- `popen` in the parent. It has no result when the array is written past its end, or when an
answer is not one that the system gives: a pid or a stream that is in use. -/
def State.popen (limit : ℕ) (type : Bytes) (pipe : Bool) (fork fdopen : Option ℕ) : Option State :=
  match Mode.ofType type with
  | none => some s
  | some mode =>
    if pipe = false ∨ limit ≤ max s.readEnd s.writeEnd then some s
    else match fork with
      | none => some { s with table := s.piped, pipes := s.pipes + 1 }
      | some pid =>
        if pid = 0 ∨ s.children pid ≠ none then none
        else if maxFd ≤ s.streamFd mode then none
        else match fdopen with
          | none => some (s.spawn mode pid)
          | some id =>
            if (s.streams id).isSome then none
            else some ((s.spawn mode pid).setStream id (some ⟨s.streamFd mode, pid, mode, []⟩))

/-! ### `pclose` -/

/-- The stream is given up and its descriptor closed. -/
def State.closeStream (id : ℕ) (st : Stream) : State :=
  { s.setStream id none with table := (s.table.close st.fd).2 }

/-- A child has been waited for. -/
def State.reap (pid : ℕ) : State := { s with children := Function.update s.children pid none }

/-- `pclose`: the value, and the bytes that `fflush` could not write. A negative entry of the array
would mean any child; no stream of `popen` has one. -/
def State.pclose (id : ℕ) : Option (ℤ × Bytes × State) :=
  match s.streams id with
  | none => none
  | some st =>
    let s' := s.closeStream id st
    -- `fflush` writes to the descriptor as it is now
    let unwritten := if (s'.table.lookup st.fd).isSome then [] else st.buffer
    let cpid := s.index st.fd
    if cpid ≤ 0 then none
    -- `waitpid(cpid, &status, WNOHANG)`
    else match s.children cpid.toNat with
      | none => some (-1, unwritten, s')
      | some .running => some (cpid, unwritten, s')
      | some (.terminated _) => some (cpid, unwritten, s'.reap cpid.toNat)

/-! ### Runs -/

/-- What happens: a call, bytes written to a stream of which the library moves the first `moved` of
all that it has to the pipe, or the end of a child. -/
inductive Label
  | popen (type : Bytes) (pipe : Bool) (fork fdopen : Option ℕ)
  | put (id : ℕ) (bytes : Bytes) (moved : ℕ)
  | terminate (pid : ℕ) (status : ℤ)
  | pclose (id : ℕ)

def State.put (id : ℕ) (bytes : Bytes) (moved : ℕ) : Option State :=
  match s.streams id with
  | none => none
  | some st =>
    if st.mode = .w then
      some (s.setStream id (some { st with buffer := (st.buffer ++ bytes).drop moved }))
    else none

def State.terminate (pid : ℕ) (status : ℤ) : Option State :=
  if s.children pid = some .running then
    some { s with children := Function.update s.children pid (some (.terminated status)) }
  else none

def State.step (limit : ℕ) : Label → Option State
  | .popen type pipe fork fdopen => s.popen limit type pipe fork fdopen
  | .put id bytes moved => s.put id bytes moved
  | .terminate pid status => s.terminate pid status
  | .pclose id => (s.pclose id).map fun r => r.2.2

end

/-- Any table with descriptors 0, 1 and 2 open, and no stream yet. -/
structure Initial (s : State) : Prop where
  std : ∀ fd < 3, (s.table.lookup fd).isSome
  files : ∀ fd f, s.table.lookup fd = some f → ∃ n, f = .file n
  streams : ∀ id, s.streams id = none
  /-- `POPEN_INDEXES[MAX_FD] = { -1 }`. -/
  index : s.index = fun fd => if fd = 0 then -1 else 0

/-- Calls of `popen` and `pclose`, in a process that may open the descriptors below `limit`. -/
def machine (limit : ℕ) : Machine State Label where
  init := Initial
  step s := s.step limit

/-! ### The pipe of a call -/

section Pipe

variable {s : State} {limit fd pid : ℕ} {mode : Mode} {f : OpenFile}

theorem lookup_readEnd (s : State) : s.table.lookup s.readEnd = none := Table.lookup_alloc_fst _ _

theorem lookup_piped_readEnd (s : State) :
    s.piped.lookup s.readEnd = some (.pipe s.pipes .read) :=
  Table.lookup_alloc_of_some (Finmap.lookup_insert _) _

theorem lookup_piped_writeEnd (s : State) :
    s.piped.lookup s.writeEnd = some (.pipe s.pipes .write) :=
  Finmap.lookup_insert _

/-- What is open in the parent stays as it is. -/
theorem lookup_piped (h : s.table.lookup fd = some f) : s.piped.lookup fd = some f :=
  Table.lookup_alloc_of_some (Table.lookup_alloc_of_some h _) _

theorem readEnd_ne_writeEnd (s : State) : s.readEnd ≠ s.writeEnd := by
  intro h
  have hread := lookup_piped_readEnd s
  rw [h, lookup_piped_writeEnd] at hread
  cases hread

theorem lookup_writeEnd (s : State) : s.table.lookup s.writeEnd = none := by
  have hfree : (s.table.alloc (.pipe s.pipes .read)).2.lookup s.writeEnd = none :=
    Table.lookup_alloc_fst _ _
  exact (Finmap.lookup_insert_of_ne _ (readEnd_ne_writeEnd s).symm).symm.trans hfree

theorem lookup_streamFd (s : State) (mode : Mode) : s.table.lookup (s.streamFd mode) = none := by
  cases mode with
  | r => exact lookup_readEnd s
  | w => exact lookup_writeEnd s

theorem lookup_unusedFd (s : State) (mode : Mode) : s.table.lookup (s.unusedFd mode) = none := by
  cases mode with
  | r => exact lookup_writeEnd s
  | w => exact lookup_readEnd s

/-- A descriptor that is open is neither end of the new pipe. -/
theorem ne_of_lookup {fd' : ℕ} (h : s.table.lookup fd = some f) (h' : s.table.lookup fd' = none) :
    fd ≠ fd' := by
  rintro rfl
  rw [h] at h'
  cases h'

theorem lookup_spawn (h : s.table.lookup fd = some f) :
    (s.spawn mode pid).table.lookup fd = some f := by
  have hne := ne_of_lookup h (lookup_unusedFd s mode)
  rw [State.spawn, Table.close_natCast, Finmap.lookup_erase_ne hne, lookup_piped h]

theorem lookup_spawn_streamFd :
    (s.spawn mode pid).table.lookup (s.streamFd mode) = some (.pipe s.pipes mode.side) := by
  rw [State.spawn, Table.close_natCast]
  cases mode with
  | r => exact (Finmap.lookup_erase_ne (readEnd_ne_writeEnd s)).trans (lookup_piped_readEnd s)
  | w => exact (Finmap.lookup_erase_ne (readEnd_ne_writeEnd s).symm).trans (lookup_piped_writeEnd s)

theorem spawn_children_self : (s.spawn mode pid).children pid = some .running :=
  Function.update_self ..

/-- **What is open in the parent is open in the child**, and refers to the same file. -/
theorem lookup_childTable (h : s.table.lookup fd = some f) :
    (s.childTable limit mode).lookup fd = some f := by
  have hread : (fd : ℤ) ≠ s.readEnd := fun he =>
    ne_of_lookup h (lookup_readEnd s) (Int.ofNat.inj he)
  have hwrite : (fd : ℤ) ≠ s.writeEnd := fun he =>
    ne_of_lookup h (lookup_writeEnd s) (Int.ofNat.inj he)
  cases mode with
  | r =>
    rw [State.childTable, Table.lookup_dup2_of_ne hwrite, Table.close_natCast,
      Finmap.lookup_erase_ne (ne_of_lookup h (lookup_readEnd s)), lookup_piped h]
  | w =>
    rw [State.childTable, Table.lookup_dup2_of_ne hread, Table.close_natCast,
      Finmap.lookup_erase_ne (ne_of_lookup h (lookup_writeEnd s)), lookup_piped h]

end Pipe

/-! ### The invariant -/

/-- What ties an open stream to the descriptors, the array and its child. -/
structure Stream.Tied (s : State) (st : Stream) : Prop where
  fd : ∃ n side, s.table.lookup st.fd = some (.pipe n side)
  index : s.index st.fd = st.pid
  pos : 0 < st.pid
  child : s.children st.pid ≠ none

structure Inv (s : State) : Prop where
  std : ∀ fd < 3, ∃ n, s.table.lookup fd = some (.file n)
  tied : ∀ id st, s.streams id = some st → st.Tied s
  distinct : ∀ id id' st st', s.streams id = some st → s.streams id' = some st' → id ≠ id' →
    st.fd ≠ st'.fd ∧ st.pid ≠ st'.pid

theorem inv_of_initial {s : State} (h : Initial s) : Inv s where
  std := fun fd hfd => by
    obtain ⟨f, hf⟩ := Option.isSome_iff_exists.mp (h.std fd hfd)
    obtain ⟨n, rfl⟩ := h.files fd f hf
    exact ⟨n, hf⟩
  tied := fun id st hst => by
    rw [h.streams id] at hst
    cases hst
  distinct := fun id _ st _ hst => by
    rw [h.streams id] at hst
    cases hst

section Steps

variable {s t : State} {limit : ℕ}

theorem setStream_eq_some {id id' : ℕ} {o : Option Stream} {st : Stream}
    (h : (s.setStream id o).streams id' = some st) :
    id' = id ∧ o = some st ∨ id' ≠ id ∧ s.streams id' = some st := by
  by_cases hid : id' = id
  · subst hid
    have hself : (s.setStream id' o).streams id' = o := Function.update_self ..
    exact .inl ⟨rfl, hself.symm.trans h⟩
  · exact .inr ⟨hid, (Function.update_of_ne hid ..).symm.trans h⟩

theorem update_some_ne_none {children : ℕ → Option Child} {p pid : ℕ} {c : Child}
    (h : children p ≠ none) : Function.update children pid (some c) p ≠ none := by
  rw [Function.update_apply]
  split_ifs
  · exact Option.some_ne_none c
  · exact h

/-- A step that only adds, as far as the streams can see. -/
theorem Inv.mono (h : Inv s)
    (htable : ∀ fd f, s.table.lookup fd = some f → t.table.lookup fd = some f)
    (hstreams : t.streams = s.streams)
    (hindex : ∀ fd f, s.table.lookup fd = some f → t.index fd = s.index fd)
    (hchildren : ∀ pid, s.children pid ≠ none → t.children pid ≠ none) : Inv t where
  std := fun fd hfd => by
    obtain ⟨n, hn⟩ := h.std fd hfd
    exact ⟨n, htable fd _ hn⟩
  tied := fun id st hst => by
    rw [hstreams] at hst
    have H := h.tied id st hst
    obtain ⟨n, side, hfd⟩ := H.fd
    exact ⟨⟨n, side, htable _ _ hfd⟩, (hindex _ _ hfd).trans H.index, H.pos, hchildren _ H.child⟩
  distinct := by
    rw [hstreams]
    exact h.distinct

theorem Inv.spawn (h : Inv s) (mode : Mode) (pid : ℕ) : Inv (s.spawn mode pid) := by
  refine h.mono (fun fd f hf => lookup_spawn hf) rfl ?_ ?_
  · intro fd f hf
    exact Function.update_of_ne (ne_of_lookup hf (lookup_streamFd s mode)) _ _
  · intro p hp
    exact update_some_ne_none hp

/-- A stream may be put at `id` that is tied and differs from the streams elsewhere. -/
theorem Inv.setStream (h : Inv s) {id : ℕ} {st : Stream} (htied : st.Tied s)
    (hother : ∀ id' st', id' ≠ id → s.streams id' = some st' → st.fd ≠ st'.fd ∧ st.pid ≠ st'.pid) :
    Inv (s.setStream id (some st)) where
  std := h.std
  tied := by
    intro id' st' hst'
    rcases setStream_eq_some hst' with ⟨-, hst⟩ | ⟨-, hst⟩
    · obtain rfl := Option.some.inj hst
      exact ⟨htied.fd, htied.index, htied.pos, htied.child⟩
    · have H := h.tied id' st' hst
      exact ⟨H.fd, H.index, H.pos, H.child⟩
  distinct := by
    intro id₁ id₂ st₁ st₂ h₁ h₂ hne
    rcases setStream_eq_some h₁ with ⟨rfl, hst₁⟩ | ⟨hid₁, hst₁⟩
    · obtain rfl := Option.some.inj hst₁
      rcases setStream_eq_some h₂ with ⟨rfl, -⟩ | ⟨hid₂, hst₂⟩
      · exact absurd rfl hne
      · exact hother id₂ st₂ hid₂ hst₂
    · rcases setStream_eq_some h₂ with ⟨rfl, hst₂⟩ | ⟨-, hst₂⟩
      · obtain rfl := Option.some.inj hst₂
        obtain ⟨hfd, hpid⟩ := hother id₁ st₁ hid₁ hst₁
        exact ⟨hfd.symm, hpid.symm⟩
      · exact h.distinct id₁ id₂ st₁ st₂ hst₁ hst₂ hne

/-- A new stream is tied to what `popen` has just made. -/
theorem Inv.openStream (h : Inv s) (mode : Mode) {pid : ℕ} (id : ℕ) (hpid : pid ≠ 0)
    (hfree : s.children pid = none) :
    Inv ((s.spawn mode pid).setStream id (some ⟨s.streamFd mode, pid, mode, []⟩)) := by
  refine (h.spawn mode pid).setStream
    ⟨⟨_, _, lookup_spawn_streamFd⟩, ?_, Nat.pos_of_ne_zero hpid, ?_⟩ ?_
  · exact Function.update_self ..
  · rw [spawn_children_self]
    exact Option.some_ne_none _
  · intro id' st' _ hst'
    obtain ⟨⟨n, side, hfd⟩, -, -, hchild⟩ := h.tied id' st' hst'
    refine ⟨(ne_of_lookup hfd (lookup_streamFd s mode)).symm, ?_⟩
    rintro rfl
    exact hchild hfree

theorem Inv.popen (h : Inv s) {type : Bytes} {pipe : Bool} {fork fdopen : Option ℕ}
    (hpopen : s.popen limit type pipe fork fdopen = some t) : Inv t := by
  rw [State.popen] at hpopen
  cases hmode : Mode.ofType type with
  | none =>
    rw [hmode] at hpopen
    exact Option.some.inj hpopen ▸ h
  | some mode =>
    rw [hmode] at hpopen
    dsimp only at hpopen
    by_cases hpipe : pipe = false ∨ limit ≤ max s.readEnd s.writeEnd
    · rw [if_pos hpipe] at hpopen
      exact Option.some.inj hpopen ▸ h
    rw [if_neg hpipe] at hpopen
    cases fork with
    | none =>
      refine Option.some.inj hpopen ▸ h.mono (fun fd f hf => lookup_piped hf) rfl ?_ ?_
      · exact fun _ _ _ => rfl
      · exact fun _ hp => hp
    | some pid =>
      dsimp only at hpopen
      by_cases hpid : pid = 0 ∨ s.children pid ≠ none
      · rw [if_pos hpid] at hpopen
        cases hpopen
      rw [if_neg hpid] at hpopen
      obtain ⟨hpos, hfree⟩ := not_or.mp hpid
      by_cases hmax : maxFd ≤ s.streamFd mode
      · rw [if_pos hmax] at hpopen
        cases hpopen
      rw [if_neg hmax] at hpopen
      cases fdopen with
      | none => exact Option.some.inj hpopen ▸ h.spawn mode pid
      | some id =>
        dsimp only at hpopen
        by_cases hid : (s.streams id).isSome
        · rw [if_pos hid] at hpopen
          cases hpopen
        · rw [if_neg hid] at hpopen
          exact Option.some.inj hpopen ▸ h.openStream mode id hpos (not_not.mp hfree)

theorem Inv.put (h : Inv s) {id moved : ℕ} {bytes : Bytes} (hput : s.put id bytes moved = some t) :
    Inv t := by
  rw [State.put] at hput
  cases hst : s.streams id with
  | none =>
    rw [hst] at hput
    cases hput
  | some st =>
    rw [hst] at hput
    dsimp only at hput
    split_ifs at hput
    have H := h.tied id st hst
    refine Option.some.inj hput ▸ h.setStream ⟨H.fd, H.index, H.pos, H.child⟩ ?_
    exact fun id' st' hne hst' => h.distinct id id' st st' hst hst' hne.symm

theorem Inv.terminate (h : Inv s) {pid : ℕ} {status : ℤ} (hterm : s.terminate pid status = some t) :
    Inv t := by
  rw [State.terminate] at hterm
  split_ifs at hterm
  refine Option.some.inj hterm ▸ h.mono (fun _ _ hf => hf) rfl (fun _ _ _ => rfl) ?_
  exact fun p hp => update_some_ne_none hp

/-- Closing a stream leaves the others tied. -/
theorem Inv.closeStream (h : Inv s) {id : ℕ} {st : Stream} (hst : s.streams id = some st) :
    Inv (s.closeStream id st) := by
  obtain ⟨n, side, hfd⟩ := (h.tied id st hst).fd
  have hkeep : ∀ fd, fd ≠ st.fd → (s.closeStream id st).table.lookup fd = s.table.lookup fd := by
    intro fd hne
    rw [State.closeStream, Table.close_natCast, Finmap.lookup_erase_ne hne]
  have hold : ∀ id' st', (s.closeStream id st).streams id' = some st' →
      id' ≠ id ∧ s.streams id' = some st' := by
    intro id' st' hst'
    rcases setStream_eq_some hst' with ⟨-, hnone⟩ | hold
    · cases hnone
    · exact hold
  refine ⟨?_, ?_, ?_⟩
  · intro fd hlt
    obtain ⟨m, hm⟩ := h.std fd hlt
    have hne : fd ≠ st.fd := by
      rintro rfl
      rw [hm] at hfd
      cases hfd
    exact ⟨m, (hkeep fd hne).trans hm⟩
  · intro id' st' hst'
    obtain ⟨hid, hst''⟩ := hold id' st' hst'
    have H := h.tied id' st' hst''
    obtain ⟨m, side', hm⟩ := H.fd
    have hne := (h.distinct id' id st' st hst'' hst hid).1
    exact ⟨⟨m, side', (hkeep _ hne).trans hm⟩, H.index, H.pos, H.child⟩
  · intro id₁ id₂ st₁ st₂ h₁ h₂ hne
    exact h.distinct id₁ id₂ st₁ st₂ (hold id₁ st₁ h₁).2 (hold id₂ st₂ h₂).2 hne

/-- A child without a stream may be waited for. -/
theorem Inv.reap (h : Inv s) {pid : ℕ} (hpid : ∀ id st, s.streams id = some st → st.pid ≠ pid) :
    Inv (s.reap pid) where
  std := h.std
  tied := fun id st hst => by
    have H := h.tied id st hst
    refine ⟨H.fd, H.index, H.pos, fun hnone => H.child ?_⟩
    exact (Function.update_of_ne (hpid id st hst) ..).symm.trans hnone
  distinct := h.distinct

/-- **What `pclose` does**: the array has the pid of the stream's child, and nothing of the buffer
is written any more. -/
theorem Inv.pclose_eq (h : Inv s) {id : ℕ} {st : Stream} (hst : s.streams id = some st) :
    s.children st.pid = some .running ∧
        s.pclose id = some ((st.pid : ℤ), st.buffer, s.closeStream id st) ∨
      ∃ status, s.children st.pid = some (.terminated status) ∧
        s.pclose id = some ((st.pid : ℤ), st.buffer, (s.closeStream id st).reap st.pid) := by
  have H := h.tied id st hst
  have hclosed : (s.closeStream id st).table.lookup st.fd = none := by
    rw [State.closeStream, Table.close_natCast, Finmap.lookup_erase]
  have hpos : ¬ (st.pid : ℤ) ≤ 0 := Int.not_le.mpr (Int.natCast_pos.mpr H.pos)
  rw [State.pclose, hst]
  dsimp only
  rw [hclosed, H.index, if_neg hpos, Int.toNat_natCast]
  cases hchild : s.children st.pid with
  | none => exact absurd hchild H.child
  | some child =>
    cases child with
    | running => exact .inl ⟨rfl, rfl⟩
    | terminated status => exact .inr ⟨status, rfl, rfl⟩

theorem Inv.pclose (h : Inv s) {id : ℕ} {r : ℤ × Bytes × State} (hclose : s.pclose id = some r) :
    Inv r.2.2 := by
  cases hst : s.streams id with
  | none =>
    rw [State.pclose, hst] at hclose
    cases hclose
  | some st =>
    have hfree : ∀ id' st', (s.closeStream id st).streams id' = some st' → st'.pid ≠ st.pid := by
      intro id' st' hst'
      rcases setStream_eq_some hst' with ⟨-, hnone⟩ | ⟨hid, hst''⟩
      · cases hnone
      · exact (h.distinct id' id st' st hst'' hst hid).2
    rcases h.pclose_eq hst with ⟨-, heq⟩ | ⟨status, -, heq⟩
    · rw [hclose] at heq
      exact Option.some.inj heq ▸ h.closeStream hst
    · rw [hclose] at heq
      exact Option.some.inj heq ▸ (h.closeStream hst).reap hfree

/-- **One step keeps the invariant.** -/
theorem Inv.step (h : Inv s) {a : Label} (hstep : s.step limit a = some t) : Inv t := by
  cases a with
  | popen type pipe fork fdopen => exact h.popen hstep
  | put id bytes moved => exact h.put hstep
  | terminate pid status => exact h.terminate hstep
  | pclose id =>
    obtain ⟨r, hclose, rfl⟩ := Option.map_eq_some_iff.mp hstep
    exact h.pclose hclose

theorem Inv.of_reachable (h : (machine limit).Reachable s) : Inv s :=
  h.invariant (fun _ => inv_of_initial) fun _ _ _ H hstep => H.step hstep

end Steps

/-! ### The descriptors of a child -/

/-- What the child of a `popen` in state `s` should find in its table: its end of the new pipe as
the standard descriptor, nothing of the other end, and none of the streams opened before. -/
structure Wired (s : State) (mode : Mode) (child : Table OpenFile) : Prop where
  std : child.lookup mode.childFd = some (.pipe s.pipes mode.childSide)
  unused : ∀ fd, child.lookup fd ≠ some (.pipe s.pipes mode.side)
  streams : ∀ id st, s.streams id = some st → child.lookup st.fd = none

/-- **No child is wired.** Its standard descriptors are those of the parent. -/
theorem child_never_wired {limit : ℕ} {s : State} (hs : (machine limit).Reachable s) (mode : Mode) :
    ¬ Wired s mode (s.childTable limit mode) := by
  intro h
  have hlt : mode.childFd < 3 := by cases mode <;> decide
  obtain ⟨n, hn⟩ := (Inv.of_reachable hs).std mode.childFd hlt
  have hstd := h.std
  rw [lookup_childTable hn] at hstd
  cases hstd

/-- A process with three files. -/
def start : State where
  table := (((∅ : Table OpenFile).insert 0 (.file 0)).insert 1 (.file 1)).insert 2 (.file 2)
  pipes := 0
  index := fun fd => if fd = 0 then -1 else 0
  streams := fun _ => none
  children := fun _ => none

theorem initial_start : Initial start where
  std := by decide
  files := by
    intro fd f hf
    by_cases h2 : fd = 2
    · subst h2
      exact ⟨2, (Option.some.inj hf).symm⟩
    by_cases h1 : fd = 1
    · subst h1
      exact ⟨1, (Option.some.inj hf).symm⟩
    by_cases h0 : fd = 0
    · subst h0
      exact ⟨0, (Option.some.inj hf).symm⟩
    rw [start, Finmap.lookup_insert_of_ne _ h2, Finmap.lookup_insert_of_ne _ h1,
      Finmap.lookup_insert_of_ne _ h0, Finmap.lookup_empty] at hf
    cases hf
  streams := fun _ => rfl
  index := rfl

/-- The process has called `popen(.., "w")`. -/
def oneStream : State := (start.spawn .w 256).setStream 0 (some ⟨4, 256, .w, []⟩)

theorem reachable_oneStream : (machine 1024).Reachable oneStream := by
  have hexec : (machine 1024).exec start [.popen [119] true (some 256) (some 0)] = some oneStream :=
    rfl
  exact Machine.reachable_of_exec initial_start hexec

theorem child_never_wired_oneStream : (machine 1024).Reachable oneStream ∧
    ¬ Wired oneStream .w (oneStream.childTable 1024 .w) :=
  ⟨reachable_oneStream, child_never_wired reachable_oneStream .w⟩

/-- The child of a second `popen(.., "r")` writes to the file of the parent, and has the first pipe
open. -/
theorem child_not_wired : (machine 1024).Reachable oneStream ∧
    (oneStream.childTable 1024 .r).lookup 1 = some (.file 1) ∧
    (oneStream.childTable 1024 .r).lookup 4 = some (.pipe 0 .write) ∧
    ¬ Wired oneStream .r (oneStream.childTable 1024 .r) := by
  have hstd : (oneStream.childTable 1024 .r).lookup 1 = some (.file 1) := by decide
  refine ⟨reachable_oneStream, hstd, by decide, fun h => ?_⟩
  have hwired := h.std
  rw [show Mode.r.childFd = 1 from rfl, hstd] at hwired
  cases hwired

/-! ### What `pclose` says -/

/-- If `pclose` returns something else than `-1`, then all that was written to the stream has been
written to the pipe, its child has terminated and been waited for, and the value is its wait
status. -/
def PcloseSound (s : State) (id : ℕ) : Prop :=
  ∀ st, s.streams id = some st → ∀ value unwritten s',
    s.pclose id = some (value, unwritten, s') → value ≠ -1 →
    unwritten = [] ∧ ∃ status, s.children st.pid = some (.terminated status) ∧
      s'.children st.pid = none ∧ value = status

/-- The condition: nothing is buffered, and the child has terminated with its own pid as status. -/
def PcloseLucky (s : State) (id : ℕ) : Prop :=
  ∀ st, s.streams id = some st → st.buffer = [] ∧ s.children st.pid = some (.terminated st.pid)

theorem Inv.pcloseSound_iff {s : State} (h : Inv s) (id : ℕ) :
    PcloseSound s id ↔ PcloseLucky s id := by
  refine forall₂_congr fun st hst => ?_
  have hne : (st.pid : ℤ) ≠ -1 := by omega
  rcases h.pclose_eq hst with ⟨hchild, heq⟩ | ⟨status, hchild, heq⟩
  · refine iff_of_false (fun hsound => ?_) fun hlucky => ?_
    · obtain ⟨-, status, hterm, -⟩ := hsound _ _ _ heq hne
      rw [hchild] at hterm
      cases hterm
    · rw [hchild] at hlucky
      cases hlucky.2
  · rw [heq, hchild]
    constructor
    · intro hsound
      obtain ⟨hbuf, status', hterm, -, hval⟩ := hsound _ _ _ rfl hne
      exact ⟨hbuf, by rw [hterm, hval]⟩
    · rintro ⟨hbuf, hterm⟩ value unwritten s' hclose -
      obtain ⟨rfl, hrest⟩ := Prod.mk.inj (Option.some.inj hclose)
      obtain ⟨rfl, rfl⟩ := Prod.mk.inj hrest
      exact ⟨hbuf, st.pid, hterm, Function.update_self .., rfl⟩

/-- **When `pclose` does what its value says.** -/
theorem pclose_sound_iff {limit : ℕ} {s₀ t : State} {tr : List (State × Label)} (h₀ : Initial s₀)
    (hrun : (machine limit).Run s₀ tr t) :
    (∀ p ∈ tr, ∀ id, p.2 = .pclose id → PcloseSound p.1 id) ↔
      ∀ p ∈ tr, ∀ id, p.2 = .pclose id → PcloseLucky p.1 id := by
  have hkeep : ∀ s a t, Inv s → (machine limit).step s a = some t → Inv t :=
    fun _ _ _ H hstep => H.step hstep
  have hinv := hrun.invariant_trace hkeep (inv_of_initial h₀)
  refine forall₂_congr fun p hp => ?_
  refine forall₂_congr fun id _ => ?_
  exact (hinv p hp).pcloseSound_iff id

/-- The child with pid 256 has ended with exit code 1, and its wait status is 256. -/
def luckyCalls : List Label :=
  [.popen [119] true (some 256) (some 0), .terminate 256 256, .pclose 0]

theorem pclose_sound_exit :
    ((machine 1024).exec start luckyCalls).isSome ∧
      ∀ p ∈ (machine 1024).trace start luckyCalls, ∀ id, p.2 = .pclose id →
        PcloseSound p.1 id := by
  have hexec : ((machine 1024).exec start luckyCalls).isSome := by decide
  obtain ⟨t, ht⟩ := Option.isSome_iff_exists.mp hexec
  refine ⟨hexec, (pclose_sound_iff initial_start (Machine.run_of_exec ht)).mpr ?_⟩
  let ended : State :=
    { oneStream with children := Function.update oneStream.children 256 (some (.terminated 256)) }
  have htrace : (machine 1024).trace start luckyCalls =
      [(start, .popen [119] true (some 256) (some 0)), (oneStream, .terminate 256 256),
        (ended, .pclose 0)] := rfl
  simp only [htrace, List.forall_mem_cons, List.not_mem_nil, false_implies, implies_true, and_true,
    reduceCtorEq, true_and, Label.pclose.injEq]
  rintro id rfl st hst
  obtain rfl : (⟨4, 256, .w, []⟩ : Stream) = st := Option.some.inj hst
  exact ⟨rfl, rfl⟩

/-- A byte is in the buffer and the child is still running: the byte is lost, and `pclose` returns
256. -/
theorem pclose_not_sound : ∃ s, (machine 1024).Reachable s ∧ ¬ PcloseSound s 0 := by
  have hexec : (machine 1024).exec start [.popen [119] true (some 256) (some 0), .put 0 [120] 0] =
      some (oneStream.setStream 0 (some ⟨4, 256, .w, [120]⟩)) := rfl
  refine ⟨_, Machine.reachable_of_exec initial_start hexec, fun h => ?_⟩
  obtain ⟨hbuf, -⟩ := h ⟨4, 256, .w, [120]⟩ rfl 256 [120] _ rfl (by decide)
  cases hbuf

end Popen

end Tlpiexer
