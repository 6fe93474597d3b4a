import Tlpiexer.Constants
import Tlpiexer.Foundations.FileSystem
import Tlpiexer.Foundations.Script

/-!
# Walking a file tree

`fwalk` opens a directory, reads its entries, calls back for each of them and calls itself for the
directories among them. Every call it makes is checked, and the first that fails ends the walk at
all levels: nothing is closed and no working directory is restored then.

## Failing calls

A call of the kernel fails for a reason in the file system (there is no such file, the path does not
fit), or because `Env.fails` says so for the number of calls made before it; the `chdir` that goes
back has a pattern of its own, `Env.restoreFails`. A call that fails sets `errno`. A `readdir` that
fails ends the loop and is found by the test of `errno` behind it.

## Calls that succeed

`opendir`, `getcwd` and `realpath` are made of several system calls, some of which may fail without
harm: `realpath` finds out by a `readlink` that fails with `EINVAL` that a component is no link.
Such a call leaves in `errno` what it likes (`Env.leaves`). The others leave it alone when they
succeed: `stat`, `lstat` and `chdir` are system calls, `closedir` is a `close`, and `readdir`
promises it for the end of the directory.

## Callbacks

A callback is known by what it returns and what it leaves in `errno`, which may depend on all calls
made so far and on the `errno` it finds. It does not change the file system or the working
directory.

## Buffers

`fpath` is built by `strcpy` and `strcat` in an array of `PATH_MAX` bytes. A path that does not fit
is an outcome of its own, since what happens then is not up to the program.
-/

namespace Tlpiexer

namespace Nftw

open CString Path FileSystem Script

def ftwPhys : ℕ := 1

def ftwMount : ℕ := 2

def ftwChdir : ℕ := 4

def ftwDepth : ℕ := 8

/-- What is passed on as the type of a file: `d_type`, or the `st_mode` of a directory. -/
inductive TypeArg
  | d_type (t : DType)
  | st_mode
  deriving DecidableEq, Repr

/-- The arguments of a callback; the other field of `struct FTW`, `base`, is always 0. -/
structure Call where
  fpath : Bytes
  status : Stat
  type : TypeArg
  level : ℕ
  deriving DecidableEq, Repr

/-- How a walk ends before its time: with `RET_FAILURE`, or by a write past `fpath`. -/
inductive Stop
  | failure
  | overflow
  deriving DecidableEq, Repr

/-- What a walk depends on. -/
structure Env where
  fs : FS
  /-- The depth to which the kernel follows links. -/
  depth : ℕ
  flags : ℕ
  /-- What a callback returns and leaves in `errno`, for the calls so far, the last of them this
  one, and the `errno` it finds. -/
  callback : List Call → ℤ → ℤ × ℤ
  fails : ℕ → Bool
  restoreFails : ℕ → Bool
  errnos : ℕ → { e : ℤ // e ≠ 0 }
  /-- What `opendir`, `getcwd` and `realpath` leave in `errno` when they succeed, for the number of
  calls made before and the `errno` they find. -/
  leaves : ℕ → ℤ → ℤ

/-- The process. -/
structure Proc where
  cwd : Loc
  errno : ℤ
  /-- The number of calls of the kernel so far. -/
  ticks : ℕ
  calls : List Call
  /-- The number of open directories, and the largest it has been. -/
  opened : ℕ
  peak : ℕ
  deriving DecidableEq

namespace Env

variable (e : Env)

/-- `(flags & FTW_PHYS) != 0`. -/
def phys : Bool := e.flags &&& ftwPhys != 0

def mount : Bool := e.flags &&& ftwMount == ftwMount

def chdir : Bool := e.flags &&& ftwChdir == ftwChdir

def post : Bool := e.flags &&& ftwDepth == ftwDepth

/-! ### Calls of the kernel -/

/-- What a call does when it succeeds. -/
inductive Effect
  | look
  /-- To look with a function of the library, which may leave something in `errno`. -/
  | probe
  | open
  | close
  | enter (d : Loc)
  deriving DecidableEq

/-- The process after a call that has succeeded. -/
def Effect.apply (s : Proc) : Effect → Proc
  | .look => { s with ticks := s.ticks + 1 }
  | .probe => { s with ticks := s.ticks + 1, errno := e.leaves s.ticks s.errno }
  | .open => { s with
      ticks := s.ticks + 1, errno := e.leaves s.ticks s.errno, opened := s.opened + 1,
      peak := max s.peak (s.opened + 1) }
  | .close => { s with ticks := s.ticks + 1, opened := s.opened - 1 }
  | .enter d => { s with ticks := s.ticks + 1, cwd := d }

/-- The process after a call that has failed. -/
def refuse (s : Proc) : Proc := { s with ticks := s.ticks + 1, errno := e.errnos s.ticks }

/-- A call of the kernel: `answer` is the value it has when the pattern lets it through. -/
def kernel {α : Type} (pattern : ℕ → Bool) (answer : Proc → Option α) (effect : α → Effect) :
    Attempt Proc Stop α := fun s =>
  match answer s with
  | some a =>
    if pattern s.ticks then .stop .failure (e.refuse s) else .value a ((effect a).apply e s)
  | none => .stop .failure (e.refuse s)

/-- `stat`. -/
def stat (path : Bytes) : Attempt Proc Stop (Option Stat) :=
  e.kernel e.fails (fun s => (e.fs.stat e.depth s.cwd path).map some) fun _ => .look

/-- `lstat`, with the type of the file. -/
def lstat (path : Bytes) : Attempt Proc Stop Node :=
  e.kernel e.fails (fun s => e.fs.lstat e.depth s.cwd path) fun _ => .look

/-- `opendir`, with what `readdir` is going to deliver. -/
def opendir (path : Bytes) : Attempt Proc Stop Listing :=
  e.kernel e.fails (fun s => e.fs.opendir e.depth s.cwd path) fun _ => .open

def readdir : Attempt Proc Stop Unit := e.kernel e.fails (fun _ => some ()) fun _ => .look

def closedir : Attempt Proc Stop Unit := e.kernel e.fails (fun _ => some ()) fun _ => .close

/-- A path that is written into a buffer by a call that knows its size. -/
def sized (path : Bytes) : Option Bytes := if path.length < pathMax then some path else none

def getcwd : Attempt Proc Stop Bytes :=
  e.kernel e.fails (fun s => sized s.cwd.path) fun _ => .probe

def realpath (path : Bytes) : Attempt Proc Stop Bytes :=
  e.kernel e.fails (fun s => (e.fs.resolve e.depth true s.cwd path).bind fun l => sized l.path)
    fun _ => .probe

/-- `chdir`, which fails by the given pattern. -/
def chdirTo (pattern : ℕ → Bool) (path : Bytes) : Attempt Proc Stop Loc :=
  e.kernel pattern (fun s => e.fs.chdir e.depth s.cwd path) .enter

/-! ### The walk -/

/-- `errno = 0`. -/
def clearErrno : Attempt Proc Stop Unit := fun s => .value () { s with errno := 0 }

/-- `if (errno != 0) return RET_FAILURE`. -/
def checkErrno : Attempt Proc Stop Unit := fun s =>
  if s.errno ≠ 0 then .stop .failure s else .value () s

/-- The process after a callback. -/
def called (c : Call) (s : Proc) : Proc :=
  { s with calls := s.calls ++ [c], errno := (e.callback (s.calls ++ [c]) s.errno).2 }

/-- `if (callback(...) != 0) return RET_FAILURE`. -/
def call (c : Call) : Attempt Proc Stop Unit := fun s =>
  if (e.callback (s.calls ++ [c]) s.errno).1 ≠ 0 then .stop .failure (e.called c s)
  else .value () (e.called c s)

/-- The path of an entry. -/
def fpath (dirpath d_name : Bytes) : Bytes :=
  if e.chdir then d_name else dirpath ++ slash :: d_name

/-- The entry is a link that is followed. -/
def followed (d_type : DType) : Bool := d_type == .lnk && !e.phys

/-- The entry lies on another device than its directory, and that matters. -/
def elsewhere (dstatus : Option Stat) (status : Stat) : Bool :=
  e.mount && dstatus.any fun d => status.st_dev != d.st_dev

/-- What is done for a file at `fpath`; `walk` is the call of `fwalk` for a directory. -/
def visit (walk : Bytes → Attempt Proc Stop Unit) (dstatus : Option Stat) (level : ℕ)
    (d_name : Bytes) (d_type : DType) (fpath : Bytes) : Attempt Proc Stop Unit := do
  let status ← e.lstat fpath
  if e.elsewhere dstatus status.stat then pure ()
  else if status.isDir then do
    Attempt.whenever (!e.post) (e.call ⟨d_name, status.stat, .st_mode, level⟩)
    walk fpath
    Attempt.whenever e.post (e.call ⟨d_name, status.stat, .st_mode, level⟩)
  else e.call ⟨d_name, status.stat, .d_type d_type, level⟩

/-- The body of the loop. -/
def entry (walk : Bytes → Attempt Proc Stop Unit) (dirpath : Bytes) (dstatus : Option Stat)
    (level : ℕ) (d_name : Bytes) (d_type : DType) : Attempt Proc Stop Unit :=
  if d_name = dot ∨ d_name = dotdot then pure ()
  else if pathMax ≤ (e.fpath dirpath d_name).length then Attempt.stop .overflow
  else if e.followed d_type then do
    let lpath ← e.realpath (e.fpath dirpath d_name)
    e.visit walk dstatus level d_name d_type lpath
  else e.visit walk dstatus level d_name d_type (e.fpath dirpath d_name)

/-- The loop; the last `readdir` finds no entry. -/
def entries (walk : Bytes → Attempt Proc Stop Unit) (dirpath : Bytes) (dstatus : Option Stat)
    (level : ℕ) : List (Bytes × DType) → Attempt Proc Stop Unit
  | [] => e.readdir
  | (d_name, d_type) :: rest => do
    e.readdir
    e.entry walk dirpath dstatus level d_name d_type
    entries walk dirpath dstatus level rest

/-- `fwalk`, for at most the given number of nested calls. -/
def fwalk : ℕ → Bytes → ℤ → ℕ → Attempt Proc Stop Unit
  | 0, _, _, _ => Attempt.timeout
  | fuel + 1, dirpath, nfd, level =>
    if nfd < 0 then Attempt.stop .failure
    else do
      -- without `FTW_MOUNT`, `dstatus` stays as it is and is not looked at
      let dstatus ← if e.mount then e.stat dirpath else pure none
      let dir ← e.opendir dirpath
      let cwd ← e.getcwd
      Attempt.whenever e.chdir (do let _ ← e.chdirTo e.fails dirpath)
      clearErrno
      e.entries (fun fpath => fwalk fuel fpath (nfd - 1) (level + 1)) dirpath dstatus level
        dir.dirents
      checkErrno
      e.closedir
      Attempt.whenever e.chdir (do let _ ← e.chdirTo e.restoreFails cwd)

/-- `nftw(dirpath, callback, nfd, flags)`. -/
def nftw (fuel : ℕ) (dirpath : Bytes) (nfd : ℤ) : Attempt Proc Stop Unit :=
  e.fwalk fuel dirpath nfd 0

end Env

end Nftw

end Tlpiexer
