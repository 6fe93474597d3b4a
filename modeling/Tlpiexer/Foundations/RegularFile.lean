import Mathlib.Algebra.Group.Int.Defs
import Mathlib.Algebra.Group.Nat.Defs
import Mathlib.Data.Nat.Notation

/-!
# An open regular file

The contents of a file and the file offset of a descriptor for it. Reading moves the offset on,
`lseek` sets it; an offset behind the end of the file is allowed, and there is nothing to read
there.

## Main results

* `RegularFile.File.rest_advance` — what is left behind a part that has been read
-/

namespace RegularFile

/-- What a file contains, and the file offset. -/
structure File where
  content : List UInt8
  pos : ℕ
  deriving DecidableEq

namespace File

/-- What lies between the file offset and the end of the file. -/
def rest (f : File) : List UInt8 := f.content.drop f.pos

/-- The file with its offset moved on. -/
def advance (f : File) (k : ℕ) : File := { f with pos := f.pos + k }

@[simp] theorem advance_pos (f : File) (k : ℕ) : (f.advance k).pos = f.pos + k := rfl

@[simp] theorem rest_advance (f : File) (k : ℕ) : (f.advance k).rest = f.rest.drop k := by
  rw [rest, rest, List.drop_drop]
  rfl

theorem length_rest (f : File) : f.rest.length = f.content.length - f.pos := List.length_drop

/-- The file with its offset set to `base + offset`, if this is not negative. -/
def seekTo (f : File) (base offset : ℤ) : Option File :=
  if 0 ≤ base + offset then some { f with pos := (base + offset).toNat } else none

end File

/-- `SEEK_SET`. -/
def seekSet : ℤ := 0

/-- `SEEK_CUR`. -/
def seekCur : ℤ := 1

/-- `SEEK_END`. -/
def seekEnd : ℤ := 2

/-- `lseek(fd, offset, whence)`. What it does with any other `whence` is up to the file system. -/
def File.lseek (other : ℤ → ℤ → Option ℕ) (f : File) (offset whence : ℤ) : Option File :=
  if whence = seekSet then f.seekTo 0 offset
  else if whence = seekCur then f.seekTo f.pos offset
  else if whence = seekEnd then f.seekTo f.content.length offset
  else (other offset whence).map fun pos => { f with pos := pos }

end RegularFile
