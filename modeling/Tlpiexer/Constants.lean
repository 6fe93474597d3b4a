import Mathlib.Data.Int.Notation
import Mathlib.Data.Nat.Notation

/-!
# Constants of the programs

The macros that several source files share: those of the library, and the values that the functions
of the exercises return.
-/

namespace Tlpiexer

/-- `PATH_MAX`. -/
def pathMax : ℕ := 4096

/-- `INT_MAX`. -/
abbrev intMax : ℕ := 2147483647

/-- `SIZE_MAX`, which is also `(size_t) -1`. -/
def sizeMax : ℕ := 18446744073709551615

/-- `FN_OK`, and `FN_SUCCESS` in some files. -/
def fnOk : ℤ := 0

/-- `FN_ER`, and `FN_FAILURE` in some files. -/
def fnEr : ℤ := -1

/-- `RET_SUCCESS`. -/
def retSuccess : ℤ := 0

/-- `RET_FAILURE`. -/
def retFailure : ℤ := -1

/-- `EXIT_SUCCESS`. -/
def exitSuccess : ℤ := 0

/-- `EXIT_FAILURE`. -/
def exitFailure : ℤ := 1

/-- `BUF_SIZE`, and the size of the buffers that have no such macro, where a file does not say
otherwise. -/
abbrev bufSize : ℕ := 1024

end Tlpiexer
