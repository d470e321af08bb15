import Mathlib.Algebra.GroupWithZero.Nat
import Mathlib.Algebra.Group.Int.Defs
import Mathlib.Data.Nat.Notation

/-!
# coreutils: allocation

The size arithmetic of `lib/xalloc.h`, in 64 bits.
-/

namespace CodingExercises.Coreutils

/-- A byte of a file or a string. -/
abbrev Byte := UInt8

/-- Rings and pools of four have the indices `Fin 4`. -/
instance neZeroFour : NeZero 4 := ⟨by decide⟩

/-- `SIZE_MAX`. -/
def sizeMax : ℕ := 2 ^ 64 - 1

/-- `xalloc_oversized`: `n` objects of `s` bytes cannot exist. -/
def xallocOversized (n s : ℕ) : Bool := sizeMax / s < n

/-- The new size that `x2nrealloc` asks for, for a block of `n` objects of `s` bytes each, or for none; without a value
`xalloc_die` ends the program. -/
def x2nrealloc (null : Bool) (n s : ℕ) : Option ℕ :=
  if null then
    if n = 0 then some (if 64 / s = 0 then 1 else 64 / s) else some n
  else if sizeMax / 3 * 2 / s ≤ n then none
  else some (n + (n + 1) / 2)

end CodingExercises.Coreutils
