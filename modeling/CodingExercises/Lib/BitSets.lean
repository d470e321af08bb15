import Mathlib.Data.Set.Basic

/-!
# Words as sets of bits

The bits that are set in a word (`bits`). The bitwise operations are those of sets.
-/

namespace CodingExercises.Lib

variable {w : ℕ} {x y : BitVec w} {i : ℕ}

/-- The bits that are set. -/
def bits (x : BitVec w) : Set ℕ := {i | x.getLsbD i = true}

theorem mem_bits : i ∈ bits x ↔ x.getLsbD i = true := .rfl

theorem lt_of_mem_bits (h : i ∈ bits x) : i < w := BitVec.lt_of_getLsbD h

@[simp] theorem bits_zero : bits (0#w) = ∅ := by
  ext i
  simp [mem_bits]

@[simp] theorem bits_or (x y : BitVec w) : bits (x ||| y) = bits x ∪ bits y := by
  ext i
  simp [mem_bits]

@[simp] theorem bits_and (x y : BitVec w) : bits (x &&& y) = bits x ∩ bits y := by
  ext i
  simp [mem_bits]

theorem bits_not (x : BitVec w) : bits (~~~x) = {i | i < w} \ bits x := by
  ext i
  simp [mem_bits]

theorem bits_injective : Function.Injective (bits : BitVec w → Set ℕ) := by
  intro x y h
  refine BitVec.eq_of_getLsbD_eq fun i _ => ?_
  have hi : i ∈ bits x ↔ i ∈ bits y := by rw [h]
  rw [mem_bits, mem_bits] at hi
  exact Bool.eq_iff_iff.mpr hi

/-- A word is not zero when it has a bit. -/
theorem ne_zero_iff : x ≠ 0#w ↔ (bits x).Nonempty := by
  rw [Set.nonempty_iff_ne_empty, ← bits_zero (w := w)]
  exact not_congr bits_injective.eq_iff.symm

end CodingExercises.Lib
