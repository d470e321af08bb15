import Mathlib.Algebra.Group.Int.Defs
import Mathlib.Data.Int.Order.Basic
import CodingExercises.Lib.Segments

/-!
# Sorting: arrays of int

An array is a function of its indices. Each access is checked against a range, which is that of the indices that a call was given:
what is outside is not touched, or it is an error. `swap` is the same in both programs.
-/

namespace CodingExercises.Algorithms

open Lib.Segments

/-- The indices that may be accessed. -/
structure Range where
  lo : ℤ
  hi : ℤ

/-- Why there is no result. -/
inductive Fault
  /-- An access outside of the range. -/
  | outside
  /-- An `int` overflows. -/
  | overflow
  /-- It takes more steps. -/
  | fuel
deriving DecidableEq

/-- The elements of an array. -/
abbrev Elements := ℤ → ℤ

/-- `a[i]`. -/
def get (r : Range) (a : Elements) (i : ℤ) : Except Fault ℤ := if r.lo ≤ i ∧ i ≤ r.hi then .ok (a i) else .error .outside

/-- `a[i] = x`. -/
def set (r : Range) (a : Elements) (i x : ℤ) : Except Fault Elements :=
  if r.lo ≤ i ∧ i ≤ r.hi then .ok (Function.update a i x) else .error .outside

/-- `swap(&a[i], &a[j])`. -/
def swap (r : Range) (a : Elements) (i j : ℤ) : Except Fault Elements := do
  let tmp ← get r a i
  let x ← get r a j
  let a ← set r a i x
  set r a j tmp

section

variable {r : Range} {a : Elements} {i j : ℤ}

theorem get_ok (h : r.lo ≤ i ∧ i ≤ r.hi) : get r a i = .ok (a i) := if_pos h

theorem get_outside (h : ¬(r.lo ≤ i ∧ i ≤ r.hi)) : get r a i = .error .outside := if_neg h

theorem set_ok (h : r.lo ≤ i ∧ i ≤ r.hi) (x : ℤ) : set r a i x = .ok (Function.update a i x) := if_pos h

/-- Two elements change places. -/
theorem swap_ok (hi : r.lo ≤ i ∧ i ≤ r.hi) (hj : r.lo ≤ j ∧ j ≤ r.hi) : swap r a i j = .ok (a ∘ Equiv.swap i j) := by
  rw [Equiv.swap_comm, Equiv.comp_swap_eq_update, swap, get_ok hi, get_ok hj]
  simp only [bind, Except.bind]
  rw [set_ok hi]
  exact set_ok hj _

theorem swap_left (a : Elements) (i j : ℤ) : (a ∘ Equiv.swap i j) i = a j := by
  rw [Function.comp_apply, Equiv.swap_apply_left]

theorem swap_right (a : Elements) (i j : ℤ) : (a ∘ Equiv.swap i j) j = a i := by
  rw [Function.comp_apply, Equiv.swap_apply_right]

theorem swap_other (a : Elements) {k : ℤ} (hi : k ≠ i) (hj : k ≠ j) : (a ∘ Equiv.swap i j) k = a k := by
  rw [Function.comp_apply, Equiv.swap_apply_of_ne_of_ne hi hj]

theorem swap_self (a : Elements) (i : ℤ) : a ∘ Equiv.swap i i = a := by
  rw [Equiv.swap_self]
  rfl

end

end CodingExercises.Algorithms
