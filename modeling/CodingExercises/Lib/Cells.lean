import Mathlib.Data.List.Basic

/-!
# Storage in cells

Runs of cells that are read or stored to. An access to a cell that is not there is an error, whose value the program chooses.
Both lemmas cut the cells into three parts, of which the middle one is accessed.
-/

namespace CodingExercises.Lib

variable {ε α : Type*} (fault : ε)

/-- The cells from `p` on that are read, `n` of them. -/
def slice (cells : List α) (p n : ℕ) : Except ε (List α) :=
  if p + n ≤ cells.length then .ok ((cells.drop p).take n) else .error fault

/-- A store to the cells from `p` on. -/
def store (cells : List α) (p : ℕ) (src : List α) : Except ε (List α) :=
  if p + src.length ≤ cells.length then .ok (cells.take p ++ src ++ cells.drop (p + src.length)) else .error fault

theorem slice_mid (a b c : List α) : slice fault (a ++ (b ++ c)) a.length b.length = .ok b := by
  rw [slice, if_pos (by simp only [List.length_append]; omega), List.drop_left, List.take_left]

theorem store_mid (a b c src : List α) (h : b.length = src.length) :
    store fault (a ++ (b ++ c)) a.length src = .ok (a ++ src ++ c) := by
  have hdrop : (a ++ (b ++ c)).drop (a.length + src.length) = c := by
    rw [← h, ← List.length_append, ← List.append_assoc, List.drop_left]
  rw [store, if_pos (by simp only [List.length_append]; omega), List.take_left, hdrop]

end CodingExercises.Lib
