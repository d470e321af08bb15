import Mathlib.Data.List.Basic

/-!
# Stacks of bounded size

A stack that keeps the last `n` values that were pushed: a push onto a full one displaces the oldest.
-/

namespace CodingExercises.Lib

/-- The values, the most recent first. -/
structure BoundedStack (α : Type*) (n : ℕ) where
  values : List α
  length_le : values.length ≤ n

namespace BoundedStack

variable {α : Type*} {n : ℕ}

def empty : BoundedStack α n := ⟨[], Nat.zero_le n⟩

def push (s : BoundedStack α n) (x : α) : BoundedStack α n := ⟨(x :: s.values).take n, List.length_take_le n _⟩

/-- What a push displaces. -/
def displaced (s : BoundedStack α n) : Option α := if s.values.length = n then s.values.getLast? else none

def pop (s : BoundedStack α n) : Option (α × BoundedStack α n) :=
  match s with
  | ⟨[], _⟩ => none
  | ⟨x :: xs, h⟩ => some (x, ⟨xs, Nat.le_of_succ_le h⟩)

theorem values_push (s : BoundedStack α n) (x : α) : (s.push x).values = (x :: s.values).take n := rfl

/-- What is displaced is the value in the last place, if there is one. -/
theorem getD_displaced (s : BoundedStack α (n + 1)) (d : α) : s.displaced.getD d = s.values.getD n d := by
  unfold displaced
  rw [List.getD_eq_getElem?_getD]
  split
  · rename_i hfull
    rw [List.getLast?_eq_getElem?, hfull, Nat.add_sub_cancel]
  · rename_i hroom
    have hle : s.values.length ≤ n := by
      have hlength := s.length_le
      omega
    rw [List.getElem?_eq_none hle]

theorem getD_push_zero (s : BoundedStack α (n + 1)) (x d : α) : (s.push x).values.getD 0 d = x := by
  rw [values_push, List.take_succ_cons, List.getD_cons_zero]

theorem getD_push_succ (s : BoundedStack α n) (x d : α) {i : ℕ} (hi : i + 1 < n) :
    (s.push x).values.getD (i + 1) d = s.values.getD i d := by
  simp only [values_push, List.getD_eq_getElem?_getD, List.getElem?_take_of_lt hi, List.getElem?_cons_succ]

theorem length_push (s : BoundedStack α n) (x : α) : (s.push x).values.length = min n (s.values.length + 1) := by
  rw [values_push, List.length_take, List.length_cons]

theorem isEmpty_push (s : BoundedStack α (n + 1)) (x : α) : (s.push x).values.isEmpty = false := by
  rw [values_push, List.take_succ_cons, List.isEmpty_cons]

end BoundedStack

end CodingExercises.Lib
