import Mathlib.Data.List.Basic

/-!
# Links

Links are followed from a place: `next` is the place a link leads to, or nothing. `Linked a l b` says that they pass over the
places `l` and come to `b`.
-/

namespace CodingExercises.Lib

variable {α : Type*} {next : α → Option α}

/-- From `a` the links pass over `l` and come to `b`. -/
inductive Linked (next : α → Option α) : α → List α → α → Prop
  | nil {a : α} : Linked next a [] a
  | cons {a b c : α} {l : List α} : next a = some b → Linked next b l c → Linked next a (a :: l) c

/-- Links that are kept are followed in the same way. -/
theorem Linked.mono {next' : α → Option α} {a b : α} {l : List α} (h : Linked next a l b)
    (hnext : ∀ a b, next a = some b → next' a = some b) : Linked next' a l b := by
  induction h with
  | nil => exact .nil
  | cons ha _ ih => exact .cons (hnext _ _ ha) ih

end CodingExercises.Lib
