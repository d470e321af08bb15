import Mathlib.Data.List.Basic
import Mathlib.Control.Basic

/-!
# Streams handled in pieces

A `Source` is read in pieces of any size and remembers what is `pending`; a `Sink` is written in pieces and may
refuse. Cutting does not matter: the pieces read are the pending bytes cut (`Source.read_pieces`), and writing pieces is
writing their concatenation (`Sink.write_pieces`). A read of positive size that returns nothing found the source empty
(`Source.read_eq_nil_iff`).
-/

namespace CodingExercises.Lib

variable {S A E : Type*}

/-- A state that delivers its pending elements in pieces. -/
structure Source (S A : Type*) where
  read : ℕ → S → List A × S
  pending : S → List A
  read_fst : ∀ n s, (read n s).1 = (pending s).take n
  pending_read : ∀ n s, pending (read n s).2 = (pending s).drop n

namespace Source

variable (src : Source S A)

/-- One read after another: the pieces, and the state after them. -/
def pieces : List ℕ → S → List (List A) × S
  | [], s => ([], s)
  | n :: ns, s => ((src.read n s).1 :: (pieces ns (src.read n s).2).1, (pieces ns (src.read n s).2).2)

/-- The pieces read are the pending elements, cut; the rest stays pending. -/
theorem read_pieces (ns : List ℕ) (s : S) :
    (src.pieces ns s).1.flatten ++ src.pending (src.pieces ns s).2 = src.pending s := by
  induction ns generalizing s with
  | nil => rfl
  | cons n ns ih =>
    simp only [pieces, List.flatten_cons, List.append_assoc]
    rw [ih, src.read_fst, src.pending_read, List.take_append_drop]

/-- A read of positive size returns nothing exactly when nothing is pending. -/
theorem read_eq_nil_iff {n : ℕ} (hn : 0 < n) (s : S) : (src.read n s).1 = [] ↔ src.pending s = [] := by
  rw [src.read_fst, List.take_eq_nil_iff]
  exact ⟨fun h => h.resolve_left (by omega), .inr⟩

/-- What is read depends on what is pending only. -/
theorem pieces_congr (ns : List ℕ) {s t : S} (h : src.pending s = src.pending t) :
    (src.pieces ns s).1 = (src.pieces ns t).1 := by
  induction ns generalizing s t with
  | nil => rfl
  | cons n ns ih =>
    have hn : src.pending (src.read n s).2 = src.pending (src.read n t).2 := by
      rw [src.pending_read, src.pending_read, h]
    simp only [pieces]
    rw [ih hn, src.read_fst, src.read_fst, h]

end Source

/-- A state that takes elements in pieces, and may refuse them. -/
structure Sink (S A E : Type*) where
  write : List A → S → Except E S
  write_nil : ∀ s, write [] s = .ok s
  write_append : ∀ as bs s, write (as ++ bs) s = (write as s).bind (write bs)

namespace Sink

variable (snk : Sink S A E)

/-- One write after another. -/
def writes : List (List A) → S → Except E S
  | [], s => .ok s
  | p :: ps, s => (snk.write p s).bind (writes ps)

/-- Writing pieces is writing their concatenation. -/
theorem write_pieces (ps : List (List A)) (s : S) : snk.writes ps s = snk.write ps.flatten s := by
  induction ps generalizing s with
  | nil => exact (snk.write_nil s).symm
  | cons p ps ih =>
    rw [writes, List.flatten_cons, snk.write_append]
    congr 1
    funext t
    exact ih t

end Sink

end CodingExercises.Lib
