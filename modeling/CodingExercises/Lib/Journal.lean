import Mathlib.Data.List.Infix

/-!
# Journals

What is done is noted in a journal, the last event first. Of each event something is assumed (`A`) and something is promised
(`G`), and a part of a run keeps to it (`Keeps`) if the promises hold behind it as long as all that is assumed holds. The
promise of an event may rely on what is assumed of the events before it (`Relies`).
-/

namespace CodingExercises.Lib

variable {E : Type} {A G : E → Prop} {l l' l'' : List E} {e : E} {P Q : Prop}

/-- A fact that follows from what is assumed of the journal. -/
def Relies (A : E → Prop) (l : List E) (P : Prop) : Prop := (∀ e ∈ l, A e) → P

theorem Relies.mono (h : Relies A l P) (hl : l <:+ l') : Relies A l' P :=
  fun hassumed => h fun e he => hassumed e (hl.subset he)

theorem Relies.imp (h : Relies A l P) (hpq : P → Q) : Relies A l Q := fun hassumed => hpq (h hassumed)

theorem Relies.of_mem (h : e ∈ l) : Relies A l (A e) := fun hassumed => hassumed e h

/-- From the journal `l` to `l'`. -/
structure Keeps (A G : E → Prop) (l l' : List E) : Prop where
  grows : l <:+ l'
  promised : (∀ e ∈ l', A e) → (∀ e ∈ l, G e) → ∀ e ∈ l', G e

theorem Keeps.refl (l : List E) : Keeps A G l l := ⟨List.suffix_refl l, fun _ h => h⟩

theorem Keeps.trans (h : Keeps A G l l') (h' : Keeps A G l' l'') : Keeps A G l l'' where
  grows := h.grows.trans h'.grows
  promised hassumed hpromised := by
    have hl' := h.promised (fun e he => hassumed e (h'.grows.subset he)) hpromised
    exact h'.promised hassumed hl'

/-- An event is noted. -/
theorem Keeps.note (h : Relies A (e :: l) (G e)) : Keeps A G l (e :: l) where
  grows := List.suffix_cons e l
  promised hassumed hpromised := by
    intro e' he'
    rcases List.mem_cons.mp he' with rfl | he'
    · exact h hassumed
    · exact hpromised e' he'

/-- From the beginning. -/
theorem Keeps.all (h : Keeps A G [] l) (hassumed : ∀ e ∈ l, A e) : ∀ e ∈ l, G e :=
  h.promised hassumed fun e he => by cases he

end CodingExercises.Lib
