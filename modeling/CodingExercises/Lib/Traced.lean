import Mathlib.Init

/-!
# Values with what was done for them

A computation gives a value and the events on the way, in their order. `Only P` says that each event is a `P`; it is shown along
the computation (`Only.bind`).
-/

namespace CodingExercises.Lib

/-- A value and the events on the way to it. -/
structure Traced (ε α : Type) where
  value : α
  events : List ε

namespace Traced

variable {ε α β : Type} {P Q : ε → Prop}

instance : Monad (Traced ε) where
  pure a := ⟨a, []⟩
  bind t f := ⟨(f t.value).value, t.events ++ (f t.value).events⟩

/-- A value for which one thing is done. -/
def touch (e : ε) (a : α) : Traced ε α := ⟨a, [e]⟩

@[simp] theorem value_pure (a : α) : (pure a : Traced ε α).value = a := rfl

@[simp] theorem value_bind (t : Traced ε α) (f : α → Traced ε β) : (t >>= f).value = (f t.value).value := rfl

@[simp] theorem value_touch (e : ε) (a : α) : (touch e a).value = a := rfl

/-- All events are of one kind. -/
def Only (P : ε → Prop) (t : Traced ε α) : Prop := ∀ e ∈ t.events, P e

theorem Only.pure (a : α) : Only P (pure a : Traced ε α) := nofun

theorem Only.touch {e : ε} (h : P e) (a : α) : Only P (touch e a) := by
  intro e' he
  rwa [List.mem_singleton.mp he]

theorem Only.bind {t : Traced ε α} {f : α → Traced ε β} (ht : Only P t) (hf : Only P (f t.value)) : Only P (t >>= f) := by
  intro e he
  rcases List.mem_append.mp he with he | he
  · exact ht e he
  · exact hf e he

theorem Only.mono {t : Traced ε α} (h : Only P t) (hPQ : ∀ e, P e → Q e) : Only Q t := fun e he => hPQ e (h e he)

theorem Only.of_bind {t : Traced ε α} {f : α → Traced ε β} (h : Only P (t >>= f)) : Only P t ∧ Only P (f t.value) :=
  ⟨fun e he => h e (List.mem_append_left _ he), fun e he => h e (List.mem_append_right _ he)⟩

end Traced

end CodingExercises.Lib
