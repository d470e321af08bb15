import Mathlib.Data.List.Basic

/-!
# Cursors

A cursor answers a call `next` with an item, or with the end, or it goes wrong (`none`), and is in a new state then.

- `Passes r w r'`: from the answer `r` on, the calls give what is seen as `w`, and then comes the answer `r'`;
- `Ends r w`: the end comes after `w`;
- `Shows P r`: if the end comes, an item in `P` has come before. With a call that goes wrong, or with items for ever, the
  end does not come (`shows_none`, `shows_of_forever`).

A run is put together from its parts with `Passes.trans`, `Passes.ends` and `Passes.shows`.
-/

namespace CodingExercises.Lib

section Cursor

variable {S O V : Type*} (next : S → Option (Option O × S)) (see : O → S → V)

/-- The calls of `next` after the answer `r` give what is seen as `w`, and the answer `r'` after that. -/
inductive Passes : Option (Option O × S) → List V → Option (Option O × S) → Prop
  | refl (r : Option (Option O × S)) : Passes r [] r
  | step {o : O} {s : S} {w : List V} {r : Option (Option O × S)} :
    Passes (next s) w r → Passes (some (some o, s)) (see o s :: w) r

/-- The end comes after `w`. -/
def Ends (r : Option (Option O × S)) (w : List V) : Prop := ∃ s, Passes next see r w (some (none, s))

/-- If the end comes, an item in `P` has come. -/
def Shows (P : V → Prop) (r : Option (Option O × S)) : Prop := ∀ w, Ends next see r w → ∃ v ∈ w, P v

variable {next see} {P : V → Prop}

theorem Passes.trans {r r' r'' : Option (Option O × S)} {w w' : List V} (h : Passes next see r w r')
    (h' : Passes next see r' w' r'') : Passes next see r (w ++ w') r'' := by
  induction h with
  | refl r => exact h'
  | step _ ih => exact .step (ih h')

/-- One item. -/
theorem Passes.one {o : O} {s : S} : Passes next see (some (some o, s)) [see o s] (next s) := .step (.refl _)

theorem Passes.ends {r r' : Option (Option O × S)} {w w' : List V} (h : Passes next see r w r')
    (h' : Ends next see r' w') : Ends next see r (w ++ w') := by
  obtain ⟨s, h'⟩ := h'
  exact ⟨s, h.trans h'⟩

theorem ends_end (s : S) : Ends next see (some (none, s)) [] := ⟨s, .refl _⟩

/-- What follows an item ends too. -/
theorem Ends.tail {o : O} {s : S} {w : List V} (h : Ends next see (some (some o, s)) w) :
    ∃ w', w = see o s :: w' ∧ Ends next see (next s) w' := by
  obtain ⟨s', h⟩ := h
  cases h with
  | step h => exact ⟨_, rfl, s', h⟩

/-- Where a run passes, it goes on as it does from there. -/
theorem Passes.shows {r r' : Option (Option O × S)} {w : List V} (h : Passes next see r w r')
    (h' : Shows next see P r') : Shows next see P r := by
  induction h with
  | refl r => exact h'
  | step _ ih =>
    intro w hw
    obtain ⟨w', rfl, hw'⟩ := hw.tail
    obtain ⟨v, hv, hP⟩ := ih h' w' hw'
    exact ⟨v, List.mem_cons_of_mem _ hv, hP⟩

/-- A call that goes wrong. -/
theorem shows_none : Shows next see P none := by
  rintro w ⟨s, h⟩
  cases h

/-- Items for ever: every state in `Q` gives an item and a state in `Q`. -/
theorem shows_of_forever {Q : S → Prop} (hQ : ∀ s, Q s → ∃ o s', next s = some (some o, s') ∧ Q s') {o : O} {s : S}
    (hs : Q s) : Shows next see P (some (some o, s)) := by
  intro w
  induction w generalizing o s with
  | nil =>
    rintro ⟨s', h⟩
    cases h
  | cons v w ih =>
    intro h
    obtain ⟨w', hw, hw'⟩ := h.tail
    obtain ⟨o', s', hn, hs'⟩ := hQ s hs
    rw [hn] at hw'
    obtain ⟨-, rfl⟩ := List.cons.inj hw
    obtain ⟨u, hu, hP⟩ := ih hs' hw'
    exact ⟨u, List.mem_cons_of_mem _ hu, hP⟩

end Cursor

end CodingExercises.Lib
