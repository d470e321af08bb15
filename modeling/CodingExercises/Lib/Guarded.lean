import Mathlib.Data.Finset.Card
import Mathlib.Data.Set.Finite.Basic

/-!
# Recursion that is followed to a depth

`body enter c s` is what a call `c` in the state `s` gives, where `enter` answers the calls that it makes. `followed` answers
them by the body again, to some depth; `guarded` also gives up where a call is made that is still in progress.

- An answer that is not given up is the same at all greater depths, and without the guard (`followed_mono`,
  `followed_eq_guarded`).
- If the calls that can be made are finitely many, the guarded recursion is not given up for its depth, from some depth on
  (`guarded_not_deep`).
-/

namespace CodingExercises.Lib

section Guarded

variable {C S R : Type*}

/-- A recursion: the body, the answers of what is not followed further, and the calls that a call can make. -/
structure Recursion (C S R : Type*) where
  body : (C → S → R) → C → S → R
  deep : S → R
  again : S → R
  isDeep : R → Prop
  isAgain : R → Prop
  makes : C → C → Prop
  isDeep_deep : ∀ s, isDeep (deep s)
  not_isDeep_again : ∀ s, ¬isDeep (again s)
  isAgain_again : ∀ s, isAgain (again s)
  not_isAgain_deep : ∀ s, ¬isAgain (deep s)
  /-- A call is given up only if one that it makes is. -/
  deep_origin : ∀ enter c s, isDeep (body enter c s) → ∃ c' s', makes c c' ∧ isDeep (enter c' s')
  again_origin : ∀ enter c s, isAgain (body enter c s) → ∃ c' s', makes c c' ∧ isAgain (enter c' s')
  /-- A call that is not given up depends only on those that are not. -/
  congr : ∀ enter enter' c s, (∀ c' s', ¬isDeep (enter c' s') → ¬isAgain (enter c' s') → enter' c' s' = enter c' s') →
    ¬isDeep (body enter c s) → ¬isAgain (body enter c s) → body enter' c s = body enter c s

variable (r : Recursion C S R)

/-- The calls are followed to a depth. -/
def followed : ℕ → C → S → R
  | 0, _, s => r.deep s
  | n + 1, c, s => r.body (followed n) c s

/-- And none that is in progress is followed again. -/
def guarded [DecidableEq C] : ℕ → List C → C → S → R
  | 0, _, _, s => r.deep s
  | n + 1, path, c, s => if c ∈ path then r.again s else r.body (guarded n (c :: path)) c s

variable {r}

theorem not_isAgain_followed (n : ℕ) (c : C) (s : S) : ¬r.isAgain (followed r n c s) := by
  induction n generalizing c s with
  | zero => exact r.not_isAgain_deep s
  | succ n ih =>
    intro h
    obtain ⟨c', s', -, h'⟩ := r.again_origin _ c s h
    exact ih c' s' h'

theorem followed_succ {n : ℕ} {c : C} {s : S} (h : ¬r.isDeep (followed r n c s)) :
    followed r (n + 1) c s = followed r n c s := by
  induction n generalizing c s with
  | zero => exact absurd (r.isDeep_deep s) h
  | succ n ih =>
    exact r.congr (followed r n) (followed r (n + 1)) c s (fun c' s' hdeep _ => ih hdeep) h (not_isAgain_followed (n + 1) c s)

theorem followed_mono {n m : ℕ} {c : C} {s : S} (h : ¬r.isDeep (followed r n c s)) (hle : n ≤ m) :
    followed r m c s = followed r n c s := by
  induction m, hle using Nat.le_induction with
  | base => rfl
  | succ m _ ih =>
    rw [← ih]
    exact followed_succ (by rwa [ih])

variable [DecidableEq C]

/-- Where the guard does not come in, it changes nothing. -/
theorem followed_eq_guarded {n : ℕ} {path : List C} {c : C} {s : S} (hdeep : ¬r.isDeep (guarded r n path c s))
    (hagain : ¬r.isAgain (guarded r n path c s)) : followed r n c s = guarded r n path c s := by
  induction n generalizing path c s with
  | zero => exact absurd (r.isDeep_deep s) hdeep
  | succ n ih =>
    rw [guarded] at hdeep hagain ⊢
    split at hdeep
    case isTrue hmem =>
      rw [if_pos hmem] at hagain
      exact absurd (r.isAgain_again s) hagain
    case isFalse hmem =>
      rw [if_neg hmem] at hagain ⊢
      exact r.congr (guarded r n (c :: path)) (followed r n) c s (fun c' s' hd ha => ih hd ha) hdeep hagain

/-- The calls in progress are different ones, so that there are no more of them than there are calls. -/
theorem guarded_not_deep_of_path {U : Finset C} (hclosed : ∀ c ∈ U, ∀ c', r.makes c c' → c' ∈ U) {n : ℕ} {path : List C}
    (hnodup : path.Nodup) (hpath : ∀ c ∈ path, c ∈ U) {c : C} {s : S} (hc : c ∈ U) (hn : U.card < n + path.length) :
    ¬r.isDeep (guarded r n path c s) := by
  induction n generalizing path c s with
  | zero =>
    have hle : path.toFinset.card ≤ U.card := Finset.card_le_card fun c hc => hpath c (List.mem_toFinset.mp hc)
    rw [List.toFinset_card_of_nodup hnodup] at hle
    omega
  | succ n ih =>
    rw [guarded]
    split
    case isTrue => exact r.not_isDeep_again s
    case isFalse hmem =>
      intro h
      obtain ⟨c', s', hmakes, h'⟩ := r.deep_origin _ c s h
      refine ih (List.nodup_cons.mpr ⟨hmem, hnodup⟩) ?_ (hclosed c hc c' hmakes) ?_ h'
      · intro c'' hc''
        rcases List.mem_cons.mp hc'' with rfl | hc''
        · exact hc
        · exact hpath c'' hc''
      · rw [List.length_cons]
        omega

theorem guarded_not_deep {U : Finset C} (hclosed : ∀ c ∈ U, ∀ c', r.makes c c' → c' ∈ U) {n : ℕ} (hn : U.card < n) {c : C}
    (s : S) (hc : c ∈ U) : ¬r.isDeep (guarded r n [] c s) :=
  guarded_not_deep_of_path hclosed List.nodup_nil (fun _ h => by cases h) hc (by simpa using hn)

end Guarded

end CodingExercises.Lib
