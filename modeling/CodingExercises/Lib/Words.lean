import Mathlib.Data.List.Basic

/-!
# Words

The words of a list are its longest pieces without a separator. They come one after another from the front: a separator
in front is skipped (`words_cons_sep`), and the first piece is a word when a separator follows (`words_append`) or
nothing does (`words_eq_singleton`). `exists_piece` finds the first piece.
-/

namespace CodingExercises.Lib

variable {α : Type*} (sep : α → Bool)

/-- The nonempty pieces of a list between separators. -/
def words (s : List α) : List (List α) := (s.splitOnP sep).filter (· ≠ [])

@[simp] theorem words_nil : words sep [] = [] := by simp [words]

variable {sep}

theorem words_cons_sep {c : α} (hc : sep c = true) (s : List α) : words sep (c :: s) = words sep s := by
  simp [words, List.splitOnP_cons_eq_if_modifyHead, hc]

theorem words_eq_singleton {w : List α} (hw : ∀ c ∈ w, sep c = false) (hne : w ≠ []) : words sep w = [w] := by
  simp [words, List.splitOnP_eq_singleton hw, hne]

/-- A separator divides. -/
theorem words_append_sep {d : α} (hd : sep d = true) (x y : List α) :
    words sep (x ++ d :: y) = words sep x ++ words sep y := by
  simp [words, List.splitOnP_append_cons _ _ hd]

theorem words_append {w : List α} (hw : ∀ c ∈ w, sep c = false) (hne : w ≠ []) {d : α} (hd : sep d = true)
    (s : List α) : words sep (w ++ d :: s) = w :: words sep s := by
  simp [words, List.splitOnP_append_cons_of_forall_mem hw d hd s, hne]

variable (sep)

/-- A list is free of separators, or a piece without them, a separator and the rest. -/
theorem exists_piece (s : List α) : (∀ c ∈ s, sep c = false) ∨
    ∃ w d s', s = w ++ d :: s' ∧ (∀ c ∈ w, sep c = false) ∧ sep d = true := by
  induction s with
  | nil => exact .inl (List.forall_mem_nil _)
  | cons c s ih =>
    by_cases hc : sep c = true
    · exact .inr ⟨[], c, s, rfl, List.forall_mem_nil _, hc⟩
    · have hc' : sep c = false := by simpa using hc
      rcases ih with h | ⟨w, d, s', rfl, hw, hd⟩
      · left
        intro x hx
        rcases List.mem_cons.1 hx with rfl | hx
        · exact hc'
        · exact h x hx
      · refine .inr ⟨c :: w, d, s', rfl, ?_, hd⟩
        intro x hx
        rcases List.mem_cons.1 hx with rfl | hx
        · exact hc'
        · exact hw x hx

/-- Words have no separators. -/
theorem sep_of_mem_words {s w : List α} (h : w ∈ words sep s) : ∀ c ∈ w, sep c = false := by
  induction hn : s.length using Nat.strongRecOn generalizing s with
  | ind n ih =>
    subst hn
    rcases exists_piece sep s with hs | ⟨v, d, s', rfl, hv, hd⟩
    · by_cases hne : s = []
      · rw [hne, words_nil] at h; cases h
      · rw [words_eq_singleton hs hne, List.mem_singleton] at h
        rw [h]; exact hs
    · have hlen : s'.length < (v ++ d :: s').length := by simp; omega
      by_cases hne : v = []
      · subst hne
        rw [List.nil_append, words_cons_sep hd] at h
        exact ih _ hlen h rfl
      · rw [words_append hv hne hd, List.mem_cons] at h
        rcases h with rfl | h
        · exact hv
        · exact ih _ hlen h rfl

end CodingExercises.Lib
