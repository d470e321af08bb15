import Mathlib.Data.List.Basic

/-!
# Outlines

The entries of an outline have levels, as headings have: an entry is under the nearest entry before it of each lower
level. A walk passes over them with one counter; it visits an entry if its level is not above the counter, sets the counter
to the level then, and raises it if the entry matches. If levels rise by at most one from an entry to the next, an entry is
visited just if all entries that it is under match (`Walk.le_iff`), with whatever counter from 1 on the walk starts.
-/

namespace CodingExercises.Lib

section Outline

variable {α : Type*} (level : α → ℕ) (matched : α → Prop)

/-- The last entry of a level; what was passed last stands first in `hist`. -/
def nearest (hist : List α) (j : ℕ) : Option α := hist.find? (level · = j)

/-- The entries that an entry of level `k` is under match. -/
def Controlled (hist : List α) (k : ℕ) : Prop := ∀ j < k, ∃ a, nearest level hist j = some a ∧ matched a

/-- A walk from a first entry that matches, with what it has passed and the counter. -/
inductive Walk : List α → ℕ → Prop
  | start {a : α} {c : ℕ} : level a = 0 → matched a → 1 ≤ c → Walk [a] c
  | skip {a b : α} {hist : List α} {c : ℕ} : Walk (b :: hist) c → level a ≤ level b + 1 → c < level a → ¬matched a →
    Walk (a :: b :: hist) c
  | miss {a b : α} {hist : List α} {c : ℕ} : Walk (b :: hist) c → level a ≤ level b + 1 → level a ≤ c → ¬matched a →
    Walk (a :: b :: hist) (level a)
  | hit {a b : α} {hist : List α} {c : ℕ} : Walk (b :: hist) c → level a ≤ level b + 1 → level a ≤ c → matched a →
    Walk (a :: b :: hist) (level a + 1)

variable {level matched} {hist : List α} {a b : α} {c k : ℕ}

theorem nearest_cons_self : nearest level (a :: hist) (level a) = some a := by simp [nearest]

theorem nearest_cons_of_ne {j : ℕ} (h : level a ≠ j) : nearest level (a :: hist) j = nearest level hist j := by
  simp [nearest, h]

theorem Controlled.mono {k' : ℕ} (h : Controlled level matched hist k) (hle : k' ≤ k) : Controlled level matched hist k' :=
  fun j hj => h j (by omega)

/-- One more entry does not concern the entries of its level and of lower ones. -/
theorem controlled_cons_of_le (h : k ≤ level a) : Controlled level matched (a :: hist) k ↔ Controlled level matched hist k := by
  have hne {j : ℕ} (hj : j < k) : level a ≠ j := by omega
  constructor
  · intro hc j hj
    have := hc j hj
    rwa [nearest_cons_of_ne (hne hj)] at this
  · intro hc j hj
    rw [nearest_cons_of_ne (hne hj)]
    exact hc j hj

/-- The entries right under an entry. -/
theorem controlled_cons_succ : Controlled level matched (a :: hist) (level a + 1) ↔
    Controlled level matched hist (level a) ∧ matched a := by
  constructor
  · intro hc
    refine ⟨(controlled_cons_of_le (Nat.le_refl _)).mp (hc.mono (by omega)), ?_⟩
    obtain ⟨b, hb, hm⟩ := hc (level a) (by omega)
    rw [nearest_cons_self] at hb
    cases hb
    exact hm
  · rintro ⟨hc, hm⟩ j hj
    by_cases hja : level a = j
    · subst hja
      exact ⟨a, nearest_cons_self, hm⟩
    · rw [nearest_cons_of_ne hja]
      exact hc j (by omega)

/-- What the counter says of the entries that can come next. -/
theorem Walk.le_iff (h : Walk level matched (b :: hist) c) (hk : k ≤ level b + 1) :
    k ≤ c ↔ Controlled level matched (b :: hist) k := by
  generalize hl : b :: hist = l at h
  induction h generalizing b hist k with
  | @start a c hzero hm hc =>
    cases hl
    refine iff_of_true (by omega) ?_
    have hone : Controlled level matched [a] (level a + 1) :=
      controlled_cons_succ.mpr ⟨fun j hj => by omega, hm⟩
    exact hone.mono hk
  | @skip a b' hist' c _ hrise hlt hm ih =>
    cases hl
    rcases Nat.lt_or_ge (level a) k with hlarge | hle
    · have hk' : k = level a + 1 := by omega
      subst hk'
      rw [controlled_cons_succ]
      exact iff_of_false (by omega) fun h => hm h.2
    · rw [controlled_cons_of_le hle]
      exact ih (by omega) rfl
  | @miss a b' hist' c _ hrise hle' hm ih =>
    cases hl
    rcases Nat.lt_or_ge (level a) k with hlarge | hle
    · have hk' : k = level a + 1 := by omega
      subst hk'
      rw [controlled_cons_succ]
      exact iff_of_false (by omega) fun h => hm h.2
    · rw [controlled_cons_of_le hle]
      exact iff_of_true hle (((ih (by omega) rfl).mp hle').mono hle)
  | @hit a b' hist' c _ hrise hle' hm ih =>
    cases hl
    have hc := (ih (by omega) rfl).mp hle'
    exact iff_of_true hk ((controlled_cons_succ.mpr ⟨hc, hm⟩).mono hk)

end Outline

end CodingExercises.Lib
