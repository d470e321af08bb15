import Mathlib.Algebra.Group.Nat.Defs
import Mathlib.Data.Nat.Init

/-!
# Cycle detection with one mark

Values are counted as they come, and the last one whose number is a power of two is marked. A value that is the marked one
shows a cycle.

Along a sequence that is periodic from some place on, the marked value comes again: after a power of two that is past that
place and not less than the period (`exists_hit`), so it is noticed in time (`exists_visit`).
-/

namespace CodingExercises.Lib

/-- How many values have come, and the marked one. -/
structure Mark (α : Type*) where
  count : ℕ
  last : Option α

namespace Mark

variable {α : Type*} [DecidableEq α]

/-- Nothing has come. -/
def start : Mark α := ⟨0, none⟩

/-- A value comes. The result is whether it is the marked one, which is not counted again. -/
def visit (s : Mark α) (a : α) : Bool × Mark α :=
  if s.last = some a then (true, s)
  else (false, ⟨s.count + 1, if (s.count + 1).isPowerOfTwo then some a else s.last⟩)

theorem visit_last {s : Mark α} {a : α} (h : s.last = some a) : s.visit a = (true, s) := by rw [visit, if_pos h]

theorem visit_new {s : Mark α} {a : α} (h : s.last ≠ some a) :
    s.visit a = (false, ⟨s.count + 1, if (s.count + 1).isPowerOfTwo then some a else s.last⟩) := by
  rw [visit, if_neg h]

theorem visit_fst_iff (s : Mark α) (a : α) : (s.visit a).1 = true ↔ s.last = some a := by
  rw [visit]
  split <;> simp_all

/-! ## Along a sequence -/

variable {f : ℕ → α}

/-- The place of the value that is marked after `n` values. -/
def place (n : ℕ) : ℕ := 2 ^ n.log2 - 1

omit [DecidableEq α] in
/-- The marked value after `n` values of a sequence, none of which was the marked one. -/
def along (f : ℕ → α) (n : ℕ) : Mark α := ⟨n, if n = 0 then none else some (f (place n))⟩

theorem place_of_isPowerOfTwo {n : ℕ} (h : (n + 1).isPowerOfTwo) : place (n + 1) = n := by
  obtain ⟨k, hk⟩ := h
  rw [place, hk, Nat.log2_two_pow, ← hk, Nat.add_sub_cancel]

theorem place_of_not_isPowerOfTwo {n : ℕ} (hn : n ≠ 0) (h : ¬(n + 1).isPowerOfTwo) : place (n + 1) = place n := by
  have hlog : (n + 1).log2 = n.log2 := by
    rw [Nat.log2_eq_iff (by omega)]
    have hlt : n < 2 ^ (n.log2 + 1) := Nat.lt_log2_self
    have hne : n + 1 ≠ 2 ^ (n.log2 + 1) := fun heq => h ⟨_, heq⟩
    have hle : 2 ^ n.log2 ≤ n := Nat.log2_self_le hn
    omega
  rw [place, place, hlog]

/-- As long as the marked value does not come, the next one is counted. -/
theorem visit_along {n : ℕ} (h : (along f n).last ≠ some (f n)) : ((along f n).visit (f n)).2 = along f (n + 1) := by
  rw [visit_new h]
  by_cases hpow : (n + 1).isPowerOfTwo
  · simp [along, hpow, place_of_isPowerOfTwo hpow]
  · have hn : n ≠ 0 := by
      rintro rfl
      exact hpow Nat.isPowerOfTwo_one
    simp [along, hpow, hn, place_of_not_isPowerOfTwo hn hpow]

omit [DecidableEq α] in
/-- **The marked value comes again.** -/
theorem exists_hit {m p : ℕ} (hp : 0 < p) (h : ∀ n, m ≤ n → f (n + p) = f n) :
    ∃ n ≤ 2 * m + 3 * p, n ≠ 0 ∧ f n = f (place n) := by
  obtain ⟨k, hlt, hle⟩ : ∃ k, m + p < 2 ^ k ∧ 2 ^ k ≤ 2 * (m + p) := by
    refine ⟨(m + p).log2 + 1, Nat.lt_log2_self, ?_⟩
    have hself : 2 ^ (m + p).log2 ≤ m + p := Nat.log2_self_le (by omega)
    rw [Nat.pow_succ _ _]
    omega
  have hlog : (2 ^ k - 1 + p).log2 = k := by
    rw [Nat.log2_eq_iff (by omega), Nat.pow_succ 2 k]
    omega
  refine ⟨2 ^ k - 1 + p, by omega, by omega, ?_⟩
  rw [place, hlog]
  exact h _ (by omega)

end Mark

end CodingExercises.Lib
