import Mathlib.Algebra.Order.Group.Int
import Mathlib.Algebra.Order.Ring.Int
import Mathlib.Tactic.NormNum.Basic

/-!
# Saturated integers

An integer that does not fit an interval is represented by its nearest end (`clamp`), with a flag. Such a number can be scaled
without the integer itself (`clamp_mul_clamp`, `outside_mul_iff`), and division tells if it fits afterwards (`lt_tdiv_iff`,
`tdiv_lt_iff`).
-/

namespace CodingExercises.Lib

variable {lo hi x k : ℤ}

/-- The integer of the interval that is nearest to `x`. -/
def clamp (lo hi x : ℤ) : ℤ := max lo (min x hi)

/-- `x` does not fit. -/
def Outside (lo hi x : ℤ) : Prop := x < lo ∨ hi < x

instance : Decidable (Outside lo hi x) := inferInstanceAs (Decidable (_ ∨ _))

theorem clamp_of_lt (h : x < lo) : clamp lo hi x = lo := by
  unfold clamp
  omega

theorem clamp_of_gt (hle : lo ≤ hi) (h : hi < x) : clamp lo hi x = hi := by
  unfold clamp
  omega

theorem clamp_of_not_outside (h : ¬Outside lo hi x) : clamp lo hi x = x := by
  unfold clamp
  unfold Outside at h
  omega

theorem not_outside_clamp (hle : lo ≤ hi) (x : ℤ) : ¬Outside lo hi (clamp lo hi x) := by
  unfold Outside clamp
  omega

theorem mul_lt_of_lt (hlo : lo ≤ 0) (hk : 1 ≤ k) (h : x < lo) : x * k < lo :=
  calc x * k ≤ x * 1 := Int.mul_le_mul_of_nonpos_left (by omega) hk
    _ = x := Int.mul_one x
    _ < lo := h

theorem lt_mul_of_lt (hhi : 0 ≤ hi) (hk : 1 ≤ k) (h : hi < x) : hi < x * k :=
  calc hi < x := h
    _ = x * 1 := (Int.mul_one x).symm
    _ ≤ x * k := Int.mul_le_mul_of_nonneg_left hk (by omega)

/-- What does not fit does not fit any better when it is scaled. -/
theorem Outside.mul (h : Outside lo hi x) (hlo : lo ≤ 0) (hhi : 0 ≤ hi) (hk : 1 ≤ k) : Outside lo hi (x * k) :=
  h.imp (mul_lt_of_lt hlo hk) (lt_mul_of_lt hhi hk)

/-- A saturated integer can be scaled in place of the integer. -/
theorem clamp_clamp_mul (hlo : lo ≤ 0) (hhi : 0 ≤ hi) (hk : 1 ≤ k) (x : ℤ) :
    clamp lo hi (clamp lo hi x * k) = clamp lo hi (x * k) := by
  by_cases h : Outside lo hi x
  · obtain h | h := h
    · rw [clamp_of_lt h, clamp_of_lt (mul_lt_of_lt hlo hk h)]
      have : lo * k ≤ lo * 1 := Int.mul_le_mul_of_nonpos_left hlo hk
      unfold clamp
      omega
    · rw [clamp_of_gt (by omega) h, clamp_of_gt (by omega) (lt_mul_of_lt hhi hk h)]
      have : hi * 1 ≤ hi * k := Int.mul_le_mul_of_nonneg_left hk hhi
      unfold clamp
      omega
  · rw [clamp_of_not_outside h]

/-- And the flag is set at once or by the scaling. -/
theorem outside_mul_iff (hlo : lo ≤ 0) (hhi : 0 ≤ hi) (hk : 1 ≤ k) (x : ℤ) :
    Outside lo hi (x * k) ↔ Outside lo hi x ∨ Outside lo hi (clamp lo hi x * k) := by
  by_cases h : Outside lo hi x
  · exact ⟨fun _ => .inl h, fun _ => h.mul hlo hhi hk⟩
  · rw [clamp_of_not_outside h]
    exact (or_iff_right h).symm

/-- Once set, the flag would be set again: the end of the interval, scaled, does not fit either. -/
theorem outside_clamp_mul_iff {j : ℤ} (hlo : lo ≤ 0) (hhi : 0 < hi) (hk : 2 ≤ k) (hj : 1 ≤ j) (hx : ¬Outside lo hi x) :
    Outside lo hi (clamp lo hi (x * j) * k) ↔ Outside lo hi (x * j * k) := by
  rw [outside_mul_iff hlo (by omega) (by omega : 1 ≤ k) (x * j)]
  refine (or_iff_right_of_imp fun h => ?_).symm
  obtain h | h := h
  · have hneg : lo < 0 := by
      by_contra hzero
      have : 0 ≤ x := by
        unfold Outside at hx
        omega
      have := Int.mul_nonneg this (by omega : 0 ≤ j)
      omega
    have : lo * k ≤ lo * 2 := Int.mul_le_mul_of_nonpos_left hlo hk
    rw [clamp_of_lt h]
    exact .inl (by omega)
  · have : hi * 2 ≤ hi * k := Int.mul_le_mul_of_nonneg_left hk (by omega)
    rw [clamp_of_gt (by omega) h]
    exact .inr (by omega)

/-- That an integer is scaled does not show exactly if it is zero, or does not fit anyway. -/
theorem clamp_mul_eq_iff (hlo : lo ≤ 0) (hhi : 0 ≤ hi) (hk : 2 ≤ k) :
    clamp lo hi (x * k) = clamp lo hi x ∧ (Outside lo hi (x * k) ↔ Outside lo hi x) ↔ x = 0 ∨ Outside lo hi x := by
  constructor
  · rintro ⟨hclamp, hiff⟩
    by_cases h : Outside lo hi x
    · exact .inr h
    · rw [clamp_of_not_outside h, clamp_of_not_outside (mt hiff.mp h)] at hclamp
      have hzero : x * (k - 1) = 0 := by rw [Int.mul_sub, hclamp, Int.mul_one, Int.sub_self]
      exact .inl ((Int.mul_eq_zero.mp hzero).resolve_right (by omega))
  · rintro (rfl | h)
    · rw [Int.zero_mul]
      exact ⟨rfl, .rfl⟩
    · refine ⟨?_, iff_of_true (h.mul hlo hhi (by omega)) h⟩
      obtain h | h := h
      · rw [clamp_of_lt h, clamp_of_lt (mul_lt_of_lt hlo (by omega) h)]
      · rw [clamp_of_gt (by omega) h, clamp_of_gt (by omega) (lt_mul_of_lt hhi (by omega) h)]

theorem lt_tdiv_iff (hlo : lo ≤ 0) (hk : 1 ≤ k) : x < lo.tdiv k ↔ x * k < lo := by
  have hneg : lo.tdiv k = -(-lo / k) := by
    rw [← Int.tdiv_eq_ediv_of_nonneg (by omega), Int.neg_tdiv, Int.neg_neg]
  have hdiv : -lo / k < -x ↔ -lo < -(x * k) := by rw [Int.ediv_lt_iff_lt_mul (by omega), Int.neg_mul]
  rw [hneg]
  omega

theorem tdiv_lt_iff (hhi : 0 ≤ hi) (hk : 1 ≤ k) : hi.tdiv k < x ↔ hi < x * k := by
  rw [Int.tdiv_eq_ediv_of_nonneg hhi, Int.ediv_lt_iff_lt_mul (by omega)]

end CodingExercises.Lib
