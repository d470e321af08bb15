import Mathlib.Algebra.Order.Floor.Semifield
import Mathlib.Tactic.FieldSimp
import Mathlib.Tactic.Linarith

/-!
# Rounding

A non-negative number is rounded to an integer (`Direction.round`). Of a quotient of integers, all that matters is the remainder
(`round_div`), and of that no more than its place among zero, less than a half, a half and more (`place`): that much can be
carried through a division (`place_div`), and tells if the quotient is rounded up (`roundsUp_iff_place`).
-/

namespace CodingExercises.Lib

/-- How a number is rounded; ties go to the even integer. -/
inductive Direction
  | ceiling
  | floor
  | nearest
  deriving DecidableEq

namespace Direction

variable {K : Type*} [Field K] [LinearOrder K] [IsStrictOrderedRing K] [FloorSemiring K]

/-- The integer that a number is rounded to. -/
def round (dir : Direction) (x : K) : ℕ :=
  match dir with
  | ceiling => ⌈x⌉₊
  | floor => ⌊x⌋₊
  | nearest =>
    if x - ⌊x⌋₊ < 1 / 2 then ⌊x⌋₊
    else if 1 / 2 < x - ⌊x⌋₊ then ⌊x⌋₊ + 1
    else ⌊x⌋₊ + ⌊x⌋₊ % 2

/-- A quotient `q` with a remainder `r` of `d` is rounded up. -/
def RoundsUp (dir : Direction) (q r d : ℕ) : Prop :=
  match dir with
  | ceiling => 0 < r
  | floor => False
  | nearest => d < 2 * r ∨ 2 * r = d ∧ q % 2 = 1

instance (dir : Direction) (q r d : ℕ) : Decidable (dir.RoundsUp q r d) :=
  match dir with
  | ceiling => inferInstanceAs (Decidable (0 < r))
  | floor => inferInstanceAs (Decidable False)
  | nearest => inferInstanceAs (Decidable (_ ∨ _))

/-- What is exact is not rounded up. -/
theorem not_roundsUp_zero (dir : Direction) (q : ℕ) {d : ℕ} (hd : 0 < d) : ¬dir.RoundsUp q 0 d := by
  cases dir with
  | ceiling => exact Nat.lt_irrefl 0
  | floor => exact id
  | nearest =>
    show ¬(d < 2 * 0 ∨ 2 * 0 = d ∧ q % 2 = 1)
    omega

/-- A quotient of integers is rounded by its remainder. -/
theorem round_div (dir : Direction) (n : ℕ) {d : ℕ} (hd : 0 < d) :
    dir.round (n / d : K) = n / d + if dir.RoundsUp (n / d) (n % d) d then 1 else 0 := by
  have hdK : (0 : K) < d := Nat.cast_pos.mpr hd
  have hfloor : ⌊(n / d : K)⌋₊ = n / d := Nat.floor_div_eq_div n d
  have hfract : (n / d : K) - (n / d : ℕ) = (n % d : ℕ) / d := by
    have hn : (n : K) = d * (n / d : ℕ) + (n % d : ℕ) := by exact_mod_cast (Nat.div_add_mod n d).symm
    rw [sub_eq_iff_eq_add, div_eq_iff hdK.ne', add_mul, div_mul_cancel₀ _ hdK.ne', mul_comm _ (d : K), add_comm]
    exact hn
  cases dir with
  | floor => exact hfloor.trans (Nat.add_zero _).symm
  | ceiling =>
    show ⌈(n / d : K)⌉₊ = n / d + if 0 < n % d then 1 else 0
    have hx : (n / d : K) = (n / d : ℕ) + (n % d : ℕ) / d := (sub_eq_iff_eq_add'.mp hfract)
    by_cases hr : 0 < n % d
    · have hrK : (0 : K) < (n % d : ℕ) := Nat.cast_pos.mpr hr
      have hlt : (n % d : ℕ) / (d : K) ≤ 1 :=
        (div_le_one hdK).mpr (Nat.cast_le.mpr (Nat.mod_lt n hd).le)
      rw [if_pos hr, Nat.ceil_eq_iff (Nat.succ_ne_zero _), hx, Nat.succ_sub_one, Nat.cast_succ]
      exact ⟨lt_add_of_pos_right _ (div_pos hrK hdK), add_le_add_right hlt _⟩
    · rw [if_neg hr, hx, Nat.eq_zero_of_not_pos hr, Nat.cast_zero, zero_div, add_zero, Nat.ceil_natCast, Nat.add_zero]
  | nearest =>
    have hlt : (n % d : ℕ) / (d : K) < 1 / 2 ↔ 2 * (n % d) < d := by
      rw [div_lt_div_iff₀ hdK two_pos, one_mul]
      norm_cast
      rw [Nat.mul_comm]
    have hgt : 1 / 2 < (n % d : ℕ) / (d : K) ↔ d < 2 * (n % d) := by
      rw [div_lt_div_iff₀ two_pos hdK, one_mul]
      norm_cast
      rw [Nat.mul_comm]
    show (if (n / d : K) - ⌊(n / d : K)⌋₊ < 1 / 2 then _ else _) =
      n / d + if d < 2 * (n % d) ∨ 2 * (n % d) = d ∧ n / d % 2 = 1 then 1 else 0
    simp only [hfloor, hfract, hlt, hgt]
    split_ifs <;> omega

end Direction

/-! ## The place of a remainder -/

/-- The place of a remainder of `d`: at zero (`0`), below half (`1`), at half (`2`) or above (`3`). -/
def place (r d : ℕ) : ℕ :=
  if 2 * r < d then if 0 < r then 1 else 0 else if 2 * r = d then 2 else 3

theorem place_eq_zero {r d : ℕ} (hd : 0 < d) : place r d = 0 ↔ r = 0 := by
  constructor
  · intro h
    unfold place at h
    split_ifs at h
    omega
  · rintro rfl
    rw [place, if_pos (by omega), if_neg (by omega)]

theorem place_zero {d : ℕ} (hd : 0 < d) : place 0 d = 0 := (place_eq_zero hd).mpr rfl

/-- The remainder `a` of an even `k` and the place of what is behind it: the place of both. -/
theorem place_mul_add {a r d k : ℕ} (hk : k % 2 = 0) (hr : r < d) :
    place (a * d + r) (k * d) =
      if 2 * a + place r d / 2 < k then if 2 * a + place r d / 2 + place r d ≠ 0 then 1 else 0
      else if k < 2 * a + place r d / 2 + place r d then 3 else 2 := by
  have hle : ∀ {i j : ℕ}, i ≤ j → i * d ≤ j * d := Nat.mul_le_mul_right d
  have hsum : 2 * (a * d + r) = 2 * a * d + 2 * r := by rw [Nat.mul_add, Nat.mul_assoc]
  have hone : (2 * a + 1) * d = 2 * a * d + d := Nat.succ_mul _ _
  have htwo : (2 * a + 2) * d = 2 * a * d + 2 * d := Nat.add_mul _ _ _
  have hzero : 0 < a * d + r ↔ 2 * a ≠ 0 ∨ r ≠ 0 := by
    rw [Nat.add_pos_iff_pos_or_pos, Nat.mul_pos_iff_of_pos_right (by omega)]
    omega
  rw [place, hsum, if_congr hzero rfl rfl]
  obtain hlt | heq | hgt := Nat.lt_trichotomy (2 * a) k
  · have := hle (show 2 * a + 2 ≤ k by omega)
    unfold place
    split_ifs <;> omega
  · rw [heq] at hone htwo ⊢
    unfold place
    split_ifs <;> omega
  · have hsucc : (k + 1) * d = k * d + d := Nat.succ_mul _ _
    have := hle (show k + 1 ≤ 2 * a by omega)
    unfold place
    split_ifs <;> omega

namespace Direction

variable {q r d : ℕ}

/-- The place of a remainder tells what is rounded up. -/
theorem roundsUp_iff_place (dir : Direction) (hd : 0 < d) : dir.RoundsUp q r d ↔
    match dir with
    | ceiling => 0 < place r d
    | floor => False
    | nearest => 2 < place r d + q % 2 := by
  cases dir with
  | ceiling => exact Nat.pos_iff_ne_zero.trans ((not_congr (place_eq_zero hd)).symm.trans Nat.pos_iff_ne_zero.symm)
  | floor => exact .rfl
  | nearest =>
    show d < 2 * r ∨ 2 * r = d ∧ q % 2 = 1 ↔ 2 < place r d + q % 2
    unfold place
    split_ifs <;> omega

/-- So do the first decimal of a remainder and the place of what is behind it. -/
theorem roundsUp_iff_tenths (dir : Direction) (hd : 0 < d) : dir.RoundsUp q r d ↔
    match dir with
    | ceiling => 0 < 10 * r / d + place (10 * r % d) d
    | floor => False
    | nearest => 5 < 10 * r / d + if 0 < place (10 * r % d) d + q % 2 then 1 else 0 := by
  have hdiv := Nat.div_add_mod (10 * r) d
  have hmod := Nat.mod_lt (10 * r) hd
  have hplace := place_eq_zero (r := 10 * r % d) hd
  generalize 10 * r / d = t at *
  generalize 10 * r % d = s at *
  generalize place s d = c at *
  cases dir with
  | ceiling =>
    show 0 < r ↔ 0 < t + c
    have : 0 < t → d ≤ d * t := Nat.le_mul_of_pos_right d
    have : t = 0 → d * t = 0 := fun h => by rw [h, Nat.mul_zero]
    omega
  | floor => exact .rfl
  | nearest =>
    show d < 2 * r ∨ 2 * r = d ∧ q % 2 = 1 ↔ 5 < t + if 0 < c + q % 2 then 1 else 0
    obtain hlt | rfl | hgt := Nat.lt_trichotomy t 5
    · have : d * t ≤ d * 4 := Nat.mul_le_mul_left d (by omega)
      split_ifs <;> omega
    · split_ifs <;> omega
    · have : d * 6 ≤ d * t := Nat.mul_le_mul_left d (by omega)
      split_ifs <;> omega

end Direction

end CodingExercises.Lib
