import Mathlib.Data.Nat.Notation
import Mathlib.Data.Int.Notation
import Mathlib.Algebra.Order.Group.Unbundled.Int
import Mathlib.Tactic.Ring

/-!
# Division with and without a sign

Where the division of two words, and its remainder, is the same whether they have a sign or not: without signs in them; for a
dividend without a sign that is less than the divisor; for equal words; and for a negative dividend only in division by 1, and in
the remainder by a power of two that divides it (`udiv_eq_sdiv_iff`, `umod_eq_srem_iff`).
-/

namespace CodingExercises.Lib

section Magnitudes

variable {M X Y : ℕ}

theorem div_neg_divisor (hX : 2 * X < M) (hY : M ≤ 2 * Y) (hlt : Y < M) : X / Y = (M - X / (M - Y)) % M ↔ X < M - Y := by
  have hzero : X / Y = 0 := Nat.div_eq_of_lt (by omega)
  have hle : X / (M - Y) ≤ X := Nat.div_le_self _ _
  rw [hzero]
  constructor
  · intro h
    have hdiv : X / (M - Y) = 0 := by
      generalize X / (M - Y) = q at h hle
      by_contra hne
      rw [Nat.mod_eq_of_lt (by omega)] at h
      omega
    exact (Nat.div_eq_zero_iff.mp hdiv).resolve_left (by omega)
  · intro h
    rw [Nat.div_eq_of_lt h, Nat.sub_zero, Nat.mod_self]

theorem div_neg_dividend (hX : M ≤ 2 * X) (hlt : X < M) (hpos : 0 < Y) (hY : 2 * Y < M) :
    X / Y = (M - (M - X) / Y) % M ↔ Y = 1 := by
  constructor
  · intro h
    by_contra hne
    have hhalf : X / Y ≤ X / 2 := Nat.div_le_div_left (by omega) (by decide)
    have hle : (M - X) / Y ≤ M - X := Nat.div_le_self _ _
    have hone : 0 < X / Y := Nat.div_pos (by omega) hpos
    rcases Nat.eq_zero_or_pos ((M - X) / Y) with hzero | hquot
    · rw [hzero, Nat.sub_zero, Nat.mod_self] at h
      omega
    · rw [Nat.mod_eq_of_lt (by omega)] at h
      omega
  · rintro rfl
    rw [Nat.div_one, Nat.div_one, Nat.sub_sub_self hlt.le, Nat.mod_eq_of_lt hlt]

theorem div_neg_both (hX : M ≤ 2 * X) (hXlt : X < M) (hY : M ≤ 2 * Y) (hYlt : Y < M) : X / Y = (M - X) / (M - Y) ↔ X = Y := by
  constructor
  · intro h
    rcases Nat.lt_trichotomy X Y with hless | heq | hmore
    · have hone : 0 < (M - X) / (M - Y) := Nat.div_pos (by omega) (by omega)
      rw [Nat.div_eq_of_lt hless] at h
      omega
    · exact heq
    · have hone : 0 < X / Y := Nat.div_pos hmore.le (by omega)
      rw [Nat.div_eq_of_lt (by omega : M - X < M - Y)] at h
      omega
  · rintro rfl
    rw [Nat.div_self (by omega), Nat.div_self (by omega)]

theorem mod_neg_divisor (hX : 2 * X < M) (hY : M ≤ 2 * Y) (hlt : Y < M) : X % Y = X % (M - Y) ↔ X < M - Y := by
  rw [Nat.mod_eq_of_lt (by omega : X < Y), eq_comm, Nat.mod_eq_iff_lt (by omega)]

theorem mod_neg_dividend (hX : M ≤ 2 * X) (hlt : X < M) (hpos : 0 < Y) (hY : 2 * Y < M) :
    X % Y = (M - (M - X) % Y) % M ↔ Y ∣ M - X ∧ Y ∣ M := by
  have hmod := Nat.mod_lt (M - X) hpos
  have hrem := Nat.mod_lt X hpos
  by_cases hdvd : Y ∣ M - X
  · rw [Nat.mod_eq_zero_of_dvd hdvd, Nat.sub_zero, Nat.mod_self, and_iff_right hdvd, ← Nat.dvd_iff_mod_eq_zero]
    constructor
    · intro h
      have hsum := Nat.dvd_add hdvd h
      rwa [Nat.sub_add_cancel hlt.le] at hsum
    · intro h
      have hsub := Nat.dvd_sub h hdvd
      rwa [Nat.sub_sub_self hlt.le] at hsub
  · refine iff_of_false (fun h => ?_) (fun h => hdvd h.1)
    have hne : (M - X) % Y ≠ 0 := fun hzero => hdvd (Nat.dvd_of_mod_eq_zero hzero)
    rw [Nat.mod_eq_of_lt (by omega : M - (M - X) % Y < M)] at h
    omega

theorem mod_neg_both (hX : M ≤ 2 * X) (hXlt : X < M) (hY : M ≤ 2 * Y) (hYlt : Y < M) :
    X % Y = (M - (M - X) % (M - Y)) % M ↔ X = Y := by
  constructor
  · intro h
    rcases Nat.lt_trichotomy X Y with hless | heq | hmore
    · have hmod := Nat.mod_lt (M - X) (by omega : M - Y > 0)
      rw [Nat.mod_eq_of_lt hless] at h
      rcases Nat.eq_zero_or_pos ((M - X) % (M - Y)) with hzero | hrest
      · rw [hzero, Nat.sub_zero, Nat.mod_self] at h
        omega
      · rw [Nat.mod_eq_of_lt (by omega : M - (M - X) % (M - Y) < M)] at h
        omega
    · exact heq
    · have hone : X % Y = X - Y := by
        rw [Nat.mod_eq_sub_mod hmore.le, Nat.mod_eq_of_lt (by omega)]
      rw [hone, Nat.mod_eq_of_lt (by omega : M - X < M - Y), Nat.sub_sub_self hXlt.le, Nat.mod_eq_of_lt hXlt] at h
      omega
  · rintro rfl
    rw [Nat.mod_self, Nat.mod_self, Nat.sub_zero, Nat.mod_self]

end Magnitudes

section Words

variable {w : ℕ} {x y : BitVec w}

/-- A negative word turned around. -/
theorem toNat_neg_of_msb (h : x.msb = true) : (-x).toNat = 2 ^ w - x.toNat := by
  have hge := BitVec.msb_eq_true_iff_two_mul_ge.mp h
  have hpos : 0 < x.toNat := by
    have := Nat.two_pow_pos w
    omega
  rw [BitVec.toNat_neg, Nat.mod_eq_of_lt (by omega)]

theorem toInt_of_msb_false (h : x.msb = false) : x.toInt = x.toNat := BitVec.toInt_eq_toNat_of_msb h

theorem toInt_of_msb_true (h : x.msb = true) : x.toInt = (x.toNat : ℤ) - (2 ^ w : ℕ) := by
  rw [BitVec.toInt_eq_msb_cond, h, if_pos rfl]

theorem udiv_eq_sdiv_iff (hy : y ≠ 0) : x / y = x.sdiv y ↔
    (0 ≤ x.toInt ∧ (0 < y.toInt ∨ x.toInt < -y.toInt)) ∨ x = y ∨ (x.toInt < 0 ∧ y.toInt = 1) := by
  have hxlt := x.isLt
  have hylt := y.isLt
  have hpos : 0 < y.toNat := Nat.pos_of_ne_zero fun h => hy (BitVec.eq_of_toNat_eq (by rw [h]; rfl))
  have heq : x = y ↔ x.toNat = y.toNat := BitVec.toNat_inj.symm
  rw [BitVec.sdiv_eq, heq, ← BitVec.toNat_inj, BitVec.toNat_udiv]
  cases hx : x.msb <;> cases hy' : y.msb <;> dsimp only
  case false.false =>
    rw [toInt_of_msb_false hx, toInt_of_msb_false hy']
    exact iff_of_true rfl (.inl ⟨by omega, .inl (by omega)⟩)
  case false.true =>
    have hless := BitVec.msb_eq_false_iff_two_mul_lt.mp hx
    have hmore := BitVec.msb_eq_true_iff_two_mul_ge.mp hy'
    rw [toInt_of_msb_false hx, toInt_of_msb_true hy', BitVec.toNat_neg, BitVec.udiv_eq, BitVec.toNat_udiv, toNat_neg_of_msb hy',
      div_neg_divisor hless hmore hylt]
    omega
  case true.false =>
    have hmore := BitVec.msb_eq_true_iff_two_mul_ge.mp hx
    have hless := BitVec.msb_eq_false_iff_two_mul_lt.mp hy'
    rw [toInt_of_msb_true hx, toInt_of_msb_false hy', BitVec.toNat_neg, BitVec.udiv_eq, BitVec.toNat_udiv, toNat_neg_of_msb hx,
      div_neg_dividend hmore hxlt hpos hless]
    omega
  case true.true =>
    have hmore := BitVec.msb_eq_true_iff_two_mul_ge.mp hx
    have hmore' := BitVec.msb_eq_true_iff_two_mul_ge.mp hy'
    rw [toInt_of_msb_true hx, toInt_of_msb_true hy', BitVec.udiv_eq, BitVec.toNat_udiv, toNat_neg_of_msb hx, toNat_neg_of_msb hy',
      div_neg_both hmore hxlt hmore' hylt]
    omega

theorem umod_eq_srem_iff (hy : y ≠ 0) : x % y = x.srem y ↔
    (0 ≤ x.toInt ∧ (0 < y.toInt ∨ x.toInt < -y.toInt)) ∨ x = y ∨
      (x.toInt < 0 ∧ 0 < y.toInt ∧ y.toInt ∣ x.toInt ∧ y.toInt ∣ 2 ^ w) := by
  have hxlt := x.isLt
  have hylt := y.isLt
  have hpos : 0 < y.toNat := Nat.pos_of_ne_zero fun h => hy (BitVec.eq_of_toNat_eq (by rw [h]; rfl))
  have heq : x = y ↔ x.toNat = y.toNat := BitVec.toNat_inj.symm
  rw [BitVec.srem_eq, heq, ← BitVec.toNat_inj, BitVec.toNat_umod]
  cases hx : x.msb <;> cases hy' : y.msb <;> dsimp only
  case false.false =>
    rw [toInt_of_msb_false hx, toInt_of_msb_false hy']
    exact iff_of_true rfl (.inl ⟨by omega, .inl (by omega)⟩)
  case false.true =>
    have hless := BitVec.msb_eq_false_iff_two_mul_lt.mp hx
    have hmore := BitVec.msb_eq_true_iff_two_mul_ge.mp hy'
    rw [toInt_of_msb_false hx, toInt_of_msb_true hy', BitVec.toNat_umod, toNat_neg_of_msb hy', mod_neg_divisor hless hmore hylt]
    omega
  case true.false =>
    have hmore := BitVec.msb_eq_true_iff_two_mul_ge.mp hx
    have hless := BitVec.msb_eq_false_iff_two_mul_lt.mp hy'
    have hdvd : ((y.toNat : ℤ) ∣ (x.toNat : ℤ) - (2 ^ w : ℕ)) ↔ y.toNat ∣ 2 ^ w - x.toNat := by
      rw [← Int.natCast_dvd_natCast, Nat.cast_sub hxlt.le, ← Int.neg_sub, Int.dvd_neg]
    have hpow : ((y.toNat : ℤ) ∣ 2 ^ w) ↔ y.toNat ∣ 2 ^ w := by
      rw [← Int.natCast_dvd_natCast, Nat.cast_pow, Nat.cast_ofNat]
    rw [toInt_of_msb_true hx, toInt_of_msb_false hy', BitVec.toNat_neg, BitVec.toNat_umod, toNat_neg_of_msb hx,
      mod_neg_dividend hmore hxlt hpos hless, hdvd, hpow]
    constructor
    · intro h
      exact .inr (.inr ⟨by omega, by omega, h⟩)
    · rintro (⟨hno, -⟩ | hno | ⟨-, -, h⟩)
      · omega
      · omega
      · exact h
  case true.true =>
    have hmore := BitVec.msb_eq_true_iff_two_mul_ge.mp hx
    have hmore' := BitVec.msb_eq_true_iff_two_mul_ge.mp hy'
    rw [toInt_of_msb_true hx, toInt_of_msb_true hy', BitVec.toNat_neg, BitVec.toNat_umod, toNat_neg_of_msb hx,
      toNat_neg_of_msb hy', mod_neg_both hmore hxlt hmore' hylt]
    omega

end Words

end CodingExercises.Lib
