import CodingExercises.Coreutils.Human
import Mathlib.Data.Nat.Cast.Field
import Mathlib.Data.Rat.Floor

/-!
# coreutils: readable numbers, rounded

What `human_readable` prints without a scale of its own, against the exact quotient.

- `exactAmount`: `amt`, `tenths` and `rounding` of a quotient, which is rounded by them as it should be (`roundAmount_exact`);
- `roundsUp_wrapped_iff`: where the tenths are found in 64 bits, they lose the remainder of a large divisor;
- `printsRounded_iff`: so the number is right exactly if that does not happen.
-/

namespace CodingExercises.Coreutils

open Lib

/-! ## What is expected -/

variable (opts : UInt32) (locale : Locale) (fp : LongDouble)

/-- The direction that is asked for. -/
def direction : Direction :=
  if inexactStyle opts = humanRoundToNearest then .nearest else if inexactStyle opts = humanCeiling then .ceiling else .floor

/-- A number in decimal. -/
def decimal (m : ℕ) : List Byte := (Nat.toDigits 10 m).map byte

/-- The number is printed that the quotient is rounded to. -/
def PrintsRounded (n fromBlockSize toBlockSize : UInt64) : Prop :=
  humanReadable opts locale fp n fromBlockSize toBlockSize =
    decimal ((direction opts).round (n.toNat * fromBlockSize.toNat / toBlockSize.toNat : ℚ)) ++ humanSuffix opts toBlockSize none

/-- The remainder of `n` by `divisor` is lost in 64 bits, and with it what should be rounded up. -/
def LosesRemainder (dir : Direction) (n divisor : ℕ) : Prop :=
  match dir with
  | .ceiling => 2 ^ 63 < divisor ∧ n % divisor ≠ 0 ∧ n % divisor % 2 ^ 62 = 0
  | .floor => False
  | .nearest => 2 ^ 64 ≤ n % divisor * 10 ∧ dir.RoundsUp (n / divisor) (n % divisor) divisor

instance (dir : Direction) (n divisor : ℕ) : Decidable (LosesRemainder dir n divisor) :=
  match dir with
  | .ceiling => inferInstanceAs (Decidable (_ ∧ _))
  | .floor => inferInstanceAs (Decidable False)
  | .nearest => inferInstanceAs (Decidable (_ ∧ Direction.RoundsUp ..))

/-! ## Decimal numbers -/

theorem decimal_of_lt {m : ℕ} (h : m < 10) : decimal m = [UInt8.ofNat (m + 48)] := by
  rw [decimal, Nat.toDigits_of_lt_base h]
  revert m
  decide

theorem decimal_of_ge {m : ℕ} (h : 10 ≤ m) : decimal m = decimal (m / 10) ++ [UInt8.ofNat (m % 10 + 48)] := by
  have happend := Nat.toDigits_append_toDigits (b := 10) (n := m / 10) (by decide) (by omega) (Nat.mod_lt m (by decide))
  rw [Nat.div_add_mod] at happend
  rw [decimal, ← happend, List.map_append, ← decimal_of_lt (Nat.mod_lt m (by decide))]
  rfl

theorem decimalDigits_eq {fuel m : ℕ} (hfuel : 0 < fuel) (h : m < 10 ^ fuel) : decimalDigits fuel m = decimal m := by
  induction fuel generalizing m with
  | zero => cases hfuel
  | succ fuel ih =>
    rw [decimalDigits]
    by_cases hm : m < 10
    · rw [if_pos (by omega), List.nil_append, Nat.mod_eq_of_lt hm, decimal_of_lt hm]
    · have hpos : 0 < fuel := by
        by_contra hzero
        rw [Nat.eq_zero_of_not_pos hzero] at h
        omega
      have hlt : m / 10 < 10 ^ fuel := Nat.div_lt_of_lt_mul (by rw [← Nat.pow_succ']; exact h)
      rw [if_neg (by omega), ih hpos hlt, ← decimal_of_ge (by omega)]

/-- A number can be read. -/
theorem foldl_decimal (m : ℕ) : (decimal m).foldl (fun n c => n * 10 + (c.toNat - 48)) 0 = m := by
  have hdigit : ∀ d < 10, (UInt8.ofNat (d + 48)).toNat - 48 = d := by decide
  induction m using Nat.strongRecOn with
  | ind m ih =>
    by_cases hm : m < 10
    · rw [decimal_of_lt hm]
      exact (Nat.zero_add _).trans (hdigit m hm)
    · rw [decimal_of_ge (by omega), List.foldl_append, ih _ (by omega)]
      have := hdigit (m % 10) (Nat.mod_lt m (by decide))
      show m / 10 * 10 + _ = m
      omega

theorem decimal_injective : Function.Injective decimal := fun m k h => by
  rw [← foldl_decimal m, h, foldl_decimal]

/-! ## Rounding to an integer -/

variable {opts locale fp}

/-- The amount that is a quotient. -/
def exactAmount (v d : ℕ) : Amount where
  amt := v / d
  tenths := 10 * (v % d) / d
  rounding := place (10 * (v % d) % d) d

/-- A test of the style, in each direction. -/
theorem style_iff {p q : Prop} :
    (if inexactStyle opts = humanRoundToNearest then p else inexactStyle opts = humanCeiling ∧ q) ↔
      match direction opts with
      | .ceiling => q
      | .floor => False
      | .nearest => p := by
  unfold direction
  by_cases hnearest : inexactStyle opts = humanRoundToNearest
  · rw [if_pos hnearest, if_pos hnearest]
  · rw [if_neg hnearest, if_neg hnearest]
    by_cases hceiling : inexactStyle opts = humanCeiling
    · rw [if_pos hceiling]
      exact and_iff_right hceiling
    · rw [if_neg hceiling]
      exact iff_of_false (fun h => hceiling h.1) id

theorem roundsAmount_iff (s : Amount) : RoundsAmount opts s ↔
    match direction opts with
    | .ceiling => 0 < s.tenths + s.rounding
    | .floor => False
    | .nearest => 5 < s.tenths + if 0 < s.rounding + s.amt % 2 then 1 else 0 := style_iff

/-- A quotient is rounded up as it should be. -/
theorem roundsAmount_exact (opts : UInt32) (v : ℕ) {d : ℕ} (hd : 0 < d) :
    RoundsAmount opts (exactAmount v d) ↔ (direction opts).RoundsUp (v / d) (v % d) d :=
  (roundsAmount_iff _).trans ((direction opts).roundsUp_iff_tenths hd).symm

/-- What is printed without a scale. -/
theorem integerArithmetic_eq (hscale : ¬Chosen opts humanAutoscale) (s : Amount) :
    integerArithmetic opts locale s = (decimalDigits 20 (s.amt + if RoundsAmount opts s then 1 else 0), [], none) := by
  rw [integerArithmetic, if_neg hscale, roundAmount]
  by_cases h : RoundsAmount opts s
  · rw [if_pos h, if_pos h]
  · rw [if_neg h, if_neg h]
    rfl

/-! ## Wrapping around -/

/-- `tenths` and `rounding` of `n` in units of `divisor`, in 64 bits. -/
def wrappedAmount (n divisor : ℕ) : Amount :=
  let r10 := n % divisor * 10 % 2 ^ 64
  let r2 := r10 % divisor * 2 % 2 ^ 64
  { amt := n / divisor
    tenths := r10 / divisor
    rounding := if r2 < divisor then if 0 < r2 then 1 else 0 else 2 + if divisor < r2 then 1 else 0 }

theorem wrapped_rounding {n d : ℕ} (hd : 0 < d) :
    (wrappedAmount n d).rounding = 0 ↔ n % d * 10 % 2 ^ 64 % d * 2 % 2 ^ 64 = 0 := by
  show (if n % d * 10 % 2 ^ 64 % d * 2 % 2 ^ 64 < d then _ else _) = 0 ↔ _
  generalize n % d * 10 % 2 ^ 64 % d * 2 % 2 ^ 64 = r2
  constructor
  · intro h
    split_ifs at h <;> omega
  · rintro rfl
    rw [if_pos hd, if_neg (Nat.lt_irrefl 0)]

/-- What is lost should be rounded up. -/
theorem LosesRemainder.roundsUp {dir : Direction} {n d : ℕ} (h : LosesRemainder dir n d) :
    dir.RoundsUp (n / d) (n % d) d := by
  cases dir with
  | ceiling => exact Nat.pos_of_ne_zero h.2.1
  | floor => exact h
  | nearest => exact h.2

/-- What the doubled tenths leave in 64 bits is zero for a multiple of `2 ^ 62`. -/
theorem doubled_tenths_eq_zero {r : ℕ} : r * 10 % 2 ^ 64 * 2 % 2 ^ 64 = 0 ↔ r % 2 ^ 62 = 0 := by
  have hcoprime : Nat.Coprime (2 ^ 62) 5 := Nat.Coprime.pow_left 62 (by decide)
  have hfour : r * 10 * 2 = r * 5 * 4 := by omega
  have hpow : 2 ^ 64 = 2 ^ 62 * 4 := rfl
  rw [Nat.mod_mul_mod, ← Nat.dvd_iff_mod_eq_zero, ← Nat.dvd_iff_mod_eq_zero, hfour, hpow,
    Nat.mul_dvd_mul_iff_right (by decide)]
  exact ⟨hcoprime.dvd_of_dvd_mul_right, fun h => Dvd.dvd.mul_right h 5⟩

/-- Such a multiple has no tenths exactly if the divisor is large. -/
theorem tenths_lt_iff {r d : ℕ} (hr : r < d) (hd : d < 2 ^ 64) (h : r % 2 ^ 62 = 0) (hne : r ≠ 0) :
    r * 10 % 2 ^ 64 < d ↔ 2 ^ 63 < d := by
  have hcases : r = 2 ^ 62 ∨ r = 2 ^ 63 ∨ r = 3 * 2 ^ 62 := by omega
  obtain rfl | rfl | rfl := hcases
  · have : 2 ^ 62 * 10 % 2 ^ 64 = 2 ^ 63 := rfl
    omega
  · have : 2 ^ 63 * 10 % 2 ^ 64 = 0 := rfl
    omega
  · have : 3 * 2 ^ 62 * 10 % 2 ^ 64 = 2 ^ 63 := rfl
    omega

/-- The amount is rounded up where it should be and the remainder is not lost. -/
theorem roundsAmount_wrapped {n d : ℕ} (hd : 0 < d) (hlt : d < 2 ^ 64) : RoundsAmount opts (wrappedAmount n d) ↔
    (direction opts).RoundsUp (n / d) (n % d) d ∧ ¬LosesRemainder (direction opts) n d := by
  have hr := Nat.mod_lt n hd
  have hplace : (wrappedAmount n d).rounding = 0 ↔ n % d * 10 % 2 ^ 64 % d * 2 % 2 ^ 64 = 0 := wrapped_rounding hd
  have htenths : (wrappedAmount n d).tenths = n % d * 10 % 2 ^ 64 / d := rfl
  have hamt : (wrappedAmount n d).amt = n / d := rfl
  rw [roundsAmount_iff, htenths, hamt]
  generalize (wrappedAmount n d).rounding = c at *
  cases direction opts with
  | ceiling =>
    show 0 < n % d * 10 % 2 ^ 64 / d + c ↔ 0 < n % d ∧ ¬(2 ^ 63 < d ∧ n % d ≠ 0 ∧ n % d % 2 ^ 62 = 0)
    generalize n % d = r at *
    have hlost : r * 10 % 2 ^ 64 / d + c = 0 ↔ r * 10 % 2 ^ 64 < d ∧ r % 2 ^ 62 = 0 := by
      rw [Nat.add_eq_zero_iff, Nat.div_eq_zero_iff_lt hd, hplace]
      refine and_congr_right fun h => ?_
      rw [Nat.mod_eq_of_lt h, doubled_tenths_eq_zero]
    by_cases hr0 : r = 0
    · rw [hr0, Nat.zero_mul, Nat.zero_mod] at hlost
      have := hlost.mpr ⟨hd, Nat.zero_mod _⟩
      rw [hr0, Nat.zero_mul, Nat.zero_mod, this]
      exact ⟨fun h => absurd h (Nat.lt_irrefl 0), fun h => h.1⟩
    · rw [Nat.pos_iff_ne_zero, Nat.pos_iff_ne_zero, Ne, hlost, and_iff_right hr0]
      refine not_congr ⟨fun h => ⟨(tenths_lt_iff hr hlt h.2 hr0).mp h.1, hr0, h.2⟩,
        fun h => ⟨(tenths_lt_iff hr hlt h.2.2 hr0).mpr h.1, h.2.2⟩⟩
  | floor => exact ⟨False.elim, And.left⟩
  | nearest =>
    show (5 < n % d * 10 % 2 ^ 64 / d + if 0 < c + n / d % 2 then 1 else 0) ↔
      (d < 2 * (n % d) ∨ 2 * (n % d) = d ∧ n / d % 2 = 1) ∧
        ¬(2 ^ 64 ≤ n % d * 10 ∧ (d < 2 * (n % d) ∨ 2 * (n % d) = d ∧ n / d % 2 = 1))
    generalize n / d = q at *
    generalize n % d = r at *
    have hdiv := Nat.div_add_mod (r * 10 % 2 ^ 64) d
    have hmod := Nat.mod_lt (r * 10 % 2 ^ 64) hd
    by_cases hwrap : r * 10 < 2 ^ 64
    · rw [Nat.mod_eq_of_lt hwrap] at hplace hdiv hmod ⊢
      generalize r * 10 / d = t at *
      generalize r * 10 % d = m at *
      rw [not_and, and_iff_left fun h => absurd h (Nat.not_le.mpr hwrap)]
      obtain hless | rfl | hmore := Nat.lt_trichotomy t 5
      · have : d * t ≤ d * 4 := Nat.mul_le_mul_left d (by omega)
        split_ifs <;> omega
      · rw [Nat.mod_eq_of_lt (show m * 2 < 2 ^ 64 by omega)] at hplace
        split_ifs <;> omega
      · have : d * 6 ≤ d * t := Nat.mul_le_mul_left d (by omega)
        split_ifs <;> omega
    · have hless : r * 10 % 2 ^ 64 / d < 5 := by
        rw [Nat.div_lt_iff_lt_mul hd]
        by_contra hnot
        have hbelow := Nat.mod_lt (r * 10) (show 0 < 2 ^ 64 by decide)
        have hless : r * 10 < 2 ^ 65 := by omega
        rw [Nat.mod_eq_sub_mod (by omega), Nat.mod_eq_of_lt (by omega)] at hnot
        omega
      exact iff_of_false (by split_ifs <;> omega) fun h => h.2 ⟨Nat.not_lt.mp hwrap, h.1⟩

/-! ## The units -/

variable {n fromBlockSize toBlockSize : UInt64}

/-- Larger units are multiplied. -/
theorem adjustedAmount_of_dvd (hto : 0 < toBlockSize.toNat) (hfrom : 0 < fromBlockSize.toNat)
    (hdvd : toBlockSize.toNat ∣ fromBlockSize.toNat)
    (hfits : n.toNat * (fromBlockSize.toNat / toBlockSize.toNat) ≤ uintmaxMax) :
    adjustedAmount n fromBlockSize toBlockSize = some ⟨n.toNat * (fromBlockSize.toNat / toBlockSize.toNat), 0, 0⟩ := by
  have hle : toBlockSize ≤ fromBlockSize := UInt64.le_iff_toNat_le.mpr (Nat.le_of_dvd hfrom hdvd)
  have hmod : fromBlockSize % toBlockSize = 0 := by
    rw [← UInt64.toNat_inj, UInt64.toNat_mod]
    exact Nat.mod_eq_zero_of_dvd hdvd
  have hamt : (n * (fromBlockSize / toBlockSize)).toNat = n.toNat * (fromBlockSize.toNat / toBlockSize.toNat) := by
    rw [UInt64.toNat_mul, UInt64.toNat_div]
    exact Nat.mod_eq_of_lt (by unfold uintmaxMax at hfits; omega)
  have hdiv : n * (fromBlockSize / toBlockSize) / (fromBlockSize / toBlockSize) = n := by
    rw [← UInt64.toNat_inj, UInt64.toNat_div, hamt, UInt64.toNat_div]
    exact Nat.mul_div_cancel _ (Nat.div_pos (Nat.le_of_dvd hfrom hdvd) hto)
  rw [adjustedAmount, if_pos hle, if_pos hmod]
  dsimp only
  rw [if_pos hdiv, hamt]

/-- Smaller units are divided. -/
theorem adjustedAmount_of_lt (hlt : fromBlockSize.toNat < toBlockSize.toNat) (hfrom : 0 < fromBlockSize.toNat)
    (hdvd : fromBlockSize.toNat ∣ toBlockSize.toNat) : adjustedAmount n fromBlockSize toBlockSize =
      some (wrappedAmount n.toNat (toBlockSize.toNat / fromBlockSize.toNat)) := by
  have hle : ¬toBlockSize ≤ fromBlockSize := fun h => by
    have := UInt64.le_iff_toNat_le.mp h
    omega
  have hne : fromBlockSize ≠ 0 := fun h => by
    rw [h] at hfrom
    exact Nat.lt_irrefl 0 hfrom
  have hmod : toBlockSize % fromBlockSize = 0 := by
    rw [← UInt64.toNat_inj, UInt64.toNat_mod]
    exact Nat.mod_eq_zero_of_dvd hdvd
  rw [adjustedAmount, if_neg hle, if_pos ⟨hne, hmod⟩]
  simp only [UInt64.toNat_div, UInt64.toNat_mul, UInt64.toNat_mod, UInt64.lt_iff_toNat_lt, wrappedAmount]
  rfl

/-- What is printed of an amount. -/
theorem humanReadable_of_amount (hscale : ¬Chosen opts humanAutoscale) (hgroup : ¬Chosen opts humanGroupDigits) {s : Amount}
    (hs : adjustedAmount n fromBlockSize toBlockSize = some s) (hfits : s.amt ≤ uintmaxMax) :
    humanReadable opts locale fp n fromBlockSize toBlockSize =
      decimal (s.amt + if RoundsAmount opts s then 1 else 0) ++ humanSuffix opts toBlockSize none := by
  have hlt : (s.amt + if RoundsAmount opts s then 1 else 0) < 10 ^ 20 := by
    unfold uintmaxMax at hfits
    split <;> omega
  rw [humanReadable, hs]
  dsimp only
  rw [integerArithmetic_eq hscale, decimalDigits_eq (by decide) hlt]
  dsimp only
  rw [if_neg hgroup, List.append_nil]

/-- The number is right exactly if no remainder is lost. -/
theorem printsRounded_iff (opts : UInt32) (locale : Locale) (fp : LongDouble) (n fromBlockSize toBlockSize : UInt64)
    (hscale : ¬Chosen opts humanAutoscale) (hgroup : ¬Chosen opts humanGroupDigits) (hfrom : fromBlockSize ≠ 0)
    (hto : toBlockSize ≠ 0)
    (hdvd : toBlockSize.toNat ∣ fromBlockSize.toNat ∧ n.toNat * fromBlockSize.toNat / toBlockSize.toNat ≤ uintmaxMax ∨
      fromBlockSize.toNat ∣ toBlockSize.toNat) :
    PrintsRounded opts locale fp n fromBlockSize toBlockSize ↔
      ¬(fromBlockSize < toBlockSize ∧
        LosesRemainder (direction opts) n.toNat (toBlockSize.toNat / fromBlockSize.toNat)) := by
  have hfromPos : 0 < fromBlockSize.toNat := Nat.pos_of_ne_zero fun h => hfrom (UInt64.toNat_inj.mp h)
  have htoPos : 0 < toBlockSize.toNat := Nat.pos_of_ne_zero fun h => hto (UInt64.toNat_inj.mp h)
  have hn := n.toNat_lt
  rw [UInt64.lt_iff_toNat_lt]
  by_cases hlt : fromBlockSize.toNat < toBlockSize.toNat
  · have hdiv : fromBlockSize.toNat ∣ toBlockSize.toNat :=
      hdvd.resolve_left fun h => absurd (Nat.le_of_dvd hfromPos h.1) (by omega)
    have hd : 0 < toBlockSize.toNat / fromBlockSize.toNat := Nat.div_pos hlt.le hfromPos
    have hd64 : toBlockSize.toNat / fromBlockSize.toNat < 2 ^ 64 :=
      (Nat.div_le_self _ _).trans_lt toBlockSize.toNat_lt
    have hamt : (wrappedAmount n.toNat (toBlockSize.toNat / fromBlockSize.toNat)).amt ≤ uintmaxMax :=
      (Nat.div_le_self _ _).trans (by unfold uintmaxMax; omega)
    have hquotient : (n.toNat * fromBlockSize.toNat / toBlockSize.toNat : ℚ) =
        n.toNat / (toBlockSize.toNat / fromBlockSize.toNat : ℕ) := by
      rw [Nat.cast_div hdiv (by exact_mod_cast hfromPos.ne'), div_div_eq_mul_div]
    rw [PrintsRounded, humanReadable_of_amount hscale hgroup (adjustedAmount_of_lt hlt hfromPos hdiv) hamt,
      List.append_left_inj, decimal_injective.eq_iff, hquotient, Direction.round_div _ _ hd,
      if_congr (roundsAmount_wrapped hd hd64) rfl rfl, and_iff_right hlt]
    generalize toBlockSize.toNat / fromBlockSize.toNat = d
    by_cases hloses : LosesRemainder (direction opts) n.toNat d
    · rw [if_neg fun h => h.2 hloses, if_pos hloses.roundsUp]
      exact iff_of_false (Nat.ne_of_lt (Nat.lt_succ_self _)) (not_not.mpr hloses)
    · rw [if_congr (and_iff_left hloses) rfl rfl]
      exact iff_of_true rfl hloses
  · have hdiv : toBlockSize.toNat ∣ fromBlockSize.toNat ∧
        n.toNat * (fromBlockSize.toNat / toBlockSize.toNat) ≤ uintmaxMax := by
      obtain ⟨hto, hfits⟩ | hfrom := hdvd
      · exact ⟨hto, by rwa [← Nat.mul_div_assoc _ hto]⟩
      · have heq : fromBlockSize.toNat = toBlockSize.toNat := by
          have := Nat.le_of_dvd htoPos hfrom
          omega
        rw [heq, Nat.div_self htoPos, Nat.mul_one]
        exact ⟨Nat.dvd_refl _, by unfold uintmaxMax; omega⟩
    have hquotient : (n.toNat * fromBlockSize.toNat / toBlockSize.toNat : ℚ) =
        (n.toNat * (fromBlockSize.toNat / toBlockSize.toNat) : ℕ) / (1 : ℕ) := by
      rw [Nat.cast_mul, Nat.cast_div hdiv.1 (by exact_mod_cast htoPos.ne'), Nat.cast_one, div_one, mul_div_assoc]
    have hexact : (⟨n.toNat * (fromBlockSize.toNat / toBlockSize.toNat), 0, 0⟩ : Amount) =
        exactAmount (n.toNat * (fromBlockSize.toNat / toBlockSize.toNat)) 1 := by
      rw [exactAmount, Nat.div_one, Nat.mod_one, Nat.mul_zero, Nat.zero_div, Nat.zero_mod, place_zero (by decide)]
    refine iff_of_true ?_ fun h => hlt h.1
    rw [PrintsRounded, humanReadable_of_amount hscale hgroup (adjustedAmount_of_dvd htoPos hfromPos hdiv.1 hdiv.2) hdiv.2,
      hquotient, Direction.round_div _ _ Nat.one_pos, hexact, if_congr (roundsAmount_exact opts _ Nat.one_pos) rfl rfl]
    rfl

/-- The C locale. -/
def cLocale : Locale := ⟨[byte '.'], [], []⟩

/-- A `long double` of any precision. -/
def exactLongDouble : LongDouble where
  carrier := ℚ
  ofInteger n := n
  toInteger x := ⌊x⌋₊
  mul x y := x * y
  div x y := x / y
  le x y := decide (x ≤ y)
  lt x y := decide (x < y)
  ne x y := decide (x ≠ y)
  printf precision x :=
    let m := Direction.nearest.round (x * 10 ^ precision)
    if precision = 0 then decimal m
    else decimal (m / 10 ^ precision) ++ byte '.' :: decimal (m % 10 ^ precision)

/-- 10 units are 3 of the four times larger ones. -/
theorem printsRounded_ten : PrintsRounded 0 cLocale exactLongDouble 10 1 4 :=
  (printsRounded_iff 0 cLocale exactLongDouble 10 1 4 (by decide) (by decide) (by decide) (by decide) (.inr (by decide))).mpr
    fun h => absurd h.2.1 (by decide)

/-- Of `2 ^ 63` in units of `2 ^ 64 - 1`, more than a half, nothing is left. -/
theorem not_printsRounded_half :
    ¬PrintsRounded humanRoundToNearest cLocale exactLongDouble 9223372036854775808 1 18446744073709551615 := by
  intro h
  have hprinted : humanReadable humanRoundToNearest cLocale exactLongDouble 9223372036854775808 1 18446744073709551615 =
      decimal 0 := by decide +kernel
  have hrounded : (direction humanRoundToNearest).round
      (((9223372036854775808 : UInt64).toNat * (1 : UInt64).toNat : ℚ) / (18446744073709551615 : UInt64).toNat) = 1 := by
    rw [← Nat.cast_mul, Direction.round_div _ _ (by decide)]
    decide +kernel
  rw [PrintsRounded, hprinted, hrounded] at h
  exact absurd h (by decide +kernel)

end CodingExercises.Coreutils
