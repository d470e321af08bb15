import CodingExercises.Coreutils.HumanRounding
import Mathlib.Data.Nat.Log

/-!
# coreutils: readable numbers with a scale

What `human_readable` prints with `human_autoscale`, against the exact quotient by a power of the base.

- `scaleDown_exact`: the loop keeps `amt`, `tenths` and `rounding` exact, since the base is even;
- `integerArithmetic_scaled`: what is left is rounded to tenths or to an integer, as it should be;
- `humanReadable_autoscale`: and so is what is printed, which is below the base.
-/

namespace CodingExercises.Coreutils

open Lib

/-! ## What is expected -/

/-- A number with or without a tenth, and its unit: the exponent of the base. -/
structure Shown where
  integer : ℕ
  tenth : Option ℕ
  unit : ℕ

variable (opts : UInt32) (locale : Locale)

/-- What is printed behind the integer. -/
def Shown.noninteger (s : Shown) : List Byte :=
  match s.tenth with
  | none => []
  | some t => fraction locale t

/-- The amount. -/
def Shown.amount (s : Shown) : ℚ := s.integer + s.tenth.getD 0 / 10

/-- What is shown of `v` behind `e` divisions by the base: a number below 10 with its tenths, else an integer, which makes `1` of
the next unit if it is the base. -/
def shown (v e : ℕ) : Shown :=
  let tenths := (direction opts).round ((10 * v : ℕ) / (humanBase opts ^ e : ℕ) : ℚ)
  let integer := (direction opts).round (v / (humanBase opts ^ e : ℕ) : ℚ)
  if 0 < e ∧ tenths < 100 then
    ⟨tenths / 10, if Chosen opts humanSuppressPointZero ∧ tenths % 10 = 0 then none else some (tenths % 10), e⟩
  else if integer = humanBase opts ∧ e < exponentMax then ⟨1, if Chosen opts humanSuppressPointZero then none else some 0, e + 1⟩
  else ⟨integer, none, e⟩

/-- How often the number is divided by the base. Where there are no units, the fallback does it once. -/
def scaleExponent (n fromBlockSize : UInt64) : ℕ :=
  if fromBlockSize = 0 then 1 else Nat.log (humanBase opts) (n.toNat * fromBlockSize.toNat)

/-- What is relied on of `long double`: small integers are exact, and zero is zero. -/
structure LongDouble.Exact (fp : LongDouble) (locale : Locale) : Prop where
  mul_ofInteger : ∀ a b, a * b ≤ 2 ^ 24 → fp.mul (fp.ofInteger a) (fp.ofInteger b) = fp.ofInteger (a * b)
  zero_div : ∀ k, 0 < k → fp.div (fp.ofInteger 0) (fp.ofInteger k) = fp.ofInteger 0
  le_ofInteger : ∀ a b, a ≤ 2 ^ 24 → b ≤ 2 ^ 24 → fp.le (fp.ofInteger a) (fp.ofInteger b) = decide (a ≤ b)
  toInteger_zero : fp.toInteger (fp.ofInteger 0) = 0
  ne_zero : fp.ne (fp.ofInteger 0) (fp.ofInteger 0) = false
  printf_zero : fp.printf 0 (fp.ofInteger 0) = [byte '0']
  printf_one : fp.printf 1 (fp.ofInteger 0) = byte '0' :: (locale.point ++ [byte '0'])

/-! ## The loop -/

variable {opts locale} {v d base : ℕ}

theorem exactAmount_amt : (exactAmount v d).amt = v / d := rfl

/-- The integer and the tenth of a quotient are the quotient of ten times as much. -/
theorem exactAmount_tenths (hd : 0 < d) : 10 * (exactAmount v d).amt + (exactAmount v d).tenths = 10 * v / d ∧
    (exactAmount v d).rounding = place (10 * v % d) d := by
  have hsplit : 10 * v = 10 * (v % d) + d * (10 * (v / d)) := by
    have := Nat.div_add_mod v d
    have : d * (10 * (v / d)) = 10 * (d * (v / d)) := Nat.mul_left_comm _ _ _
    omega
  rw [hsplit, Nat.add_mul_div_left _ _ hd, Nat.add_mul_mod_self_left, Nat.add_comm]
  exact ⟨rfl, rfl⟩

theorem exactAmount_tenths_lt (hd : 0 < d) : (exactAmount v d).tenths < 10 :=
  Nat.div_lt_of_lt_mul (by have := Nat.mod_lt v hd; omega)

/-- Dividing by the base keeps the amount exact. -/
theorem scaleDown_exact (heven : base % 2 = 0) (hd : 0 < d) :
    scaleDown base (exactAmount v d) = exactAmount v (d * base) := by
  have hmod : v % (d * base) = v % d + d * (v / d % base) := Nat.mod_mul
  have htenths : 10 * (v % (d * base)) = 10 * (v % d) + d * (v / d % base * 10) := by
    rw [hmod, Nat.mul_add, Nat.mul_left_comm, Nat.mul_comm 10 (_ % base)]
  have hr10 : 10 * (v % (d * base)) / d = v / d % base * 10 + 10 * (v % d) / d := by
    rw [htenths, Nat.add_mul_div_left _ _ hd, Nat.add_comm]
  have hlast : 10 * (v % (d * base)) % d = 10 * (v % d) % d := by
    rw [htenths, Nat.add_mul_mod_self_left]
  have hrest : 10 * (v % (d * base)) % (d * base) =
      (v / d % base * 10 + 10 * (v % d) / d) % base * d + 10 * (v % d) % d := by
    rw [Nat.mod_mul, hr10, hlast, Nat.add_comm, Nat.mul_comm d]
  unfold scaleDown exactAmount
  dsimp only
  rw [hrest, Nat.mul_comm d base, place_mul_add heven (Nat.mod_lt _ hd), Nat.mul_comm base d, ← Nat.div_div_eq_div_mul,
    ← Nat.div_div_eq_div_mul, hr10, Nat.mul_comm 2]
  refine congrArg (Amount.mk _ _) ?_
  split_ifs <;> rfl

/-- The loop divides as often as the base is in the amount. -/
theorem autoscale_exact {fuel e : ℕ} (heven : base % 2 = 0) (hbase : 1 < base) (he : e < Nat.log base v)
    (hfuel : Nat.log base v ≤ e + fuel) (hmax : Nat.log base v ≤ exponentMax) :
    autoscale base fuel (exactAmount v (base ^ e)) e = (exactAmount v (base ^ Nat.log base v), Nat.log base v) := by
  induction fuel generalizing e with
  | zero => omega
  | succ fuel ih =>
    have hscale : scaleDown base (exactAmount v (base ^ e)) = exactAmount v (base ^ (e + 1)) :=
      scaleDown_exact heven (Nat.pow_pos (by omega))
    have hagain : base ≤ v / base ^ (e + 1) ↔ e + 1 < Nat.log base v := by
      rw [Nat.le_div_iff_mul_le (Nat.pow_pos (by omega)), ← Nat.pow_succ', Nat.lt_iff_add_one_le]
      exact (Nat.le_log_iff_pow_le hbase (by rintro rfl; simp at he)).symm
    simp only [autoscale, hscale, exactAmount_amt, hagain]
    by_cases hlt : e + 1 < Nat.log base v
    · rw [if_pos ⟨hlt, by omega⟩]
      exact ih hlt (by omega)
    · rw [if_neg fun h => hlt h.1, show e + 1 = Nat.log base v by omega]

/-! ## The tenths -/

theorem roundsTenths_iff (s : Amount) : RoundsTenths opts s ↔
    match direction opts with
    | .ceiling => 0 < s.rounding
    | .floor => False
    | .nearest => 2 < s.rounding + s.tenths % 2 := style_iff

/-- A quotient is rounded up to tenths as it should be. -/
theorem roundsTenths_exact (opts : UInt32) (v : ℕ) (hd : 0 < d) :
    RoundsTenths opts (exactAmount v d) ↔ (direction opts).RoundsUp (10 * v / d) (10 * v % d) d := by
  obtain ⟨htenths, hrounding⟩ := exactAmount_tenths (v := v) hd
  have heven : 10 * v / d % 2 = (exactAmount v d).tenths % 2 := by omega
  rw [roundsTenths_iff, (direction opts).roundsUp_iff_place hd, heven]
  cases direction opts <;> simp only [hrounding]

/-- What was not rounded up to tenths, and has none, is not rounded up to an integer. -/
theorem not_roundsAmount {s : Amount} (hzero : s.tenths = 0) (h : ¬RoundsTenths opts s) : ¬RoundsAmount opts s := by
  rw [roundsTenths_iff] at h
  rw [roundsAmount_iff, hzero]
  cases hdir : direction opts with
  | ceiling =>
    rw [hdir] at h
    rwa [Nat.zero_add]
  | floor => exact id
  | nearest =>
    show ¬5 < 0 + if 0 < s.rounding + s.amt % 2 then 1 else 0
    split_ifs <;> omega

theorem not_roundsAmount_integer (amt : ℕ) : ¬RoundsAmount opts ⟨amt, 0, 0⟩ := by
  refine not_roundsAmount rfl ?_
  rw [roundsTenths_iff]
  cases direction opts with
  | ceiling => exact Nat.lt_irrefl 0
  | floor => exact id
  | nearest => exact (by decide : ¬2 < 0 + 0 % 2)

/-- What is left behind the rounding to tenths: their number is right, and they are not rounded again. -/
theorem roundTenths_exact (opts : UInt32) (v : ℕ) (hd : 0 < d) :
    10 * (roundTenths opts (exactAmount v d)).amt + (roundTenths opts (exactAmount v d)).tenths =
        (direction opts).round ((10 * v : ℕ) / d : ℚ) ∧
      (roundTenths opts (exactAmount v d)).tenths < 10 ∧
      ((roundTenths opts (exactAmount v d)).tenths = 0 → ¬RoundsAmount opts (roundTenths opts (exactAmount v d))) := by
  have htenths := (exactAmount_tenths (v := v) hd).1
  have hlt := exactAmount_tenths_lt (v := v) hd
  have hup := roundsTenths_exact opts v hd
  rw [Direction.round_div _ _ hd, ← if_congr hup rfl rfl, ← htenths]
  unfold roundTenths
  generalize exactAmount v d = s at *
  by_cases h : RoundsTenths opts s
  · rw [if_pos h, if_pos h]
    by_cases hten : s.tenths + 1 = 10
    · rw [if_pos hten]
      exact ⟨by dsimp only; omega, show 0 < 10 by decide, fun _ => not_roundsAmount_integer _⟩
    · rw [if_neg hten]
      exact ⟨by dsimp only; omega, by dsimp only; omega, fun hzero => absurd hzero (Nat.succ_ne_zero _)⟩
  · rw [if_neg h, if_neg h]
    exact ⟨rfl, hlt, fun hzero => not_roundsAmount hzero h⟩

/-! ## The integer arithmetic -/

theorem roundAmount_of_not {s : Amount} (text : List Byte) (exponent : Option ℕ) (h : ¬RoundsAmount opts s) :
    roundAmount opts locale text s exponent = (text, s.amt, exponent) := if_neg h

/-- The exact amount, rounded to an integer. -/
theorem roundAmount_exact (opts : UInt32) (locale : Locale) {e : ℕ} (hd : 0 < d) (hlt : v / d < humanBase opts) :
    let integer := (direction opts).round (v / d : ℚ)
    roundAmount opts locale [] (exactAmount v d) (some e) =
      if integer = humanBase opts ∧ e < exponentMax then
        (if Chosen opts humanSuppressPointZero then [] else fraction locale 0, 1, some (e + 1))
      else ([], integer, some e) := by
  dsimp only
  rw [Direction.round_div _ _ hd, ← if_congr (roundsAmount_exact opts v hd) rfl rfl]
  by_cases h : RoundsAmount opts (exactAmount v d)
  · rw [if_pos h, roundAmount, if_pos h, List.append_nil]
    rfl
  · rw [if_neg h, roundAmount_of_not _ _ h, Nat.add_zero, if_neg fun hbase => Nat.ne_of_lt hlt hbase.1]
    rfl

/-- What is left when the tenths make up 10 is 10. -/
theorem round_of_ten (opts : UInt32) (hd : 0 < d) (hlt : v / d < 10) (hten : 100 ≤ (direction opts).round ((10 * v : ℕ) / d : ℚ)) :
    (direction opts).round (v / d : ℚ) = 10 := by
  have hamt : (exactAmount v d).amt = v / d := rfl
  have htenths := (exactAmount_tenths (v := v) hd).1
  have hlast := exactAmount_tenths_lt (v := v) hd
  have hup := roundsTenths_exact opts v hd
  have hround := roundsAmount_exact opts v hd
  rw [Direction.round_div _ _ hd, ← if_congr hup rfl rfl] at hten
  rw [Direction.round_div _ _ hd, ← if_congr hround rfl rfl]
  by_cases h : RoundsTenths opts (exactAmount v d)
  · rw [if_pos h] at hten
    have hrounds : RoundsAmount opts (exactAmount v d) := by
      rw [roundsTenths_iff] at h
      rw [roundsAmount_iff]
      cases hdir : direction opts with
      | ceiling => exact Nat.add_pos_left (by omega) _
      | floor => rwa [hdir] at h
      | nearest => exact Nat.lt_add_right _ (by omega)
    rw [if_pos hrounds]
    omega
  · rw [if_neg h] at hten
    omega

theorem humanBase_cases (opts : UInt32) : humanBase opts = 1000 ∨ humanBase opts = 1024 := by
  unfold humanBase
  split
  · exact .inr rfl
  · exact .inl rfl

theorem log_le (opts : UInt32) (hv : v < 2 ^ 64) : Nat.log (humanBase opts) v ≤ 6 := by
  by_cases hzero : v = 0
  · rw [hzero, Nat.log_zero_right]
    exact Nat.zero_le 6
  · refine Nat.le_of_lt_succ (Nat.log_lt_of_lt_pow hzero ?_)
    obtain h | h := humanBase_cases opts <;> rw [h] <;> omega

/-- The scaled amount, by its last quotient. -/
theorem scaledAmount_eq (opts : UInt32) (locale : Locale) (hv : v < 2 ^ 64) :
    let e := Nat.log (humanBase opts) v
    let s := exactAmount v (humanBase opts ^ e)
    scaledAmount opts locale (exactAmount v 1) =
      if 0 < e ∧ s.amt < 10 then
        if (roundTenths opts s).amt < 10 ∧ ((roundTenths opts s).tenths ≠ 0 ∨ ¬Chosen opts humanSuppressPointZero) then
          (fraction locale (roundTenths opts s).tenths, ⟨(roundTenths opts s).amt, 0, 0⟩, e)
        else ([], roundTenths opts s, e)
      else ([], s, e) := by
  have hlog := log_le opts hv
  have hbase : 1 < humanBase opts ∧ humanBase opts % 2 = 0 := by
    obtain h | h := humanBase_cases opts <;> rw [h] <;> decide
  dsimp only
  rw [scaledAmount, exactAmount_amt, Nat.div_one]
  by_cases hle : humanBase opts ≤ v
  · have hpos : 0 < Nat.log (humanBase opts) v := Nat.log_pos hbase.1 hle
    have hloop := @autoscale_exact v _ exponentMax 0 hbase.2 hbase.1 hpos (by rw [exponentMax]; omega)
      (by rw [exponentMax]; omega)
    rw [Nat.pow_zero] at hloop
    rw [if_pos hle, hloop]
    dsimp only
    by_cases hten : (exactAmount v (humanBase opts ^ Nat.log (humanBase opts) v)).amt < 10
    · have hboth := And.intro hpos hten
      rw [if_pos hten, if_pos hboth]
    · rw [if_neg hten, if_neg fun h => hten h.2]
  · rw [if_neg hle, Nat.log_of_lt (Nat.not_le.mp hle), if_neg fun h => Nat.lt_irrefl 0 h.1, Nat.pow_zero]

/-- The amount is shown as it should be. -/
theorem integerArithmetic_scaled (hscale : Chosen opts humanAutoscale) (hv : v < 2 ^ 64) :
    let s := shown opts v (Nat.log (humanBase opts) v)
    integerArithmetic opts locale (exactAmount v 1) = (decimal s.integer, s.noninteger locale, some s.unit) := by
  have hbase := humanBase_cases opts
  have hd : 0 < humanBase opts ^ Nat.log (humanBase opts) v := Nat.pow_pos (by omega)
  have hlt : v / humanBase opts ^ Nat.log (humanBase opts) v < humanBase opts := by
    refine Nat.div_lt_of_lt_mul ?_
    rw [← Nat.pow_succ]
    exact Nat.lt_pow_succ_log_self (by omega) v
  dsimp only
  rw [integerArithmetic, if_pos hscale, scaledAmount_eq opts locale hv]
  unfold shown
  generalize Nat.log (humanBase opts) v = e at *
  generalize humanBase opts ^ e = d at *
  obtain ⟨htenths, hlast, hnot⟩ := roundTenths_exact opts v hd
  have hten := @round_of_ten v _ opts hd
  have hround : 10 * (v / d) ≤ (direction opts).round ((10 * v : ℕ) / d : ℚ) ∧
      (direction opts).round ((10 * v : ℕ) / d : ℚ) ≤ 10 * (v / d) + 10 := by
    have hsplit := (exactAmount_tenths (v := v) hd).1
    have hdigit := exactAmount_tenths_lt (v := v) hd
    rw [exactAmount_amt] at hsplit
    rw [Direction.round_div _ _ hd]
    split <;> omega
  have hup : (direction opts).round (v / d : ℚ) ≤ v / d + 1 := by
    rw [Direction.round_div _ _ hd]
    split <;> omega
  have hexact := roundAmount_exact opts locale (e := e) hd hlt
  dsimp only at hexact ⊢
  rw [exactAmount_amt]
  generalize (direction opts).round ((10 * v : ℕ) / d : ℚ) = t at *
  generalize (direction opts).round (v / d : ℚ) = integer at *
  by_cases hsmall : 0 < e ∧ v / d < 10
  · rw [if_pos hsmall]
    by_cases hbelow : t < 100
    · have hamt : (roundTenths opts (exactAmount v d)).amt = t / 10 := by omega
      have htenth : (roundTenths opts (exactAmount v d)).tenths = t % 10 := by omega
      rw [if_pos (show 0 < e ∧ t < 100 from ⟨hsmall.1, hbelow⟩)]
      by_cases hsuppress : Chosen opts humanSuppressPointZero ∧ t % 10 = 0
      · rw [if_neg fun h => h.2.elim (fun hne => hne (htenth.trans hsuppress.2)) fun hno => hno hsuppress.1,
          if_pos hsuppress]
        dsimp only
        rw [roundAmount_of_not _ _ (hnot (htenth.trans hsuppress.2)), hamt, decimalDigits_eq (by decide) (show t / 10 < 10 ^ 20 by omega)]
        rfl
      · have hfraction : (roundTenths opts (exactAmount v d)).amt < 10 ∧
            ((roundTenths opts (exactAmount v d)).tenths ≠ 0 ∨ ¬Chosen opts humanSuppressPointZero) := by
          refine ⟨by omega, ?_⟩
          rw [htenth]
          exact (not_and_or.mp hsuppress).symm
        rw [if_pos hfraction, if_neg hsuppress]
        dsimp only
        rw [roundAmount_of_not _ _ (not_roundsAmount_integer _), hamt, htenth, decimalDigits_eq (by decide) (show t / 10 < 10 ^ 20 by omega)]
        rfl
    · have hinteger := hten hsmall.2 (Nat.not_lt.mp hbelow)
      have hzero : (roundTenths opts (exactAmount v d)).tenths = 0 := by omega
      have hamt : (roundTenths opts (exactAmount v d)).amt = 10 := by omega
      have hfraction : ¬((roundTenths opts (exactAmount v d)).amt < 10 ∧
          ((roundTenths opts (exactAmount v d)).tenths ≠ 0 ∨ ¬Chosen opts humanSuppressPointZero)) := fun h => by omega
      have hlarge : ¬(0 < e ∧ t < 100) := fun h => hbelow h.2
      have hnext : ¬(integer = humanBase opts ∧ e < exponentMax) := fun h => by omega
      rw [if_neg hfraction, if_neg hlarge, if_neg hnext]
      dsimp only
      rw [roundAmount_of_not _ _ (hnot hzero), hamt, hinteger]
      dsimp only
      rw [decimalDigits_eq (by decide) (show 10 < 10 ^ 20 by decide)]
      rfl
  · have hlarge : ¬(0 < e ∧ t < 100) := by omega
    rw [if_neg hsmall, if_neg hlarge]
    dsimp only
    rw [hexact]
    by_cases hnext : integer = humanBase opts ∧ e < exponentMax
    · rw [if_pos hnext, if_pos hnext]
      dsimp only
      rw [decimalDigits_eq (by decide) (show 1 < 10 ^ 20 by decide)]
      by_cases hsuppress : Chosen opts humanSuppressPointZero
      · rw [if_pos hsuppress, if_pos hsuppress]
        rfl
      · rw [if_neg hsuppress, if_neg hsuppress]
        rfl
    · rw [if_neg hnext, if_neg hnext]
      dsimp only
      rw [decimalDigits_eq (by decide) (show integer < 10 ^ 20 by omega)]
      rfl

/-! ## No units -/

variable {fp : LongDouble}

theorem adjustValue_zero (hfp : fp.Exact locale) (style : UInt32) :
    adjustValue fp style (fp.ofInteger 0) = fp.ofInteger 0 := by
  unfold adjustValue
  dsimp only
  rw [hfp.toInteger_zero, hfp.ne_zero, if_neg (show ¬(style = humanCeiling ∧ false = true) from fun h => by cases h.2)]
  split <;> rfl

theorem scaleFloating_zero (hfp : fp.Exact locale) (opts : UInt32) (fuel : ℕ) :
    scaleFloating fp (humanBase opts) (fp.ofInteger 0) (fuel + 1) (fp.ofInteger 1) 0 =
      (fp.ofInteger (humanBase opts), 1) := by
  have hbase : 1 ≤ humanBase opts ∧ humanBase opts ≤ 2 ^ 12 ∧ humanBase opts * humanBase opts ≤ 2 ^ 24 := by
    obtain h | h := humanBase_cases opts <;> rw [h] <;> decide
  have hle : fp.le (fp.ofInteger (humanBase opts * humanBase opts)) (fp.ofInteger 0) = false := by
    rw [hfp.le_ofInteger _ _ hbase.2.2 (by decide), decide_eq_false]
    exact Nat.not_le.mpr (Nat.mul_pos hbase.1 hbase.1)
  rw [scaleFloating, hfp.mul_ofInteger 1 _ (by omega), Nat.one_mul, hfp.mul_ofInteger _ _ hbase.2.2, hle, if_neg fun h => by cases h.1]

/-- The fallback on zero. -/
theorem floatingPoint_zero (hfp : fp.Exact locale) (hscale : Chosen opts humanAutoscale) (n : UInt64) :
    ∃ integer noninteger, floatingPoint opts locale fp n 0 1 = (integer, noninteger, some 1) ∧
      integer ++ noninteger =
        decimal 0 ++ if Chosen opts humanSuppressPointZero then [] else fraction locale 0 := by
  have hdamt : fp.mul (fp.ofInteger n.toNat) (fp.div (fp.ofInteger (0 : UInt64).toNat) (fp.ofInteger (1 : UInt64).toNat)) =
      fp.ofInteger 0 := by
    rw [show (0 : UInt64).toNat = 0 from rfl, hfp.zero_div _ (by decide), hfp.mul_ofInteger _ _ (by omega), Nat.mul_zero]
  have hzero : fp.div (fp.ofInteger 0) (fp.ofInteger (humanBase opts)) = fp.ofInteger 0 :=
    hfp.zero_div _ (by obtain h | h := humanBase_cases opts <;> omega)
  have hten : fp.mul (fp.ofInteger 0) (fp.ofInteger 10) = fp.ofInteger 0 := hfp.mul_ofInteger 0 10 (by decide)
  have hlast : (byte '0' :: (locale.point ++ [byte '0'])).getLast? = some (byte '0') := by
    rw [← List.cons_append, List.getLast?_append_of_ne_nil _ (List.cons_ne_nil _ _)]
    rfl
  have hshort : ¬1 + (locale.point.length + 1) + (if Chosen opts humanBase1024 then 0 else 1) <
      (byte '0' :: (locale.point ++ [byte '0'])).length := by
    simp only [List.length_cons, List.length_append, List.length_nil]
    omega
  unfold floatingPoint
  rw [if_pos hscale]
  dsimp only
  rw [hdamt, show exponentMax = 7 + 1 from rfl, scaleFloating_zero hfp]
  dsimp only
  rw [hzero, adjustValue_zero hfp, hfp.printf_one, hten, adjustValue_zero hfp, hfp.zero_div 10 (by decide), hfp.printf_zero]
  by_cases hsuppress : Chosen opts humanSuppressPointZero
  · rw [if_pos (.inr ⟨hsuppress, hlast⟩), if_pos hsuppress]
    exact ⟨_, _, rfl, rfl⟩
  · rw [if_neg (not_or.mpr ⟨hshort, fun h => hsuppress h.1⟩), if_neg hsuppress]
    exact ⟨_, _, rfl, List.take_append_drop _ _⟩

/-! ## What is shown -/

theorem round_of_dvd (dir : Direction) (hd : 0 < d) (hdvd : v % d = 0) : dir.round (v / d : ℚ) = v / d := by
  rw [Direction.round_div _ _ hd, hdvd, if_neg (dir.not_roundsUp_zero _ hd), Nat.add_zero]

/-- What is shown is less than the base. -/
theorem shown_amount_lt (opts : UInt32) {e : ℕ} (he : e < exponentMax) (hlt : v < humanBase opts ^ (e + 1)) :
    (shown opts v e).amount < humanBase opts := by
  have hbase := humanBase_cases opts
  have hd : 0 < humanBase opts ^ e := Nat.pow_pos (by omega)
  have hquotient : v / humanBase opts ^ e < humanBase opts := by
    refine Nat.div_lt_of_lt_mul ?_
    rwa [← Nat.pow_succ]
  have hup : (direction opts).round (v / (humanBase opts ^ e : ℕ) : ℚ) ≤ v / humanBase opts ^ e + 1 := by
    rw [Direction.round_div _ _ hd]
    split <;> omega
  have hthousand : (1000 : ℚ) ≤ humanBase opts := by
    exact_mod_cast (by omega : 1000 ≤ humanBase opts)
  unfold shown
  dsimp only
  generalize (direction opts).round ((10 * v : ℕ) / (humanBase opts ^ e : ℕ) : ℚ) = t at *
  generalize (direction opts).round (v / (humanBase opts ^ e : ℕ) : ℚ) = integer at *
  by_cases hsmall : 0 < e ∧ t < 100
  · rw [if_pos hsmall]
    have hinteger : ((t / 10 : ℕ) : ℚ) ≤ 9 := by exact_mod_cast (by omega : t / 10 ≤ 9)
    have htenth : ((t % 10 : ℕ) : ℚ) ≤ 9 := by exact_mod_cast (by omega : t % 10 ≤ 9)
    unfold Shown.amount
    dsimp only
    split
    · rw [Option.getD_none, Nat.cast_zero]
      linarith
    · rw [Option.getD_some]
      linarith
  · rw [if_neg hsmall]
    by_cases hnext : integer = humanBase opts ∧ e < exponentMax
    · rw [if_pos hnext]
      unfold Shown.amount
      dsimp only
      split <;> norm_num <;> omega
    · rw [if_neg hnext]
      unfold Shown.amount
      norm_num
      omega

/-- What is less than the base is shown exactly. -/
theorem shown_of_lt (opts : UInt32) (hlt : v < humanBase opts) : shown opts v 0 = ⟨v, none, 0⟩ := by
  unfold shown
  rw [Nat.pow_zero, round_of_dvd _ Nat.one_pos (Nat.mod_one v), Nat.div_one]
  dsimp only
  rw [if_neg fun h => Nat.lt_irrefl 0 h.1, if_neg fun h => Nat.ne_of_lt hlt h.1]

/-- Nothing, in the next unit. -/
theorem shown_zero (opts : UInt32) :
    shown opts 0 1 = ⟨0, if Chosen opts humanSuppressPointZero then none else some 0, 1⟩ := by
  have hd : 0 < humanBase opts ^ 1 := by
    obtain h | h := humanBase_cases opts <;> rw [h] <;> decide
  unfold shown
  rw [Nat.mul_zero, round_of_dvd _ hd (Nat.zero_mod _), Nat.zero_div]
  dsimp only
  rw [if_pos (by decide)]
  simp

/-- With a scale, the number is printed that should be: it is less than the base, and exact if there was nothing to scale. -/
theorem humanReadable_autoscale (opts : UInt32) (locale : Locale) (fp : LongDouble) (n fromBlockSize : UInt64)
    (hfp : fp.Exact locale) (hscale : Chosen opts humanAutoscale) (hgroup : ¬Chosen opts humanGroupDigits)
    (hfits : n.toNat * fromBlockSize.toNat ≤ uintmaxMax) :
    let s := shown opts (n.toNat * fromBlockSize.toNat) (scaleExponent opts n fromBlockSize)
    humanReadable opts locale fp n fromBlockSize 1 =
        decimal s.integer ++ s.noninteger locale ++ humanSuffix opts 1 (some s.unit) ∧
      s.amount < humanBase opts ∧
      (n.toNat * fromBlockSize.toNat < humanBase opts →
        s.amount * humanBase opts ^ s.unit = n.toNat * fromBlockSize.toNat) := by
  dsimp only
  by_cases hfrom : fromBlockSize = 0
  · subst hfrom
    obtain ⟨integer, noninteger, hfloating, htext⟩ := floatingPoint_zero hfp hscale n
    have hnone : adjustedAmount n 0 1 = none := by
      rw [adjustedAmount, if_neg (by decide), if_neg fun h => h.1 rfl]
    have hshown : shown opts (n.toNat * (0 : UInt64).toNat) (scaleExponent opts n 0) =
        ⟨0, if Chosen opts humanSuppressPointZero then none else some 0, 1⟩ := by
      rw [show n.toNat * (0 : UInt64).toNat = 0 from Nat.mul_zero _, scaleExponent, if_pos rfl, shown_zero]
    rw [hshown, humanReadable, hnone]
    dsimp only
    rw [hfloating]
    dsimp only
    rw [if_neg hgroup, htext]
    unfold Shown.noninteger Shown.amount
    have hbase : 0 < humanBase opts := by
      obtain h | h := humanBase_cases opts <;> omega
    by_cases hsuppress : Chosen opts humanSuppressPointZero
    · rw [if_pos hsuppress, if_pos hsuppress]
      exact ⟨rfl, by norm_num; exact hbase, fun _ => by norm_num⟩
    · rw [if_neg hsuppress, if_neg hsuppress]
      exact ⟨rfl, by norm_num; exact hbase, fun _ => by norm_num⟩
  · have hpos : 0 < fromBlockSize.toNat := Nat.pos_of_ne_zero fun h => hfrom (UInt64.toNat_inj.mp h)
    have hone : (1 : UInt64).toNat = 1 := rfl
    have hamount := @adjustedAmount_of_dvd n fromBlockSize 1 (by decide) hpos (Nat.one_dvd _)
      (by rwa [hone, Nat.div_one])
    have hexact : (⟨n.toNat * fromBlockSize.toNat, 0, 0⟩ : Amount) =
        exactAmount (n.toNat * fromBlockSize.toNat) 1 := by
      rw [exactAmount, Nat.div_one, Nat.mod_one, Nat.mul_zero, Nat.zero_div, Nat.zero_mod, place_zero (by decide)]
    have hv : n.toNat * fromBlockSize.toNat < 2 ^ 64 := by
      unfold uintmaxMax at hfits
      omega
    rw [hone, Nat.div_one, hexact] at hamount
    rw [humanReadable, hamount, scaleExponent, if_neg hfrom]
    dsimp only
    rw [integerArithmetic_scaled hscale hv]
    dsimp only
    rw [if_neg hgroup]
    refine ⟨rfl, shown_amount_lt opts ?_ ?_, fun hlt => ?_⟩
    · have := log_le opts hv
      rw [exponentMax]
      omega
    · exact Nat.lt_pow_succ_log_self (by obtain h | h := humanBase_cases opts <;> omega) _
    · rw [Nat.log_of_lt hlt, shown_of_lt opts hlt]
      unfold Shown.amount
      norm_num

theorem exactLongDouble_exact : exactLongDouble.Exact cLocale := by
  have hround : ∀ k : ℕ, Direction.nearest.round (((0 : ℕ) : ℚ) * 10 ^ k) = 0 := by
    intro k
    have hzero : ((0 : ℕ) : ℚ) * 10 ^ k = (0 : ℕ) / (1 : ℕ) := by norm_num
    rw [hzero, round_of_dvd _ Nat.one_pos (Nat.zero_mod 1)]
  constructor
  case mul_ofInteger =>
    intro a b _
    show (a : ℚ) * (b : ℚ) = ((a * b : ℕ) : ℚ)
    exact (Nat.cast_mul a b).symm
  case zero_div =>
    intro k _
    show ((0 : ℕ) : ℚ) / (k : ℚ) = ((0 : ℕ) : ℚ)
    rw [Nat.cast_zero, zero_div]
  case le_ofInteger => exact fun a b _ _ => decide_eq_decide.mpr Nat.cast_le
  case toInteger_zero => exact Nat.floor_natCast 0
  case ne_zero => exact decide_eq_false (not_not.mpr rfl : ¬((0 : ℕ) : ℚ) ≠ ((0 : ℕ) : ℚ))
  case printf_zero =>
    show decimal (Direction.nearest.round (((0 : ℕ) : ℚ) * 10 ^ 0)) = _
    rw [hround]
    decide
  case printf_one =>
    show decimal (Direction.nearest.round (((0 : ℕ) : ℚ) * 10 ^ 1) / 10 ^ 1) ++
      byte '.' :: decimal (Direction.nearest.round (((0 : ℕ) : ℚ) * 10 ^ 1) % 10 ^ 1) = _
    rw [hround]
    decide

/-- `1536` bytes are `1.5` KiB. -/
theorem humanReadable_autoscale_half :
    let opts := humanAutoscale ||| humanBase1024
    let s := shown opts (1536 * 1) (scaleExponent opts 1536 1)
    humanReadable opts cLocale exactLongDouble 1536 1 1 =
        decimal s.integer ++ s.noninteger cLocale ++ humanSuffix opts 1 (some s.unit) ∧
      s.amount < humanBase opts ∧ (1536 * 1 < humanBase opts → s.amount * humanBase opts ^ s.unit = 1536 * 1) :=
  humanReadable_autoscale (humanAutoscale ||| humanBase1024) cLocale exactLongDouble 1536 1 exactLongDouble_exact
    (by decide) (by decide) (by decide)

end CodingExercises.Coreutils
