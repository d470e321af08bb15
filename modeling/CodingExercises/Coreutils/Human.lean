import CodingExercises.Lib.Rounding
import CodingExercises.Coreutils.Xalloc
import CodingExercises.Coreutils.ModeChange

/-!
# coreutils: readable numbers

`human_readable` of `lib/human.c`. What it writes is split at `psuffix`: the number is written from there to the left, the suffix to
the right. `long double` and the locale are parameters.
-/

namespace CodingExercises.Coreutils

open Lib

/-! ## The options -/

/-- `human_round_to_nearest`. -/
def humanRoundToNearest : UInt32 := 1
/-- `human_floor`. -/
def humanFloor : UInt32 := 2
/-- `human_ceiling`. -/
def humanCeiling : UInt32 := 0
/-- `human_group_digits`. -/
def humanGroupDigits : UInt32 := 4
/-- `human_suppress_point_zero`. -/
def humanSuppressPointZero : UInt32 := 8
/-- `human_autoscale`. -/
def humanAutoscale : UInt32 := 16
/-- `human_base_1024`. -/
def humanBase1024 : UInt32 := 32
/-- `human_space_before_unit`. -/
def humanSpaceBeforeUnit : UInt32 := 64
/-- `human_SI`. -/
def humanSI : UInt32 := 128
/-- `human_B`. -/
def humanB : UInt32 := 256

variable (opts : UInt32)

/-- `opts & option`. -/
def Chosen (option : UInt32) : Prop := opts &&& option ≠ 0

instance (option : UInt32) : Decidable (Chosen opts option) := inferInstanceAs (Decidable (_ ≠ _))

/-- `inexact_style`. -/
def inexactStyle : UInt32 := opts &&& (humanRoundToNearest ||| humanFloor ||| humanCeiling)

/-- `base`. -/
def humanBase : ℕ := if Chosen opts humanBase1024 then 1024 else 1000

/-- `exponent_max`. -/
def exponentMax : ℕ := 8

/-- `power_letter`. -/
def powerLetter (exponent : ℕ) : Byte :=
  ([0, byte 'K', byte 'M', byte 'G', byte 'T', byte 'P', byte 'E', byte 'Z', byte 'Y'] : List Byte).getD exponent 0

/-- What is used of the locale. -/
structure Locale where
  decimalPoint : List Byte
  thousandsSep : List Byte
  grouping : List Byte

/-- `MB_LEN_MAX`. -/
def mbLenMax : ℕ := 16

/-- `CHAR_MAX`. -/
def charMax : Byte := 127

variable (locale : Locale)

/-- `decimal_point`. -/
def Locale.point : List Byte :=
  if 0 < locale.decimalPoint.length ∧ locale.decimalPoint.length ≤ mbLenMax then locale.decimalPoint else [byte '.']

/-- `thousands_sep`. -/
def Locale.separator : List Byte := if locale.thousandsSep.length ≤ mbLenMax then locale.thousandsSep else []

/-- What is used of `long double`: an integer as such a number, what a number is as an integer, and `printf` with some digits
behind the point. -/
structure LongDouble where
  carrier : Type
  ofInteger : ℕ → carrier
  toInteger : carrier → ℕ
  mul : carrier → carrier → carrier
  div : carrier → carrier → carrier
  le : carrier → carrier → Bool
  lt : carrier → carrier → Bool
  ne : carrier → carrier → Bool
  printf : ℕ → carrier → List Byte

/-! ## The number -/

/-- `AMT`, `TENTHS` and `ROUNDING`. -/
structure Amount where
  amt : ℕ
  tenths : ℕ
  rounding : ℕ
  deriving DecidableEq

/-- The loop over the digits. -/
def decimalDigits : ℕ → ℕ → List Byte
  | 0, _ => []
  | fuel + 1, amt => (if amt / 10 = 0 then [] else decimalDigits fuel (amt / 10)) ++ [UInt8.ofNat (amt % 10 + 48)]

/-- `*--p = '0' + tenths`, and the decimal point before it. -/
def fraction (tenths : ℕ) : List Byte := locale.point ++ [UInt8.ofNat (48 + tenths)]

/-- The body of the loop that scales: the amount in units of the next power. -/
def scaleDown (base : ℕ) (s : Amount) : Amount :=
  let r10 := s.amt % base * 10 + s.tenths
  let r2 := r10 % base * 2 + s.rounding / 2
  { amt := s.amt / base
    tenths := r10 / base
    rounding := if r2 < base then if r2 + s.rounding ≠ 0 then 1 else 0 else 2 + if base < r2 + s.rounding then 1 else 0 }

/-- The loop that scales, with the exponent. -/
def autoscale (base : ℕ) : ℕ → Amount → ℕ → Amount × ℕ
  | 0, s, exponent => (s, exponent)
  | fuel + 1, s, exponent =>
    let s := scaleDown base s
    if base ≤ s.amt ∧ exponent + 1 < exponentMax then autoscale base fuel s (exponent + 1) else (s, exponent + 1)

/-- The test for rounding up to tenths. -/
def RoundsTenths (s : Amount) : Prop :=
  if inexactStyle opts = humanRoundToNearest then 2 < s.rounding + s.tenths % 2
  else inexactStyle opts = humanCeiling ∧ 0 < s.rounding

instance (s : Amount) : Decidable (RoundsTenths opts s) :=
  inferInstanceAs (Decidable (if inexactStyle opts = humanRoundToNearest then _ else _ ∧ _))

/-- The tenths are rounded up. -/
def roundTenths (s : Amount) : Amount :=
  if RoundsTenths opts s then
    if s.tenths + 1 = 10 then ⟨s.amt + 1, 0, 0⟩ else ⟨s.amt, s.tenths + 1, 0⟩
  else s

/-- What is written of an amount with an exponent: what is behind the integer, the amount that is left and the exponent. -/
def scaledAmount (s : Amount) : List Byte × Amount × ℕ :=
  let base := humanBase opts
  if base ≤ s.amt then
    let (s, exponent) := autoscale base exponentMax s 0
    if s.amt < 10 then
      let s := roundTenths opts s
      if s.amt < 10 ∧ (s.tenths ≠ 0 ∨ ¬Chosen opts humanSuppressPointZero) then
        (fraction locale s.tenths, ⟨s.amt, 0, 0⟩, exponent)
      else ([], s, exponent)
    else ([], s, exponent)
  else ([], s, 0)

/-- The test for rounding up to an integer. -/
def RoundsAmount (s : Amount) : Prop :=
  if inexactStyle opts = humanRoundToNearest then 5 < s.tenths + if 0 < s.rounding + s.amt % 2 then 1 else 0
  else inexactStyle opts = humanCeiling ∧ 0 < s.tenths + s.rounding

instance (s : Amount) : Decidable (RoundsAmount opts s) :=
  inferInstanceAs (Decidable (if inexactStyle opts = humanRoundToNearest then _ else _ ∧ _))

/-- The amount is rounded to an integer: what is behind the integer, the integer and the exponent, which is `-1` without
`human_autoscale`. -/
def roundAmount (text : List Byte) (s : Amount) (exponent : Option ℕ) : List Byte × ℕ × Option ℕ :=
  if RoundsAmount opts s then
    match exponent with
    | none => (text, s.amt + 1, none)
    | some e =>
      if s.amt + 1 = humanBase opts ∧ e < exponentMax then
        (if Chosen opts humanSuppressPointZero then text else fraction locale 0 ++ text, 1, some (e + 1))
      else (text, s.amt + 1, some e)
  else (text, s.amt, exponent)

/-- `use_integer_arithmetic`: the digits of the integer, what is behind them and the exponent. -/
def integerArithmetic (s : Amount) : List Byte × List Byte × Option ℕ :=
  let (text, amt, exponent) :=
    if Chosen opts humanAutoscale then
      let (text, s, exponent) := scaledAmount opts locale s
      roundAmount opts locale text s (some exponent)
    else roundAmount opts locale [] s none
  (decimalDigits 20 amt, text, exponent)

/-- `UINTMAX_MAX`. -/
def uintmaxMax : ℕ := 2 ^ 64 - 1

/-- `adjust_value`. -/
def adjustValue (fp : LongDouble) (inexactStyle : UInt32) (value : fp.carrier) : fp.carrier :=
  if inexactStyle ≠ humanRoundToNearest ∧ fp.lt value (fp.ofInteger uintmaxMax) then
    let u := fp.toInteger value
    fp.ofInteger ((u + if inexactStyle = humanCeiling ∧ fp.ne (fp.ofInteger u) value then 1 else 0) % 2 ^ 64)
  else value

/-- The loop of the fallback: `e` and the exponent. -/
def scaleFloating (fp : LongDouble) (base : ℕ) (damt : fp.carrier) : ℕ → fp.carrier → ℕ → fp.carrier × ℕ
  | 0, e, exponent => (e, exponent)
  | fuel + 1, e, exponent =>
    let e := fp.mul e (fp.ofInteger base)
    if fp.le (fp.mul e (fp.ofInteger base)) damt ∧ exponent + 1 < exponentMax then
      scaleFloating fp base damt fuel e (exponent + 1)
    else (e, exponent + 1)

/-- The fallback on floating point: the digits of the integer, what is behind them and the exponent. -/
def floatingPoint (fp : LongDouble) (n fromBlockSize toBlockSize : UInt64) : List Byte × List Byte × Option ℕ :=
  let style := inexactStyle opts
  let damt := fp.mul (fp.ofInteger n.toNat) (fp.div (fp.ofInteger fromBlockSize.toNat) (fp.ofInteger toBlockSize.toNat))
  if Chosen opts humanAutoscale then
    let (e, exponent) := scaleFloating fp (humanBase opts) damt exponentMax (fp.ofInteger 1) 0
    let damt := fp.div damt e
    let buf := fp.printf 1 (adjustValue fp style damt)
    let nonintegerlen := locale.point.length + 1
    if 1 + nonintegerlen + (if Chosen opts humanBase1024 then 0 else 1) < buf.length ∨
        Chosen opts humanSuppressPointZero ∧ buf.getLast? = some (byte '0') then
      (fp.printf 0 (fp.div (adjustValue fp style (fp.mul damt (fp.ofInteger 10))) (fp.ofInteger 10)), [], some exponent)
    else (buf.take (buf.length - nonintegerlen), buf.drop (buf.length - nonintegerlen), some exponent)
  else (fp.printf 0 (adjustValue fp style damt), [], none)

/-- The amount in units of `to_block_size`, if integers do. -/
def adjustedAmount (n fromBlockSize toBlockSize : UInt64) : Option Amount :=
  if toBlockSize ≤ fromBlockSize then
    if fromBlockSize % toBlockSize = 0 then
      let multiplier := fromBlockSize / toBlockSize
      let amt := n * multiplier
      if amt / multiplier = n then some ⟨amt.toNat, 0, 0⟩ else none
    else none
  else if fromBlockSize ≠ 0 ∧ toBlockSize % fromBlockSize = 0 then
    let divisor := toBlockSize / fromBlockSize
    let r10 := n % divisor * 10
    let r2 := r10 % divisor * 2
    some {
      amt := (n / divisor).toNat
      tenths := (r10 / divisor).toNat
      rounding := if r2 < divisor then if 0 < r2 then 1 else 0 else 2 + if divisor < r2 then 1 else 0 }
  else none

/-- The loop of `group_number`, from the last digit on. -/
def groupNumber (thousandsSep : List Byte) : ℕ → List Byte → List Byte → ℕ → List Byte
  | 0, _, number, _ => number
  | fuel + 1, grouping, number, grouplen =>
    let i := number.length
    let g := grouping.headD 0
    let grouplen := if g ≠ 0 then if g < charMax then g.toNat else i else grouplen
    let grouping := if g ≠ 0 then grouping.tail else grouping
    let grouplen := if i < grouplen then i else grouplen
    if i - grouplen = 0 then number
    else groupNumber thousandsSep fuel grouping (number.take (i - grouplen)) grouplen ++
      (thousandsSep ++ number.drop (i - grouplen))

/-- The loop that finds the exponent of `to_block_size`. -/
def blockExponent (base toBlockSize : UInt64) : ℕ → UInt64 → ℕ → ℕ
  | 0, _, exponent => exponent
  | fuel + 1, power, exponent =>
    if power < toBlockSize then
      if exponent + 1 = exponentMax then exponent + 1 else blockExponent base toBlockSize fuel (power * base) (exponent + 1)
    else exponent

/-- The suffix. -/
def humanSuffix (toBlockSize : UInt64) (exponent : Option ℕ) : List Byte :=
  if Chosen opts humanSI then
    let exponent := exponent.getD (blockExponent (UInt64.ofNat (humanBase opts)) toBlockSize exponentMax 1 0)
    (if (exponent ≠ 0 ∨ Chosen opts humanB) ∧ Chosen opts humanSpaceBeforeUnit then [byte ' '] else []) ++
      (if exponent ≠ 0 then
        [if ¬Chosen opts humanBase1024 ∧ exponent = 1 then byte 'k' else powerLetter exponent] else []) ++
      if Chosen opts humanB then (if Chosen opts humanBase1024 ∧ exponent ≠ 0 then [byte 'i'] else []) ++ [byte 'B'] else []
  else []

/-- `human_readable`: the string at the pointer that it returns. -/
def humanReadable (fp : LongDouble) (n : UInt64) (fromBlockSize toBlockSize : UInt64) : List Byte :=
  let (integer, noninteger, exponent) :=
    match adjustedAmount n fromBlockSize toBlockSize with
    | some s => integerArithmetic opts locale s
    | none => floatingPoint opts locale fp n fromBlockSize toBlockSize
  (if Chosen opts humanGroupDigits then
    groupNumber locale.separator (integer.length + 1) locale.grouping integer sizeMax else integer) ++
      noninteger ++ humanSuffix opts toBlockSize exponent

end CodingExercises.Coreutils
