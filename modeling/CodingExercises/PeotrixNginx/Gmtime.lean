import Mathlib.Data.Int.DivMod
import Mathlib.Tactic.NormNum
import CodingExercises.Lib.Calendar

/-!
# Peotrix on nginx: the date of a second

`ptrx_gmtime` of `core/ptrx_times.c`, with its arithmetic on `unsigned int` and `int` (`gmtime`). The source leaves out the
semicolon behind `leap = …`; it is read as there.

The computation is one on whole numbers (`gmtimeBy` with nothing done to the results), and for the seconds that fit into an
`unsigned int` no result of it is changed where the numbers wrap (`gmtime_isAt`).
-/

namespace CodingExercises.PeotrixNginx

open Lib

/-- The fields of `ptrx_tm_t` that are used. -/
@[ext]
structure Tm where
  sec : ℤ
  min : ℤ
  hour : ℤ
  mday : ℤ
  mon : ℤ
  year : ℤ
  wday : ℤ
deriving DecidableEq

/-- `unsigned int`. -/
def uint32 (x : ℤ) : ℤ := x % 2 ^ 32

/-- `int`. -/
def int32 (x : ℤ) : ℤ := x.bmod (2 ^ 32)

section

variable (u i : ℤ → ℤ)

/-- The repair of a `yday` that is negative, and of its year. -/
def adjustYday (yday year : ℤ) : ℤ × ℤ :=
  if yday < 0 then
    let leap := if year % 4 = 0 ∧ (year % 100 ≠ 0 ∨ year % 400 = 0) then 1 else 0
    (i (u (u (365 + leap) + u yday)), u (year - 1))
  else (yday, year)

/-- `yday` and `year` of a number of days since March 1, 1 BC. -/
def gmtimeYear (days : ℤ) : ℤ × ℤ :=
  let year := u (u (days + 2) * 400) / (365 * 400 + 100 - 4 + 1)
  adjustYday u i (i (u (days - u (u (u (u (365 * year) + year / 4) - year / 100) + year / 400)))) year

/-- `mon`, `mday` and `year`. -/
def gmtimeMonth (yday year : ℤ) : ℤ × ℤ × ℤ :=
  let mon := u ((i (i (yday + 31) * 10)).tdiv 306)
  let mday := u (u (u yday - u (u (367 * mon) / 12 - 30)) + 1)
  if 306 ≤ yday then (u (mon - 10), mday, u (year + 1)) else (u (mon + 2), mday, year)

/-- `ptrx_gmtime`, where `u` is done to every `unsigned int` that is computed and `i` to every `int`. -/
def gmtimeBy (t : ℤ) : Tm :=
  let n := u t
  let days := n / 86400
  let wday := u (4 + days) % 7
  let n := n % 86400
  let hour := n / 3600
  let n := n % 3600
  let min := n / 60
  let sec := n % 60
  let days := u (u (days - (31 + 28)) + 719527)
  let (yday, year) := gmtimeYear u i days
  let (mon, mday, year) := gmtimeMonth u i yday year
  ⟨i sec, i min, i hour, i mday, i mon, i year, i wday⟩

end

/-- `ptrx_gmtime`. -/
def gmtime : ℤ → Tm := gmtimeBy uint32 int32

example : gmtime 951782399 = ⟨59, 59, 23, 28, 2, 2000, 1⟩ := by decide

/-! ## The date and time of a second -/

/-- The date and time of day is that of `t` seconds after the epoch. -/
def Tm.IsAt (tm : Tm) (t : ℤ) : Prop :=
  ∃ d : Date, (d.dayNumber : ℤ) = epoch.dayNumber + t / 86400 ∧
    tm.year = d.year ∧ tm.mon = d.month ∧ tm.mday = d.day ∧ tm.wday = d.weekday ∧
    tm.hour = t % 86400 / 3600 ∧ tm.min = t % 3600 / 60 ∧ tm.sec = t % 60

/-! ## The computation on whole numbers -/

theorem cast_daysBeforeMarch (year : ℕ) :
    (365 * year + year / 4 - year / 100 + year / 400 : ℤ) = daysBeforeMarch year := by
  have hle : year / 100 ≤ 365 * year + year / 4 := by omega
  rw [daysBeforeMarch, Nat.cast_add, Nat.cast_sub hle]
  norm_cast

theorem cast_leapDays (year : ℕ) :
    (if (year : ℤ) % 4 = 0 ∧ ((year : ℤ) % 100 ≠ 0 ∨ (year : ℤ) % 400 = 0) then 1 else 0 : ℤ) = leapDays year := by
  rw [leapDays, Nat.cast_ite]
  norm_cast

/-- The formula of Gauss: the year is right, or it is one too great and `yday` is negative. -/
theorem gmtimeYear_id (days : ℕ) :
    ∃ year yday : ℕ, gmtimeYear id id days = (↑yday, ↑year) ∧ daysBeforeMarch year + yday = days ∧
      yday < 365 + leapDays (year + 1) := by
  obtain ⟨year, hyear⟩ : ∃ year, year = (days + 2) * 400 / 146097 := ⟨_, rfl⟩
  have hfirst : ((days + 2 : ℤ) * 400 / (365 * 400 + 100 - 4 + 1)) = year := by omega
  obtain ⟨hlo, hhi⟩ := daysBeforeMarch_bounds year
  simp only [gmtimeYear, adjustYday, id, hfirst, cast_daysBeforeMarch, cast_leapDays]
  by_cases hneg : (days - daysBeforeMarch year : ℤ) < 0
  · -- the last days of a February, or the first of a March
    obtain _ | prev := year
    · have hzero : daysBeforeMarch 0 = 0 := rfl
      omega
    · have hsucc := daysBeforeMarch_succ prev
      refine ⟨prev, days - daysBeforeMarch prev, ?_, by omega, by omega⟩
      rw [if_pos hneg, Prod.mk.injEq]
      omega
  · have hyday : days - daysBeforeMarch year < 365 := by omega
    refine ⟨year, days - daysBeforeMarch year, ?_, by omega, by omega⟩
    rw [if_neg hneg, Prod.mk.injEq]
    omega

/-- The formula that maps `yday` to the month. -/
theorem month_bounds {m yday : ℕ} (hlo : 306 * (m + 1) ≤ (yday + 31) * 10) (hhi : (yday + 31) * 10 < 306 * (m + 2))
    (hm : m ≤ 11) : marchOffset m ≤ yday ∧ yday < marchOffset (m + 1) := by
  interval_cases m <;> simp only [marchOffset] <;> omega

theorem gmtimeMonth_id {year yday : ℕ} (hyday : yday < 365 + leapDays (year + 1)) :
    ∃ d : Date, gmtimeMonth id id yday year = (↑d.month, ↑d.day, ↑d.year) ∧
      d.dayNumber = daysBeforeMarch year + yday + 60 ∧ d.year ≤ year + 1 := by
  have hleap := leapDays_le (year + 1)
  obtain ⟨m, hm⟩ : ∃ m, m + 1 = (yday + 31) * 10 / 306 := ⟨(yday + 31) * 10 / 306 - 1, by omega⟩
  have hm11 : m ≤ 11 := by omega
  obtain ⟨hlo, hhi⟩ : marchOffset m ≤ yday ∧ yday < marchOffset (m + 1) := month_bounds (by omega) (by omega) hm11
  have hsplit : 306 ≤ yday ↔ ¬m < 10 := by omega
  have hoffset : ((367 * (m + 1 : ℕ) / 12 - 30 : ℤ)) = marchOffset m := by
    unfold marchOffset
    omega
  have hmon : (((yday + 31) * 10 : ℤ)).tdiv 306 = (m + 1 : ℕ) := by
    rw [Int.tdiv_eq_ediv_of_nonneg (by omega)]
    omega
  have hbound : yday < if m = 11 then 365 + leapDays (year + 1) else marchOffset (m + 1) := by split_ifs <;> assumption
  obtain ⟨d, hyear, hmonth, hday, hnumber⟩ := exists_date hm11 hlo hbound
  refine ⟨d, ?_, hnumber, by split_ifs at hyear <;> omega⟩
  simp only [gmtimeMonth, id, hmon, hoffset]
  by_cases h10 : m < 10
  · rw [if_neg (by omega), hyear, hmonth, hday, if_pos h10, if_pos h10]
    simp only [Prod.mk.injEq, and_true]
    omega
  · rw [if_pos (by omega), hyear, hmonth, hday, if_neg h10, if_neg h10]
    simp only [Prod.mk.injEq]
    omega

/-- On whole numbers the date and time are right from 1970 on. -/
theorem gmtimeBy_id {t : ℤ} (h : 0 ≤ t) : (gmtimeBy id id t).IsAt t := by
  obtain ⟨days, hdays⟩ : ∃ days : ℕ, (days : ℤ) = t / 86400 - (31 + 28) + 719527 :=
    ⟨(t / 86400 - (31 + 28) + 719527).toNat, by omega⟩
  obtain ⟨year, yday, hyear, hsum, hyday⟩ := gmtimeYear_id days
  obtain ⟨d, hdate, hnumber, -⟩ := gmtimeMonth_id hyday
  refine ⟨d, ?_, ?_⟩
  · rw [dayNumber_epoch]
    omega
  · simp only [gmtimeBy, id, ← hdays, hyear, hdate, Date.weekday, true_and]
    omega

/-! ## Wrapping -/

theorem uint32_eq {x : ℤ} (hlo : 0 ≤ x) (hhi : x < 2 ^ 32) : uint32 x = x :=
  Int.emod_eq_of_lt hlo hhi

theorem int32_uint32 {x : ℤ} (hlo : -2 ^ 31 ≤ x) (hhi : x < 2 ^ 31) : int32 (uint32 x) = x := by
  unfold int32 uint32
  rw [show (2 ^ 32 : ℤ) = (2 ^ 32 : ℕ) by norm_num, Int.emod_bmod]
  exact Int.bmod_eq_of_le (by omega) (by omega)

theorem int32_eq {x : ℤ} (hlo : -2 ^ 31 ≤ x) (hhi : x < 2 ^ 31) : int32 x = x :=
  Int.bmod_eq_of_le (by omega) (by omega)

theorem adjustYday_eq {yday year : ℤ} (hylo : -2 ^ 20 ≤ yday) (hyhi : yday < 2 ^ 20) (hlo : 0 ≤ year) (hhi : year < 2 ^ 20)
    (hpos : yday < 0 → 0 < year) : adjustYday uint32 int32 yday year = adjustYday id id yday year := by
  by_cases hneg : yday < 0
  · have hyear := hpos hneg
    have hleap : ∀ {p : Prop} [Decidable p], int32 (uint32 (uint32 (365 + if p then 1 else 0) + uint32 yday)) =
        365 + (if p then 1 else 0) + yday := by
      intro p _
      have hadd : uint32 (uint32 (365 + if p then 1 else 0) + uint32 yday) = uint32 (365 + (if p then 1 else 0) + yday) :=
        (Int.add_emod _ _ _).symm
      rw [hadd, int32_uint32]
      all_goals split_ifs <;> omega
    simp only [adjustYday, if_pos hneg, hleap, id]
    rw [uint32_eq (by omega) (by omega)]
  · simp only [adjustYday, if_neg hneg]

theorem gmtimeYear_eq {days : ℤ} (hlo : 0 ≤ days) (hhi : days < 2 ^ 20) :
    gmtimeYear uint32 int32 days = gmtimeYear id id days := by
  have hmul : uint32 (uint32 (days + 2) * 400) = (days + 2) * 400 := by
    unfold uint32
    omega
  obtain ⟨year, hyear⟩ : ∃ year, year = (days + 2) * 400 / (365 * 400 + 100 - 4 + 1) := ⟨_, rfl⟩
  have hyear0 : 0 ≤ year := by omega
  have hfour : 0 ≤ year / 4 := by omega
  have hhundred : year / 100 ≤ year := Int.ediv_le_self 100 hyear0
  have hcycle : 0 ≤ year / 400 := by omega
  have hsum : uint32 (uint32 (uint32 (uint32 (365 * year) + year / 4) - year / 100) + year / 400) =
      365 * year + year / 4 - year / 100 + year / 400 := by
    rw [uint32_eq (x := 365 * year) (by omega) (by omega), uint32_eq (x := 365 * year + year / 4) (by omega) (by omega),
      uint32_eq (x := 365 * year + year / 4 - year / 100) (by omega) (by omega), uint32_eq (by omega) (by omega)]
  simp only [gmtimeYear, id, hmul, ← hyear, hsum]
  rw [int32_uint32 (by omega) (by omega)]
  exact adjustYday_eq (by omega) (by omega) (by omega) (by omega) (by omega)

theorem gmtimeMonth_eq {yday year : ℤ} (hylo : 0 ≤ yday) (hyhi : yday ≤ 365) (hlo : 0 ≤ year) (hhi : year < 2 ^ 20) :
    gmtimeMonth uint32 int32 yday year = gmtimeMonth id id yday year := by
  have hmon : uint32 ((int32 (int32 (yday + 31) * 10)).tdiv 306) = ((yday + 31) * 10).tdiv 306 := by
    rw [int32_eq (x := yday + 31) (by omega) (by omega), int32_eq (by omega) (by omega),
      Int.tdiv_eq_ediv_of_nonneg (by omega), uint32_eq (by omega) (by omega)]
  obtain ⟨mon, hmonth⟩ : ∃ mon, mon = ((yday + 31) * 10).tdiv 306 := ⟨_, rfl⟩
  have hbounds : 306 * mon ≤ (yday + 31) * 10 ∧ (yday + 31) * 10 < 306 * (mon + 1) := by
    rw [Int.tdiv_eq_ediv_of_nonneg (by omega)] at hmonth
    omega
  have hmday : uint32 (uint32 (uint32 yday - uint32 (uint32 (367 * mon) / 12 - 30)) + 1) = yday - (367 * mon / 12 - 30) + 1 := by
    rw [uint32_eq (x := 367 * mon) (by omega) (by omega), uint32_eq (x := yday) (by omega) (by omega),
      uint32_eq (x := 367 * mon / 12 - 30) (by omega) (by omega),
      uint32_eq (x := yday - (367 * mon / 12 - 30)) (by omega) (by omega), uint32_eq (by omega) (by omega)]
  simp only [gmtimeMonth, id, hmon, ← hmonth, hmday]
  by_cases h306 : 306 ≤ yday
  · rw [if_pos h306, if_pos h306, uint32_eq (by omega) (by omega), uint32_eq (by omega) (by omega)]
  · rw [if_neg h306, if_neg h306, uint32_eq (by omega) (by omega)]

theorem gmtime_eq {t : ℤ} (hlo : 0 ≤ t) (hhi : t < 2 ^ 32) : gmtime t = gmtimeBy id id t := by
  obtain ⟨days, hdays⟩ : ∃ days : ℕ, (days : ℤ) = t / 86400 - (31 + 28) + 719527 :=
    ⟨(t / 86400 - (31 + 28) + 719527).toNat, by omega⟩
  have hwrap : uint32 (uint32 (t / 86400 - (31 + 28)) + 719527) = days := by
    unfold uint32
    omega
  obtain ⟨year, yday, hyear, hsum, hyday⟩ := gmtimeYear_id days
  have hleap := leapDays_le (year + 1)
  have hmarch := daysBeforeMarch_bounds year
  have hmonth : gmtimeMonth uint32 int32 yday year = gmtimeMonth id id yday year :=
    gmtimeMonth_eq (by omega) (by omega) (by omega) (by omega)
  obtain ⟨d, hdate, -, hdyear⟩ := gmtimeMonth_id hyday
  have hdmonth := d.month_le
  have hdday := d.day_le.2.trans (monthLength_le _ _)
  have hint : ∀ x : ℤ, 0 ≤ x → x < 2 ^ 31 → int32 x = x := fun x hlo hhi => int32_eq (by omega) hhi
  simp only [gmtime, gmtimeBy, uint32_eq hlo hhi, hwrap, id, ← hdays, @gmtimeYear_eq days (by omega) (by omega),
    hyear, hmonth, hdate, uint32_eq (x := 4 + t / 86400) (by omega) (by omega)]
  rw [hint, hint, hint, hint, hint, hint, hint]
  all_goals omega

/-- The date and time of a second that fits into an `unsigned int`, and that nothing wraps there. -/
theorem gmtime_isAt (t : ℤ) (hlo : 0 ≤ t) (hhi : t < 2 ^ 32) : (gmtime t).IsAt t ∧ gmtime t = gmtimeBy id id t := by
  have heq := gmtime_eq hlo hhi
  exact ⟨heq ▸ gmtimeBy_id hlo, heq⟩

/-- The last second. -/
theorem gmtime_isAt_last : (gmtime 4294967295).IsAt 4294967295 ∧ gmtime 4294967295 = gmtimeBy id id 4294967295 :=
  gmtime_isAt 4294967295 (by decide) (by decide)

end CodingExercises.PeotrixNginx
