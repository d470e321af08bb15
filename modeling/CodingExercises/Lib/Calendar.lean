import Mathlib.Data.Nat.Basic
import Mathlib.Tactic.IntervalCases

/-!
# The calendar

The proleptic Gregorian calendar from the year 0. Days are counted from January 1 of the year 0 (`Date.dayNumber`), which was a
Saturday.

Where a year is taken to begin on March 1, its leap day is the last one, and the days before a year have a closed form
(`daysBeforeMarch`): January and February are months of the year before (`exists_date`).
-/

namespace CodingExercises.Lib

/-- 1 for a leap year and 0 for another one. -/
def leapDays (year : ℕ) : ℕ :=
  if year % 4 = 0 ∧ (year % 100 ≠ 0 ∨ year % 400 = 0) then 1 else 0

def monthLength (year month : ℕ) : ℕ :=
  if month = 2 then 28 + leapDays year
  else if month = 4 ∨ month = 6 ∨ month = 9 ∨ month = 11 then 30
  else 31

/-- The days from January 1 of the year 0 to January 1 of a year. -/
def daysBeforeYear : ℕ → ℕ
  | 0 => 0
  | year + 1 => daysBeforeYear year + (365 + leapDays year)

/-- The days from January 1 to the first day of a month. -/
def daysBeforeMonth (year : ℕ) : ℕ → ℕ
  | 0 => 0
  | 1 => 0
  | month + 2 => daysBeforeMonth year (month + 1) + monthLength year (month + 1)

/-- A day of the calendar. -/
@[ext]
structure Date where
  year : ℕ
  month : ℕ
  day : ℕ
  month_le : 1 ≤ month ∧ month ≤ 12
  day_le : 1 ≤ day ∧ day ≤ monthLength year month

/-- The days from January 1 of the year 0. -/
def Date.dayNumber (d : Date) : ℕ :=
  daysBeforeYear d.year + daysBeforeMonth d.year d.month + (d.day - 1)

/-- The day of the week, from 0 for Sunday. -/
def Date.weekday (d : Date) : ℕ :=
  (6 + d.dayNumber) % 7

/-- The day that times are counted from. -/
def epoch : Date := ⟨1970, 1, 1, by decide, by decide⟩

/-- A second of a day. -/
structure DateTime where
  date : Date
  hour : ℕ
  min : ℕ
  sec : ℕ
  hour_lt : hour < 24
  min_lt : min < 60
  sec_lt : sec < 60

/-- The seconds from the epoch. -/
def DateTime.instant (dt : DateTime) : ℤ :=
  ((dt.date.dayNumber : ℤ) - epoch.dayNumber) * 86400 + dt.hour * 3600 + dt.min * 60 + dt.sec

/-! ## Bounds -/

theorem leapDays_le (year : ℕ) : leapDays year ≤ 1 := by
  unfold leapDays
  split <;> decide

theorem monthLength_le (year month : ℕ) : monthLength year month ≤ 31 := by
  have hleap := leapDays_le year
  unfold monthLength
  split_ifs <;> omega

theorem daysBeforeYear_bounds (year : ℕ) : 365 * year ≤ daysBeforeYear year ∧ daysBeforeYear year ≤ 366 * year := by
  induction year with
  | zero => decide
  | succ year ih =>
    have hleap := leapDays_le year
    rw [daysBeforeYear]
    omega

theorem daysBeforeMonth_le (year : ℕ) : ∀ month, daysBeforeMonth year month ≤ 31 * month
  | 0 => Nat.le_refl 0
  | 1 => Nat.zero_le _
  | month + 2 => by
    have hmonth := daysBeforeMonth_le year (month + 1)
    have hlength := monthLength_le year (month + 1)
    rw [daysBeforeMonth]
    omega

theorem Date.dayNumber_bounds (d : Date) : 365 * d.year ≤ d.dayNumber ∧ d.dayNumber ≤ 366 * d.year + 402 := by
  have hyear := daysBeforeYear_bounds d.year
  have hmonth := daysBeforeMonth_le d.year d.month
  have hlength := monthLength_le d.year d.month
  have hmonth' := d.month_le
  have hday := d.day_le
  unfold dayNumber
  omega

/-! ## Years from March to February -/

/-- The days from March 1 of the year 0 to March 1 of a year. -/
def daysBeforeMarch (year : ℕ) : ℕ :=
  365 * year + year / 4 - year / 100 + year / 400

/-- Every fourth year is a leap year, but of the hundreds only every fourth one is. -/
theorem leapDays_add (year : ℕ) :
    leapDays year + (if 100 ∣ year then 1 else 0) = (if 4 ∣ year then 1 else 0) + if 400 ∣ year then 1 else 0 := by
  simp only [leapDays, Nat.dvd_iff_mod_eq_zero]
  split_ifs <;> omega

theorem daysBeforeMarch_succ (year : ℕ) :
    daysBeforeMarch (year + 1) = daysBeforeMarch year + (365 + leapDays (year + 1)) := by
  have hle : year / 100 ≤ year / 4 := Nat.div_le_div_left (by decide) (by decide)
  have hleap := leapDays_add (year + 1)
  simp only [daysBeforeMarch, Nat.succ_div]
  split_ifs at * <;> omega

/-- A year has 365.2425 days, up to less than two days. -/
theorem daysBeforeMarch_bounds (year : ℕ) :
    400 * daysBeforeMarch year ≤ 146097 * year + 288 ∧ 146097 * year ≤ 400 * daysBeforeMarch year + 591 := by
  have hle : year / 100 ≤ year / 4 := Nat.div_le_div_left (by decide) (by decide)
  have h100 : year / 100 = 4 * (year / 400) + year % 400 / 100 := by omega
  have h4 : year / 4 = 25 * (year / 100) + year % 100 / 4 := by omega
  have hyear : year = 100 * (year / 100) + 4 * (year % 100 / 4) + year % 4 := by omega
  have hhundred : year % 400 / 100 ≤ 3 := by omega
  have hfour : year % 100 / 4 ≤ 24 := by omega
  have hone : year % 4 ≤ 3 := by omega
  have hdays : daysBeforeMarch year + year / 100 = 365 * year + year / 4 + year / 400 := by
    unfold daysBeforeMarch
    omega
  generalize year / 400 = a, year % 400 / 100 = b, year % 100 / 4 = c, year % 4 = d, year / 100 = e, year / 4 = f at *
  omega

/-- January and February of a year stand before its March. -/
theorem daysBeforeYear_eq (year : ℕ) : daysBeforeYear year + (59 + leapDays year) = daysBeforeMarch year + 60 := by
  induction year with
  | zero => decide
  | succ year ih =>
    rw [daysBeforeYear, daysBeforeMarch_succ]
    omega

/-- The days from March 1 to the first day of the month with index `m` behind March, where January has index 10. -/
def marchOffset (m : ℕ) : ℕ :=
  367 * (m + 1) / 12 - 30

theorem dayNumber_epoch : epoch.dayNumber = 719528 := by
  have h := daysBeforeYear_eq 1970
  have hleap : leapDays 1970 = 0 := by decide
  have hmarch : daysBeforeMarch 1970 = 719527 := by decide
  rw [hleap, hmarch] at h
  have hmonth : daysBeforeMonth 1970 1 = 0 := rfl
  simp only [Date.dayNumber, epoch, hmonth]
  omega

/-- A month from March to December. -/
theorem daysBeforeMonth_march (year : ℕ) {m : ℕ} (hm : m < 10) :
    daysBeforeMonth year (m + 3) = 59 + leapDays year + marchOffset m := by
  interval_cases m <;> simp [daysBeforeMonth, monthLength, marchOffset] <;> omega

/-- The days of a month are those up to the next one, apart from February. -/
theorem monthLength_march (year : ℕ) {m : ℕ} (hm : m < 11) :
    monthLength year (if m < 10 then m + 3 else m - 9) = marchOffset (m + 1) - marchOffset m := by
  interval_cases m <;> rfl

/-- A day of a year from March to February is a day of the calendar. -/
theorem exists_date {year m yday : ℕ} (hm : m ≤ 11) (hlo : marchOffset m ≤ yday)
    (hhi : yday < if m = 11 then 365 + leapDays (year + 1) else marchOffset (m + 1)) :
    ∃ d : Date, d.year = (if m < 10 then year else year + 1) ∧ d.month = (if m < 10 then m + 3 else m - 9) ∧
      d.day = yday - marchOffset m + 1 ∧ d.dayNumber = daysBeforeMarch year + yday + 60 := by
  have hbefore := daysBeforeYear_eq year
  have hbehind := daysBeforeYear_eq (year + 1)
  rw [daysBeforeMarch_succ] at hbehind
  by_cases h11 : m = 11
  · subst h11
    have h337 : marchOffset 11 = 337 := rfl
    have hmonth : daysBeforeMonth (year + 1) 2 = 31 := rfl
    have hlength : monthLength (year + 1) 2 = 28 + leapDays (year + 1) := rfl
    rw [if_pos rfl] at hhi
    refine ⟨⟨year + 1, 2, yday - marchOffset 11 + 1, by decide, by omega, by omega⟩, rfl, rfl, rfl, ?_⟩
    simp only [Date.dayNumber, hmonth]
    omega
  · rw [if_neg h11] at hhi
    have hlength : ∀ y, monthLength y (if m < 10 then m + 3 else m - 9) = marchOffset (m + 1) - marchOffset m :=
      fun y => monthLength_march y (by omega)
    by_cases h10 : m < 10
    · have hmonth := daysBeforeMonth_march year h10
      rw [if_pos h10] at hlength
      refine ⟨⟨year, m + 3, yday - marchOffset m + 1, by omega, by omega, ?_⟩, (if_pos h10).symm, (if_pos h10).symm, rfl, ?_⟩
      · rw [hlength]
        omega
      · simp only [Date.dayNumber, hmonth]
        omega
    · obtain rfl : m = 10 := by omega
      have h306 : marchOffset 10 = 306 := rfl
      have hmonth : daysBeforeMonth (year + 1) 1 = 0 := rfl
      refine ⟨⟨year + 1, 1, yday - marchOffset 10 + 1, by decide, by omega, ?_⟩, rfl, rfl, rfl, ?_⟩
      · exact (hlength (year + 1)).symm ▸ (by omega)
      · simp only [Date.dayNumber, hmonth]
        omega

end CodingExercises.Lib
