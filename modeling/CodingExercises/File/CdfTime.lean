import Mathlib.Order.Monotone.Basic
import CodingExercises.Lib.Calendar

/-!
# file: times of a CDF file

`cdf_timestamp_to_timespec` of `cdf_time.c`. `mktime` is the conversion for UTC, which takes a month and a day of the month beyond
their ranges.

The year is estimated from the days, as if no year had a leap day; a day before that year is a day before January 1 to the loops
and to `mktime`, and this is right. In the year, `cdf_getday` and `cdf_getmonth` agree on each day but the last ones of the months
(`loops_spec`), which become the last ones of the months before. So the time is right but on the last days of months whose year is
the estimated one, and in the second that `mktime` gives -1 for (`timespec_right_iff`).
-/

namespace CodingExercises.File.CdfTime

open Lib

/-! ## The code -/

/-- `int`. -/
def int32 (x : ℤ) : ℤ := x.bmod (2 ^ 32)

/-- `isleap`. -/
def isleap (y : ℕ) : Bool := y % 4 = 0 ∧ (y % 100 ≠ 0 ∨ y % 400 = 0)

def mdays : List ℤ := [31, 28, 31, 30, 31, 30, 31, 31, 30, 31, 30, 31]

/-- `CDF_BASE_YEAR`. -/
def baseYear : ℕ := 1601

/-- `CDF_TIME_PREC`. -/
def timePrec : ℕ := 10000000

/-- The loop of `cdf_getdays`, for `n` more years. -/
def getdaysLoop : ℕ → ℕ → ℕ → ℕ
  | 0, _, days => days
  | n + 1, y, days => getdaysLoop n (y + 1) (days + ((if isleap y then 1 else 0) + 365))

/-- `cdf_getdays`. -/
def getdays (year : ℕ) : ℕ := getdaysLoop (year - baseYear) baseYear 0

/-- The loop of `cdf_getday`, over the rest of `mdays` from the index `m` on. -/
def getdayLoop (year m : ℕ) (days : ℤ) : List ℤ → ℤ
  | [] => days
  | md :: rest =>
    let sub := md + if m = 1 ∧ isleap year then 1 else 0
    if days < sub then days else getdayLoop year (m + 1) (days - sub) rest

/-- `cdf_getday`. -/
def getday (year : ℕ) (days : ℤ) : ℤ := getdayLoop year 0 days mdays

/-- The loop of `cdf_getmonth`, over the rest of `mdays` from the index `m` on. -/
def getmonthLoop (year m : ℕ) (days : ℤ) : List ℤ → ℕ
  | [] => m
  | md :: rest =>
    let days := days - md
    let days := if m = 1 ∧ isleap year then days - 1 else days
    if days ≤ 0 then m else getmonthLoop year (m + 1) days rest

/-- `cdf_getmonth`. -/
def getmonth (year : ℕ) (days : ℤ) : ℕ := getmonthLoop year 0 days mdays

/-- The fields of `struct tm` that `mktime` looks at. -/
structure Tm where
  sec : ℤ
  min : ℤ
  hour : ℤ
  mday : ℤ
  mon : ℕ
  year : ℤ

/-- `mktime`, for UTC. -/
def mktime (tm : Tm) : ℤ :=
  let year := (tm.year + 1900 + tm.mon / 12).toNat
  ((daysBeforeYear year : ℤ) + daysBeforeMonth year (tm.mon % 12 + 1) + (tm.mday - 1) - epoch.dayNumber) * 86400 +
    tm.hour * 3600 + tm.min * 60 + tm.sec

/-- What `cdf_timestamp_to_timespec` returns and stores. -/
structure Result where
  ret : ℤ
  tvSec : ℤ
  tvNsec : ℕ
deriving DecidableEq

/-- `cdf_timestamp_to_timespec`. -/
def timestampToTimespec (t : ℕ) : Result :=
  let tvNsec := t % timePrec * 100
  let t := t / timePrec
  let sec := int32 (t % 60 : ℕ)
  let t := t / 60
  let min := int32 (t % 60 : ℕ)
  let t := t / 60
  let hour := int32 (t % 24 : ℕ)
  let t := t / 24
  let year := (int32 (baseYear + t / 365 : ℕ)).toNat
  -- the difference wraps as 64 bits, of which an `int` has the low ones
  let t := int32 ((t : ℤ) - ((getdays year : ℤ) - 1))
  let tvSec := mktime ⟨sec, min, hour, getday year t, getmonth year t, (year : ℤ) - 1900⟩
  ⟨if tvSec = -1 then -1 else 0, tvSec, tvNsec⟩

/-! ## The loops -/

theorem isleap_eq (y : ℕ) : (if isleap y then 1 else 0) = leapDays y := by
  simp only [isleap, leapDays, decide_eq_true_eq]

theorem getdaysLoop_eq (n y days : ℕ) : getdaysLoop n y days + daysBeforeYear y = days + daysBeforeYear (y + n) := by
  induction n generalizing y days with
  | zero => rfl
  | succ n ih =>
    have hstep := ih (y + 1) (days + ((if isleap y then 1 else 0) + 365))
    rw [isleap_eq, daysBeforeYear, Nat.add_right_comm] at hstep
    rw [getdaysLoop, isleap_eq]
    have hyear : y + 1 + n = y + (n + 1) := by omega
    rw [hyear] at hstep
    omega

/-- `cdf_getdays` counts the days from its first year on. -/
theorem getdays_eq (year : ℕ) (h : baseYear ≤ year) : getdays year + daysBeforeYear baseYear = daysBeforeYear year := by
  have hloop := getdaysLoop_eq (year - baseYear) baseYear 0
  rwa [Nat.add_sub_cancel' h, Nat.zero_add] at hloop

section

variable (year : ℕ)

/-- The number of days of a month, in the loops. -/
theorem mdays_drop {m : ℕ} (hm : m < 12) : ∃ md, mdays.drop m = md :: mdays.drop (m + 1) ∧
    md + (if m = 1 ∧ isleap year then 1 else 0) = monthLength year (m + 1) := by
  have hleap := isleap_eq year
  interval_cases m
  case «1» =>
    refine ⟨_, rfl, ?_⟩
    simp only [true_and, monthLength, if_true]
    split_ifs at hleap ⊢ <;> omega
  all_goals exact ⟨_, rfl, rfl⟩

theorem getdayLoop_step {m : ℕ} (hm : m < 12) (x : ℤ) : getdayLoop year m x (mdays.drop m) =
    if x < monthLength year (m + 1) then x else getdayLoop year (m + 1) (x - monthLength year (m + 1)) (mdays.drop (m + 1)) := by
  obtain ⟨md, hdrop, hlength⟩ := mdays_drop year hm
  rw [hdrop, getdayLoop, hlength]

theorem getmonthLoop_step {m : ℕ} (hm : m < 12) (x : ℤ) : getmonthLoop year m x (mdays.drop m) =
    if x ≤ monthLength year (m + 1) then m else getmonthLoop year (m + 1) (x - monthLength year (m + 1)) (mdays.drop (m + 1)) := by
  obtain ⟨md, hdrop, hlength⟩ := mdays_drop year hm
  have hsub : (if m = 1 ∧ isleap year then x - md - 1 else x - md) = x - monthLength year (m + 1) := by
    rw [← hlength]
    split_ifs <;> omega
  rw [hdrop, getmonthLoop, hsub]
  exact if_congr (by omega) rfl rfl

theorem daysBeforeMonth_succ (m : ℕ) : daysBeforeMonth year (m + 2) = daysBeforeMonth year (m + 1) + monthLength year (m + 1) := rfl

theorem monthLength_ge (month : ℕ) : 28 ≤ monthLength year month := by
  unfold monthLength
  split_ifs <;> omega

/-- Both loops stop in the month of the day `e` of the year, but the first one beyond its last day. -/
theorem loops_spec (k m : ℕ) (hk : m + k = 12) (e : ℤ) (hlo : (daysBeforeMonth year (m + 1) : ℤ) < e)
    (hhi : e ≤ daysBeforeMonth year 13) :
    ∃ j < 12, getmonthLoop year m (e - daysBeforeMonth year (m + 1)) (mdays.drop m) = j ∧
      daysBeforeMonth year (j + 1) < e ∧ e ≤ daysBeforeMonth year (j + 2) ∧
      getdayLoop year m (e - daysBeforeMonth year (m + 1)) (mdays.drop m) =
        if e = daysBeforeMonth year (j + 2) then 0 else e - daysBeforeMonth year (j + 1) := by
  induction k generalizing m with
  | zero =>
    obtain rfl : m = 12 := hk
    exact absurd hhi (Int.not_le_of_gt hlo)
  | succ k ih =>
    have hm : m < 12 := by omega
    have hnext : (daysBeforeMonth year (m + 1 + 1) : ℤ) = daysBeforeMonth year (m + 1) + monthLength year (m + 1) :=
      congrArg Nat.cast (daysBeforeMonth_succ year m)
    rw [getdayLoop_step year hm, getmonthLoop_step year hm]
    by_cases hle : e ≤ daysBeforeMonth year (m + 1 + 1)
    · refine ⟨m, hm, if_pos (by omega), hlo, hle, ?_⟩
      by_cases hlast : e = daysBeforeMonth year (m + 1 + 1)
      · have hzero : e - daysBeforeMonth year (m + 1) - monthLength year (m + 1) = 0 := by omega
        rw [if_neg (by omega), if_pos hlast, hzero]
        rcases Nat.lt_or_ge (m + 1) 12 with hlt | hge
        · have hlength := monthLength_ge year (m + 1 + 1)
          rw [getdayLoop_step year hlt, if_pos (by omega)]
        · obtain rfl : m = 11 := by omega
          rfl
      · rw [if_pos (by omega), if_neg hlast]
    · have hrest := ih (m + 1) (by omega) (by omega)
      have hsub : e - daysBeforeMonth year (m + 1) - monthLength year (m + 1) = e - daysBeforeMonth year (m + 1 + 1) := by omega
      rwa [if_neg (by omega), if_neg (by omega), hsub]

/-- A day before the year is one before the first of January. -/
theorem before_year {e : ℤ} (he : e ≤ 0) : getday year e = e ∧ getmonth year e = 0 := by
  have hday := getdayLoop_step year (m := 0) (by decide) e
  have hmonth := getmonthLoop_step year (m := 0) (by decide) e
  have hlength := monthLength_ge year (0 + 1)
  rw [if_pos (by omega)] at hday hmonth
  exact ⟨hday, hmonth⟩

end

/-! ## The calendar -/

theorem daysBeforeYear_base : daysBeforeYear baseYear = 584754 := by
  have h := daysBeforeYear_eq baseYear
  have hleap : leapDays baseYear = 0 := by decide
  have hmarch : daysBeforeMarch baseYear = 584753 := by decide
  rw [hleap, hmarch] at h
  omega

theorem daysBeforeYear_add_bounds (y n : ℕ) :
    daysBeforeYear y + 365 * n ≤ daysBeforeYear (y + n) ∧ daysBeforeYear (y + n) ≤ daysBeforeYear y + 366 * n := by
  induction n with
  | zero => exact ⟨Nat.le_refl _, Nat.le_refl _⟩
  | succ n ih =>
    have hleap := leapDays_le (y + n)
    rw [← Nat.add_assoc, daysBeforeYear]
    omega

theorem daysBeforeMonth_mono (year : ℕ) : Monotone (daysBeforeMonth year) := by
  apply monotone_nat_of_le_succ
  intro m
  cases m with
  | zero => exact Nat.le_refl 0
  | succ m => exact Nat.le_add_right _ _

/-- The days of a year. -/
theorem daysBeforeMonth_end (year : ℕ) : daysBeforeMonth year 13 = 365 + leapDays year := by
  have h := daysBeforeMonth_march year (m := 9) (by decide)
  have hlength : monthLength year 12 = 31 := rfl
  have hoffset : marchOffset 9 = 275 := rfl
  rw [daysBeforeMonth, h, hlength, hoffset]
  omega

/-- The year that is estimated for a day. -/
def estimate (d : ℕ) : ℕ := baseYear + d / 365

/-- The day of the estimated year, 1 for January 1. -/
def yearDay (d : ℕ) : ℤ := (d : ℤ) - ((getdays (estimate d) : ℤ) - 1)

/-- The day, counted from the year 0. -/
theorem yearDay_eq (d : ℕ) : (daysBeforeYear (estimate d) : ℤ) + (yearDay d - 1) = daysBeforeYear baseYear + d := by
  have hdays := getdays_eq (estimate d) (Nat.le_add_right _ _)
  rw [yearDay]
  omega

theorem yearDay_bounds (d : ℕ) : -(d : ℤ) ≤ yearDay d ∧ yearDay d ≤ daysBeforeMonth (estimate d) 13 := by
  have hday := yearDay_eq d
  have hbounds := daysBeforeYear_add_bounds baseYear (d / 365)
  rw [← estimate] at hbounds
  rw [daysBeforeMonth_end]
  omega

/-- A day is the last one of a month of the year that is estimated for it. -/
def EndsMonth (d : ℕ) : Prop :=
  ∃ date : Date, date.dayNumber = daysBeforeYear baseYear + d ∧ date.year = estimate d ∧ date.day = monthLength date.year date.month

theorem endsMonth_iff (d : ℕ) : EndsMonth d ↔ ∃ j < 12, yearDay d = daysBeforeMonth (estimate d) (j + 2) := by
  have hday := yearDay_eq d
  constructor
  · rintro ⟨⟨year, month, day, hmonth, hle⟩, hnumber, hyear, hlast⟩
    simp only [Date.dayNumber] at hnumber hyear hlast
    subst hyear
    obtain ⟨j, rfl⟩ : ∃ j, month = j + 1 := ⟨month - 1, by omega⟩
    have hnext := daysBeforeMonth_succ (estimate d) j
    refine ⟨j, by omega, ?_⟩
    omega
  · rintro ⟨j, hj, hlast⟩
    have hnext := daysBeforeMonth_succ (estimate d) j
    have hlength := monthLength_ge (estimate d) (j + 1)
    refine ⟨⟨estimate d, j + 1, monthLength (estimate d) (j + 1), by omega, by omega⟩, ?_, rfl, rfl⟩
    simp only [Date.dayNumber]
    omega

/-! ## The time -/

theorem int32_eq {x : ℤ} (hlo : -2 ^ 31 ≤ x) (hhi : x < 2 ^ 31) : int32 x = x := by
  unfold int32
  apply Int.bmod_eq_of_le_mul_two <;> omega

/-- The days of a timestamp. -/
def days (t : ℕ) : ℕ := t / timePrec / 60 / 60 / 24

/-- The seconds from the epoch. -/
def seconds (t : ℕ) : ℤ := (t / timePrec : ℕ) - 11644473600

theorem timestampToTimespec_eq {t : ℕ} (ht : t < 2 ^ 64) : timestampToTimespec t =
    let tvSec := mktime ⟨(t / timePrec % 60 : ℕ), (t / timePrec / 60 % 60 : ℕ), (t / timePrec / 60 / 60 % 24 : ℕ),
      getday (estimate (days t)) (yearDay (days t)), getmonth (estimate (days t)) (yearDay (days t)), (estimate (days t) : ℤ) - 1900⟩
    ⟨if tvSec = -1 then -1 else 0, tvSec, t % timePrec * 100⟩ := by
  have hdays : days t < 2 ^ 31 - 1 := by
    rw [days, timePrec]
    omega
  have hyear : estimate (days t) < 2 ^ 31 := by
    rw [estimate, baseYear]
    omega
  obtain ⟨hlo, hhi⟩ := yearDay_bounds (days t)
  have hle := daysBeforeMonth_le (estimate (days t)) 13
  have hestimate : (int32 (baseYear + t / timePrec / 60 / 60 / 24 / 365 : ℕ)).toNat = estimate (days t) := by
    rw [← days, ← estimate, int32_eq (by omega) (by omega), Int.toNat_natCast]
  have hyearDay : int32 ((t / timePrec / 60 / 60 / 24 : ℕ) - ((getdays (estimate (days t)) : ℤ) - 1)) = yearDay (days t) := by
    rw [← days, ← yearDay]
    exact int32_eq (by omega) (by omega)
  simp only [timestampToTimespec, hestimate, hyearDay]
  rw [int32_eq (by omega) (by omega), int32_eq (by omega) (by omega), int32_eq (by omega) (by omega)]

/-- The conversion of a day of the month, in a month of the estimated year. -/
theorem mktime_eq (t : ℕ) {j : ℕ} (hj : j < 12) (mday : ℤ) :
    mktime ⟨(t / timePrec % 60 : ℕ), (t / timePrec / 60 % 60 : ℕ), (t / timePrec / 60 / 60 % 24 : ℕ), mday, j,
      (estimate (days t) : ℤ) - 1900⟩ =
    seconds t + (daysBeforeMonth (estimate (days t)) (j + 1) + mday - yearDay (days t)) * 86400 := by
  have hyear : ((estimate (days t) : ℤ) - 1900 + 1900 + ((j : ℕ) : ℤ) / 12).toNat = estimate (days t) := by omega
  have hmon : j % 12 = j := Nat.mod_eq_of_lt hj
  have hday := yearDay_eq (days t)
  have hbase := daysBeforeYear_base
  have hepoch := dayNumber_epoch
  simp only [mktime, hyear, hmon, seconds]
  rw [hepoch]
  rw [hbase, days] at hday
  rw [days]
  omega

/-- The result is the time of the timestamp, but the length of the month less on its last day. -/
theorem tvSec_eq {t : ℕ} (ht : t < 2 ^ 64) :
    ∃ lost : ℕ, (0 < lost ↔ EndsMonth (days t)) ∧ (timestampToTimespec t).tvSec = seconds t - lost * 86400 := by
  have hday := yearDay_bounds (days t)
  rw [timestampToTimespec_eq ht]
  simp only
  by_cases hbefore : yearDay (days t) ≤ 0
  · obtain ⟨hgetday, hgetmonth⟩ := before_year (estimate (days t)) hbefore
    refine ⟨0, iff_of_false (Nat.lt_irrefl 0) ?_, ?_⟩
    · rw [endsMonth_iff]
      rintro ⟨j, -, hlast⟩
      have hnext := daysBeforeMonth_succ (estimate (days t)) j
      have hlength := monthLength_ge (estimate (days t)) (j + 1)
      omega
    · have hzero : daysBeforeMonth (estimate (days t)) (0 + 1) = 0 := rfl
      rw [hgetday, hgetmonth, mktime_eq t (by decide), hzero]
      omega
  · obtain ⟨j, hj, hgetmonth, hlo, hhi, hgetday⟩ :=
      loops_spec (estimate (days t)) 12 0 rfl (yearDay (days t)) (Int.lt_of_not_ge hbefore) hday.2
    have hzero : yearDay (days t) - (daysBeforeMonth (estimate (days t)) (0 + 1) : ℕ) = yearDay (days t) := Int.sub_zero _
    have hnext := daysBeforeMonth_succ (estimate (days t)) j
    have hlength := monthLength_ge (estimate (days t)) (j + 1)
    rw [hzero, List.drop_zero] at hgetmonth hgetday
    rw [getmonth, getday, hgetmonth, hgetday, mktime_eq t hj, endsMonth_iff]
    by_cases hlast : yearDay (days t) = daysBeforeMonth (estimate (days t)) (j + 2)
    · refine ⟨monthLength (estimate (days t)) (j + 1), iff_of_true (by omega) ⟨j, hj, hlast⟩, ?_⟩
      rw [if_pos hlast]
      omega
    · refine ⟨0, iff_of_false (Nat.lt_irrefl 0) ?_, ?_⟩
      · rintro ⟨j', -, hlast'⟩
        rcases Nat.lt_trichotomy j j' with hlt | rfl | hlt
        · have hmono := daysBeforeMonth_mono (estimate (days t)) (show j + 2 ≤ j' + 1 by omega)
          have hnext' := daysBeforeMonth_succ (estimate (days t)) j'
          have hlength' := monthLength_ge (estimate (days t)) (j' + 1)
          omega
        · exact hlast hlast'
        · have hmono := daysBeforeMonth_mono (estimate (days t)) (show j' + 2 ≤ j + 1 by omega)
          omega
      · rw [if_neg hlast]
        omega

/-- The timestamp is converted to the seconds and nanoseconds from the epoch. -/
def Right (t : ℕ) : Prop :=
  (timestampToTimespec t).ret = 0 ∧ (timestampToTimespec t).tvSec = seconds t ∧ (timestampToTimespec t).tvNsec = t % timePrec * 100

theorem ret_eq {t : ℕ} (ht : t < 2 ^ 64) :
    (timestampToTimespec t).ret = (if (timestampToTimespec t).tvSec = -1 then -1 else 0) ∧
      (timestampToTimespec t).tvNsec = t % timePrec * 100 := by
  rw [timestampToTimespec_eq ht]
  simp only [and_self]

theorem not_right_of_endsMonth {t : ℕ} (ht : t < 2 ^ 64) (h : EndsMonth (days t)) : ¬Right t := by
  rintro ⟨-, hsec, -⟩
  obtain ⟨lost, hlost, heq⟩ := tvSec_eq ht
  have hpos := hlost.mpr h
  omega

/-- The conversion is right, but on the last days of months in their estimated years, and one second before the epoch. -/
theorem timespec_right_iff (t : ℕ) (ht : t < 2 ^ 64) : Right t ↔ ¬EndsMonth (days t) ∧ seconds t ≠ -1 := by
  obtain ⟨lost, hlost, heq⟩ := tvSec_eq ht
  obtain ⟨hret, hnsec⟩ := ret_eq ht
  constructor
  · intro h
    refine ⟨fun hends => not_right_of_endsMonth ht hends h, ?_⟩
    obtain ⟨hzero, hsec, -⟩ := h
    rw [hret, hsec] at hzero
    intro hneg
    rw [if_pos hneg] at hzero
    cases hzero
  · rintro ⟨hends, hneg⟩
    have hsec : (timestampToTimespec t).tvSec = seconds t := by
      have hzero := mt hlost.mp hends
      omega
    refine ⟨?_, hsec, hnsec⟩
    rw [hret, hsec, if_neg hneg]

/-- January 2, 1601. -/
theorem right_second : Right (86400 * 10000000) := by
  refine (timespec_right_iff (86400 * 10000000) (by decide)).mpr ⟨?_, by decide⟩
  rw [endsMonth_iff]
  decide

/-- January 31, 1601. -/
theorem not_timespec_right : ¬Right (30 * 86400 * 10000000) :=
  not_right_of_endsMonth (by decide) ((endsMonth_iff 30).mpr ⟨0, by decide, by decide⟩)

end CodingExercises.File.CdfTime
