import CodingExercises.PeotrixNginx.Times

/-!
# Peotrix on nginx: the texts of the cached times

What the formats of the cached times print for a date and a time (`httpText`, `errLogText`, `logText`, `isoText`).
-/

namespace CodingExercises.PeotrixNginx

open Lib

/-! ## Numbers -/

def twoDigits (n : ℕ) : List Byte := [decimalDigit (n / 10), decimalDigit (n % 10)]

def fourDigits (n : ℕ) : List Byte := twoDigits (n / 100) ++ twoDigits (n % 100)

theorem decimalDigit_inj {m n : ℕ} (hm : m < 10) (hn : n < 10) : decimalDigit m = decimalDigit n ↔ m = n := by
  refine ⟨fun h => ?_, congrArg _⟩
  have hnat := congrArg UInt8.toNat h
  simp only [decimalDigit, UInt8.toNat_ofNat'] at hnat
  omega

theorem twoDigits_inj {m n : ℕ} (hm : m < 100) (hn : n < 100) : twoDigits m = twoDigits n ↔ m = n := by
  refine ⟨fun h => ?_, congrArg _⟩
  simp only [twoDigits, List.cons.injEq, and_true] at h
  rw [decimalDigit_inj (by omega) (by omega), decimalDigit_inj (by omega) (by omega)] at h
  omega

theorem fourDigits_inj {m n : ℕ} (hm : m < 10000) (hn : n < 10000) : fourDigits m = fourDigits n ↔ m = n := by
  refine ⟨fun h => ?_, congrArg _⟩
  obtain ⟨hhigh, hlow⟩ := List.append_inj h rfl
  rw [twoDigits_inj (by omega) (by omega)] at hhigh hlow
  omega

theorem toInt_ofInt {n : ℕ} (h : n < 10000) : (BitVec.ofInt 32 n).toInt = n := by
  rw [BitVec.toInt_ofInt]
  exact Int.bmod_eq_of_le (by omega) (by omega)

theorem numeral_zero_two {n : ℕ} (h : n < 100) : numberText (ch '0') 0 2 n = twoDigits n := by
  rw [numberText, if_neg (by omega), Int.natAbs_natCast, numeral, if_pos rfl, twoDigits]
  obtain hlt | hge := Nat.lt_or_ge n 10
  · rw [numeralIn_lt decimalDigit hlt, Nat.div_eq_of_lt hlt, Nat.mod_eq_of_lt hlt]
    rfl
  · rw [numeralIn_ge decimalDigit (by decide) hge, numeralIn_lt decimalDigit (by omega)]
    rfl

theorem numeral_four {zero : Byte} {width n : ℕ} (hwidth : width ≤ 4) (hge : 1000 ≤ n) (hlt : n < 10000) :
    numberText zero 0 width n = fourDigits n := by
  have hnumeral : numeralIn 10 decimalDigit n = fourDigits n := by
    rw [numeralIn_ge decimalDigit (by decide) (by omega), numeralIn_ge decimalDigit (by decide) (by omega),
      numeralIn_ge decimalDigit (by decide) (by omega), numeralIn_lt decimalDigit (by omega)]
    have h1 : n / 10 / 10 / 10 = n / 100 / 10 := by omega
    have h2 : n / 10 / 10 % 10 = n / 100 % 10 := by omega
    have h3 : n / 10 % 10 = n % 100 / 10 := by omega
    have h4 : n % 10 = n % 100 % 10 := by omega
    rw [h1, h2, h3, h4]
    rfl
  rw [numberText, if_neg (by omega), Int.natAbs_natCast, numeral, if_pos rfl, hnumeral, padded]
  have hlen : width - (fourDigits n).length = 0 := Nat.sub_eq_zero_of_le hwidth
  rw [hlen]
  rfl

/-! ## Formats -/

/-- With enough room `ptrx_vslprintf` writes this text. -/
def Prints (cfg : Config) (fmt : List Byte) (args : List Arg) (text : List Byte) : Prop :=
  ∀ room, vslprintf cfg room fmt args = .ok (text.take room)

/-- The format is complete and its directives have these arguments. -/
def Renders (cfg : Config) (fmt : List Byte) (args : List Arg) (text : List Byte) : Prop :=
  Complete fmt ∧ render cfg uint (pieces fmt).1 args = some text

variable {cfg : Config} {fmt : List Byte} {args : List Arg} {text : List Byte}

theorem Renders.prints (h : Renders cfg fmt args text) : Prints cfg fmt args text :=
  fun _ => vslprintfLoop_complete cfg fmt [] args (Nat.zero_le _) h.1 h.2

namespace Renders

theorem nil : Renders cfg [] args [] := by
  rw [Renders, Complete, pieces_nil]
  exact ⟨rfl, rfl⟩

theorem char {c : Byte} (hc : c ≠ ch '%') (h : Renders cfg fmt args text) : Renders cfg (c :: fmt) args (c :: text) := by
  rw [Renders, Complete, pieces_char hc]
  exact ⟨h.1, by rw [render, h.2]; rfl⟩

theorem directive {s : List Byte} {d : Directive} {arg : Arg} {t : List Byte} (hparse : Directive.parse s = some (d, fmt))
    (htext : d.text cfg uint (arg :: args) = some (t, args)) (h : Renders cfg fmt args text) :
    Renders cfg (ch '%' :: s) (arg :: args) (t ++ text) := by
  rw [Renders, Complete, pieces_directive hparse]
  exact ⟨h.1, by simp only [render, htext, h.2, Option.map_some]⟩

/-- `%02d`. -/
theorem zero_two {n : ℕ} (hn : n < 100) (h : Renders cfg fmt args text) :
    Renders cfg (ch '%' :: ch '0' :: ch '2' :: ch 'd' :: fmt) (int n :: args) (twoDigits n ++ text) := by
  have hvalue : numberText (ch '0') 0 2 (BitVec.ofInt 32 n).toInt = twoDigits n := by
    rw [toInt_ofInt (by omega), numeral_zero_two hn]
  rw [← hvalue]
  exact directive (d := ⟨true, 2, [], ch 'd'⟩) rfl rfl h

/-- `%4d`. -/
theorem four {n : ℕ} (hge : 1000 ≤ n) (hlt : n < 10000) (h : Renders cfg fmt args text) :
    Renders cfg (ch '%' :: ch '4' :: ch 'd' :: fmt) (int n :: args) (fourDigits n ++ text) := by
  have hvalue : numberText (ch ' ') 0 4 (BitVec.ofInt 32 n).toInt = fourDigits n := by
    rw [toInt_ofInt hlt, numeral_four (by decide) hge hlt]
  rw [← hvalue]
  exact directive (d := ⟨false, 4, [], ch 'd'⟩) rfl rfl h

/-- `%d`. -/
theorem number {n : ℕ} (hge : 1000 ≤ n) (hlt : n < 10000) (h : Renders cfg fmt args text) :
    Renders cfg (ch '%' :: ch 'd' :: fmt) (int n :: args) (fourDigits n ++ text) := by
  have hvalue : numberText (ch ' ') 0 0 (BitVec.ofInt 32 n).toInt = fourDigits n := by
    rw [toInt_ofInt hlt, numeral_four (by decide) hge hlt]
  rw [← hvalue]
  exact directive (d := ⟨false, 0, [], ch 'd'⟩) rfl rfl h

/-- `%c`. -/
theorem character (n : ℤ) (h : Renders cfg fmt args text) :
    Renders cfg (ch '%' :: ch 'c' :: fmt) (int n :: args) (UInt8.ofNat (BitVec.ofInt 32 n).toNat :: text) :=
  directive (d := ⟨false, 0, [], ch 'c'⟩) (t := [UInt8.ofNat (BitVec.ofInt 32 n).toNat]) rfl rfl h

/-- `%s`. -/
theorem string {s : List Byte} (hs : (0 : Byte) ∉ s) (h : Renders cfg fmt args text) :
    Renders cfg (ch '%' :: ch 's' :: fmt) (str s :: args) (s ++ text) := by
  have htake : (s ++ [0]).takeWhile (· ≠ 0) = s := by
    have hall : ∀ c ∈ s, decide (c ≠ 0) = true := fun c hc => decide_eq_true fun h0 => hs (h0 ▸ hc)
    rw [List.takeWhile_append_of_pos hall]
    exact List.append_nil s
  have hmem : (0 : Byte) ∈ s ++ [0] := by simp
  have htext : Directive.argText cfg uint ⟨false, 0, [], ch 's'⟩ .start .s (str s) = some s := by
    simp only [str, Directive.argText, if_pos hmem, htake]
    rfl
  exact directive (d := ⟨false, 0, [], ch 's'⟩) rfl (congrArg (Option.map (·, args)) htext) h

end Renders

/-! ## Dates and times -/

/-- The names of the days, from Sunday on. -/
def weekdays : List (List Byte) :=
  [['S', 'u', 'n'], ['M', 'o', 'n'], ['T', 'u', 'e'], ['W', 'e', 'd'], ['T', 'h', 'u'], ['F', 'r', 'i'], ['S', 'a', 't']].map chars

/-- The names of the months. -/
def monthNames : List (List Byte) :=
  [['J', 'a', 'n'], ['F', 'e', 'b'], ['M', 'a', 'r'], ['A', 'p', 'r'], ['M', 'a', 'y'], ['J', 'u', 'n'], ['J', 'u', 'l'],
    ['A', 'u', 'g'], ['S', 'e', 'p'], ['O', 'c', 't'], ['N', 'o', 'v'], ['D', 'e', 'c']].map chars

section

variable (dt : DateTime) (offset : ℤ)

def weekdayName : List Byte := weekdays.getD dt.date.weekday []

def monthName : List Byte := monthNames.getD (dt.date.month - 1) []

/-- As in `06:00:00`. -/
def timeText : List Byte :=
  twoDigits dt.hour ++ ch ':' :: twoDigits dt.min ++ ch ':' :: twoDigits dt.sec

/-- As in `Mon, 28 Sep 1970 06:00:00 GMT`. -/
def httpText : List Byte :=
  weekdayName dt ++ chars [',', ' '] ++ twoDigits dt.date.day ++ ch ' ' :: monthName dt ++ ch ' ' :: fourDigits dt.date.year ++
    ch ' ' :: timeText dt ++ chars [' ', 'G', 'M', 'T']

/-- As in `1970/09/28 12:00:00`. -/
def errLogText : List Byte :=
  fourDigits dt.date.year ++ ch '/' :: twoDigits dt.date.month ++ ch '/' :: twoDigits dt.date.day ++ ch ' ' :: timeText dt

def offsetSign : Byte := if offset < 0 then ch '-' else ch '+'

/-- As in `28/Sep/1970:12:00:00 +0600`, with the offset from GMT in minutes. -/
def logText : List Byte :=
  twoDigits dt.date.day ++ ch '/' :: monthName dt ++ ch '/' :: fourDigits dt.date.year ++ ch ':' :: timeText dt ++ ch ' ' ::
    offsetSign offset :: twoDigits (offset.natAbs / 60) ++ twoDigits (offset.natAbs % 60)

/-- As in `1970-09-28T12:00:00+06:00`, with the offset from GMT in minutes. -/
def isoText : List Byte :=
  fourDigits dt.date.year ++ ch '-' :: twoDigits dt.date.month ++ ch '-' :: twoDigits dt.date.day ++ ch 'T' :: timeText dt ++
    offsetSign offset :: twoDigits (offset.natAbs / 60) ++ ch ':' :: twoDigits (offset.natAbs % 60)

end

/-! ## What the formats print -/

/-- A name of a table is a string. -/
theorem zero_notMem_getD {names : List (List Byte)} (hnames : ∀ s ∈ names, (0 : Byte) ∉ s) (i : ℕ) :
    (0 : Byte) ∉ names.getD i [] := by
  rw [List.getD_eq_getElem?_getD]
  cases hi : names[i]? with
  | none => exact List.not_mem_nil
  | some s => exact hnames s (List.mem_of_getElem? hi)

theorem zero_notMem_weekdayName (dt : DateTime) : (0 : Byte) ∉ weekdayName dt := zero_notMem_getD (by decide) _

theorem zero_notMem_monthName (dt : DateTime) : (0 : Byte) ∉ monthName dt := zero_notMem_getD (by decide) _

/-- The day and the month have two digits. -/
theorem day_month_lt (d : Date) : d.day < 100 ∧ d.month < 100 := by
  have := monthLength_le d.year d.month
  have := d.day_le
  have := d.month_le
  omega

theorem renders_time (dt : DateTime) (h : Renders cfg fmt args text) :
    Renders cfg (chars ['%', '0', '2', 'd', ':', '%', '0', '2', 'd', ':', '%', '0', '2', 'd'] ++ fmt)
      (int dt.hour :: int dt.min :: int dt.sec :: args) (timeText dt ++ text) := by
  have := dt.hour_lt
  have := dt.min_lt
  have := dt.sec_lt
  exact (((((h.zero_two (by omega)).char (c := ch ':') (by decide)).zero_two (by omega)).char (c := ch ':')
    (by decide)).zero_two (by omega))

theorem character_sign (offset : ℤ) :
    UInt8.ofNat (BitVec.ofInt 32 (if offset < 0 then '-' else '+').toNat).toNat = offsetSign offset := by
  unfold offsetSign
  split <;> decide

variable {dt : DateTime} (hge : 1000 ≤ dt.date.year) (hlt : dt.date.year < 10000)

include hge hlt

theorem renders_http :
    Renders cfg httpFormat
      [str (weekdayName dt), int dt.date.day, str (monthName dt), int dt.date.year, int dt.hour, int dt.min, int dt.sec]
      (httpText dt) := by
  have hgmt : Renders cfg (chars [' ', 'G', 'M', 'T']) [] (chars [' ', 'G', 'M', 'T']) :=
    (((Renders.nil.char (by decide)).char (by decide)).char (by decide)).char (by decide)
  have hyear := (((renders_time dt hgmt).char (c := ch ' ') (by decide)).four hge hlt).char (c := ch ' ') (by decide)
  have hmonth := (hyear.string (zero_notMem_monthName dt)).char (c := ch ' ') (by decide)
  have hday := ((hmonth.zero_two (day_month_lt dt.date).1).char (c := ch ' ') (by decide)).char (c := ch ',') (by decide)
  have htext := hday.string (zero_notMem_weekdayName dt)
  simp only [httpText, List.append_assoc, List.cons_append]
  exact htext

theorem renders_errLog :
    Renders cfg errLogFormat [int dt.date.year, int dt.date.month, int dt.date.day, int dt.hour, int dt.min, int dt.sec]
      (errLogText dt) := by
  obtain ⟨hday, hmonth⟩ := day_month_lt dt.date
  have htime := (renders_time dt (.nil : Renders cfg [] [] [])).char (c := ch ' ') (by decide)
  rw [List.append_nil] at htime
  exact ((((htime.zero_two hday).char (c := ch '/') (by decide)).zero_two hmonth).char (c := ch '/') (by decide)).four hge hlt

/-- Of the offset no more than the sign and the four digits are printed. -/
theorem renders_log {offset : ℤ} (hoffset : offset.natAbs < 6000) :
    Renders cfg httpLogFormat
      [int dt.date.day, str (monthName dt), int dt.date.year, int dt.hour, int dt.min, int dt.sec,
        int (if offset < 0 then '-' else '+').toNat, int (offset.natAbs / 60 : ℕ), int (offset.natAbs % 60 : ℕ)]
      (logText dt offset) := by
  obtain ⟨hday, -⟩ := day_month_lt dt.date
  have hdigits := (.nil : Renders cfg [] [] []).zero_two (show offset.natAbs % 60 < 100 by omega)
  have hoff := (hdigits.zero_two (show offset.natAbs / 60 < 100 by omega)).character (if offset < 0 then '-' else '+').toNat
  have hyear := ((renders_time dt (hoff.char (c := ch ' ') (by decide))).char (c := ch ':') (by decide)).number hge hlt
  have hmonth := ((hyear.char (c := ch '/') (by decide)).string (zero_notMem_monthName dt)).char (c := ch '/') (by decide)
  have htext := hmonth.zero_two hday
  rw [character_sign] at htext
  simp only [logText, List.append_assoc, List.cons_append]
  exact htext

theorem renders_iso {offset : ℤ} (hoffset : offset.natAbs < 6000) :
    Renders cfg iso8601Format
      [int dt.date.year, int dt.date.month, int dt.date.day, int dt.hour, int dt.min, int dt.sec,
        int (if offset < 0 then '-' else '+').toNat, int (offset.natAbs / 60 : ℕ), int (offset.natAbs % 60 : ℕ)]
      (isoText dt offset) := by
  obtain ⟨hday, hmonth⟩ := day_month_lt dt.date
  have hdigits := ((.nil : Renders cfg [] [] []).zero_two (show offset.natAbs % 60 < 100 by omega)).char (c := ch ':')
    (by decide)
  have hoff := (hdigits.zero_two (show offset.natAbs / 60 < 100 by omega)).character (if offset < 0 then '-' else '+').toNat
  have htime := ((renders_time dt hoff).char (c := ch 'T') (by decide)).zero_two hday
  have htext := ((((htime.char (c := ch '-') (by decide)).zero_two hmonth).char (c := ch '-') (by decide))).four hge hlt
  rw [character_sign] at htext
  simp only [isoText, List.append_assoc, List.cons_append]
  rw [List.append_nil] at htext
  exact htext

omit hge hlt

/-- A date, a time and an offset can be read off their text. -/
theorem isoText_inj {dt dt' : DateTime} {offset offset' : ℤ} (hyear : dt.date.year < 10000) (hyear' : dt'.date.year < 10000)
    (hoffset : offset.natAbs < 6000) (hoffset' : offset'.natAbs < 6000) (h : isoText dt offset = isoText dt' offset') :
    dt.instant = dt'.instant ∧ offset = offset' := by
  obtain ⟨hday, hmonth⟩ := day_month_lt dt.date
  obtain ⟨hday', hmonth'⟩ := day_month_lt dt'.date
  have := dt.hour_lt
  have := dt'.hour_lt
  have := dt.min_lt
  have := dt'.min_lt
  have := dt.sec_lt
  have := dt'.sec_lt
  simp only [isoText, timeText, List.append_assoc, List.cons_append] at h
  obtain ⟨hy, h⟩ := List.append_inj h rfl
  obtain ⟨hm, h⟩ := List.append_inj (List.cons.inj h).2 rfl
  obtain ⟨hd, h⟩ := List.append_inj (List.cons.inj h).2 rfl
  obtain ⟨hhour, h⟩ := List.append_inj (List.cons.inj h).2 rfl
  obtain ⟨hmin, h⟩ := List.append_inj (List.cons.inj h).2 rfl
  obtain ⟨hsec, h⟩ := List.append_inj (List.cons.inj h).2 rfl
  obtain ⟨hsign, h⟩ := List.cons.inj h
  obtain ⟨hohour, h⟩ := List.append_inj h rfl
  have homin := (List.cons.inj h).2
  rw [fourDigits_inj hyear hyear'] at hy
  rw [twoDigits_inj (by omega) (by omega)] at hm hd hhour hmin hsec hohour homin
  have hdate : dt.date = dt'.date := Date.ext hy hm hd
  refine ⟨by simp only [DateTime.instant, hdate, hhour, hmin, hsec], ?_⟩
  have hneg : offset < 0 ↔ offset' < 0 := by
    unfold offsetSign at hsign
    split_ifs at hsign with h₁ h₂ h₂
    · exact iff_of_true h₁ h₂
    · exact absurd hsign (by decide)
    · exact absurd hsign (by decide)
    · exact iff_of_false h₁ h₂
  omega

end CodingExercises.PeotrixNginx
