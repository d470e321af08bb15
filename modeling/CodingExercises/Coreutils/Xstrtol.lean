import Mathlib.Data.List.TakeWhile
import Mathlib.Data.Nat.Digits.Defs
import CodingExercises.Lib.Saturation
import CodingExercises.Coreutils.ModeChange

/-!
# coreutils: numbers with suffixes

`__xstrtol` of `lib/xstrtol.c`, for each type that the file is compiled for. `strtol` is the one of ISO C, in the C locale.

- `scaleBySuffix_eq`: every suffix scales as it should, but for `k`, which falls into the case of `M`;
- `scalesRight_iff`: so the number is right unless it shows.
-/

namespace CodingExercises.Coreutils

open Lib

/-! ## The program -/

/-- A type that `xstrtol.c` is compiled for: `__strtol_t`. -/
structure StrtolT where
  signed : Bool
  width : ℕ
  width_ge : 32 ≤ width

/-- `xstrtol`: `long int`. -/
def StrtolT.long : StrtolT := ⟨true, 64, by decide⟩

/-- `xstrtoul` and `xstrtoumax`: `unsigned long int` and `uintmax_t`. -/
def StrtolT.ulong : StrtolT := ⟨false, 64, by decide⟩

/-- `STRTOL_T_MINIMUM`. -/
def StrtolT.minimum (t : StrtolT) : ℤ := if t.signed then -2 ^ (t.width - 1) else 0

/-- `STRTOL_T_MAXIMUM`. -/
def StrtolT.maximum (t : StrtolT) : ℤ := if t.signed then 2 ^ (t.width - 1) - 1 else 2 ^ t.width - 1

/-- The value of the type that an integer is converted to. -/
def StrtolT.wrap (t : StrtolT) (x : ℤ) : ℤ := if t.signed then x.bmod (2 ^ t.width) else x % 2 ^ t.width

/-- `strtol_error`, some flags. -/
abbrev StrtolError := UInt32

/-- `LONGINT_OK`. -/
def longintOk : StrtolError := 0
/-- `LONGINT_OVERFLOW`. -/
def longintOverflow : StrtolError := 1
/-- `LONGINT_INVALID_SUFFIX_CHAR`. -/
def longintInvalidSuffixChar : StrtolError := 2
/-- `LONGINT_INVALID`. -/
def longintInvalid : StrtolError := 4

/-- `isspace` in the C locale. -/
def isspace (c : Byte) : Bool := c = 32 || 9 ≤ c && c ≤ 13

/-- What a digit or a letter stands for in a number. -/
def digitValue (c : Byte) : Option ℕ :=
  if byte '0' ≤ c ∧ c ≤ byte '9' then some (c.toNat - 48)
  else if byte 'a' ≤ c ∧ c ≤ byte 'z' then some (c.toNat - 97 + 10)
  else if byte 'A' ≤ c ∧ c ≤ byte 'Z' then some (c.toNat - 65 + 10)
  else none

/-- A digit in some base. -/
def isDigit (base : ℕ) (c : Byte) : Bool := (digitValue c).any (· < base)

/-- The base of a number and its digits, behind the sign. -/
def prefixed (base : ℕ) (s : List Byte) : ℕ × List Byte :=
  if (base = 0 ∨ base = 16) ∧ s.head? = some (byte '0') ∧ (s[1]? = some (byte 'x') ∨ s[1]? = some (byte 'X')) ∧
      s[2]?.any (isDigit 16) then (16, s.drop 2)
  else if base = 0 then (if s.head? = some (byte '0') then 8 else 10, s)
  else (base, s)

/-- The digits that a number starts with. -/
def digitsOf (base : ℕ) (s : List Byte) : ℕ :=
  (s.takeWhile (isDigit base)).foldl (fun n c => n * base + (digitValue c).getD 0) 0

/-- `strtol`: the value, `*endptr` and whether `errno` is `ERANGE`. -/
def strtol (t : StrtolT) (s : List Byte) (base : ℕ) : ℤ × List Byte × Bool :=
  let subject := s.dropWhile isspace
  let negative := subject.head? = some (byte '-')
  let (base, digits) :=
    prefixed base (if negative ∨ subject.head? = some (byte '+') then subject.tail else subject)
  if digits.head?.any (isDigit base) then
    let n : ℤ := digitsOf base digits
    let x := if negative then -n else n
    let rest := digits.dropWhile (isDigit base)
    if t.signed then (clamp t.minimum t.maximum x, rest, Outside t.minimum t.maximum x)
    else if t.maximum < n then (t.maximum, rest, true)
    else (t.wrap x, rest, false)
  else (0, s, false)

/-- `bkm_scale`: the value of `*x`, and the error. -/
def bkmScale (t : StrtolT) (x scaleFactor : ℤ) : ℤ × StrtolError :=
  if t.signed ∧ x < t.minimum.tdiv scaleFactor then (t.minimum, longintOverflow)
  else if t.maximum.tdiv scaleFactor < x then (t.maximum, longintOverflow)
  else (t.wrap (x * scaleFactor), longintOk)

/-- `bkm_scale_by_power`. -/
def bkmScaleByPower (t : StrtolT) (base : ℤ) : ℕ → ℤ → ℤ × StrtolError
  | 0, x => (x, longintOk)
  | power + 1, x =>
    let (x, err) := bkmScale t x base
    let (x, errs) := bkmScaleByPower t base power x
    (x, err ||| errs)

/-- The switch over the suffix: `tmp` and `overflow`, without a value in the default case. -/
def scaleBySuffix (t : StrtolT) (base tmp : ℤ) (suffix : Byte) : Option (ℤ × StrtolError) :=
  match Char.ofUInt8 suffix with
  | 'b' => some (bkmScale t tmp 512)
  | 'B' => some (bkmScale t tmp 1024)
  | 'c' => some (tmp, longintOk)
  | 'E' => some (bkmScaleByPower t base 6 tmp)
  | 'G' | 'g' => some (bkmScaleByPower t base 3 tmp)
  -- there is no `break` behind this one: the case of `M` follows, and sets `overflow` again
  | 'k' | 'K' => some (bkmScaleByPower t base 2 (bkmScaleByPower t base 1 tmp).1)
  | 'M' | 'm' => some (bkmScaleByPower t base 2 tmp)
  | 'P' => some (bkmScaleByPower t base 5 tmp)
  | 'T' | 't' => some (bkmScaleByPower t base 4 tmp)
  | 'w' => some (bkmScale t tmp 2)
  | 'Y' => some (bkmScaleByPower t base 8 tmp)
  | 'Z' => some (bkmScaleByPower t base 7 tmp)
  | _ => none

/-- The second suffix: `base` and `suffixes`. -/
def secondSuffix (validSuffixes rest : List Byte) : ℤ × ℕ :=
  if byte '0' ∈ validSuffixes then
    if rest.headD 0 = byte 'i' then (1024, if rest.tail.headD 0 = byte 'B' then 3 else 1)
    else if rest.headD 0 = byte 'B' ∨ rest.headD 0 = byte 'D' then (1000, 2)
    else (1024, 1)
  else (1024, 1)

/-- What `__xstrtol` does: what it returns, what it stores in `*ptr` (unless that is `NULL`) and in `*val`. -/
structure Xstrtol where
  err : StrtolError
  ptr : Option (List Byte)
  val : Option ℤ

/-- The part of `__xstrtol` behind `strtol`. -/
def xstrtolSuffix (t : StrtolT) (validSuffixes : Option (List Byte)) (p : List Byte) (tmp : ℤ) (err : StrtolError) : Xstrtol :=
  match validSuffixes, p with
  | none, _ => ⟨err, p, tmp⟩
  | some _, [] => ⟨err, p, tmp⟩
  | some valid, c :: rest =>
    if c ∉ valid then ⟨err ||| longintInvalidSuffixChar, p, tmp⟩
    else
      match scaleBySuffix t (secondSuffix valid rest).1 tmp c with
      | none => ⟨err ||| longintInvalidSuffixChar, p, tmp⟩
      | some (tmp, overflow) =>
        let p := p.drop (secondSuffix valid rest).2
        ⟨err ||| overflow ||| if p ≠ [] then longintInvalidSuffixChar else longintOk, p, tmp⟩

/-- `__xstrtol`. -/
def xstrtol (t : StrtolT) (s : List Byte) (strtolBase : ℕ) (validSuffixes : Option (List Byte)) : Xstrtol :=
  if t.signed = false ∧ (s.dropWhile isspace).head? = some (byte '-') then ⟨longintInvalid, none, none⟩
  else
    let (tmp, p, erange) := strtol t s strtolBase
    if p = s then
      if ∃ c ∈ p.head?, c ∈ validSuffixes.getD [] then xstrtolSuffix t validSuffixes p 1 longintOk
      else ⟨longintInvalid, p, none⟩
    else xstrtolSuffix t validSuffixes p tmp (if erange then longintOverflow else longintOk)

/-! ## What is expected -/

/-- The sign of a number. -/
inductive Sign
  | none
  | plus
  | minus
  deriving DecidableEq

/-- The sign as it is written. -/
def Sign.bytes : Sign → List Byte
  | .none => []
  | .plus => [byte '+']
  | .minus => [byte '-']

/-- The byte of a decimal digit. -/
def digitByte (d : Fin 10) : Byte := UInt8.ofNat (48 + d)

/-- A decimal number for the type `t`, in a string: blanks, a sign (a minus only if the type has one), digits of any length, and
what follows them. -/
structure Decimal (t : StrtolT) where
  blanks : List Byte
  blanks_isspace : ∀ c ∈ blanks, isspace c = true
  sign : Sign
  sign_signed : sign = .minus → t.signed = true
  digits : List (Fin 10)
  digits_ne : digits ≠ []
  rest : CString
  rest_start : ∀ c ∈ rest.bytes.head?, isDigit 10 c = false

namespace Decimal

variable {t : StrtolT} (d : Decimal t)

/-- The string. -/
def bytes : List Byte := d.blanks ++ (d.sign.bytes ++ (d.digits.map digitByte ++ d.rest.bytes))

/-- The number. -/
def number : ℤ :=
  let n : ℕ := Nat.ofDigits 10 (d.digits.reverse.map Fin.val)
  if d.sign = .minus then -n else n

end Decimal

/-- `1000` with a second suffix that says so, else `1024`. -/
def suffixBase (validSuffixes rest : List Byte) : ℤ :=
  if byte '0' ∈ validSuffixes ∧ (rest.head? = some (byte 'B') ∨ rest.head? = some (byte 'D')) then 1000 else 1024

/-- What a suffix letter multiplies by. -/
def multiplier (base : ℤ) (suffix : Byte) : Option ℤ :=
  match Char.ofUInt8 suffix with
  | 'b' => some 512
  | 'B' => some 1024
  | 'c' => some 1
  | 'w' => some 2
  | 'k' | 'K' => some (base ^ 1)
  | 'M' | 'm' => some (base ^ 2)
  | 'G' | 'g' => some (base ^ 3)
  | 'T' | 't' => some (base ^ 4)
  | 'P' => some (base ^ 5)
  | 'E' => some (base ^ 6)
  | 'Z' => some (base ^ 7)
  | 'Y' => some (base ^ 8)
  | _ => none

/-- The multiplier of what follows a number, if that starts with a suffix that is allowed. -/
def suffixMultiplier (validSuffixes : List Byte) : List Byte → Option ℤ
  | [] => none
  | c :: rest => if c ∈ validSuffixes then multiplier (suffixBase validSuffixes rest) c else none

/-- What is behind the suffix and a second one. -/
def behindSuffix (validSuffixes : List Byte) : List Byte → List Byte
  | [] => []
  | _ :: rest =>
    if byte '0' ∈ validSuffixes then
      if rest.head? = some (byte 'B') ∨ rest.head? = some (byte 'D') then rest.drop 1
      else if rest.take 2 = [byte 'i', byte 'B'] then rest.drop 2
      else rest
    else rest

/-- The flags of an error. -/
def StrtolError.Has (err flag : StrtolError) : Prop := err &&& flag ≠ 0

instance (err flag : StrtolError) : Decidable (err.Has flag) := inferInstanceAs (Decidable (_ ≠ _))

/-- The number times the multiplier is stored if it fits, and else the limit of the type. -/
structure ScalesRight {t : StrtolT} (valid : CString) (d : Decimal t) (r : Xstrtol) : Prop where
  val : r.val = some (clamp t.minimum t.maximum (d.number * (suffixMultiplier valid.bytes d.rest.bytes).getD 1))
  overflow : r.err.Has longintOverflow ↔
    Outside t.minimum t.maximum (d.number * (suffixMultiplier valid.bytes d.rest.bytes).getD 1)
  invalidSuffix : r.err.Has longintInvalidSuffixChar ↔ d.rest.bytes ≠ [] ∧
    (suffixMultiplier valid.bytes d.rest.bytes = none ∨ behindSuffix valid.bytes d.rest.bytes ≠ [])

/-- The suffix is an allowed `k`, and it shows that its case has no end. -/
def MissesBreak {t : StrtolT} (valid : CString) (d : Decimal t) : Prop :=
  ∃ c rest, d.rest.bytes = c :: rest ∧ c ∈ valid.bytes ∧ (c = byte 'k' ∨ c = byte 'K') ∧ d.number ≠ 0 ∧
    ¬Outside t.minimum t.maximum (d.number * suffixBase valid.bytes rest)

/-! ## Scaling -/

variable {t : StrtolT} {x k base : ℤ}

theorem StrtolT.minimum_nonpos (t : StrtolT) : t.minimum ≤ 0 := by
  have : (0 : ℤ) < 2 ^ (t.width - 1) := Int.pow_pos (by decide)
  unfold StrtolT.minimum
  split <;> omega

theorem StrtolT.maximum_pos (t : StrtolT) : 0 < t.maximum := by
  have hpow {m : ℕ} (hm : m ≠ 0) : (2 : ℤ) ≤ 2 ^ m := by
    have := Nat.le_self_pow hm 2
    exact_mod_cast this
  have := t.width_ge
  have := hpow (show t.width - 1 ≠ 0 by omega)
  have := hpow (show t.width ≠ 0 by omega)
  unfold StrtolT.maximum
  split <;> omega

theorem StrtolT.wrap_of_fits (h : ¬Outside t.minimum t.maximum x) : t.wrap x = x := by
  have hwidth := t.width_ge
  unfold Outside StrtolT.minimum StrtolT.maximum at h
  unfold StrtolT.wrap
  have hpow : (2 : ℤ) ^ t.width = 2 * 2 ^ (t.width - 1) := by
    rw [← Int.pow_succ', Nat.sub_add_cancel (by omega)]
  have hcast : ((2 ^ t.width : ℕ) : ℤ) = 2 ^ t.width := by norm_cast
  cases hsigned : t.signed with
  | true =>
    rw [hsigned, if_pos rfl, if_pos rfl] at h
    rw [if_pos rfl]
    refine Int.bmod_eq_of_le_mul_two ?_ ?_ <;> omega
  | false =>
    rw [hsigned, if_neg Bool.false_ne_true, if_neg Bool.false_ne_true] at h
    rw [if_neg Bool.false_ne_true]
    exact Int.emod_eq_of_lt (by omega) (by omega)

/-- What is stored for an integer, and the error. -/
def scaled (t : StrtolT) (x : ℤ) : ℤ × StrtolError :=
  (clamp t.minimum t.maximum x, if Outside t.minimum t.maximum x then longintOverflow else longintOk)

theorem scaled_fits (x : ℤ) : ¬Outside t.minimum t.maximum (scaled t x).1 :=
  not_outside_clamp (t.minimum_nonpos.trans t.maximum_pos.le) x

/-- What is stored can be scaled. -/
theorem scaled_scaled (hk : 1 ≤ k) (x : ℤ) :
    (scaled t ((scaled t x).1 * k)).1 = (scaled t (x * k)).1 ∧
      (scaled t x).2 ||| (scaled t ((scaled t x).1 * k)).2 = (scaled t (x * k)).2 := by
  refine ⟨clamp_clamp_mul t.minimum_nonpos t.maximum_pos.le hk x, ?_⟩
  have hiff := outside_mul_iff t.minimum_nonpos t.maximum_pos.le hk x
  unfold scaled
  dsimp only
  by_cases h : Outside t.minimum t.maximum x
  · rw [if_pos h, if_pos (hiff.mpr (.inl h))]
    split <;> rfl
  · rw [if_neg h, if_congr (hiff.trans (or_iff_right h)) rfl rfl]
    split <;> rfl

theorem bkmScale_eq (hx : ¬Outside t.minimum t.maximum x) (hk : 1 ≤ k) : bkmScale t x k = scaled t (x * k) := by
  have hmin := t.minimum_nonpos
  have hmax := t.maximum_pos
  unfold bkmScale scaled
  simp only [lt_tdiv_iff hmin hk, tdiv_lt_iff hmax.le hk]
  by_cases hlow : x * k < t.minimum
  · have hsigned : t.signed = true := by
      by_contra hunsigned
      have hzero : t.minimum = 0 := if_neg hunsigned
      have : 0 ≤ x * k := by
        refine Int.mul_nonneg ?_ (by omega)
        unfold Outside at hx
        omega
      omega
    rw [if_pos ⟨hsigned, hlow⟩, clamp_of_lt hlow, if_pos (.inl hlow)]
  · rw [if_neg fun h => hlow h.2]
    by_cases hhigh : t.maximum < x * k
    · rw [if_pos hhigh, clamp_of_gt (by omega) hhigh, if_pos (.inr hhigh)]
    · have hfits : ¬Outside t.minimum t.maximum (x * k) := not_or.mpr ⟨hlow, hhigh⟩
      rw [if_neg hhigh, t.wrap_of_fits hfits, clamp_of_not_outside hfits, if_neg hfits]

theorem bkmScaleByPower_eq (hbase : 1 ≤ base) (power : ℕ) (hx : ¬Outside t.minimum t.maximum x) :
    bkmScaleByPower t base power x = scaled t (x * base ^ power) := by
  induction power generalizing x with
  | zero =>
    rw [Int.pow_zero, Int.mul_one, scaled, clamp_of_not_outside hx, if_neg hx]
    rfl
  | succ power ih =>
    have hfits := scaled_fits (t := t) (x * base)
    have hpower : 1 ≤ base ^ power := Int.pow_pos hbase
    have hscaled := scaled_scaled (t := t) hpower (x * base)
    rw [Int.mul_assoc, ← Int.pow_succ'] at hscaled
    rw [bkmScaleByPower, bkmScale_eq hx hbase]
    dsimp only
    rw [ih hfits]
    exact Prod.ext hscaled.1 hscaled.2

/-- In the case of `k` the number is scaled by `base` and then, as in the case of `M`, by `base ^ 2`. -/
theorem bkmScaleByPower_twice (hbase : 2 ≤ base) (hx : ¬Outside t.minimum t.maximum x) :
    bkmScaleByPower t base 2 (bkmScaleByPower t base 1 x).1 = scaled t (x * base ^ 3) := by
  have hsquare : 2 ≤ base ^ 2 := by
    have := Int.mul_le_mul_of_nonneg_left hbase (by omega : 0 ≤ base)
    rw [pow_two]
    omega
  have hthree : x * base ^ 3 = x * base ^ 1 * base ^ 2 := by rw [Int.mul_assoc, ← Int.pow_add]
  rw [bkmScaleByPower_eq (by omega) 1 hx, bkmScaleByPower_eq (by omega) 2 (scaled_fits _), hthree]
  refine Prod.ext (scaled_scaled (by omega) _).1 (if_congr ?_ rfl rfl)
  exact outside_clamp_mul_iff t.minimum_nonpos t.maximum_pos hsquare (by rw [Int.pow_one]; omega) hx

theorem byte_ofUInt8 (c : Byte) : byte (Char.ofUInt8 c) = c := UInt8.ofNat_toNat

/-- The switch multiplies by what it should, but for `k`. -/
theorem scaleBySuffix_eq (hbase : 2 ≤ base) (hx : ¬Outside t.minimum t.maximum x) (c : Byte) :
    scaleBySuffix t base x c =
      (multiplier base c).map fun m => scaled t (x * if c = byte 'k' ∨ c = byte 'K' then base ^ 3 else m) := by
  have hpower := fun n => bkmScaleByPower_eq (t := t) (by omega : 1 ≤ base) n hx
  have htwice := bkmScaleByPower_twice hbase hx
  have hone : (x, longintOk) = scaled t (x * 1) := by
    rw [Int.mul_one, scaled, clamp_of_not_outside hx, if_neg hx]
  have hc := byte_ofUInt8 c
  unfold scaleBySuffix multiplier
  generalize Char.ofUInt8 c = letter at hc ⊢
  subst hc
  split
  · exact congrArg some (bkmScale_eq hx (by decide))
  · exact congrArg some (bkmScale_eq hx (by decide))
  · exact congrArg some hone
  · exact congrArg some (hpower 6)
  · exact congrArg some (hpower 3)
  · exact congrArg some (hpower 3)
  · exact congrArg some htwice
  · exact congrArg some htwice
  · exact congrArg some (hpower 2)
  · exact congrArg some (hpower 2)
  · exact congrArg some (hpower 5)
  · exact congrArg some (hpower 4)
  · exact congrArg some (hpower 4)
  · exact congrArg some (bkmScale_eq hx (by decide))
  · exact congrArg some (hpower 8)
  · exact congrArg some (hpower 7)
  · refine (Option.map_eq_none_iff.mpr ?_).symm
    split <;> first | rfl | contradiction

/-! ## The number -/

theorem exists_digitByte {c : Byte} (h : isDigit 10 c = true) : ∃ n : Fin 10, digitByte n = c := by
  obtain ⟨v, hv, hlt⟩ := (Option.any_eq_true _ _).1 h
  have hlt' : v < 10 := by simpa using hlt
  have hrange : 48 ≤ c.toNat ∧ c.toNat ≤ 57 := by
    rw [digitValue] at hv
    split at hv
    · next hc => exact ⟨UInt8.le_iff_toNat_le.1 hc.1, UInt8.le_iff_toNat_le.1 hc.2⟩
    split at hv
    · have := Option.some.inj hv
      omega
    split at hv
    · have := Option.some.inj hv
      omega
    · cases hv
  refine ⟨⟨c.toNat - 48, by omega⟩, ?_⟩
  have hc : 48 + (c.toNat - 48) = c.toNat := by omega
  rw [digitByte, hc, UInt8.ofNat_toNat]

theorem exists_digits {l : List Byte} (h : ∀ c ∈ l, isDigit 10 c = true) : ∃ ds : List (Fin 10), ds.map digitByte = l := by
  induction l with
  | nil => exact ⟨[], rfl⟩
  | cons c l ih =>
    obtain ⟨n, hn⟩ := exists_digitByte (h c List.mem_cons_self)
    obtain ⟨ds, hds⟩ := ih fun c hc => h c (List.mem_cons_of_mem _ hc)
    exact ⟨n :: ds, by rw [List.map_cons, hn, hds]⟩

namespace Decimal

variable {d : Decimal t} {s : List Byte}

theorem isDigit_digitByte (n : Fin 10) : isDigit 10 (digitByte n) = true := by
  revert n
  decide

theorem digitValue_digitByte (n : Fin 10) : digitValue (digitByte n) = some n.val := by
  revert n
  decide

theorem isspace_digitByte (n : Fin 10) : isspace (digitByte n) = false := by
  revert n
  decide

theorem digitByte_ne (n : Fin 10) : digitByte n ≠ byte '-' ∧ digitByte n ≠ byte '+' := by
  revert n
  decide

theorem foldl_digits (digits : List (Fin 10)) (n : ℕ) :
    (digits.map digitByte).foldl (fun n c => n * 10 + (digitValue c).getD 0) n =
      Nat.ofDigits 10 (digits.reverse.map Fin.val) + n * 10 ^ digits.length := by
  induction digits generalizing n with
  | nil => simp
  | cons m digits ih =>
    rw [List.map_cons, List.foldl_cons, digitValue_digitByte, ih, List.reverse_cons, List.map_append,
      Nat.ofDigits_append, List.length_map, List.length_reverse, List.length_cons, Nat.pow_succ]
    simp only [Option.getD_some, List.map_cons, List.map_nil, Nat.ofDigits_singleton]
    grind

/-- The digits end where `rest` starts. -/
theorem span_digits (d : Decimal t) : (d.digits.map digitByte ++ d.rest.bytes).takeWhile (isDigit 10) = d.digits.map digitByte ∧
    (d.digits.map digitByte ++ d.rest.bytes).dropWhile (isDigit 10) = d.rest.bytes := by
  have hdigits : ∀ c ∈ d.digits.map digitByte, isDigit 10 c = true := by
    intro c hc
    obtain ⟨n, -, rfl⟩ := List.mem_map.mp hc
    exact isDigit_digitByte n
  have hstart := d.rest_start
  cases hrest : d.rest.bytes with
  | nil =>
    rw [List.append_nil]
    exact ⟨List.takeWhile_eq_self_iff.mpr hdigits, List.dropWhile_eq_nil_iff.mpr hdigits⟩
  | cons c rest =>
    rw [hrest] at hstart
    have hc := hstart c rfl
    rw [List.takeWhile_append_of_pos hdigits, List.dropWhile_append_of_pos hdigits,
      List.takeWhile_cons_of_neg (by rw [hc]; decide), List.dropWhile_cons_of_neg (by rw [hc]; decide), List.append_nil]
    exact ⟨rfl, rfl⟩

/-- The digits start with one. -/
theorem digits_cons (d : Decimal t) : ∃ n s, d.digits.map digitByte ++ d.rest.bytes = digitByte n :: s := by
  obtain ⟨n, digits, hdigits⟩ := List.exists_cons_of_ne_nil d.digits_ne
  exact ⟨n, digits.map digitByte ++ d.rest.bytes, by rw [hdigits]; rfl⟩

theorem dropWhile_blanks (d : Decimal t) :
    d.bytes.dropWhile isspace = d.sign.bytes ++ (d.digits.map digitByte ++ d.rest.bytes) := by
  obtain ⟨n, s, hs⟩ := d.digits_cons
  rw [bytes, List.dropWhile_append_of_pos d.blanks_isspace, hs]
  cases d.sign with
  | none => exact List.dropWhile_cons_of_neg (by rw [isspace_digitByte]; decide)
  | plus => rfl
  | minus => rfl

theorem prefixed_ten (s : List Byte) : prefixed 10 s = (10, s) := by
  rw [prefixed, if_neg (by rintro ⟨h | h, -⟩ <;> cases h), if_neg (by decide)]

theorem digitsOf_digits (d : Decimal t) : digitsOf 10 (d.digits.map digitByte ++ d.rest.bytes) =
    Nat.ofDigits 10 (d.digits.reverse.map Fin.val) := by
  rw [digitsOf, d.span_digits.1, foldl_digits, Nat.zero_mul, Nat.add_zero]

/-- What `strtol` makes of the sign. -/
theorem sign_read (sign : Sign) {n : Fin 10} {digits : List Byte} (h : digits.head? = some (digitByte n)) :
    ((sign.bytes ++ digits).head? = some (byte '-') ↔ sign = .minus) ∧
      (if (sign.bytes ++ digits).head? = some (byte '-') ∨ (sign.bytes ++ digits).head? = some (byte '+') then
        (sign.bytes ++ digits).tail else sign.bytes ++ digits) = digits := by
  have hne := digitByte_ne n
  cases sign with
  | none =>
    rw [Sign.bytes, List.nil_append, h]
    exact ⟨⟨fun heq => absurd (Option.some.inj heq) hne.1, fun heq => by cases heq⟩,
      if_neg fun heq => heq.elim (fun heq => hne.1 (Option.some.inj heq)) fun heq => hne.2 (Option.some.inj heq)⟩
  | plus => exact ⟨⟨fun heq => absurd (Option.some.inj heq) (by decide), fun heq => by cases heq⟩, rfl⟩
  | minus => exact ⟨⟨fun _ => rfl, fun _ => rfl⟩, rfl⟩

/-- `strtol` reads the number, and stops behind it. -/
theorem strtol_bytes (d : Decimal t) : strtol t d.bytes 10 =
    (clamp t.minimum t.maximum d.number, d.rest.bytes, decide (Outside t.minimum t.maximum d.number)) := by
  obtain ⟨n, s, hs⟩ := d.digits_cons
  obtain ⟨hnegative, hbehind⟩ := sign_read d.sign (congrArg List.head? hs)
  have hdigit : (d.digits.map digitByte ++ d.rest.bytes).head?.any (isDigit 10) = true := by
    rw [hs]
    exact isDigit_digitByte n
  unfold strtol
  rw [d.dropWhile_blanks]
  dsimp only
  rw [hbehind, prefixed_ten]
  simp only [hnegative]
  rw [if_pos hdigit, d.digitsOf_digits, d.span_digits.2, number]
  cases hsigned : t.signed with
  | true => rfl
  | false =>
    have hplus : d.sign ≠ .minus := fun h => by
      rw [d.sign_signed h] at hsigned
      cases hsigned
    have hmin : t.minimum = 0 := by rw [StrtolT.minimum, hsigned]; rfl
    rw [if_neg Bool.false_ne_true, if_neg hplus]
    generalize Nat.ofDigits 10 (d.digits.reverse.map Fin.val) = n
    by_cases hmax : t.maximum < n
    · rw [if_pos hmax, clamp_of_gt (t.minimum_nonpos.trans t.maximum_pos.le) hmax, decide_eq_true (.inr hmax)]
    · have hfits : ¬Outside t.minimum t.maximum n := by
        unfold Outside
        omega
      rw [if_neg hmax, t.wrap_of_fits hfits, clamp_of_not_outside hfits, decide_eq_false hfits]

/-- What is behind `strtol` finds the number. -/
theorem xstrtol_bytes (d : Decimal t) (valid : Option (List Byte)) : xstrtol t d.bytes 10 valid =
    xstrtolSuffix t valid d.rest.bytes (scaled t d.number).1 (scaled t d.number).2 := by
  obtain ⟨n, s, hs⟩ := d.digits_cons
  have hnegative := (sign_read d.sign (congrArg List.head? hs)).1
  have hmoved : d.rest.bytes ≠ d.bytes := by
    intro h
    have hlength := congrArg List.length h
    have := List.length_pos_of_ne_nil d.digits_ne
    simp only [bytes, List.length_append, List.length_map] at hlength
    omega
  rw [xstrtol, if_neg, d.strtol_bytes]
  · dsimp only
    rw [if_neg hmoved, scaled]
    simp only [decide_eq_true_eq]
  · rw [d.dropWhile_blanks, hnegative]
    rintro ⟨hsigned, hminus⟩
    rw [d.sign_signed hminus] at hsigned
    cases hsigned

end Decimal

/-! ## The suffix -/

variable {valid rest : List Byte} {c : Byte}

theorem suffixBase_ge (valid rest : List Byte) : 2 ≤ suffixBase valid rest := by
  unfold suffixBase
  split <;> decide

/-- The second suffix is what it should be. -/
theorem secondSuffix_eq (valid rest : List Byte) (c : Byte) : (secondSuffix valid rest).1 = suffixBase valid rest ∧
    (c :: rest).drop (secondSuffix valid rest).2 = behindSuffix valid (c :: rest) := by
  by_cases hzero : byte '0' ∈ valid
  · cases rest with
    | nil =>
      have hsecond : secondSuffix valid [] = (1024, 1) := (if_pos hzero).trans (by decide)
      rw [hsecond]
      simp [suffixBase, behindSuffix]
    | cons e rest =>
      have hsecond : secondSuffix valid (e :: rest) = if e = byte 'i' then (1024, if rest.headD 0 = byte 'B' then 3 else 1)
          else if e = byte 'B' ∨ e = byte 'D' then (1000, 2) else (1024, 1) := if_pos hzero
      have hbase : suffixBase valid (e :: rest) = if e = byte 'B' ∨ e = byte 'D' then 1000 else 1024 := by
        simp [suffixBase, hzero]
      have hbehind : behindSuffix valid (c :: e :: rest) = if e = byte 'B' ∨ e = byte 'D' then rest
          else if (e :: rest).take 2 = [byte 'i', byte 'B'] then rest.drop 1 else e :: rest := by
        simp [behindSuffix, hzero]
      rw [hsecond, hbase, hbehind]
      by_cases hi : e = byte 'i'
      · have hother : ¬(e = byte 'B' ∨ e = byte 'D') := by
          rw [hi]
          decide
        have hB : rest.headD 0 = byte 'B' ↔ (e :: rest).take 2 = [byte 'i', byte 'B'] := by
          rw [hi]
          cases rest with
          | nil => decide
          | cons f rest => simp
        rw [if_pos hi, if_neg hother, if_neg hother]
        by_cases h : rest.headD 0 = byte 'B'
        · rw [if_pos h, if_pos (hB.mp h)]
          exact ⟨rfl, rfl⟩
        · rw [if_neg h, if_neg (mt hB.mpr h)]
          exact ⟨rfl, rfl⟩
      · rw [if_neg hi]
        by_cases hother : e = byte 'B' ∨ e = byte 'D'
        · rw [if_pos hother, if_pos hother, if_pos hother]
          exact ⟨rfl, rfl⟩
        · have hiB : (e :: rest).take 2 ≠ [byte 'i', byte 'B'] := fun h => hi (List.cons.inj h).1
          rw [if_neg hother, if_neg hother, if_neg hother, if_neg hiB]
          exact ⟨rfl, rfl⟩
  · simp [secondSuffix, suffixBase, behindSuffix, hzero]

/-- The two flags, which do not disturb each other. -/
theorem has_or {p q : Prop} [Decidable p] [Decidable q] {err : StrtolError}
    (h : err = (if p then longintOverflow else longintOk) ||| if q then longintInvalidSuffixChar else longintOk) :
    (err.Has longintOverflow ↔ p) ∧ (err.Has longintInvalidSuffixChar ↔ q) := by
  subst h
  by_cases hp : p <;> by_cases hq : q
  · rw [if_pos hp, if_pos hq]
    exact ⟨iff_of_true (by decide) hp, iff_of_true (by decide) hq⟩
  · rw [if_pos hp, if_neg hq]
    exact ⟨iff_of_true (by decide) hp, iff_of_false (by decide) hq⟩
  · rw [if_neg hp, if_pos hq]
    exact ⟨iff_of_false (by decide) hp, iff_of_true (by decide) hq⟩
  · rw [if_neg hp, if_neg hq]
    exact ⟨iff_of_false (by decide) hp, iff_of_false (by decide) hq⟩

theorem multiplier_pos {m : ℤ} (hbase : 1 ≤ base) (h : multiplier base c = some m) : 1 ≤ m := by
  have hpower : ∀ n : ℕ, 1 ≤ base ^ n := fun n => Int.pow_pos hbase
  unfold multiplier at h
  split at h
  all_goals cases h
  all_goals first | decide | exact hpower _

/-- What the program multiplies by. -/
def effectiveMultiplier (valid : List Byte) : List Byte → ℤ
  | [] => 1
  | c :: rest =>
    if c ∈ valid ∧ (c = byte 'k' ∨ c = byte 'K') then suffixBase valid rest ^ 3
    else (suffixMultiplier valid (c :: rest)).getD 1

/-- What is stored and returned. -/
theorem xstrtolSuffix_eq (valid p : List Byte) (n : ℤ) :
    let r := xstrtolSuffix t (some valid) p (scaled t n).1 (scaled t n).2
    r.val = some (scaled t (n * effectiveMultiplier valid p)).1 ∧
      r.err = (scaled t (n * effectiveMultiplier valid p)).2 |||
        if p ≠ [] ∧ (suffixMultiplier valid p = none ∨ behindSuffix valid p ≠ []) then longintInvalidSuffixChar
        else longintOk := by
  dsimp only
  cases p with
  | nil =>
    rw [effectiveMultiplier, Int.mul_one, if_neg fun h => h.1 rfl]
    exact ⟨rfl, (UInt32.or_zero).symm⟩
  | cons c rest =>
    have hne : c :: rest ≠ [] := List.cons_ne_nil c rest
    by_cases hc : c ∈ valid
    · have hmultiplier : suffixMultiplier valid (c :: rest) = multiplier (suffixBase valid rest) c := if_pos hc
      have hscale := scaleBySuffix_eq (suffixBase_ge valid rest) (scaled_fits (t := t) n) c
      unfold xstrtolSuffix effectiveMultiplier
      dsimp only
      rw [if_neg (not_not.mpr hc), (secondSuffix_eq valid rest c).2, (secondSuffix_eq valid rest c).1, hscale]
      cases hm : multiplier (suffixBase valid rest) c with
      | none =>
        rw [hm] at hmultiplier
        have hkilo : ¬(c ∈ valid ∧ (c = byte 'k' ∨ c = byte 'K')) := by
          rintro ⟨-, rfl | rfl⟩ <;> cases hm
        dsimp only [Option.map_none]
        rw [if_neg hkilo, if_pos ⟨hne, .inl hmultiplier⟩, hmultiplier, Option.getD_none, Int.mul_one]
        exact ⟨rfl, rfl⟩
      | some m =>
        rw [hm] at hmultiplier
        have hsome : suffixMultiplier valid (c :: rest) ≠ none := by
          rw [hmultiplier]
          exact Option.some_ne_none m
        have hbase := suffixBase_ge valid rest
        have heff : (if c ∈ valid ∧ (c = byte 'k' ∨ c = byte 'K') then suffixBase valid rest ^ 3
            else (suffixMultiplier valid (c :: rest)).getD 1) =
              if c = byte 'k' ∨ c = byte 'K' then suffixBase valid rest ^ 3 else m := by
          rw [hmultiplier, Option.getD_some]
          exact if_congr (and_iff_right hc) rfl rfl
        have hpos : 1 ≤ if c = byte 'k' ∨ c = byte 'K' then suffixBase valid rest ^ 3 else m := by
          split
          · exact Int.pow_pos (by omega)
          · exact multiplier_pos (by omega) hm
        rw [heff]
        dsimp only [Option.map_some]
        rw [(scaled_scaled hpos n).1, (scaled_scaled hpos n).2]
        have hinvalid : behindSuffix valid (c :: rest) ≠ [] ↔ c :: rest ≠ [] ∧
            (suffixMultiplier valid (c :: rest) = none ∨ behindSuffix valid (c :: rest) ≠ []) :=
          (or_iff_right hsome).symm.trans (and_iff_right hne).symm
        exact ⟨rfl, congrArg _ (if_congr hinvalid rfl rfl)⟩
    · have hmultiplier : suffixMultiplier valid (c :: rest) = none := if_neg hc
      unfold xstrtolSuffix effectiveMultiplier
      dsimp only
      rw [if_pos hc, if_neg (fun h => hc h.1), if_pos ⟨hne, .inl hmultiplier⟩, hmultiplier, Option.getD_none, Int.mul_one]
      exact ⟨rfl, rfl⟩

/-- The number is stored as it should be exactly if the missing end of a case does not show. -/
theorem scalesRight_iff (t : StrtolT) (valid : CString) (d : Decimal t) :
    ScalesRight valid d (xstrtol t d.bytes 10 (some valid.bytes)) ↔ ¬MissesBreak valid d := by
  have hmin := t.minimum_nonpos
  have hmax := t.maximum_pos
  rw [d.xstrtol_bytes]
  obtain ⟨hval, herr⟩ := xstrtolSuffix_eq (t := t) valid.bytes d.rest.bytes d.number
  obtain ⟨hoverflow, hinvalid⟩ := has_or herr
  generalize xstrtolSuffix t (some valid.bytes) d.rest.bytes _ _ = r at *
  have hright : ScalesRight valid d r ↔
      clamp t.minimum t.maximum (d.number * effectiveMultiplier valid.bytes d.rest.bytes) =
        clamp t.minimum t.maximum (d.number * (suffixMultiplier valid.bytes d.rest.bytes).getD 1) ∧
      (Outside t.minimum t.maximum (d.number * effectiveMultiplier valid.bytes d.rest.bytes) ↔
        Outside t.minimum t.maximum (d.number * (suffixMultiplier valid.bytes d.rest.bytes).getD 1)) := by
    constructor
    · intro h
      exact ⟨Option.some.inj (hval.symm.trans h.val), hoverflow.symm.trans h.overflow⟩
    · intro h
      exact ⟨hval.trans (congrArg some h.1), hoverflow.trans h.2, hinvalid⟩
  rw [hright]
  by_cases hkilo : ∃ c rest, d.rest.bytes = c :: rest ∧ c ∈ valid.bytes ∧ (c = byte 'k' ∨ c = byte 'K')
  · obtain ⟨c, rest, hrest, hc, hk⟩ := hkilo
    have hbase := suffixBase_ge valid.bytes rest
    have heff : effectiveMultiplier valid.bytes d.rest.bytes = suffixBase valid.bytes rest * suffixBase valid.bytes rest ^ 2 := by
      rw [hrest, effectiveMultiplier, if_pos ⟨hc, hk⟩, ← Int.pow_succ']
    have hexpected : (suffixMultiplier valid.bytes d.rest.bytes).getD 1 = suffixBase valid.bytes rest := by
      have hmultiplier : multiplier (suffixBase valid.bytes rest) c = some (suffixBase valid.bytes rest ^ 1) := by
        obtain rfl | rfl := hk <;> rfl
      rw [hrest, suffixMultiplier, if_pos hc, hmultiplier, Option.getD_some, Int.pow_one]
    have hsquare : 2 ≤ suffixBase valid.bytes rest ^ 2 := by
      have := Int.mul_le_mul_of_nonneg_left hbase (by omega : 0 ≤ suffixBase valid.bytes rest)
      rw [pow_two]
      omega
    rw [heff, hexpected, ← Int.mul_assoc, clamp_mul_eq_iff hmin hmax.le hsquare, Int.mul_eq_zero,
      or_iff_left (by omega : suffixBase valid.bytes rest ≠ 0)]
    constructor
    · rintro h ⟨c', rest', hrest', -, -, hne, hfits⟩
      rw [hrest] at hrest'
      cases hrest'
      exact h.elim hne hfits
    · intro h
      by_contra hnot
      exact h ⟨c, rest, hrest, hc, hk, not_or.mp hnot⟩
  · have heff : effectiveMultiplier valid.bytes d.rest.bytes = (suffixMultiplier valid.bytes d.rest.bytes).getD 1 := by
      cases hrest : d.rest.bytes with
      | nil => rfl
      | cons c rest => exact if_neg fun h => hkilo ⟨c, rest, hrest, h⟩
    rw [heff]
    exact iff_of_true ⟨rfl, .rfl⟩ fun ⟨c, rest, hrest, hc, hk, _⟩ => hkilo ⟨c, rest, hrest, hc, hk⟩

/-- `1k`. -/
def oneKilo : Decimal .long where
  blanks := []
  blanks_isspace := List.forall_mem_nil _
  sign := .none
  sign_signed := fun h => by cases h
  digits := [1]
  digits_ne := List.cons_ne_nil _ _
  rest := ⟨[byte 'k'], by decide⟩
  rest_start := fun c h => by cases h; decide

/-- `1k` is read as `1073741824`. -/
theorem not_scalesRight_oneKilo :
    ¬ScalesRight ⟨[byte 'k'], by decide⟩ oneKilo (xstrtol .long oneKilo.bytes 10 (some [byte 'k'])) := by
  intro h
  exact absurd h.val (by decide)

end CodingExercises.Coreutils
