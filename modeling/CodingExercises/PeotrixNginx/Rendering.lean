import Mathlib.Data.Nat.Digits.Lemmas
import CodingExercises.PeotrixNginx.Format

/-!
# Peotrix on nginx: what a format is rendered to

- A format is cut into characters and directives (`pieces`); it may end inside of a directive. `render` is its text with the
  arguments, for a way to read the widths of numbers.
- The digits of every number of 64 bits fit into `temp` (`tempDigits_eq`), and an argument is written as far as there is
  room (`printArg_eq`).
-/

namespace CodingExercises.PeotrixNginx

/-! ## Directives -/

/-- What stands behind a `%`: the width with a zero before it or not, the flags `u`, `m`, `X`, `x` and `*`, and the
character that says what is converted. -/
structure Directive where
  zero : Bool
  width : ℕ
  flags : List Byte
  conv : Byte
deriving DecidableEq

def isFlag (c : Byte) : Bool := c = ch 'u' || c = ch 'm' || c = ch 'X' || c = ch 'x' || c = ch '*'

def decimal (ds : List Byte) : ℕ := ds.foldl (fun n c => n * 10 + (c.toNat - 48)) 0

/-- The directive at the start of a text, unless the text ends before it does. A point behind the flags is passed over, and
stands for itself if there is a digit behind it. -/
def Directive.parse (s : List Byte) : Option (Directive × List Byte) :=
  let zero := s.headD 0 = ch '0'
  let width := decimal (s.takeWhile isDigit)
  let flags := (s.dropWhile isDigit).takeWhile isFlag
  match (s.dropWhile isDigit).dropWhile isFlag with
  | [] => none
  | c :: rest =>
    if c = ch '.' then
      match rest with
      | [] => none
      | d :: rest' => if isDigit d then some (⟨zero, width, flags, c⟩, d :: rest') else some (⟨zero, width, flags, d⟩, rest')
    else some (⟨zero, width, flags, c⟩, rest)

/-- What the flags set, each `*` with an argument. -/
def Flags.read : Flags → List Byte → List Arg → Option (Flags × List Arg)
  | fl, [], args => some (fl, args)
  | fl, c :: cs, args =>
    if c = ch 'u' then Flags.read { fl with sign := false } cs args
    else if c = ch 'm' then Flags.read { fl with maxWidth := true } cs args
    else if c = ch 'X' then Flags.read { fl with hex := 2, sign := false } cs args
    else if c = ch 'x' then Flags.read { fl with hex := 1, sign := false } cs args
    else
      match args with
      | .long slen :: args => Flags.read { fl with slen := slen.toNat } cs args
      | _ => none

/-! ## The text of an argument -/

/-- The number that an argument is. -/
def integer (sign : Bool) : Conv → Arg → Option ℤ
  | .O, .long n | .T, .long n | .r, .long n => some n.toInt
  | .P, .int n => some n.toInt
  | .M, .int n => some (if n.toInt = -1 then -1 else n.toNat)
  | .z, .long n | .l, .long n | .L, .long n => some (if sign then n.toInt else n.toNat)
  | .i, .int n | .d, .int n | .D, .int n | .A, .int n => some (if sign then n.toInt else n.toNat)
  | .p, .pointer n => some n.toNat
  | _, _ => none

/-- The numeral for a number: decimal, or hexadecimal with small or large letters. -/
def numeralIn (base : ℕ) (digit : ℕ → Byte) (n : ℕ) : List Byte :=
  if n = 0 then [digit 0] else ((base.digits n).map digit).reverse

def numeral (hex n : ℕ) : List Byte :=
  if hex = 0 then numeralIn 10 decimalDigit n
  else if hex = 1 then numeralIn 16 hexDigit n
  else numeralIn 16 hexDigitUpper n

def padded (zero : Byte) (width : ℕ) (text : List Byte) : List Byte :=
  List.replicate (width - text.length) zero ++ text

/-- A number, padded behind its sign. -/
def numberText (zero : Byte) (hex width : ℕ) (n : ℤ) : List Byte :=
  (if n < 0 then [ch '-'] else []) ++ padded zero width (numeral hex n.natAbs)

namespace Directive

variable (cfg : Config) (widths : ℕ → ℕ) (d : Directive) (fl : Flags)

def pad : Byte := if d.zero then ch '0' else ch ' '

/-- The width of a number. -/
def numberWidth : Conv → ℕ
  | .p => cfg.ptrSize * 2
  | .i => if fl.maxWidth then cfg.intTLen else widths d.width
  | .A => if fl.maxWidth then atomicTLen else widths d.width
  | _ => widths d.width

/-- An argument as a number; a pointer has its own form. -/
def integerText (cv : Conv) (arg : Arg) : Option (List Byte) :=
  (integer fl.sign cv arg).map fun n =>
    if cv = .p then numberText (ch '0') 2 (d.numberWidth cfg widths fl cv) n
    else numberText d.pad fl.hex (d.numberWidth cfg widths fl cv) n

def argText (cv : Conv) : Arg → Option (List Byte)
  | .string str => if cv = .V then some str else none
  | .value vv => if cv = .v then some vv else none
  | .chars p =>
    if cv = .s then
      if fl.slen = noLength then if (0 : Byte) ∈ p then some (p.takeWhile (· ≠ 0)) else none
      else if fl.slen ≤ p.length then some (p.take fl.slen) else none
    else none
  | .double f =>
    if cv = .f then
      some ((if f.negative then [ch '-'] else []) ++ padded d.pad (widths d.width) (numeral 0 f.whole.toNat))
    else none
  | .int n => if cv = .c then some [UInt8.ofNat n.toNat] else d.integerText cfg widths fl cv (.int n)
  | arg => d.integerText cfg widths fl cv arg

/-- The text of a directive, and the arguments behind those it takes. -/
def text (args : List Arg) : Option (List Byte × List Arg) :=
  match Flags.start.read d.flags args with
  | none => none
  | some (fl, args) =>
    match Conv.ofByte d.conv with
    | none => some ([d.conv], args)
    | some .Z => some ([0], args)
    | some .N => some ([10], args)
    | some .percent => some ([ch '%'], args)
    | some cv =>
      match args with
      | [] => none
      | arg :: args => (d.argText cfg widths fl cv arg).map (·, args)

end Directive

/-! ## Formats -/

inductive Piece
  | char (c : Byte)
  | directive (d : Directive)

theorem length_dropWhile_le {α : Type*} (p : α → Bool) (s : List α) : (s.dropWhile p).length ≤ s.length :=
  (List.dropWhile_sublist p).length_le

theorem Directive.length_parse {s rest : List Byte} {d : Directive} (h : parse s = some (d, rest)) :
    rest.length < s.length := by
  have h₁ := length_dropWhile_le isDigit s
  have h₂ := length_dropWhile_le isFlag (s.dropWhile isDigit)
  unfold parse at h
  dsimp only at h
  generalize (s.dropWhile isDigit).dropWhile isFlag = t at h h₂
  split at h
  case h_1 => cases h
  case h_2 c t =>
    rw [List.length_cons] at h₂
    split at h
    case isTrue =>
      split at h
      case h_1 => cases h
      case h_2 =>
        rw [List.length_cons] at h₂
        split at h <;> cases h
        · rw [List.length_cons]
          omega
        · omega
    case isFalse =>
      cases h
      omega

/-- The pieces of a format, and whether it ends behind them; if not, it ends inside of a directive. -/
def pieces (fmt : List Byte) : List Piece × Bool :=
  match fmt with
  | [] => ([], true)
  | c :: s =>
    if c = ch '%' then
      match _h : Directive.parse s with
      | none => ([], false)
      | some (d, rest) =>
        let (ps, complete) := pieces rest
        (.directive d :: ps, complete)
    else
      let (ps, complete) := pieces s
      (.char c :: ps, complete)
termination_by fmt.length
decreasing_by
  · exact Nat.lt_succ_of_lt (Directive.length_parse ‹_›)
  · exact Nat.lt_succ_self _

theorem pieces_nil : pieces [] = ([], true) := by rw [pieces]

theorem pieces_char {c : Byte} (h : c ≠ ch '%') (s : List Byte) :
    pieces (c :: s) = (.char c :: (pieces s).1, (pieces s).2) := by
  rw [pieces, if_neg h]

theorem pieces_directive {s rest : List Byte} {d : Directive} (h : Directive.parse s = some (d, rest)) :
    pieces (ch '%' :: s) = (.directive d :: (pieces rest).1, (pieces rest).2) := by
  rw [pieces, if_pos rfl]
  split
  case h_1 h' =>
    rw [h] at h'
    cases h'
  case h_2 h' =>
    rw [h] at h'
    cases h'
    rfl

theorem pieces_end {s : List Byte} (h : Directive.parse s = none) : pieces (ch '%' :: s) = ([], false) := by
  rw [pieces, if_pos rfl]
  split
  case h_1 => rfl
  case h_2 h' =>
    rw [h] at h'
    cases h'

/-- The text of the pieces, if the arguments match them. -/
def render (cfg : Config) (widths : ℕ → ℕ) : List Piece → List Arg → Option (List Byte)
  | [], _ => some []
  | .char c :: ps, args => (render cfg widths ps args).map (c :: ·)
  | .directive d :: ps, args =>
    match d.text cfg widths args with
    | none => none
    | some (t, args) => (render cfg widths ps args).map (t ++ ·)

/-- The directive ends before the format does. -/
def Complete (fmt : List Byte) : Prop := (pieces fmt).2 = true

/-- The directive is for a number, and its width is that which is written. -/
def Directive.usesWidth (d : Directive) : Bool :=
  match Conv.ofByte d.conv with
  | some .i | some .A => !d.flags.contains (ch 'm')
  | some .O | some .P | some .T | some .M | some .z | some .d | some .l | some .D | some .L | some .f | some .r => true
  | _ => false

/-- No number has a width from 2^32 on. -/
def Narrow (fmt : List Byte) : Prop :=
  ∀ d : Directive, .directive d ∈ (pieces fmt).1 → d.usesWidth = true → d.width < 4294967296

/-! ## Numbers -/

theorem numeralIn_lt {base n : ℕ} (digit : ℕ → Byte) (h : n < base) : numeralIn base digit n = [digit n] := by
  unfold numeralIn
  split
  case isTrue hn => rw [hn]
  case isFalse hn =>
    rw [Nat.digits_of_lt base n hn h]
    rfl

theorem numeralIn_ge {base n : ℕ} (digit : ℕ → Byte) (hbase : 1 < base) (h : base ≤ n) :
    numeralIn base digit n = numeralIn base digit (n / base) ++ [digit (n % base)] := by
  have hpos : 0 < n := by omega
  have hdiv : n / base ≠ 0 := (Nat.div_pos h (by omega)).ne'
  unfold numeralIn
  rw [if_neg hpos.ne', if_neg hdiv, Nat.digits_def' hbase hpos]
  simp

/-- Enough cells hold the digits of a number. -/
theorem digitsLoop_eq {base : ℕ} (digit : ℕ → Byte) (hbase : 1 < base) {cells n : ℕ} (p : List Byte)
    (h : n < base ^ (cells + 1)) :
    digitsLoop (· % base) (· / base) digit (cells + 1) n p = .ok (numeralIn base digit n ++ p) := by
  induction cells generalizing n p with
  | zero =>
    rw [Nat.zero_add, pow_one] at h
    rw [digitsLoop, if_pos (Nat.div_eq_of_lt h), numeralIn_lt digit h, Nat.mod_eq_of_lt h]
    rfl
  | succ cells ih =>
    rcases Nat.lt_or_ge n base with hlt | hge
    · rw [digitsLoop, if_pos (Nat.div_eq_of_lt hlt), numeralIn_lt digit hlt, Nat.mod_eq_of_lt hlt]
      rfl
    · have hdiv : n / base ≠ 0 := (Nat.div_pos hge (by omega)).ne'
      have hlt : n / base < base ^ (cells + 1) := Nat.div_lt_of_lt_mul (by rwa [← pow_succ'])
      rw [digitsLoop, if_neg hdiv, ih _ hlt, numeralIn_ge digit hbase hge]
      simp

theorem length_numeralIn {base : ℕ} (digit : ℕ → Byte) (hbase : 1 < base) {cells n : ℕ} (h : n < base ^ (cells + 1)) :
    (numeralIn base digit n).length ≤ cells + 1 := by
  induction cells generalizing n with
  | zero =>
    rw [Nat.zero_add, pow_one] at h
    rw [numeralIn_lt digit h]
    rfl
  | succ cells ih =>
    rcases Nat.lt_or_ge n base with hlt | hge
    · rw [numeralIn_lt digit hlt]
      exact Nat.succ_le_succ (Nat.zero_le _)
    · have hlt : n / base < base ^ (cells + 1) := Nat.div_lt_of_lt_mul (by rwa [← pow_succ'])
      rw [numeralIn_ge digit hbase hge, List.length_append, List.length_singleton]
      exact Nat.succ_le_succ (ih hlt)

theorem lt_pow_int64Len {base n : ℕ} (hbase : 10 ≤ base) (h : n < 2 ^ 64) : n < base ^ (19 + 1) :=
  h.trans_le ((by norm_num : 2 ^ 64 ≤ 10 ^ 20).trans (Nat.pow_le_pow_left hbase 20))

/-- Every number of 64 bits fits into the cells. -/
theorem tempDigits_eq {n : ℕ} (hex : ℕ) (h : n < 2 ^ 64) : tempDigits n hex = .ok (numeral hex n) := by
  have hlow : (fun n => n &&& 0xf) = fun n => n % 16 := by
    funext n
    exact Nat.and_two_pow_sub_one_eq_mod n 4
  have hhigh : (fun n => n >>> 4) = fun n => n / 16 := by
    funext n
    exact Nat.shiftRight_eq_div_pow n 4
  have h10 : digitsLoop (· % 10) (· / 10) decimalDigit int64Len n [] = .ok (numeralIn 10 decimalDigit n) := by
    rw [int64Len, digitsLoop_eq decimalDigit (by decide) [] (lt_pow_int64Len (by decide) h), List.append_nil]
  have h16 : ∀ digit, digitsLoop (· &&& 0xf) (· >>> 4) digit int64Len n [] = .ok (numeralIn 16 digit n) := by
    intro digit
    rw [hlow, hhigh, int64Len, digitsLoop_eq digit (by decide) [] (lt_pow_int64Len (by decide) h), List.append_nil]
  unfold tempDigits numeral
  split
  · split
    case isTrue hle =>
      rw [Nat.mod_eq_of_lt (Nat.lt_succ_of_le hle)]
      exact h10
    case isFalse => exact h10
  · split
    · exact h16 hexDigit
    · exact h16 hexDigitUpper

theorem length_numeral {n : ℕ} (hex : ℕ) (h : n < 2 ^ 64) : (numeral hex n).length ≤ 20 := by
  unfold numeral
  split
  · exact length_numeralIn decimalDigit (by decide) (lt_pow_int64Len (by decide) h)
  · split
    · exact length_numeralIn hexDigit (by decide) (lt_pow_int64Len (by decide) h)
    · exact length_numeralIn hexDigitUpper (by decide) (lt_pow_int64Len (by decide) h)

/-! ## As much as there is room for -/

variable {room : ℕ} {out : List Byte}

theorem append_take (h : out.length ≤ room) (text : List Byte) :
    out ++ text.take (room - out.length) = (out ++ text).take room := by
  rw [List.take_append, List.take_of_length_le h]

theorem take_append_take (a b : List Byte) : (a.take room ++ b).take room = (a ++ b).take room := by
  rw [List.take_append, List.take_append, List.take_take, Nat.min_self, List.length_take]
  congr 2
  omega

theorem put_eq (h : out.length < room) (c : Byte) : put room out c = .ok (out ++ [c]) := if_pos h

theorem cpymem_eq (h : out.length ≤ room) (text : List Byte) :
    cpymem room out (text.take (room - out.length)) = .ok ((out ++ text).take room) := by
  rw [cpymem, if_pos (by rw [List.length_take]; omega), append_take h]

theorem paddingLoop_eq (zero : Byte) (h : out.length ≤ room) (n : ℕ) :
    paddingLoop room zero n out = .ok ((out ++ List.replicate n zero).take room) := by
  induction n generalizing out with
  | zero => rw [paddingLoop, List.replicate_zero, List.append_nil, List.take_of_length_le h]
  | succ n ih =>
    rw [paddingLoop]
    split
    case isTrue hlt =>
      rw [put_eq hlt]
      dsimp only
      rw [ih (by rw [List.length_append, List.length_singleton]; exact hlt), List.append_assoc, List.replicate_succ]
      rfl
    case isFalse hlt =>
      rw [List.take_append, List.take_of_length_le h, show room - out.length = 0 by omega, List.take_zero,
        List.append_nil]

theorem sprintfNum_eq (h : out.length ≤ room) {n : ℕ} (hn : n < 2 ^ 64) (zero : Byte) (hex width : ℕ) :
    sprintfNum room out n zero hex width = .ok ((out ++ padded zero width (numeral hex n)).take room) := by
  rw [sprintfNum, tempDigits_eq hex hn]
  dsimp only
  rw [paddingLoop_eq zero h]
  dsimp only
  generalize numeral hex n = p
  have hlen : ((out ++ List.replicate (width - p.length) zero).take room).length ≤ room := by
    rw [List.length_take]
    exact Nat.min_le_left _ _
  have hcopy := cpymem_eq hlen p
  rw [take_append_take, List.append_assoc] at hcopy
  rw [padded, ← hcopy]
  congr 1
  split
  case isTrue => rfl
  case isFalse =>
    rw [List.take_of_length_le (Nat.le_refl _), List.take_of_length_le (by omega)]

/-! ## The cases of a conversion -/

/-- The number that is printed. -/
def Number.value (n : Number) : ℤ := if n.sign then n.i64 else n.ui64

theorem Number.value_ofBits {w : ℕ} (sign : Bool) (i : BitVec w) (zero : Byte) (hex width : ℕ) :
    (Number.ofBits sign i zero hex width).value = if sign then i.toInt else i.toNat := by
  cases sign <;> rfl

theorem natAbs_value_ofBits {w : ℕ} (hw : w ≤ 64) (sign : Bool) (i : BitVec w) (zero : Byte) (hex width : ℕ) :
    (Number.ofBits sign i zero hex width).value.natAbs < 2 ^ 64 := by
  have hpow : 2 ^ w ≤ 2 ^ 64 := Nat.pow_le_pow_right (by decide) hw
  have hlt : i.toNat < 2 ^ 64 := i.isLt.trans_le hpow
  rw [Number.value_ofBits]
  cases sign with
  | false => simpa using hlt
  | true =>
    rw [if_pos rfl, BitVec.toInt_eq_toNat_cond]
    have := i.isLt
    split <;> omega

theorem length_le_of_lt (h : out.length < room) (c : Byte) : (out ++ [c]).length ≤ room := by
  rw [List.length_append, List.length_singleton]
  exact h

theorem Number.print_eq (h : out.length < room) {n : Number} (hn : n.value.natAbs < 2 ^ 64) :
    n.print room out = .ok ((out ++ numberText n.zero n.hex n.width n.value).take room) := by
  unfold Number.print numberText
  unfold Number.value at hn ⊢
  split
  case isTrue hsign =>
    rw [if_pos hsign] at hn
    split
    case isTrue hneg =>
      rw [put_eq h]
      dsimp only
      have hnat : (-n.i64).toNat = n.i64.natAbs := by omega
      rw [hnat, sprintfNum_eq (length_le_of_lt h _) hn, List.append_assoc]
    case isFalse hneg =>
      have hnat : n.i64.toNat = n.i64.natAbs := by omega
      rw [hnat, sprintfNum_eq h.le hn]
      rfl
  case isFalse hsign =>
    rw [if_neg hsign] at hn
    rw [sprintfNum_eq h.le (by simpa using hn), if_neg (by omega)]
    rfl

/-- A `case` for a number reads the number, and keeps its form. -/
theorem number_spec (cfg : Config) (widths : ℕ → ℕ) (d : Directive) (fl : Flags) {cv : Conv} {arg : Arg} {v : ℤ}
    (h : integer fl.sign cv arg = some v) :
    ∃ n, cfg.number fl d.pad (widths d.width) cv arg = some n ∧ n.value = v ∧ n.value.natAbs < 2 ^ 64 ∧
      n.zero = (if cv = .p then ch '0' else d.pad) ∧ n.hex = (if cv = .p then 2 else fl.hex) ∧
      n.width = d.numberWidth cfg widths fl cv := by
  have hbits : ∀ {w : ℕ} (hw : w ≤ 64) (sign : Bool) (i : BitVec w) (zero : Byte) (hex width : ℕ),
      (if sign then i.toInt else i.toNat) = v →
      ∃ n, some (Number.ofBits sign i zero hex width) = some n ∧ n.value = v ∧ n.value.natAbs < 2 ^ 64 ∧
        n.zero = zero ∧ n.hex = hex ∧ n.width = width := by
    intro w hw sign i zero hex width hv
    refine ⟨_, rfl, (Number.value_ofBits ..).trans hv, natAbs_value_ofBits hw .., ?_, ?_, ?_⟩
    all_goals cases sign <;> rfl
  cases cv <;> cases arg <;> simp only [integer, reduceCtorEq, Option.some.injEq] at h
  case M.int ms =>
    subst h
    refine ⟨_, rfl, ?_⟩
    split
    case isTrue => exact ⟨rfl, (by norm_num : (-1 : ℤ).natAbs < 2 ^ 64), rfl, rfl, rfl⟩
    case isFalse => exact ⟨rfl, by simpa [Number.value] using ms.isLt.trans (by norm_num), rfl, rfl, rfl⟩
  all_goals exact hbits (by decide) _ _ _ _ _ h

theorem integerText_eq (cfg : Config) (d : Directive) (fl : Flags) (widths : ℕ → ℕ) (h : out.length < room) {cv : Conv}
    {arg : Arg} {t : List Byte} (ht : d.integerText cfg widths fl cv arg = some t) :
    ∃ n, cfg.number fl d.pad (widths d.width) cv arg = some n ∧ n.print room out = .ok ((out ++ t).take room) := by
  obtain ⟨v, hv, rfl⟩ := Option.map_eq_some_iff.mp ht
  obtain ⟨n, hn, rfl, habs, hzero, hhex, hwidth⟩ := number_spec cfg widths d fl hv
  refine ⟨n, hn, ?_⟩
  rw [Number.print_eq h habs, hzero, hhex, hwidth]
  split <;> rfl

theorem copyLoop_eq {p : List Byte} (h : out.length ≤ room) (hp : (0 : Byte) ∈ p) :
    copyLoop room p out = .ok ((out ++ p.takeWhile (· ≠ 0)).take room) := by
  induction p generalizing out with
  | nil => cases hp
  | cons c p ih =>
    rw [copyLoop, List.takeWhile_cons]
    by_cases hc : c = 0
    · rw [if_neg (fun hcond => hcond.1 hc), hc]
      simp [List.take_of_length_le h]
    · have hp' : (0 : Byte) ∈ p := (List.mem_cons.mp hp).resolve_left fun h0 => hc h0.symm
      by_cases hlt : out.length < room
      · rw [if_pos ⟨hc, hlt⟩, put_eq hlt]
        dsimp only
        rw [ih (length_le_of_lt hlt c) hp', List.append_assoc, if_pos (by simpa using hc)]
        rfl
      · rw [if_neg (fun hcond => hlt hcond.2), List.take_append, List.take_of_length_le h,
          show room - out.length = 0 by omega, List.take_zero, List.append_nil]

theorem Double.print_eq (h : out.length < room) (f : Double) (zero : Byte) (width : ℕ) :
    f.print room out zero width 0 = .ok ((out ++ ((if f.negative then [ch '-'] else []) ++
      padded zero width (numeral 0 f.whole.toNat))).take room) := by
  have hwhole : f.whole.toNat < 2 ^ 64 := f.whole.isLt
  cases hneg : f.negative with
  | true =>
    simp only [Double.print, hneg, if_true, put_eq h, sprintfNum_eq (length_le_of_lt h _) hwhole, ne_eq,
      not_true_eq_false, if_false, List.append_assoc]
  | false =>
    simp only [Double.print, hneg, Bool.false_eq_true, if_false, sprintfNum_eq h.le hwhole, ne_eq, not_true_eq_false,
      List.nil_append]

theorem take_min_length {α : Type*} (n : ℕ) (l : List α) : l.take (min n l.length) = l.take n := by
  rcases Nat.le_total n l.length with hle | hge
  · rw [Nat.min_eq_left hle]
  · rw [Nat.min_eq_right hge, List.take_of_length_le (Nat.le_refl _), List.take_of_length_le hge]

/-- An argument is written as far as there is room. -/
theorem printArg_eq (cfg : Config) (d : Directive) {fl : Flags} (widths : ℕ → ℕ) (h : out.length < room)
    (hfrac : fl.fracWidth = 0) {cv : Conv} {arg : Arg} {t : List Byte} (ht : d.argText cfg widths fl cv arg = some t) :
    cfg.printArg room fl d.pad (widths d.width) out cv arg = .ok ((out ++ t).take room) := by
  cases arg with
  | string str =>
    simp only [Directive.argText, Option.ite_none_right_eq_some, Option.some.injEq] at ht
    obtain ⟨rfl, rfl⟩ := ht
    simp only [Config.printArg, if_true, take_min_length]
    exact cpymem_eq h.le str
  | value vv =>
    simp only [Directive.argText, Option.ite_none_right_eq_some, Option.some.injEq] at ht
    obtain ⟨rfl, rfl⟩ := ht
    simp only [Config.printArg, if_true, take_min_length]
    exact cpymem_eq h.le vv
  | chars p =>
    simp only [Directive.argText, Option.ite_none_right_eq_some] at ht
    obtain ⟨rfl, ht⟩ := ht
    simp only [Config.printArg, if_true]
    split at ht
    case isTrue hlen =>
      obtain ⟨hp, ht⟩ := Option.ite_none_right_eq_some.mp ht
      obtain rfl := Option.some.inj ht
      rw [if_pos hlen, copyLoop_eq h.le hp]
    case isFalse hlen =>
      obtain ⟨hp, ht⟩ := Option.ite_none_right_eq_some.mp ht
      obtain rfl := Option.some.inj ht
      rw [if_neg hlen, if_pos (by omega), ← List.take_take, cpymem_eq h.le]
  | double f =>
    simp only [Directive.argText, Option.ite_none_right_eq_some, Option.some.injEq] at ht
    obtain ⟨rfl, rfl⟩ := ht
    simp only [Config.printArg, if_true, hfrac]
    exact Double.print_eq h f _ _
  | int n =>
    simp only [Directive.argText] at ht
    split at ht
    case isTrue hc =>
      subst hc
      cases ht
      have hbyte : UInt8.ofNat (n.toNat &&& 0xff) = UInt8.ofNat n.toNat := by
        rw [show n.toNat &&& 0xff = n.toNat % 256 from Nat.and_two_pow_sub_one_eq_mod _ 8]
        exact UInt8.ofNat_mod_size
      simp only [Config.printArg]
      rw [hbyte, put_eq h, List.take_of_length_le (length_le_of_lt h _)]
    case isFalse hc =>
      obtain ⟨m, hm, hprint⟩ := integerText_eq cfg d fl widths h ht
      cases cv
      case c => exact absurd rfl hc
      all_goals simp only [Config.printArg, hm, hprint]
  | long n =>
    obtain ⟨m, hm, hprint⟩ := integerText_eq cfg d fl widths h ht
    simp only [Config.printArg, hm, hprint]
  | pointer n =>
    obtain ⟨m, hm, hprint⟩ := integerText_eq cfg d fl widths h ht
    simp only [Config.printArg, hm, hprint]

end CodingExercises.PeotrixNginx
