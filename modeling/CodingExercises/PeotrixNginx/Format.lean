import Mathlib.Data.Int.Notation
import Mathlib.Data.List.Basic

/-!
# Peotrix on nginx: formatted output

`ptrx_vslprintf` and `ptrx_sprintf_num` of `core/ptrx_string.c`. Every store to the output and to the digits of a number, and
every step over the format, is checked: a `Fault` is an access out of bounds, or an argument of another type.

- A `double` is what the code takes from it: its sign, its whole part and its scaled fractions.
- `PTRX_INT_T_LEN` and `PTRX_PTR_SIZE` are set when the program is configured.
-/

namespace CodingExercises.PeotrixNginx

abbrev Byte := UInt8

/-- What goes wrong. -/
inductive Fault
  | store
  | digits
  | format
  | args
deriving DecidableEq

/-- `PTRX_INT_T_LEN` and `PTRX_PTR_SIZE`. -/
structure Config where
  intTLen : ℕ
  ptrSize : ℕ
  intTLen_lt : intTLen < 4294967296
  ptrSize_lt : ptrSize * 2 < 4294967296

/-- `PTRX_ATOMIC_T_LEN`. -/
def atomicTLen : ℕ := 11

/-- `PTRX_INT64_LEN`. -/
def int64Len : ℕ := 20

/-- `PTRX_MAX_UINT32_VALUE`. -/
def maxUint32Value : ℕ := 4294967295

/-- A `double`: whether it is negative; without its sign, its whole part as an `int64_t`, and with this taken off the rest,
scaled by a power of ten and rounded. -/
structure Double where
  negative : Bool
  whole : BitVec 64
  fraction : ℕ → BitVec 64

/-- An argument, by its type: four bytes, eight bytes, `ptrx_str_t *`, `ptrx_variable_value_t *`, `unsigned char *` (what can
be read from there on), `double`, and `void *`. -/
inductive Arg
  | int (i : BitVec 32)
  | long (i : BitVec 64)
  | string (v : List Byte)
  | value (vv : List Byte)
  | chars (p : List Byte)
  | double (f : Double)
  | pointer (i : BitVec 64)

def ch (c : Char) : Byte := c.toUInt8

/-! ## The output -/

/-- `*buf++ = c`, where `room` bytes lie between the start of the output and `last`. -/
def put (room : ℕ) (out : List Byte) (c : Byte) : Except Fault (List Byte) :=
  if out.length < room then .ok (out ++ [c]) else .error .store

/-- `buf = ptrx_cpymem(buf, …)`. -/
def cpymem (room : ℕ) (out bytes : List Byte) : Except Fault (List Byte) :=
  if out.length + bytes.length ≤ room then .ok (out ++ bytes) else .error .store

/-! ## Numbers -/

/-- `do *--p = …; while(n …)`: the digits from `p` on, with so many cells below `p`. -/
def digitsLoop (low high : ℕ → ℕ) (digit : ℕ → Byte) : ℕ → ℕ → List Byte → Except Fault (List Byte)
  | 0, _, _ => .error .digits
  | cells + 1, n, p =>
    if high n = 0 then .ok (digit (low n) :: p) else digitsLoop low high digit cells (high n) (digit (low n) :: p)

def decimalDigit (n : ℕ) : Byte := UInt8.ofNat (n + 48)

/-- `hex`. -/
def hexDigit (n : ℕ) : Byte :=
  [48, 49, 50, 51, 52, 53, 54, 55, 56, 57, 97, 98, 99, 100, 101, 102].getD n 0

/-- `HEX`. -/
def hexDigitUpper (n : ℕ) : Byte :=
  [48, 49, 50, 51, 52, 53, 54, 55, 56, 57, 65, 66, 67, 68, 69, 70].getD n 0

/-- `while(len++ < width && buf < last) *buf++ = zero`, with `width - len` turns at most. -/
def paddingLoop (room : ℕ) (zero : Byte) : ℕ → List Byte → Except Fault (List Byte)
  | 0, out => .ok out
  | n + 1, out =>
    if out.length < room then
      match put room out zero with
      | .error e => .error e
      | .ok out => paddingLoop room zero n out
    else .ok out

/-- The digits that `ptrx_sprintf_num` puts into `temp`. -/
def tempDigits (ui64 hexadecimal : ℕ) : Except Fault (List Byte) :=
  if hexadecimal = 0 then
    if ui64 ≤ maxUint32Value then digitsLoop (· % 10) (· / 10) decimalDigit int64Len (ui64 % (maxUint32Value + 1)) []
    else digitsLoop (· % 10) (· / 10) decimalDigit int64Len ui64 []
  else if hexadecimal = 1 then digitsLoop (· &&& 0xf) (· >>> 4) hexDigit int64Len ui64 []
  else digitsLoop (· &&& 0xf) (· >>> 4) hexDigitUpper int64Len ui64 []

/-- `ptrx_sprintf_num`. -/
def sprintfNum (room : ℕ) (out : List Byte) (ui64 : ℕ) (zero : Byte) (hexadecimal width : ℕ) :
    Except Fault (List Byte) :=
  match tempDigits ui64 hexadecimal with
  | .error e => .error e
  | .ok p =>
    match paddingLoop room zero (width - p.length) out with
    | .error e => .error e
    | .ok out =>
      let len := if out.length + p.length > room then room - out.length else p.length
      cpymem room out (p.take len)

/-! ## The format -/

def isDigit (c : Byte) : Bool := 48 ≤ c && c ≤ 57

/-- `fmt`: the characters before it, backwards, and those from it on, up to `NUL`. -/
structure Cursor where
  before : List Byte
  after : List Byte

/-- `width = width * 10 + *fmt++ - '0'`, an `unsigned int`. -/
def widthLoop (width : ℕ) (before : List Byte) : List Byte → ℕ × Cursor
  | c :: after =>
    if isDigit c then widthLoop ((width * 10 + (c.toNat - 48)) % (maxUint32Value + 1)) (c :: before) after
    else (width, ⟨before, c :: after⟩)
  | [] => (width, ⟨before, []⟩)

/-- `frac_width = frac_width * 10 + *fmt-- - '0'`: `fmt` goes backwards. -/
def fracLoop (frac : ℕ) : List Byte → List Byte → Except Fault (ℕ × Cursor)
  | before, [] => .ok (frac, ⟨before, []⟩)
  | [], c :: after => if isDigit c then .error .format else .ok (frac, ⟨[], c :: after⟩)
  | b :: before, c :: after =>
    if isDigit c then fracLoop ((frac * 10 + (c.toNat - 48)) % (maxUint32Value + 1)) before (b :: c :: after)
    else .ok (frac, ⟨b :: before, c :: after⟩)

/-- `sign`, `hex`, `max_width`, `frac_width` and `slen`. -/
structure Flags where
  sign : Bool
  hex : ℕ
  maxWidth : Bool
  fracWidth : ℕ
  slen : ℕ

/-- `(size_t) -1`. -/
def noLength : ℕ := 18446744073709551615

def Flags.start : Flags := ⟨true, 0, false, 0, noLength⟩

/-- The characters `u`, `m`, `X`, `x`, `*` and `.` of a directive. -/
def flagLoop (fl : Flags) (args : List Arg) (before : List Byte) : List Byte → Except Fault (Flags × List Arg × Cursor)
  | [] => .ok (fl, args, ⟨before, []⟩)
  | c :: after =>
    if c = ch 'u' then flagLoop { fl with sign := false } args (c :: before) after
    else if c = ch 'm' then flagLoop { fl with maxWidth := true } args (c :: before) after
    else if c = ch 'X' then flagLoop { fl with hex := 2, sign := false } args (c :: before) after
    else if c = ch 'x' then flagLoop { fl with hex := 1, sign := false } args (c :: before) after
    else if c = ch '.' then
      match fracLoop fl.fracWidth (c :: before) after with
      | .error e => .error e
      | .ok (fracWidth, fmt) => .ok ({ fl with fracWidth }, args, fmt)
    else if c = ch '*' then
      match args with
      | .long slen :: args => flagLoop { fl with slen := slen.toNat } args (c :: before) after
      | _ => .error .args
    else .ok (fl, args, ⟨before, c :: after⟩)

/-- The conversions. -/
inductive Conv
  | V
  | v
  | s
  | O
  | P
  | T
  | M
  | z
  | i
  | d
  | l
  | D
  | L
  | A
  | f
  | r
  | p
  | c
  | Z
  | N
  | percent
deriving DecidableEq

def Conv.table : List (Byte × Conv) :=
  [(ch 'V', .V), (ch 'v', .v), (ch 's', .s), (ch 'O', .O), (ch 'P', .P), (ch 'T', .T), (ch 'M', .M), (ch 'z', .z),
    (ch 'i', .i), (ch 'd', .d), (ch 'l', .l), (ch 'D', .D), (ch 'L', .L), (ch 'A', .A), (ch 'f', .f), (ch 'r', .r),
    (ch 'p', .p), (ch 'c', .c), (ch 'Z', .Z), (ch 'N', .N), (ch '%', .percent)]

/-- The `case` of a character, unless it is `default`. -/
def Conv.ofByte (c : Byte) : Option Conv := table.lookup c

/-! ## A directive -/

/-- `sign`, `i64`, `ui64`, `zero`, `hex` and `width`, as a `case` for a number leaves them. -/
structure Number where
  sign : Bool
  i64 : ℤ
  ui64 : ℕ
  zero : Byte
  hex : ℕ
  width : ℕ

/-- A number that is read with `sign` or without. -/
def Number.ofBits {w : ℕ} (sign : Bool) (i : BitVec w) (zero : Byte) (hex width : ℕ) : Number :=
  if sign then ⟨true, i.toInt, 0, zero, hex, width⟩ else ⟨false, 0, i.toNat, zero, hex, width⟩

/-- The `case`s that end in `break`. -/
def Config.number (cfg : Config) (fl : Flags) (zero : Byte) (width : ℕ) : Conv → Arg → Option Number
  | .O, .long i => some (.ofBits true i zero fl.hex width)
  | .P, .int i => some (.ofBits true i zero fl.hex width)
  | .T, .long i => some (.ofBits true i zero fl.hex width)
  | .M, .int ms => some (if ms.toInt = -1 then ⟨true, -1, 0, zero, fl.hex, width⟩ else ⟨false, 0, ms.toNat, zero, fl.hex, width⟩)
  | .z, .long i => some (.ofBits fl.sign i zero fl.hex width)
  | .i, .int i => some (.ofBits fl.sign i zero fl.hex (if fl.maxWidth then cfg.intTLen else width))
  | .d, .int i => some (.ofBits fl.sign i zero fl.hex width)
  | .l, .long i => some (.ofBits fl.sign i zero fl.hex width)
  | .D, .int i => some (.ofBits fl.sign i zero fl.hex width)
  | .L, .long i => some (.ofBits fl.sign i zero fl.hex width)
  | .A, .int i => some (.ofBits fl.sign i zero fl.hex (if fl.maxWidth then atomicTLen else width))
  | .r, .long i => some (.ofBits true i zero fl.hex width)
  | .p, .pointer i => some (.ofBits false i (ch '0') 2 (cfg.ptrSize * 2))
  | _, _ => none

/-- The end of a turn, for a number. -/
def Number.print (room : ℕ) (out : List Byte) (n : Number) : Except Fault (List Byte) :=
  if n.sign then
    if n.i64 < 0 then
      match put room out (ch '-') with
      | .error e => .error e
      | .ok out => sprintfNum room out (-n.i64).toNat n.zero n.hex n.width
    else sprintfNum room out n.i64.toNat n.zero n.hex n.width
  else sprintfNum room out n.ui64 n.zero n.hex n.width

/-- `while(*p && buf < last) *buf++ = *p++`. -/
def copyLoop (room : ℕ) : List Byte → List Byte → Except Fault (List Byte)
  | [], _ => .error .args
  | c :: p, out =>
    if c ≠ 0 ∧ out.length < room then
      match put room out c with
      | .error e => .error e
      | .ok out => copyLoop room p out
    else .ok out

/-- `case 'f'`. -/
def Double.print (room : ℕ) (out : List Byte) (f : Double) (zero : Byte) (width fracWidth : ℕ) :
    Except Fault (List Byte) :=
  let whole (out : List Byte) :=
    match sprintfNum room out f.whole.toNat zero 0 width with
    | .error e => .error e
    | .ok out =>
      if fracWidth ≠ 0 then
        let fraction (out : List Byte) := sprintfNum room out (f.fraction fracWidth).toNat (ch '0') 0 fracWidth
        if out.length < room then
          match put room out (ch '.') with
          | .error e => .error e
          | .ok out => fraction out
        else fraction out
      else .ok out
  if f.negative then
    match put room out (ch '-') with
    | .error e => .error e
    | .ok out => whole out
  else whole out

/-- A conversion that takes an argument. -/
def Config.printArg (cfg : Config) (room : ℕ) (fl : Flags) (zero : Byte) (width : ℕ) (out : List Byte) (cv : Conv) :
    Arg → Except Fault (List Byte)
  | .string v => if cv = .V then cpymem room out (v.take (min (room - out.length) v.length)) else .error .args
  | .value vv => if cv = .v then cpymem room out (vv.take (min (room - out.length) vv.length)) else .error .args
  | .chars p =>
    if cv = .s then
      if fl.slen = noLength then copyLoop room p out
      else
        let len := min (room - out.length) fl.slen
        if len ≤ p.length then cpymem room out (p.take len) else .error .args
    else .error .args
  | .double f => if cv = .f then f.print room out zero width fl.fracWidth else .error .args
  | arg =>
    match cv, arg with
    | .c, .int d => put room out (UInt8.ofNat (d.toNat &&& 0xff))
    | cv, arg =>
      match cfg.number fl zero width cv arg with
      | none => .error .args
      | some n => n.print room out

/-- The second `switch`, at a character that is not `NUL`. -/
def convert (cfg : Config) (room : ℕ) (fl : Flags) (zero : Byte) (width : ℕ) (args : List Arg) (out : List Byte)
    (c : Byte) : Except Fault (List Arg × List Byte) :=
  let literal (c : Byte) :=
    match put room out c with
    | .error e => .error e
    | .ok out => .ok (args, out)
  match Conv.ofByte c with
  | none => literal c
  | some .Z => literal 0
  | some .N => literal 10
  | some .percent => literal (ch '%')
  | some cv =>
    match args with
    | [] => .error .args
    | arg :: args =>
      match cfg.printArg room fl zero width out cv arg with
      | .error e => .error e
      | .ok out => .ok (args, out)

/-- A turn of the loop at a `%`, from the character behind it on. -/
def directive (cfg : Config) (room : ℕ) (fmt : Cursor) (args : List Arg) (out : List Byte) :
    Except Fault (Cursor × List Arg × List Byte) :=
  let zero := if fmt.after.headD 0 = ch '0' then ch '0' else ch ' '
  let (width, fmt) := widthLoop 0 fmt.before fmt.after
  match flagLoop .start args fmt.before fmt.after with
  | .error e => .error e
  | .ok (fl, args, fmt) =>
    match fmt.after with
    | c :: after =>
      match convert cfg room fl zero width args out c with
      | .error e => .error e
      | .ok (args, out) => .ok (⟨c :: fmt.before, after⟩, args, out)
    | [] =>
      -- `default`: `*buf++ = *fmt++` takes the `NUL`, and the loop reads what is behind it
      match put room out 0 with
      | .error e => .error e
      | .ok _ => .error .format

/-! ## The loop -/

theorem length_widthLoop (width : ℕ) (before after : List Byte) :
    (widthLoop width before after).2.after.length ≤ after.length := by
  induction after generalizing width before with
  | nil => exact Nat.le_refl _
  | cons c after ih =>
    unfold widthLoop
    split
    · exact Nat.le_succ_of_le (ih _ _)
    · exact Nat.le_refl _

theorem not_isDigit_dot : isDigit (ch '.') = false := by decide

/-- Behind a point `fmt` goes back to it if a digit follows. -/
theorem fracLoop_dot (frac : ℕ) (before after : List Byte) :
    fracLoop frac (ch '.' :: before) after =
      match after with
      | c :: after' =>
        if isDigit c then
          .ok ((frac * 10 + (c.toNat - 48)) % (maxUint32Value + 1), ⟨before, ch '.' :: c :: after'⟩)
        else .ok (frac, ⟨ch '.' :: before, c :: after'⟩)
      | [] => .ok (frac, ⟨ch '.' :: before, []⟩) := by
  cases after with
  | nil => rfl
  | cons c after =>
    rw [fracLoop]
    dsimp only
    split
    · cases before with
      | nil =>
        rw [fracLoop, if_neg (by simp [not_isDigit_dot])]
      | cons b before =>
        rw [fracLoop, if_neg (by simp [not_isDigit_dot])]
    · rfl

theorem length_flagLoop {fl fl' : Flags} {args args' : List Arg} {before after : List Byte} {fmt : Cursor}
    (h : flagLoop fl args before after = .ok (fl', args', fmt)) : fmt.after.length ≤ after.length := by
  induction after generalizing fl args before with
  | nil =>
    cases h
    exact Nat.le_refl _
  | cons c after ih =>
    unfold flagLoop at h
    split at h
    case isTrue => exact Nat.le_succ_of_le (ih h)
    split at h
    case isTrue => exact Nat.le_succ_of_le (ih h)
    split at h
    case isTrue => exact Nat.le_succ_of_le (ih h)
    split at h
    case isTrue => exact Nat.le_succ_of_le (ih h)
    split at h
    case isTrue hdot =>
      subst hdot
      rw [fracLoop_dot] at h
      split at h
      case h_1 => cases h
      case h_2 fracWidth fmt' heq =>
        cases h
        split at heq
        case h_1 =>
          split at heq <;> cases heq
          · exact Nat.le_refl _
          · exact Nat.le_succ _
        case h_2 =>
          cases heq
          exact Nat.zero_le _
    split at h
    case isTrue =>
      split at h
      case h_1 => exact Nat.le_succ_of_le (ih h)
      case h_2 => cases h
    case isFalse =>
      cases h
      exact Nat.le_refl _

/-- A directive takes at least one character behind the `%`. -/
theorem length_directive {cfg : Config} {room : ℕ} {fmt fmt' : Cursor} {args args' : List Arg} {out out' : List Byte}
    (h : directive cfg room fmt args out = .ok (fmt', args', out')) : fmt'.after.length < fmt.after.length := by
  have hwidth := length_widthLoop 0 fmt.before fmt.after
  unfold directive at h
  dsimp only at h
  generalize widthLoop 0 fmt.before fmt.after = w at h hwidth
  split at h
  case h_1 => cases h
  case h_2 fl args₂ fmt₂ hflag =>
    have hlen := length_flagLoop hflag
    split at h
    case h_1 c after heq =>
      split at h
      case h_1 => cases h
      case h_2 =>
        cases h
        rw [heq, List.length_cons] at hlen
        dsimp only
        omega
    case h_2 => split at h <;> cases h

/-- The loop of `ptrx_vslprintf`. -/
def vslprintfLoop (cfg : Config) (room : ℕ) (fmt : Cursor) (args : List Arg) (out : List Byte) :
    Except Fault (List Byte) :=
  match _h : fmt.after with
  | [] => .ok out
  | c :: after =>
    if out.length < room then
      if c = ch '%' then
        match _h' : directive cfg room ⟨c :: fmt.before, after⟩ args out with
        | .error e => .error e
        | .ok (fmt, args, out) => vslprintfLoop cfg room fmt args out
      else
        match put room out c with
        | .error e => .error e
        | .ok out => vslprintfLoop cfg room ⟨c :: fmt.before, after⟩ args out
    else .ok out
termination_by fmt.after.length
decreasing_by
  · have := length_directive _h'
    rw [_h, List.length_cons]
    exact Nat.lt_succ_of_lt this
  · rw [_h, List.length_cons]
    exact Nat.lt_succ_self _

/-- `ptrx_vslprintf`: what is stored between `buf` and the pointer that is returned. -/
def vslprintf (cfg : Config) (room : ℕ) (fmt : List Byte) (args : List Arg) : Except Fault (List Byte) :=
  vslprintfLoop cfg room ⟨[], fmt⟩ args []

end CodingExercises.PeotrixNginx
