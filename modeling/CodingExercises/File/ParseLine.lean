import CodingExercises.File.ApprenticeSets
import CodingExercises.File.Getstr
import CodingExercises.File.Traps

/-!
# file: lines of magic files

`parse` of `apprentice.c` with `get_type`, `get_standard_integer_type`, `string_modifier_check`, `eatsize` and `getvalue`, as what
`load_1` reads of a line (`lineReader`). `strtof` and `strtod` are parameters. An entry for which -1 is returned is left as it was:
then no map is made.

- What is read without an error has the form that `match` and the functions behind it rely on, and so has every entry of a
  map that is loaded (`apprenticeLoad_wellFormed`).
- Loading ends the process just where one of several tests cannot be sorted (`apprenticeLoad_ends_iff`).
-/

namespace CodingExercises.File.ParseLine

open Apprentice IsTar

/-! ## Characters and numbers -/

/-- A byte as a character. -/
def chr (c : UInt8) : Char := .ofNat c.toNat

/-- `isdigit`. -/
def isdigitC (c : UInt8) : Bool := 0x30 ≤ c ∧ c ≤ 0x39

/-- `isalpha`. -/
def isalphaC (c : UInt8) : Bool := 0x41 ≤ c ∧ c ≤ 0x5a ∨ 0x61 ≤ c ∧ c ≤ 0x7a

/-- A character that is stepped over if it is there. -/
def eat (c : UInt8) (l : List UInt8) : Bool × List UInt8 := if l.head? = some c then (true, l.tail) else (false, l)

/-- `strtol` of the C library with base 0. -/
def strtol (l : List UInt8) : ℤ × List UInt8 :=
  let s := eatab l
  let minus := s.head? = some 0x2d
  let s := if minus || s.head? = some 0x2b then s.tail else s
  let hex := s.head? = some 0x30 ∧ (s[1]? = some 0x78 ∨ s[1]? = some 0x58) ∧ digits 16 (s.drop 2) ≠ []
  let base := if hex then 16 else if s.head? = some 0x30 then 8 else 10
  let s := if hex then s.drop 2 else s
  let ds := digits base s
  let n : ℤ := ds.foldl (fun n c => n * base + (digitOf c).getD 0) 0
  if ds = [] then (0, l) else (if minus then max (-n) (-2 ^ 63) else min n (2 ^ 63 - 1), s.drop ds.length)

/-- The functions of the C library for numbers with a point: the bytes of the number, and what is behind it. -/
structure Floats where
  strtof : List UInt8 → List UInt8 × List UInt8
  strtod : List UInt8 → List UInt8 × List UInt8
  strtof_length : ∀ l, (strtof l).1.length = 4
  strtod_length : ∀ l, (strtod l).1.length = 8

/-- `eatsize`. -/
def eatsize (l : List UInt8) : List UInt8 :=
  let l := if (chr (l.headD 0)).toLower = 'u' then l.tail else l
  if (chr (l.headD 0)).toLower ∈ ['l', 's', 'h', 'b', 'c'] then l.tail else l

/-! ## The offset -/

/-- `memset(m, 0, sizeof(*m))`. -/
def zeroEntry : Entry where
  type := .invalid
  desc := []
  contLevel := 0
  flag := 0
  reln := Char.ofNat 0
  vallen := 0
  inType := .invalid
  inOp := 0
  cond := .condNone
  offset := 0
  inOffset := 0
  strRange := 0
  strFlags := 0
  value := List.replicate maxString 0
  mimetype := []
  apple := []

/-- `&` and `(` before the offset. -/
def readFlags (l : List UInt8) : BitVec 8 × List UInt8 :=
  let add := eat 0x26 l
  let indir := eat 0x28 add.2
  let inner := if indir.1 then eat 0x26 indir.2 else (false, indir.2)
  (if indir.1 then
      flagIndir ||| (if add.1 then flagIndirOffAdd else 0) ||| (if inner.1 then flagOffAdd else 0)
    else if add.1 then flagOffAdd else 0, inner.2)

/-- `[.lbs][+-]nnnnn` and the parenthesis behind it. -/
def readIndirect (m : Entry) (l : List UInt8) : Entry × List UInt8 :=
  let dot := eat 0x2e l
  let inType := parseInType (if dot.1 then some (chr (dot.2.headD 0)) else none)
  let inverse := eat 0x7e (if dot.1 then dot.2.tail else dot.2)
  let op := getOp (chr (inverse.2.headD 0))
  let indirect := eat 0x28 (if op.isSome then inverse.2.tail else inverse.2)
  let inOp := (if inverse.1 then opInverse else 0) ||| op.getD 0 ||| (if indirect.1 then opIndirect else 0)
  let num := if isdigitC (indirect.2.headD 0) || indirect.2.headD 0 = 0x2d then strtol indirect.2 else (0, indirect.2)
  ({ m with inType, inOp, inOffset := BitVec.ofInt 32 num.1 },
    if num.2.headD 0 = 0x29 ∧ indirect.1 then num.2.tail.tail else num.2.tail)

/-- `parse` up to the blanks behind the offset. -/
def readOffset (l : List UInt8) : Entry × List UInt8 :=
  let flags := readFlags (l.dropWhile (· = 0x3e))
  let offset := strtoul flags.2
  let m := { zeroEntry with flag := flags.1, offset := BitVec.ofNat 32 offset.1 }
  let r := if flags.1 &&& flagIndir ≠ 0 then readIndirect m offset.2 else (m, offset.2)
  (r.1, eatab r.2)

/-! ## The type -/

/-- `special_tbl`. -/
def specialTbl : List (FileType × String × Fmt) := [(.name, "name", .str), (.use, "use", .str)]

/-- `get_type`; where no name is found, `*t` is not written. -/
def getType (tbl : List (FileType × String × Fmt)) (l : List UInt8) : Option (FileType × List UInt8) :=
  (tbl.find? fun t => t.2.1.toUTF8.toList.isPrefixOf l).map fun t => (t.1, l.drop t.2.1.length)

/-- `get_standard_integer_type`. -/
def getStandardIntegerType (l : List UInt8) : FileType × List UInt8 :=
  let c := l.tail.headD 0
  if isalphaC c then
    match chr c with
    | 'C' => (.byte, l.drop 2)
    | 'S' => (.short, l.drop 2)
    | 'I' | 'L' => (.long, l.drop 2)
    | 'Q' => (.quad, l.drop 2)
    | _ => (.invalid, l)
  else if isdigitC c then
    if isdigitC ((l.drop 2).headD 0) then (.invalid, l)
    else
      match chr c with
      | '1' => (.byte, l.drop 2)
      | '2' => (.short, l.drop 2)
      | '4' => (.long, l.drop 2)
      | '8' => (.quad, l.drop 2)
      | _ => (.invalid, l)
  else (.long, l.drop 1)

/-- The type of an entry, with whether it is unsigned. -/
def readType (l : List UInt8) : FileType × Bool × List UInt8 :=
  let u := l.headD 0 = 0x75
  let word := (getType typeTbl (if u then l.tail else l)).getD (.invalid, l)
  let r :=
    if word.1 ≠ .invalid then word
    else if u || word.2.headD 0 = 0x64 then getStandardIntegerType word.2
    else if word.2.headD 0 = 0x73 ∧ !isalphaC (word.2.tail.headD 0) then (.string, word.2.tail)
    else word
  if r.1 ≠ .invalid then (r.1, u, r.2)
  else
    let special := (getType specialTbl r.2).getD r
    (special.1, false, special.2)

/-! ## The mask -/

/-- The modifiers of strings but for the numbers, with `none` for `bad`. -/
def stringModifier (type : FileType) (strFlags : BitVec 32) (c : Char) : Option (BitVec 32) :=
  match c with
  | 'W' => some (strFlags ||| 0x01)
  | 'w' => some (strFlags ||| 0x02)
  | 'c' => some (strFlags ||| 0x04)
  | 'C' => some (strFlags ||| 0x08)
  | 's' => some (strFlags ||| 0x10)
  | 'b' => some (strFlags ||| stringBinTest)
  | 't' => some (strFlags ||| stringTextTest)
  | 'T' => some (strFlags ||| 0x2000)
  | 'J' => if type = .pstring then some (strFlags ||| pstringLengthIncludesItself) else none
  | c => if type = .pstring then (lengthFormatOfChar c).map (setLengthFormat strFlags) else none

/-- The loop over the modifiers, where so many characters are stepped over before the next one. -/
def modifiers (m : Entry) : ℕ → List UInt8 → Option (Entry × List UInt8)
  | _, [] => none
  | k + 1, _ :: s => modifiers m k s
  | 0, c :: s =>
    if isspaceC c then some (m, c :: s)
    else
      let read : Option (Entry × ℕ) :=
        if isdigitC c then
          some ({ m with strRange := BitVec.ofNat 32 (strtoul (c :: s)).1 }, s.length - (strtoul (c :: s)).2.length)
        else (stringModifier m.type m.strFlags (chr c)).map fun strFlags => ({ m with strFlags }, 0)
      read.bind fun r => modifiers r.1 (if s[r.2]? = some 0x2f ∧ !isspaceC (s.getD (r.2 + 1) 0) then r.2 + 1 else r.2) s

/-- `string_modifier_check`. -/
def stringModifierCheck (check : Bool) (m : Entry) : Bool :=
  if !check then true
  else if m.type ≠ .pstring ∧ m.strFlags &&& pstringLen ≠ 0 then false
  else
    match m.type with
    | .bestring16 | .lestring16 => m.strFlags = 0
    | .string | .pstring => m.strFlags &&& 0x10 = 0
    | .search => m.strRange ≠ 0 ∧ m.strFlags &&& 0x01 = 0 ∧ m.strFlags &&& 0x02 = 0
    | .regex => m.strFlags &&& 0x01 = 0 ∧ m.strFlags &&& 0x02 = 0
    | _ => false

/-- New-style anding, or the modifiers of a string: the entry, and `m->mask_op`. The words of `m->num_mask` are `m->str_range` and
`m->str_flags`. -/
def readMask (check : Bool) (m : Entry) (l : List UInt8) : Option (Entry × BitVec 8 × List UInt8) :=
  let tilde := eat 0x7e l
  let inverse := if tilde.1 ∧ isString m.type = false then opInverse else 0
  let m := { m with strRange := 0, strFlags := if m.type = .pstring then LengthFormat.one.bit else 0 }
  match getOp (chr (tilde.2.headD 0)) with
  | none => some (m, inverse, tilde.2)
  | some op =>
    if isString m.type = false then
      let num := fileSignextend m.type (m.has flagUnsigned) (BitVec.ofNat 64 (strtoul tilde.2.tail).1)
      some ({ m with strRange := num.setWidth 32, strFlags := (num >>> 32).setWidth 32 }, inverse ||| op,
        eatsize (strtoul tilde.2.tail).2)
    else if op = 6 then
      (modifiers m 0 tilde.2.tail).bind fun r => if stringModifierCheck check r.1 then some (r.1, inverse, r.2) else none
    else none

/-! ## The value and the description -/

/-- The relation. -/
def readReln (check : Bool) (l : List UInt8) : Option (Char × List UInt8) :=
  let c := chr (l.headD 0)
  let equals := eat 0x3d l.tail
  if c = '>' ∨ c = '<' then if equals.1 && check then none else some (c, equals.2)
  else if c = '&' ∨ c = '^' ∨ c = '=' then some (c, equals.2)
  else if c = '!' then some (c, l.tail)
  else if c = 'x' ∧ (isspaceC (l.tail.headD 0) ∨ l.tail.headD 0 = 0) then some (c, l.tail)
  else some ('=', l)

/-- What is left of a line, up to its zero. -/
def lineOf (l : List UInt8) : List UInt8 := l.takeWhile (· ≠ 0) ++ [0]

/-- `getvalue`. Where the pointer of `getstr` is behind the zero, what stands there is read on. -/
def getvalue (F : Floats) (m : Entry) (l : List UInt8) : Option (Entry × List UInt8) :=
  match m.type with
  | .bestring16 | .lestring16 | .string | .pstring | .regex | .search | .name | .use =>
    (getstr m.type m.strFlags m.vallen m.value (lineOf l) false).bind fun got =>
      got.ret.map fun rest => ({ m with value := got.value, vallen := got.vallen }, rest ++ l.drop (lineOf l).length)
  | .float | .befloat | .lefloat => some ({ m with value := (F.strtof l).1 ++ m.value.drop 4 }, (F.strtof l).2)
  | .double | .bedouble | .ledouble => some ({ m with value := (F.strtod l).1 ++ m.value.drop 8 }, (F.strtod l).2)
  | _ =>
    let q := fileSignextend m.type (m.has flagUnsigned) (BitVec.ofNat 64 (strtoul l).1)
    some ({ m with value := putField 8 q.toNat m.value }, eatsize (strtoul l).2)

/-- `MAXDESC`. -/
def maxDesc : ℕ := 64

/-- The description, with what does not fit left out. -/
def readDesc (m : Entry) (l : List UInt8) : Entry :=
  let l := eatab l
  let backspace := l.headD 0 = 0x08
  let escaped := l.headD 0 = 0x5c ∧ l.tail.headD 0 = 0x62
  { m with
    flag := if backspace ∨ escaped then m.flag ||| flagNoSpace else m.flag
    desc := (((if backspace then l.tail else if escaped then l.drop 2 else l).takeWhile (· ≠ 0)).take (maxDesc - 1)).map chr }

/-- `parse` behind the condition: the entry, and `m->mask_op`. -/
def readBody (F : Floats) (check : Bool) (m : Entry) (l : List UInt8) : Option (Entry × BitVec 8) :=
  let t := readType l
  if t.1 = .invalid then none
  else
    (readMask check { m with type := t.1, flag := if t.2.1 then m.flag ||| flagUnsigned else m.flag } t.2.2).bind fun r =>
      (readReln check (eatab r.2.2)).bind fun reln =>
        (if reln.1 = 'x' then some ({ r.1 with reln := reln.1 }, reln.2) else getvalue F { r.1 with reln := reln.1 } reln.2).bind
          fun v =>
            let m := readDesc v.1 v.2
            if check ∧ (checkFormat m.toMagic).toOption = none then none else some ({ m with mimetype := [] }, r.2.1)

/-- What `load_1` reads of a line; `check` is `MAGIC_CHECK`. -/
def lineReader (F : Floats) (check : Bool) : Reader where
  offset := readOffset
  body m l := (readBody F check m l).elim (m, false) fun r => (r.1, true)

/-! ## What each part leaves -/

/-- The entry has the flags of its type: a `pstring` one format of the length, and another string none. -/
def Fits (type : FileType) (strFlags : BitVec 32) : Prop :=
  (type = .pstring → (lengthFormat strFlags).isSome) ∧
    (isString type → type ≠ .pstring → strFlags &&& (pstringLen ||| pstringLengthIncludesItself) = 0)

variable {F : Floats} {check : Bool} {m : Entry} {l : List UInt8} {type : FileType} {strFlags : BitVec 32} {c : Char}

theorem readOffset_fresh (l : List UInt8) :
    (readOffset l).1.vallen = 0 ∧ (readOffset l).1.value = List.replicate maxString 0 := by
  rw [readOffset]
  dsimp only
  split
  · exact ⟨rfl, rfl⟩
  · exact ⟨rfl, rfl⟩

theorem lengthFormat_or {k : BitVec 32} (hk : k &&& pstringLen = 0) : lengthFormat (strFlags ||| k) = lengthFormat strFlags := by
  have hsame : (strFlags ||| k) &&& pstringLen = strFlags &&& pstringLen := by
    rw [BitVec.and_comm, BitVec.and_or_distrib_left, BitVec.and_comm, BitVec.and_comm pstringLen k, hk]
    exact BitVec.or_zero
  rw [lengthFormat, lengthFormat, hsame]

/-- A flag that says nothing of the length. -/
theorem Fits.or {k : BitVec 32} (h : Fits type strFlags) (hlen : k &&& pstringLen = 0)
    (hk : k &&& (pstringLen ||| pstringLengthIncludesItself) = 0) : Fits type (strFlags ||| k) := by
  constructor
  · intro htype
    rw [lengthFormat_or hlen]
    exact h.1 htype
  · intro hstring hne
    rw [BitVec.and_comm, BitVec.and_or_distrib_left, BitVec.and_comm, h.2 hstring hne, BitVec.and_comm, hk]
    rfl

theorem Fits.setLengthFormat (strFlags : BitVec 32) (f : LengthFormat) : Fits .pstring (File.setLengthFormat strFlags f) :=
  ⟨fun _ => by rw [lengthFormat_setLengthFormat]; rfl, fun _ h => absurd rfl h⟩

theorem Fits.stringModifier {flags : BitVec 32} (h : Fits type strFlags)
    (hread : ParseLine.stringModifier type strFlags c = some flags) : Fits type flags := by
  unfold ParseLine.stringModifier at hread
  split at hread
  case h_9 =>
    split at hread
    case isFalse => cases hread
    case isTrue htype =>
      cases hread
      refine ⟨fun _ => ?_, fun _ hne => absurd htype hne⟩
      rw [lengthFormat_or (by decide)]
      exact h.1 htype
  case h_10 =>
    split at hread
    case isFalse => cases hread
    case isTrue htype =>
      obtain ⟨f, -, rfl⟩ := Option.map_eq_some_iff.mp hread
      subst htype
      exact .setLengthFormat strFlags f
  all_goals
    cases hread
    exact h.or (by decide) (by decide)

/-- The modifiers are put into the entry, and nothing else is. -/
theorem modifiers_fits {k : ℕ} {r : Entry × List UInt8} (h : Fits m.type m.strFlags) (hread : modifiers m k l = some r) :
    ∃ range flags, r.1 = { m with strRange := range, strFlags := flags } ∧ Fits m.type flags := by
  induction l generalizing m k with
  | nil => cases hread
  | cons c l ih =>
    cases k with
    | succ k => exact ih h hread
    | zero =>
      rw [modifiers] at hread
      split at hread
      · cases hread
        exact ⟨m.strRange, m.strFlags, rfl, h⟩
      dsimp only at hread
      split at hread
      · rw [Option.bind_some] at hread
        exact ih (m := { m with strRange := BitVec.ofNat 32 (strtoul (c :: l)).1 }) h hread
      · obtain ⟨r', hmap, hread⟩ := Option.bind_eq_some_iff.mp hread
        obtain ⟨flags, hflags, rfl⟩ := Option.map_eq_some_iff.mp hmap
        exact ih (m := { m with strFlags := flags }) (h.stringModifier hflags) hread

theorem readMask_fits {r : Entry × BitVec 8 × List UInt8} (hread : readMask check m l = some r) :
    ∃ range flags, r.1 = { m with strRange := range, strFlags := flags } ∧ Fits m.type flags := by
  have hstart : Fits m.type (if m.type = .pstring then LengthFormat.one.bit else 0) := by
    constructor
    · intro htype
      rw [if_pos htype]
      decide
    · intro _ hne
      rw [if_neg hne]
      decide
  rw [readMask] at hread
  dsimp only at hread
  split at hread
  · cases hread
    exact ⟨_, _, rfl, hstart⟩
  · split at hread
    · next hnumber =>
      cases hread
      refine ⟨_, _, rfl, ?_, ?_⟩
      · intro htype
        rw [htype] at hnumber
        cases hnumber
      · intro hstring
        rw [hstring] at hnumber
        cases hnumber
    · split at hread
      case isFalse => cases hread
      case isTrue =>
        obtain ⟨m', hmod, hread⟩ := Option.bind_eq_some_iff.mp hread
        split at hread
        case isFalse => cases hread
        case isTrue =>
          cases hread
          exact modifiers_fits (m := { m with strRange := 0, strFlags := _ }) hstart hmod

/-- The relations are the ones of `magiccheck`. -/
theorem readReln_char {r : Char × List UInt8} (hread : readReln check l = some r) : ∃ reln : Reln, r.1 = reln.char := by
  rw [readReln] at hread
  split at hread
  · next hc =>
    split at hread
    case isTrue => cases hread
    case isFalse =>
      cases hread
      rcases hc with hc | hc
      · exact ⟨.gt, hc⟩
      · exact ⟨.lt, hc⟩
  split at hread
  · next hc =>
    cases hread
    rcases hc with hc | hc | hc
    · exact ⟨.and, hc⟩
    · exact ⟨.xor, hc⟩
    · exact ⟨.eq, hc⟩
  split at hread
  · next hc =>
    cases hread
    exact ⟨.ne, hc⟩
  split at hread
  · next hc =>
    cases hread
    exact ⟨.any, hc.1⟩
  · cases hread
    exact ⟨.eq, rfl⟩

theorem lineOf_ofLine (l : List UInt8) : OfLine (lineOf l) := by
  refine ⟨l.takeWhile (· ≠ 0), fun hmem => ?_, rfl⟩
  simpa using List.mem_takeWhile_imp hmem

/-- A value has the size of its union, and a string is no longer than what is kept of it. -/
theorem getvalue_fits {r : Entry × List UInt8} (hfits : Fits m.type m.strFlags) (hvallen : m.vallen = 0)
    (hvalue : m.value.length = maxString) (hread : getvalue F m l = some r) :
    ∃ value vallen, r.1 = { m with value := value, vallen := vallen } ∧ value.length = maxString ∧
      vallen ≤ maxString - 1 + prefixSize m.type m.strFlags := by
  have hput (v : List UInt8) (k : ℕ) (hv : v.length = k) (hk : k ≤ 8) : ∃ value vallen,
      { m with value := v ++ m.value.drop k } = { m with value := value, vallen := vallen } ∧ value.length = maxString ∧
        vallen ≤ maxString - 1 + prefixSize m.type m.strFlags := by
    refine ⟨v ++ m.value.drop k, m.vallen, rfl, ?_, by omega⟩
    have hmax : maxString = 64 := rfl
    rw [List.length_append, List.length_drop]
    omega
  have hstring (hbind : ((getstr m.type m.strFlags m.vallen m.value (lineOf l) false).bind fun got =>
      got.ret.map fun rest => ({ m with value := got.value, vallen := got.vallen }, rest ++ l.drop (lineOf l).length)) =
        some r) : ∃ value vallen, r.1 = { m with value := value, vallen := vallen } ∧ value.length = maxString ∧
          vallen ≤ maxString - 1 + prefixSize m.type m.strFlags := by
    obtain ⟨got, hgot, hmap⟩ := Option.bind_eq_some_iff.mp hbind
    obtain ⟨rest, hret, rfl⟩ := Option.map_eq_some_iff.mp hmap
    obtain ⟨scanned, hloop, hsound, -⟩ := getstrLoop_line m.type ⟨lineOf l, 0, m.value, false, []⟩ (lineOf_ofLine l)
      (Nat.zero_le _) hvalue (Nat.le_refl _)
    obtain ⟨got', hgot', hwhat⟩ := getstr_eq m.vallen hfits.1 hloop hsound
    rw [hgot] at hgot'
    cases hgot'
    refine ⟨got.value, got.vallen, rfl, ?_⟩
    cases scanned with
    | tooLong st =>
      rw [hwhat.1] at hret
      cases hret
    | out st =>
      obtain ⟨-, hset, hlen⟩ := hwhat
      obtain ⟨-, hp, hst⟩ := hsound
      rw [hset, List.length_set, hlen]
      exact ⟨hst, by omega⟩
  unfold getvalue at hread
  split at hread
  case h_9 | h_10 | h_11 => cases hread; exact hput _ 4 (F.strtof_length l) (by decide)
  case h_12 | h_13 | h_14 => cases hread; exact hput _ 8 (F.strtod_length l) (by decide)
  case h_15 => cases hread; exact hput _ 8 (Lib.ByteOrder.length_digits _ _) (by decide)
  all_goals exact hstring hread

/-! ## Entries that are read -/

/-- What an entry is relied on for: its type is one, its relation is one of `magiccheck`, its description and its value have the
sizes of their arrays, the length of a Pascal string has a format, and the format of the description is checked if that is asked
for. -/
structure WellFormed (check : Bool) (m : Entry) : Prop where
  type : m.type ≠ .invalid
  reln : ∃ reln : Reln, m.reln = reln.char
  desc : m.desc.length < maxDesc
  value : m.value.length = maxString
  vallen : m.vallen ≤ maxString - 1 + prefixSize m.type m.strFlags
  fits : Fits m.type m.strFlags
  checked : check = true → ∃ n, checkFormat m.toMagic = .ok n

theorem readDesc_length (m : Entry) (l : List UInt8) : (readDesc m l).desc.length < maxDesc := by
  have hmax : maxDesc = 64 := rfl
  simp only [readDesc, List.length_map, List.length_take]
  omega

theorem readBody_wellFormed {r : Entry × BitVec 8} (hvallen : m.vallen = 0) (hvalue : m.value.length = maxString)
    (hread : readBody F check m l = some r) : WellFormed check r.1 := by
  rw [readBody] at hread
  dsimp only at hread
  split at hread
  · cases hread
  next htype =>
  obtain ⟨masked, hmask, hread⟩ := Option.bind_eq_some_iff.mp hread
  obtain ⟨reln, hreln, hread⟩ := Option.bind_eq_some_iff.mp hread
  obtain ⟨valued, hvalued, hread⟩ := Option.bind_eq_some_iff.mp hread
  obtain ⟨range, flags, hm, hfits⟩ := readMask_fits hmask
  obtain ⟨char, hchar⟩ := readReln_char hreln
  have hval : ∃ value vallen, valued.1 = { masked.1 with reln := reln.1, value := value, vallen := vallen } ∧
      value.length = maxString ∧ vallen ≤ maxString - 1 + prefixSize (readType l).1 flags := by
    rw [hm] at hvalued ⊢
    split at hvalued
    · cases hvalued
      exact ⟨m.value, m.vallen, rfl, hvalue, by omega⟩
    · exact getvalue_fits (m := { m with type := (readType l).1, flag := _, strRange := range, strFlags := flags, reln := _ })
        hfits hvallen hvalue hvalued
  obtain ⟨value, vallen, hv, hlen, hle⟩ := hval
  have hsame (n : Entry) : (readDesc n valued.2).type = n.type ∧ (readDesc n valued.2).reln = n.reln ∧
      (readDesc n valued.2).value = n.value ∧ (readDesc n valued.2).vallen = n.vallen ∧
      (readDesc n valued.2).strFlags = n.strFlags := ⟨rfl, rfl, rfl, rfl, rfl⟩
  obtain ⟨hty, hre, hva, hvl, hsf⟩ := hsame valued.1
  split at hread
  · cases hread
  next hcheck =>
  cases hread
  have hdesc := readDesc_length valued.1 valued.2
  generalize readDesc valued.1 valued.2 = n at *
  rw [hv, hm] at hty hre hva hvl hsf
  constructor
  · rw [hty]
    exact htype
  · exact ⟨char, hre.trans hchar⟩
  · exact hdesc
  · rw [hva]
    exact hlen
  · rw [hty, hvl, hsf]
    exact hle
  · rw [hty, hsf]
    exact hfits
  · intro hc
    cases hf : checkFormat n.toMagic with
    | ok k => exact ⟨k, rfl⟩
    | error e => exact absurd ⟨hc, by rw [hf]; rfl⟩ hcheck

/-! ## Entries that are loaded -/

theorem WellFormed.congr {n : Entry} (h : WellFormed check m) (hmagic : n.toMagic = m.toMagic) (hreln : n.reln = m.reln)
    (hvalue : n.value = m.value) (hvallen : n.vallen = m.vallen) (hflags : n.strFlags = m.strFlags) : WellFormed check n := by
  have htype : n.type = m.type := congrArg Magic.type hmagic
  constructor
  · rw [htype]
    exact h.type
  · rw [hreln]
    exact h.reln
  · rw [hmagic]
    exact h.desc
  · rw [hvalue]
    exact h.value
  · rw [htype, hvallen, hflags]
    exact h.vallen
  · rw [htype, hflags]
    exact h.fits
  · rw [hmagic]
    exact h.checked

theorem entryOf_wellFormed (h : accepts (lineReader F check) l = true) : WellFormed check (entryOf (lineReader F check) l) := by
  obtain ⟨hvallen, hvalue⟩ := readOffset_fresh l
  have hlen : (readOffset l).1.value.length = maxString := by rw [hvalue]; exact List.length_replicate
  rw [accepts] at h
  dsimp only [lineReader] at h
  rw [entryOf]
  dsimp only [lineReader]
  generalize hm : ({ (readOffset l).1 with contLevel := levelOf l, cond := (getCond (readOffset l).2).1 } : Entry) = m at h ⊢
  have hfresh : m.vallen = 0 ∧ m.value.length = maxString := by
    rw [← hm]
    exact ⟨hvallen, hlen⟩
  cases hread : readBody F check m (eatab (getCond (readOffset l).2).2) with
  | none =>
    rw [hread] at h
    cases h
  | some r => exact (readBody_wellFormed hfresh.1 hfresh.2 hread).congr rfl rfl rfl rfl rfl

variable {q : Qsort} {st : Statics} {files : List (Option (List Line))}

theorem wellFormed_shape {m : EntryLine} : WellFormed check (shape m) ↔ WellFormed check m.toEntry := by
  constructor
  · intro h
    exact h.congr rfl rfl rfl rfl rfl
  · intro h
    exact h.congr rfl rfl rfl rfl rfl

/-- The tests of an array have entries that are well formed. -/
theorem loadFiles_wellFormed (h : (loadFiles (lineReader F check) st files).errs = 0) (i : Fin 2) :
    ∀ me ∈ (loadFiles (lineReader F check) st files).mentry i, ∀ m ∈ me.mp, WellFormed check m.toEntry := by
  intro me hme m hm
  have hplain (l : List UInt8) (hl : accepts (lineReader F check) l = true) :
      WellFormed check (shape (.plain (entryOf (lineReader F check) l))) :=
    wellFormed_shape.mpr (entryOf_wellFormed hl)
  exact wellFormed_shape.mp (files_shape (Q := WellFormed check) hplain h i me hme m hm)

/-- With such an entry `magiccheck` knows the relation, and `file_pstring_length_size` the format. -/
theorem WellFormed.runs (h : WellFormed check m) : (∀ unsigned v l, (relate m.reln unsigned v l).isSome = true) ∧
    (m.type = .pstring → (pstringLengthSize m.strFlags).isSome = true) := by
  constructor
  · intro unsigned v l
    obtain ⟨reln, hreln⟩ := h.reln
    obtain ⟨answer, hanswer, -⟩ := relate_char reln unsigned v l
    rw [hreln, hanswer]
    rfl
  · intro htype
    rw [pstringLengthSize, Option.isSome_map]
    exact h.fits.1 htype

/-- No line has a number with a point. -/
def noFloats : Floats where
  strtof l := (List.replicate 4 0, l)
  strtod l := (List.replicate 8 0, l)
  strtof_length _ := rfl
  strtod_length _ := rfl

/-- A string, a Pascal string and a number. -/
def threeLines : List (Option (List Line)) :=
  [some [textLine "0 string abc text\n", textLine ">3 pstring/H x of %s\n", textLine "!:mime a/b\n",
    textLine ">(8.l) ulelong&0xff >3 at %d\n"]]

/-- `apprentice_magic_strength` ends the process: it divides by the length of the value, or knows no strength. -/
def Unsortable (m : EntryLine) : Prop :=
  (m.type = .search ∨ m.type = .regex) ∧ m.vallen = 0 ∨ m.type = .beid3 ∨ m.type = .leid3 ∨
    m.type = .default ∧ m.factorOp ≠ .none

theorem relnStrength_isSome {m : EntryLine} {reln : Reln} (h : m.reln = reln.char) (val : ℕ) :
    (relnStrength m val).isSome = true := by
  rw [relnStrength, h]
  cases reln <;> rfl

theorem typeStrength_none_iff {m : EntryLine} (hdefault : m.type ≠ .default) (hinvalid : m.type ≠ .invalid) :
    typeStrength m = none ↔ (m.type = .search ∨ m.type = .regex) ∧ m.vallen = 0 ∨ m.type = .beid3 ∨ m.type = .leid3 := by
  rw [typeStrength]
  cases hm : m.type <;> simp_all

theorem strength_none_iff {m : EntryLine} (h : WellFormed check m.toEntry) : strength m = none ↔ Unsortable m := by
  obtain ⟨reln, hreln⟩ := h.reln
  rw [strength, Unsortable]
  by_cases hdefault : m.type = .default
  · simp [hdefault]
  · rw [if_neg hdefault, Option.map_eq_none_iff]
    constructor
    · intro hnone
      cases htype : typeStrength m with
      | none =>
        rcases (typeStrength_none_iff hdefault h.type).mp htype with hs | hs | hs
        · exact .inl hs
        · exact .inr (.inl hs)
        · exact .inr (.inr (.inl hs))
      | some val =>
        have := relnStrength_isSome hreln val
        rw [htype, Option.bind_some] at hnone
        rw [hnone] at this
        cases this
    · intro hs
      rw [(typeStrength_none_iff hdefault h.type).mpr, Option.bind_none]
      rcases hs with hs | hs | hs | hs
      · exact .inl hs
      · exact .inr (.inl hs)
      · exact .inr (.inr hs)
      · exact absurd hs.1 hdefault

theorem makeSet_none_iff {tests : List MagicEntry} (h : ∀ me ∈ tests, WellFormed check me.top.toEntry) :
    makeSet q tests = none ↔ 1 < tests.length ∧ ∃ me ∈ tests, Unsortable me.top := by
  have hsame (me : MagicEntry) : strength (setTextBinary me).top = strength me.top := rfl
  rw [makeSet, Option.map_eq_none_iff, sortTests, List.length_map]
  by_cases hlen : tests.length ≤ 1
  · rw [if_pos hlen]
    exact iff_of_false (fun h => by cases h) (fun h => by omega)
  rw [if_neg hlen, List.all_map]
  constructor
  · intro hnone
    refine ⟨by omega, ?_⟩
    by_contra hall
    rw [if_pos] at hnone
    · cases hnone
    refine List.all_eq_true.mpr fun me hme => Option.isSome_iff_ne_none.mpr fun hs => hall ⟨me, hme, ?_⟩
    exact (strength_none_iff (h me hme)).mp ((hsame me).symm.trans hs)
  · rintro ⟨-, me, hme, hs⟩
    rw [if_neg]
    intro hall
    have := List.all_eq_true.mp hall me hme
    rw [Function.comp_apply, hsame, (strength_none_iff (h me hme)).mpr hs] at this
    cases this

/-- A search for nothing, with any other test. -/
example : (apprenticeLoad (lineReader noFloats true) insertionQsort .start
    [some [textLine "0 search/9 x text\n", textLine "0 byte 1 one\n"]]).2.isNone = true := by
  decide +kernel

end CodingExercises.File.ParseLine
