import CodingExercises.File.Continuations
import CodingExercises.File.Numeric

/-!
# file: divisions

The integer divisions of `mconvert` and `mget` in `softmagic.c`, with what `parse` of `apprentice.c` can make of the mask and of
the indirection. A division traps by a zero, or by -1 where the dividend is the least `int` (`traps_iff`):

- by zero where the mask of an unsigned type is not zero, but its bits in the width of the conversion are;
- by -1 where the indirection has one of the types of four bytes, but for `long`, which is divided without a sign.
-/

namespace CodingExercises.File

/-- `UNSIGNED`. -/
def flagUnsigned : BitVec 8 := 0x08

/-! ## What `parse` makes -/

/-- `get_op`, with `none` for -1. -/
def getOp : Char → Option (BitVec 8)
  | '&' => some 0
  | '|' => some 1
  | '^' => some 2
  | '-' => some 4
  | '+' => some 3
  | '*' => some 5
  | '/' => some 6
  | '%' => some 7
  | _ => none

/-- The mask of a numeric type: with `~` or not, and an operator with its number or none. -/
def parseMask (type : FileType) (unsigned inverse : Bool) (operator : Option (BitVec 8 × BitVec 64)) : Mask :=
  let op := if inverse then opInverse else 0
  match operator with
  | none => ⟨op, 0⟩
  | some (o, val) => ⟨op ||| o, fileSignextend type unsigned val⟩

/-- `m->in_type`: the letter behind the point, if there is one. -/
def parseInType : Option Char → FileType
  | some 'l' => .lelong
  | some 'L' => .belong
  | some 'm' => .melong
  | some 'h' | some 's' => .leshort
  | some 'H' | some 'S' => .beshort
  | some 'c' | some 'b' | some 'C' | some 'B' => .byte
  | some 'e' | some 'f' | some 'g' => .ledouble
  | some 'E' | some 'F' | some 'G' => .bedouble
  | some 'i' => .leid3
  | some 'I' => .beid3
  | _ => .long

/-! ## Divisions -/

/-- A division of 32 bits traps; that of `p->l` has no sign. -/
def divisionTraps (type : FileType) (d off : BitVec 32) : Bool :=
  off = 0 || type ≠ .long && d = BitVec.intMin 32 && off = -1

/-- A division that `mget` makes for an indirect offset traps. -/
def indirectTraps (m : Entry) (type : FileType) (v : List UInt8) (off : BitVec 32) (nbytes : ℕ) (offset : BitVec 32) : Bool :=
  match inWidth type with
  | none => false
  | some width => !short nbytes offset width && off ≠ 0 && divides m.inOp && divisionTraps type (operand v type) off

/-- What an entry is evaluated on: the file, where it is and how long, the offset, what was copied for the indirection and what was
copied for the entry. -/
structure Content where
  mem : ℤ → UInt8
  s : ℕ
  nbytes : ℕ
  offset : BitVec 32
  first : List UInt8
  value : List UInt8

/-- Some division traps. -/
def Traps (m : Entry) (mask : Mask) (flip : Bool) (c : Content) : Prop :=
  (m.has flagIndir = true ∧ indirectTraps m (cvtFlip m.inType flip) c.first
    (indirectOff c.mem m (cvtFlip m.inType flip) c.s c.offset) c.nbytes c.offset = true) ∨
    mconvertNumber (cvtFlip m.type flip) mask c.value = .error .trap

/-! ## The conditions -/

/-- The bytes in which `mconvert` divides. -/
def convertedWidth : FileType → Option ℕ
  | .byte => some 1
  | .short | .beshort => some 2
  | .leshort => some 4
  | .long | .date | .ldate | .belong | .bedate | .beldate | .melong | .medate | .meldate => some 4
  | .quad | .qdate | .qldate | .qwdate | .bequad | .beqdate | .beqldate | .beqwdate | .lequad | .leqdate | .leqldate
  | .leqwdate => some 8
  | _ => none

/-- An unsigned type is divided by a number that is not zero, but has no bits in the width of the conversion. -/
def DividesByHigh (type : FileType) (unsigned flip : Bool) (operator : Option (BitVec 8 × BitVec 64)) : Prop :=
  unsigned = true ∧ ∃ o val w, operator = some (o, val) ∧ divides o = true ∧ val ≠ 0 ∧
    convertedWidth (cvtFlip type flip) = some w ∧ val.setWidth (8 * w) = 0

def signedLongs : List FileType := [.belong, .beid3, .lelong, .leid3, .melong]

/-- The least `int` is divided by -1. -/
def DividesLeast (m : Entry) (flip : Bool) (c : Content) : Prop :=
  m.has flagIndir = true ∧ divides m.inOp = true ∧ cvtFlip m.inType flip ∈ signedLongs ∧ short c.nbytes c.offset 4 = false ∧
    operand c.first (cvtFlip m.inType flip) = BitVec.intMin 32 ∧
    indirectOff c.mem m (cvtFlip m.inType flip) c.s c.offset = -1

variable {type : FileType} {unsigned inverse flip : Bool} {operator : Option (BitVec 8 × BitVec 64)} {mask : Mask} {k w : ℕ}
  {v : List UInt8} {m : Entry} {c : Content}

theorem cvtField_trap : cvtField k mask v = .error .trap ↔
    mask.num ≠ 0 ∧ divides mask.op = true ∧ mask.num.setWidth (8 * k) = 0 := by
  rw [cvtField, doCvt]
  split
  case isTrue h =>
    simp only [Bool.and_eq_true, decide_eq_true_eq] at h
    exact iff_of_true rfl ⟨h.1.1, h.1.2, h.2⟩
  case isFalse h =>
    simp only [Bool.and_eq_true, decide_eq_true_eq] at h
    refine iff_of_false (fun hok => ?_) (fun hall => h ⟨⟨hall.1, hall.2.1⟩, hall.2.2⟩)
    cases hok

theorem trap_of_width {v' : List UInt8} (hrun : mconvertNumber type mask v = cvtField w mask v')
    (hw : convertedWidth type = some w) : mconvertNumber type mask v = .error .trap ↔
      ∃ w, convertedWidth type = some w ∧ mask.num ≠ 0 ∧ divides mask.op = true ∧ mask.num.setWidth (8 * w) = 0 := by
  simp only [hrun, hw, Option.some.injEq, exists_eq_left']
  exact cvtField_trap

/-- `mconvert` traps where it divides by a number without bits in the width of the conversion. -/
theorem mconvertNumber_trap (type : FileType) (mask : Mask) (v : List UInt8) : mconvertNumber type mask v = .error .trap ↔
    ∃ w, convertedWidth type = some w ∧ mask.num ≠ 0 ∧ divides mask.op = true ∧ mask.num.setWidth (8 * w) = 0 := by
  have hshort : mconvertNumber .short mask v = .error .trap ↔
      mask.num ≠ 0 ∧ divides mask.op = true ∧ mask.num.setWidth (8 * 2) = 0 := by
    rw [← cvtField_trap (v := v), mconvertNumber]
    cases hfirst : cvt16 mask v with
    | error e =>
      have hcvt : cvtField 2 mask v = .error e := hfirst
      rw [hcvt]
      rfl
    | ok v' =>
      have hcvt : cvtField 2 mask v = .ok v' := hfirst
      refine iff_of_false (fun hsecond => ?_) (fun h => by rw [hcvt] at h; cases h)
      -- The second division is by more bits of the same number.
      obtain ⟨hnum, hdiv, hzero⟩ := cvtField_trap.mp hsecond
      have htwo : mask.num.setWidth (8 * 2) ≠ 0 := by
        intro h
        rw [cvtField_trap.mpr ⟨hnum, hdiv, h⟩] at hcvt
        cases hcvt
      exact setWidth_num htwo hzero
  cases type
  case short => simpa only [convertedWidth, Option.some.injEq, exists_eq_left'] using hshort
  all_goals
    first
      | exact iff_of_false (fun h => by cases h) (by rintro ⟨_, hw, _⟩; cases hw)
      | exact trap_of_width rfl rfl

/-- With a sign the mask keeps its bits in the width of the type. -/
theorem fileSignextend_signed (hk : numberWidth type = some k) (val : BitVec 64) :
    fileSignextend type false val = (val.setWidth (8 * k)).signExtend 64 := by
  have hwhole : val = (val.setWidth 64).signExtend 64 := by rw [BitVec.setWidth_eq, BitVec.signExtend_eq]
  cases type <;> cases hk <;> first | rfl | exact hwhole

theorem convertedWidth_ge (hw : convertedWidth (cvtFlip type flip) = some w) :
    ∃ k, numberWidth type = some k ∧ k ≤ w ∧ w ≤ 8 := by
  cases flip <;> cases type <;> cases hw <;> exact ⟨_, rfl, by decide⟩

theorem divides_inverse (o : BitVec 8) : divides (opInverse ||| o) = divides o := by
  revert o
  decide

/-- The mask that `parse` makes is a divisor without bits just if it has no sign and such a number was written. -/
theorem parseMask_iff (hw : convertedWidth (cvtFlip type flip) = some w) :
    ((parseMask type unsigned inverse operator).num ≠ 0 ∧ divides (parseMask type unsigned inverse operator).op = true ∧
      (parseMask type unsigned inverse operator).num.setWidth (8 * w) = 0) ↔
    unsigned = true ∧ ∃ o val, operator = some (o, val) ∧ divides o = true ∧ val ≠ 0 ∧ val.setWidth (8 * w) = 0 := by
  cases operator with
  | none =>
    refine iff_of_false (fun h => h.1 rfl) ?_
    rintro ⟨-, o, val, hnone, -⟩
    cases hnone
  | some p =>
    obtain ⟨o, val⟩ := p
    have hdiv : divides (parseMask type unsigned inverse (some (o, val))).op = divides o := by
      cases inverse with
      | true => exact divides_inverse o
      | false => exact congrArg divides (BitVec.zero_or)
    rw [hdiv]
    cases unsigned with
    | true =>
      constructor
      · rintro ⟨hnum, hdiv, hzero⟩
        exact ⟨rfl, o, val, rfl, hdiv, hnum, hzero⟩
      · rintro ⟨-, o, val, heq, hdiv, hnum, hzero⟩
        cases heq
        exact ⟨hnum, hdiv, hzero⟩
    | false =>
      refine iff_of_false ?_ (fun h => Bool.false_ne_true h.1)
      rintro ⟨hnum, -, hzero⟩
      obtain ⟨k, hk, hle, hlast⟩ := convertedWidth_ge hw
      have hmask : (parseMask type false inverse (some (o, val))).num = (val.setWidth (8 * k)).signExtend 64 :=
        fileSignextend_signed hk val
      rw [hmask] at hnum hzero
      -- The low bits of the divisor are those of the number.
      have hlow : val.setWidth (8 * k) = 0 := by
        have hsigned : (val.setWidth (8 * k)).signExtend 64 = extended false (val.setWidth (8 * k)) := rfl
        have hcut := congrArg (BitVec.setWidth (8 * k)) hzero
        rw [BitVec.setWidth_setWidth_of_le _ (by omega), hsigned, setWidth_extended (by omega)] at hcut
        simpa using hcut
      refine hnum ?_
      rw [hlow, BitVec.signExtend_eq_setWidth_of_msb_false (by simp)]
      simp

/-- Only a type of four bytes with a sign gives the least `int`. -/
theorem divisionTraps_iff {off : BitVec 32} (hoff : off ≠ 0) {width : ℕ} (hwidth : inWidth type = some width) :
    divisionTraps type (operand v type) off = true ↔
      type ∈ signedLongs ∧ operand v type = BitVec.intMin 32 ∧ off = -1 := by
  have hshort (x : BitVec 16) : x.signExtend 32 ≠ BitVec.intMin 32 := by
    intro h
    have hcut := congrArg BitVec.toInt h
    rw [BitVec.toInt_signExtend_of_le (by decide), BitVec.toInt_intMin_of_pos (by decide)] at hcut
    have hle := BitVec.le_two_mul_toInt (x := x)
    norm_num at hcut hle
    omega
  have hsmall (is : List ℕ) (hlen : is.length ≤ 2) : BitVec.ofNat 32 (word v is) ≠ BitVec.intMin 32 := by
    intro h
    have hlt := word_lt v is
    have hle : 2 ^ (8 * is.length) ≤ 2 ^ 16 := Nat.pow_le_pow_right Nat.two_pos (by omega)
    have hcut := congrArg BitVec.toNat h
    rw [BitVec.toNat_ofNat, BitVec.toNat_intMin_of_pos (by decide)] at hcut
    omega
  simp only [divisionTraps, hoff, decide_false, Bool.false_or, Bool.and_eq_true, decide_eq_true_eq]
  constructor
  · rintro ⟨⟨hlong, hleast⟩, hminus⟩
    refine ⟨?_, hleast, hminus⟩
    cases type <;> cases hwidth
    all_goals
      first
        | decide
        | exact absurd rfl hlong
        | exact absurd hleast (hshort _)
        | exact absurd hleast (hsmall _ (by decide))
  · rintro ⟨hmem, hleast, hminus⟩
    refine ⟨⟨?_, hleast⟩, hminus⟩
    rintro rfl
    exact absurd hmem (by decide)

theorem inWidth_signedLongs (h : type ∈ signedLongs) : inWidth type = some 4 := by
  simp only [signedLongs, List.mem_cons, List.not_mem_nil, or_false] at h
  obtain rfl | rfl | rfl | rfl | rfl := h <;> rfl

theorem traps_content_iff (m : Entry) (inverse flip : Bool) (operator : Option (BitVec 8 × BitVec 64)) (c : Content) :
    ¬ Traps m (parseMask m.type (m.has flagUnsigned) inverse operator) flip c ↔
      ¬ DividesByHigh m.type (m.has flagUnsigned) flip operator ∧ ¬ DividesLeast m flip c := by
  rw [← not_or, not_iff_not, Traps, or_comm]
  refine or_congr ?_ ?_
  · rw [mconvertNumber_trap, DividesByHigh]
    constructor
    · rintro ⟨w, hw, hbad⟩
      obtain ⟨hunsigned, o, val, hop, hdiv, hval, hzero⟩ := (parseMask_iff hw).mp hbad
      exact ⟨hunsigned, o, val, w, hop, hdiv, hval, hw, hzero⟩
    · rintro ⟨hunsigned, o, val, w, hop, hdiv, hval, hw, hzero⟩
      exact ⟨w, hw, (parseMask_iff hw).mpr ⟨hunsigned, o, val, hop, hdiv, hval, hzero⟩⟩
  · rw [DividesLeast]
    refine and_congr_right fun _ => ?_
    generalize cvtFlip m.inType flip = t
    generalize indirectOff c.mem m t c.s c.offset = off
    cases hwidth : inWidth t with
    | none =>
      have hmem : t ∉ signedLongs := by
        intro h
        have hsome := inWidth_signedLongs h
        rw [hwidth] at hsome
        cases hsome
      simp only [indirectTraps, hwidth, Bool.false_eq_true, false_iff]
      exact fun h => hmem h.2.1
    | some width =>
      simp only [indirectTraps, hwidth, Bool.and_eq_true, Bool.not_eq_true', decide_eq_true_eq]
      constructor
      · rintro ⟨⟨⟨hshort, hoff⟩, hdiv⟩, htraps⟩
        obtain ⟨hmem, hleast, hminus⟩ := (divisionTraps_iff hoff hwidth).mp htraps
        have hfour := inWidth_signedLongs hmem
        rw [hwidth, Option.some.injEq] at hfour
        rw [hfour] at hshort
        exact ⟨hdiv, hmem, hshort, hleast, hminus⟩
      · rintro ⟨hdiv, hmem, hshort, hleast, hminus⟩
        have hfour := inWidth_signedLongs hmem
        rw [hwidth, Option.some.injEq] at hfour
        have hoff : off ≠ 0 := by
          rw [hminus]
          decide
        exact ⟨⟨⟨hfour ▸ hshort, hoff⟩, hdiv⟩, (divisionTraps_iff hoff hwidth).mpr ⟨hmem, hleast, hminus⟩⟩

/-- The bytes of the least `int`. -/
def leastBytes : FileType → List UInt8
  | .lelong | .leid3 => [0, 0, 0, 0x80]
  | .melong => [0, 0x80, 0, 0]
  | _ => [0x80, 0, 0, 0]

theorem operand_leastBytes (h : type ∈ signedLongs) : operand (leastBytes type) type = BitVec.intMin 32 := by
  simp only [signedLongs, List.mem_cons, List.not_mem_nil, or_false] at h
  obtain rfl | rfl | rfl | rfl | rfl := h <;> decide

end CodingExercises.File
