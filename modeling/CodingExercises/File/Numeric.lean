import Mathlib.Data.List.Induction
import CodingExercises.File.Data
import CodingExercises.Lib.ByteOrder

/-!
# file: numbers

`cvt_8` and so on, and what `mconvert` and `magiccheck` of `softmagic.c` do for the integer and date types, with `file_signextend`
of `apprentice.c`. The union is its bytes, on a little-endian host.

Most types are compared as they are declared. Three are not: `short` is converted twice, `leshort` in 32 bits, and `lelong` and
its dates not at all (`compares_iff`).
-/

namespace CodingExercises.File

open CodingExercises.Lib (ByteOrder)

/-- `mask_op` and `num_mask`. -/
structure Mask where
  op : BitVec 8
  num : BitVec 64

/-- A division that traps, or a return of 0 with an error. -/
inductive Stop
  | trap
  | invalid
deriving DecidableEq

variable {w : ℕ}

/-! ## Conversion -/

/-- The operators of `DO_CVT`. -/
def operateMask (op : BitVec 8) (x y : BitVec w) : BitVec w :=
  match (op &&& 7).toNat with
  | 0 => x &&& y
  | 1 => x ||| y
  | 2 => x ^^^ y
  | 3 => x + y
  | 4 => x - y
  | 5 => x * y
  | 6 => x / y
  | _ => x % y

/-- `FILE_OPDIVIDE` and `FILE_OPMODULO`. -/
def divides (op : BitVec 8) : Bool := 6 ≤ (op &&& 7).toNat

/-- `FILE_OPINVERSE`. -/
def invert (mask : Mask) (x : BitVec w) : BitVec w := if mask.op &&& opInverse ≠ 0 then ~~~x else x

/-- What the mask makes of a field. -/
def masked (mask : Mask) (x : BitVec w) : BitVec w :=
  invert mask (if mask.num ≠ 0 then operateMask mask.op x (mask.num.setWidth w) else x)

/-- `DO_CVT`: the mask is cast to the width of the field, and a division by zero traps. -/
def doCvt (mask : Mask) (x : BitVec w) : Except Stop (BitVec w) :=
  if mask.num ≠ 0 && divides mask.op && mask.num.setWidth w = 0 then .error .trap else .ok (masked mask x)

/-- A field at the front of the union. -/
def field (k : ℕ) (v : List UInt8) : ℕ := ByteOrder.number (v.take k)

def putField (k x : ℕ) (v : List UInt8) : List UInt8 := ByteOrder.digits k x ++ v.drop k

/-- `DO_CVT` on a field of so many bytes. -/
def cvtField (k : ℕ) (mask : Mask) (v : List UInt8) : Except Stop (List UInt8) := do
  let x ← doCvt mask (BitVec.ofNat (8 * k) (field k v))
  return putField k x.toNat v

def cvt8 (mask : Mask) (v : List UInt8) : Except Stop (List UInt8) := cvtField 1 mask v
def cvt16 (mask : Mask) (v : List UInt8) : Except Stop (List UInt8) := cvtField 2 mask v
def cvt32 (mask : Mask) (v : List UInt8) : Except Stop (List UInt8) := cvtField 4 mask v
def cvt64 (mask : Mask) (v : List UInt8) : Except Stop (List UInt8) := cvtField 8 mask v

/-- `mconvert` for integers and dates. -/
def mconvertNumber (type : FileType) (mask : Mask) (v : List UInt8) : Except Stop (List UInt8) :=
  match type with
  | .byte => cvt8 mask v
  -- The case has no end.
  | .short => do
    let v ← cvt16 mask v
    cvt32 mask v
  | .long | .date | .ldate => cvt32 mask v
  | .quad | .qdate | .qldate | .qwdate => cvt64 mask v
  | .beshort => cvt16 mask (putField 2 (word v [0, 1]) v)
  | .belong | .bedate | .beldate => cvt32 mask (putField 4 (word v [0, 1, 2, 3]) v)
  | .bequad | .beqdate | .beqldate | .beqwdate => cvt64 mask (putField 8 (word v [0, 1, 2, 3, 4, 5, 6, 7]) v)
  | .leshort => cvt32 mask (putField 4 (word v [3, 2, 1, 0]) v)
  | .lequad | .leqdate | .leqldate | .leqwdate => cvt64 mask (putField 8 (word v [7, 6, 5, 4, 3, 2, 1, 0]) v)
  | .melong | .medate | .meldate => cvt32 mask (putField 4 (word v [1, 0, 3, 2]) v)
  | _ => .error .invalid

/-! ## Comparison -/

/-- `file_signextend`. -/
def fileSignextend (type : FileType) (unsigned : Bool) (v : BitVec 64) : BitVec 64 :=
  if unsigned then v
  else
    match type with
    | .byte => (v.setWidth 8).signExtend 64
    | .short | .beshort | .leshort => (v.setWidth 16).signExtend 64
    | .date | .bedate | .ledate | .medate | .ldate | .beldate | .leldate | .meldate | .long | .belong | .lelong | .melong | .float
    | .befloat | .lefloat => (v.setWidth 32).signExtend 64
    | .quad | .bequad | .lequad | .qdate | .qldate | .qwdate | .beqdate | .beqldate | .beqwdate | .leqdate | .leqldate | .leqwdate
    | .double | .bedouble | .ledouble => v
    | .string | .pstring | .bestring16 | .lestring16 | .regex | .search | .default | .name | .use => v
    | _ => 0xffffffff

/-- The bytes of the field that `magiccheck` reads. -/
def numberWidth : FileType → Option ℕ
  | .byte => some 1
  | .short | .beshort | .leshort => some 2
  | .long | .belong | .lelong | .melong | .date | .bedate | .ledate | .medate | .ldate | .beldate | .leldate | .meldate => some 4
  | .quad | .lequad | .bequad | .qdate | .beqdate | .leqdate | .qldate | .beqldate | .leqldate | .qwdate | .beqwdate
  | .leqwdate => some 8
  | _ => none

/-- `switch(m->reln)`, with `none` for -1. -/
def relate (reln : Char) (unsigned : Bool) (v l : BitVec 64) : Option Bool :=
  match reln with
  | 'x' => some true
  | '!' => some (v ≠ l)
  | '=' => some (v = l)
  | '>' => some (if unsigned then l.ult v else l.slt v)
  | '<' => some (if unsigned then v.ult l else v.slt l)
  | '&' => some (v &&& l = l)
  | '^' => some (v &&& l ≠ l)
  | _ => none

/-- `magiccheck` for integers and dates. -/
def magiccheckNumber (type : FileType) (unsigned : Bool) (reln : Char) (l : BitVec 64) (v : List UInt8) : Option Bool := do
  let k ← numberWidth type
  relate reln unsigned (fileSignextend type unsigned (BitVec.ofNat 64 (field k v))) l

/-! ## What is declared -/

/-- `m->reln`. -/
inductive Reln
  | any
  | ne
  | eq
  | gt
  | lt
  | and
  | xor
deriving DecidableEq

def Reln.char : Reln → Char
  | any => 'x'
  | ne => '!'
  | eq => '='
  | gt => '>'
  | lt => '<'
  | and => '&'
  | xor => '^'

/-- A value has the relation to a constant. -/
def Reln.Holds (r : Reln) (unsigned : Bool) (v l : BitVec 64) : Prop :=
  match r with
  | any => True
  | ne => v ≠ l
  | eq => v = l
  | gt => if unsigned then l.toNat < v.toNat else l.toInt < v.toInt
  | lt => if unsigned then v.toNat < l.toNat else v.toInt < l.toInt
  | and => v &&& l = l
  | xor => v &&& l ≠ l

def bigTypes : List FileType := [.beshort, .belong, .bedate, .beldate, .bequad, .beqdate, .beqldate, .beqwdate]

def middleTypes : List FileType := [.melong, .medate, .meldate]

/-- The bytes of the field in the declared order, the lowest first. -/
def declaredBytes (type : FileType) (v : List UInt8) : List UInt8 :=
  let b := v.take ((numberWidth type).getD 0)
  if type ∈ bigTypes then b.reverse else if type ∈ middleTypes then b.drop 2 ++ b.take 2 else b

/-- The field as it is declared, with the mask. -/
def declaredField (type : FileType) (mask : Mask) (k : ℕ) (v : List UInt8) : BitVec (8 * k) :=
  masked mask (BitVec.ofNat (8 * k) (ByteOrder.number (declaredBytes type v)))

/-- And as 64 bits. -/
def extended (unsigned : Bool) (x : BitVec w) : BitVec 64 := if unsigned then x.setWidth 64 else x.signExtend 64

/-- An entry of this type is compared as it is declared, whatever its relation and its constant are. -/
def Compares (type : FileType) (flip unsigned : Bool) (mask : Mask) (k : ℕ) (v : List UInt8) : Prop :=
  ∃ v', mconvertNumber (cvtFlip type flip) mask v = .ok v' ∧ ∀ (r : Reln) (l : BitVec 64), ∃ answer,
    magiccheckNumber type unsigned r.char l v' = some answer ∧
      (answer = true ↔ r.Holds unsigned (extended unsigned (declaredField (cvtFlip type flip) mask k v)) l)

/-- What goes right: not `lelong` and its dates; `leshort` where the operator gives the same 16 bits in 32 bits; and `short` where
the mask does nothing more the second time, with the two bytes behind the field. -/
def GoesRight (type : FileType) (mask : Mask) (v : List UInt8) : Prop :=
  match type with
  | .lelong | .ledate | .leldate => False
  | .leshort =>
    (operateMask mask.op (BitVec.ofNat 32 (field 4 v)) (mask.num.setWidth 32)).setWidth 16 =
      operateMask mask.op (BitVec.ofNat 16 (field 2 v)) (mask.num.setWidth 16)
  | .short =>
    let x := declaredField .short mask 2 v
    (masked mask (BitVec.ofNat 32 (x.toNat + 2 ^ 16 * field 2 (v.drop 2)))).setWidth 16 = x
  | _ => True

variable {type : FileType} {unsigned flip : Bool} {mask : Mask} {k x : ℕ} {v : List UInt8}

/-! ## The field -/

theorem field_lt (k : ℕ) (v : List UInt8) : field k v < 2 ^ (8 * k) := by
  calc field k v < 256 ^ (v.take k).length := ByteOrder.number_lt _
    _ ≤ 256 ^ k := Nat.pow_le_pow_right (by decide) (List.length_take_le k v)
    _ = 2 ^ (8 * k) := by rw [Nat.pow_mul]

theorem field_putField (h : x < 2 ^ (8 * k)) (v : List UInt8) : field k (putField k x v) = x := by
  rw [field, putField, List.take_left' (ByteOrder.length_digits k x), ByteOrder.number_digits, Nat.mod_eq_of_lt]
  rwa [show 256 = 2 ^ 8 from rfl, ← Nat.pow_mul]

/-- Where the mask has bits in the width of the field, its operator does not trap. -/
theorem cvtField_eq (h : mask.num ≠ 0 → mask.num.setWidth (8 * k) ≠ 0) (v : List UInt8) :
    cvtField k mask v = .ok (putField k (masked mask (BitVec.ofNat (8 * k) (field k v))).toNat v) := by
  rw [cvtField, doCvt, if_neg]
  · rfl
  · simp only [Bool.and_eq_true, decide_eq_true_eq, not_and]
    exact fun hnum => h hnum.1

/-! ## The comparison -/

theorem numberWidth_cvtFlip (type : FileType) (flip : Bool) : numberWidth (cvtFlip type flip) = numberWidth type := by
  cases flip <;> cases type <;> rfl

theorem numberWidth_le (h : numberWidth type = some k) : 8 * k ≤ 64 := by
  cases type <;> cases h <;> decide

theorem setWidth_extended {x : BitVec w} (h : w ≤ 64) : (extended unsigned x).setWidth w = x := by
  rw [extended]
  split
  · rw [BitVec.setWidth_setWidth_of_le _ h, BitVec.setWidth_eq]
  · ext i hi
    simp [hi, BitVec.getLsbD_signExtend]
    omega

/-- The sign is extended from the width of the type. -/
theorem fileSignextend_eq (hk : numberWidth type = some k) (hx : x < 2 ^ (8 * k)) :
    fileSignextend type unsigned (BitVec.ofNat 64 x) = extended unsigned (BitVec.ofNat (8 * k) x) := by
  have hle := numberWidth_le hk
  cases unsigned with
  | true =>
    have hlt : x < 2 ^ 64 := hx.trans_le (Nat.pow_le_pow_right Nat.two_pos hle)
    apply BitVec.eq_of_toNat_eq
    simp only [fileSignextend, extended, if_true, BitVec.toNat_setWidth, BitVec.toNat_ofNat, Nat.mod_eq_of_lt hx]
  | false =>
    have hlow (w : ℕ) (hw : w ≤ 64) : ((BitVec.ofNat 64 x).setWidth w).signExtend 64 = (BitVec.ofNat w x).signExtend 64 := by
      rw [BitVec.setWidth_ofNat_of_le hw]
    have hwhole : BitVec.ofNat 64 x = (BitVec.ofNat 64 x).signExtend 64 := (BitVec.signExtend_eq _).symm
    simp only [fileSignextend, extended, Bool.false_eq_true, if_false]
    cases type <;> cases hk <;> first | exact hlow _ (by decide) | exact hwhole

theorem relate_char (r : Reln) (unsigned : Bool) (v l : BitVec 64) : ∃ answer,
    relate r.char unsigned v l = some answer ∧ (answer = true ↔ r.Holds unsigned v l) := by
  cases r with
  | any => exact ⟨_, rfl, iff_of_true rfl trivial⟩
  | ne => exact ⟨_, rfl, decide_eq_true_iff⟩
  | eq => exact ⟨_, rfl, decide_eq_true_iff⟩
  | gt =>
    refine ⟨_, rfl, ?_⟩
    cases unsigned with
    | true => exact BitVec.ult_iff_toNat_lt
    | false => exact BitVec.slt_iff_toInt_lt
  | lt =>
    refine ⟨_, rfl, ?_⟩
    cases unsigned with
    | true => exact BitVec.ult_iff_toNat_lt
    | false => exact BitVec.slt_iff_toInt_lt
  | and => exact ⟨_, rfl, decide_eq_true_iff⟩
  | xor => exact ⟨_, rfl, decide_eq_true_iff⟩

/-- An entry is compared as it is declared just if the field is left so in the union. -/
theorem compares_iff_field (hk : numberWidth type = some k) : Compares type flip unsigned mask k v ↔
    ∃ v', mconvertNumber (cvtFlip type flip) mask v = .ok v' ∧
      BitVec.ofNat (8 * k) (field k v') = declaredField (cvtFlip type flip) mask k v := by
  have hcheck (r : Reln) (l : BitVec 64) (v' : List UInt8) : magiccheckNumber type unsigned r.char l v' =
      relate r.char unsigned (extended unsigned (BitVec.ofNat (8 * k) (field k v'))) l := by
    rw [magiccheckNumber, hk, Option.bind_eq_bind, Option.bind_some, fileSignextend_eq hk (field_lt k v')]
  constructor
  · rintro ⟨v', hv', hanswer⟩
    refine ⟨v', hv', ?_⟩
    obtain ⟨answer, hrun, hiff⟩ := hanswer .eq (extended unsigned (declaredField (cvtFlip type flip) mask k v))
    obtain ⟨other, hother, hholds⟩ := relate_char .eq unsigned (extended unsigned (BitVec.ofNat (8 * k) (field k v')))
      (extended unsigned (declaredField (cvtFlip type flip) mask k v))
    rw [hcheck, hother] at hrun
    cases hrun
    have hextended : extended unsigned (BitVec.ofNat (8 * k) (field k v')) =
        extended unsigned (declaredField (cvtFlip type flip) mask k v) := hholds.mp (hiff.mpr rfl)
    have hfield := congrArg (BitVec.setWidth (8 * k)) hextended
    rwa [setWidth_extended (numberWidth_le hk), setWidth_extended (numberWidth_le hk)] at hfield
  · rintro ⟨v', hv', hfield⟩
    refine ⟨v', hv', fun r l => ?_⟩
    rw [hcheck, hfield]
    exact relate_char r unsigned _ l

/-! ## Types that go right -/

theorem word_append (v : List UInt8) (is : List ℕ) (i : ℕ) : word v (is ++ [i]) = word v is * 256 + (v.getD i 0).toNat := by
  rw [word, List.foldl_append]
  rfl

/-- Bytes one behind another, the highest first. -/
theorem word_eq (v : List UInt8) (is : List ℕ) : word v is = ByteOrder.number (is.reverse.map fun i => v.getD i 0) := by
  induction is using List.reverseRecOn with
  | nil => rfl
  | append_singleton is i ih =>
    rw [word_append, List.reverse_append, List.reverse_singleton, List.singleton_append, List.map_cons, ByteOrder.number_cons, ← ih]
    ring

theorem word_lt (v : List UInt8) (is : List ℕ) : word v is < 2 ^ (8 * is.length) := by
  have hlt := ByteOrder.number_lt (is.reverse.map fun i => v.getD i 0)
  rw [List.length_map, List.length_reverse] at hlt
  rwa [word_eq, Nat.pow_mul]

/-- The types that are converted once, in their own width. -/
def plainTypes : List FileType :=
  [.byte, .long, .date, .ldate, .quad, .qdate, .qldate, .qwdate, .beshort, .belong, .bedate, .beldate, .bequad, .beqdate,
    .beqldate, .beqwdate, .lequad, .leqdate, .leqldate, .leqwdate, .melong, .medate, .meldate]

/-- Where the bytes of the field are, the lowest first. -/
def positions (type : FileType) (k : ℕ) : List ℕ :=
  if type ∈ bigTypes then (List.range k).reverse
  else if type ∈ middleTypes then (List.range k).drop 2 ++ (List.range k).take 2
  else List.range k

theorem take_eq_map (h : k ≤ v.length) : v.take k = (List.range k).map fun i => v.getD i 0 := by
  apply List.ext_getElem
  · simp [h]
  · intro i hi _
    have hlt : i < v.length := by
      rw [List.length_take] at hi
      omega
    simp [hlt]

theorem declaredBytes_eq (hk : numberWidth type = some k) (h : k ≤ v.length) :
    declaredBytes type v = (positions type k).map fun i => v.getD i 0 := by
  simp only [declaredBytes, positions, hk, Option.getD_some, take_eq_map h]
  split
  · rw [List.map_reverse]
  · split
    · rw [List.map_append, List.map_drop, List.map_take]
    · rfl

/-- A field that is put together from its bytes is the declared one. -/
theorem field_word (type : FileType) (hk : numberWidth type = some k) (h : k ≤ v.length) {is : List ℕ} (his : is.reverse = positions type k) :
    field k (putField k (word v is) v) = ByteOrder.number (declaredBytes type v) := by
  have hlen : is.length = k := by
    rw [← List.length_reverse, his, positions]
    split
    · rw [List.length_reverse, List.length_range]
    · split
      · rw [List.length_append, List.length_drop, List.length_take, List.length_range]
        omega
      · exact List.length_range
  rw [field_putField (hlen ▸ word_lt v is), word_eq, his, declaredBytes_eq hk h]

theorem field_native (hk : numberWidth type = some k) (hbig : type ∉ bigTypes) (hmiddle : type ∉ middleTypes) :
    field k v = ByteOrder.number (declaredBytes type v) := by
  rw [field, declaredBytes, hk, if_neg hbig, if_neg hmiddle]
  rfl

/-- They are converted in the field that is declared. -/
theorem mconvertNumber_plain (mask : Mask) (h : type ∈ plainTypes) (hk : numberWidth type = some k) (hle : k ≤ v.length) :
    ∃ v', mconvertNumber type mask v = cvtField k mask v' ∧ field k v' = ByteOrder.number (declaredBytes type v) := by
  simp only [plainTypes, List.mem_cons, List.not_mem_nil, or_false] at h
  obtain rfl | rfl | rfl | rfl | rfl | rfl | rfl | rfl | h := h
  case inr.inr.inr.inr.inr.inr.inr.inr =>
    obtain rfl | rfl | rfl | rfl | rfl | rfl | rfl | rfl | rfl | rfl | rfl | rfl | rfl | rfl | rfl := h
    all_goals
      cases hk
      exact ⟨_, rfl, field_word _ rfl hle rfl⟩
  all_goals
    cases hk
    exact ⟨_, rfl, field_native rfl (by decide) (by decide)⟩

/-! ## Types that go wrong -/

/-- The mask on the low bits of a field. -/
theorem setWidth_masked (mask : Mask) (x : BitVec 32) : (masked mask x).setWidth 16 = masked mask (x.setWidth 16) ↔
    mask.num = 0 ∨ (operateMask mask.op x (mask.num.setWidth 32)).setWidth 16 =
      operateMask mask.op (x.setWidth 16) (mask.num.setWidth 16) := by
  have hinvert (y : BitVec 32) (z : BitVec 16) : (invert mask y).setWidth 16 = invert mask z ↔ y.setWidth 16 = z := by
    rw [invert, invert]
    split
    · rw [BitVec.setWidth_not (by decide), BitVec.not_inj]
    · rfl
  rw [masked, masked, hinvert]
  by_cases hnum : mask.num = 0
  · simp only [hnum, ne_eq, not_true_eq_false, if_false, true_or]
  · simp only [hnum, ne_eq, not_false_eq_true, if_true, false_or]

/-- Without a mask there is nothing to go wrong. -/
theorem operateMask_zero (op : BitVec 8) (x : BitVec 32) :
    (operateMask op x 0).setWidth 16 = operateMask op (x.setWidth 16) 0 := by
  unfold operateMask
  split <;> simp

theorem field_four (h : 2 ≤ v.length) : field 4 v = field 2 v + 2 ^ 16 * field 2 (v.drop 2) := by
  have htake : v.take (2 + 2) = v.take 2 ++ (v.drop 2).take 2 := List.take_add
  have hfour : field 4 v = ByteOrder.number (v.take (2 + 2)) := rfl
  rw [hfour, htake, ByteOrder.number_append, List.length_take, Nat.min_eq_left h]
  rfl

theorem ofNat_field_two (x : ℕ) (v : List UInt8) :
    BitVec.ofNat 16 (field 2 (putField 4 x v)) = (BitVec.ofNat 32 x).setWidth 16 := by
  have htake : (putField 4 x v).take 2 = ByteOrder.digits 2 x := rfl
  apply BitVec.eq_of_toNat_eq
  rw [field, htake, ByteOrder.number_digits, BitVec.toNat_ofNat, BitVec.toNat_setWidth, BitVec.toNat_ofNat]
  omega

theorem setWidth_num (h : mask.num.setWidth 16 ≠ 0) : mask.num.setWidth 32 ≠ 0 := by
  intro hzero
  have hlow := congrArg (BitVec.setWidth 16) hzero
  rw [BitVec.setWidth_setWidth_of_le _ (by decide)] at hlow
  exact h hlow

/-- `leshort` in 32 bits. -/
theorem leshort_iff (hmask : mask.num ≠ 0 → mask.num.setWidth 16 ≠ 0) (hle : 4 ≤ v.length) :
    (∃ v', mconvertNumber .leshort mask v = .ok v' ∧ BitVec.ofNat 16 (field 2 v') = declaredField .leshort mask 2 v) ↔
      GoesRight .leshort mask v := by
  have hrun : mconvertNumber .leshort mask v = cvtField 4 mask (putField 4 (word v [3, 2, 1, 0]) v) := rfl
  have hfield : field 4 (putField 4 (word v [3, 2, 1, 0]) v) = field 4 v := by
    rw [field_word .lelong rfl hle rfl, ← field_native rfl (by decide) (by decide)]
  have hlow : (BitVec.ofNat 32 (field 4 v)).setWidth 16 = BitVec.ofNat 16 (field 2 v) := by
    apply BitVec.eq_of_toNat_eq
    rw [field_four (by omega), BitVec.toNat_setWidth, BitVec.toNat_ofNat, BitVec.toNat_ofNat]
    omega
  have hdeclared : declaredField .leshort mask 2 v = masked mask ((BitVec.ofNat 32 (field 4 v)).setWidth 16) := by
    rw [declaredField, ← field_native rfl (by decide) (by decide), ← hlow]
  rw [hrun, cvtField_eq (fun hnum => setWidth_num (hmask hnum)), hfield]
  simp only [Except.ok.injEq, exists_eq_left', ofNat_field_two, BitVec.ofNat_toNat, hdeclared, BitVec.setWidth_eq]
  rw [setWidth_masked, GoesRight, hlow]
  constructor
  · rintro (hnum | h)
    · rw [hnum, ← hlow]
      exact operateMask_zero mask.op _
    · exact h
  · exact .inr

/-- `short` converted a second time, with the two bytes behind it. -/
theorem short_iff (hmask : mask.num ≠ 0 → mask.num.setWidth 16 ≠ 0) :
    (∃ v', mconvertNumber .short mask v = .ok v' ∧ BitVec.ofNat 16 (field 2 v') = declaredField .short mask 2 v) ↔
      GoesRight .short mask v := by
  have hfirst : masked mask (BitVec.ofNat 16 (field 2 v)) = declaredField .short mask 2 v := by
    rw [declaredField, ← field_native rfl (by decide) (by decide)]
  have hsecond (x : BitVec 16) : field 4 (putField 2 x.toNat v) = x.toNat + 2 ^ 16 * field 2 (v.drop 2) := by
    have hdrop : (putField 2 x.toNat v).drop 2 = v.drop 2 := List.drop_left' (ByteOrder.length_digits 2 _)
    have hlen : 2 ≤ (putField 2 x.toNat v).length := by
      rw [putField, List.length_append, ByteOrder.length_digits]
      omega
    rw [field_four hlen, field_putField x.isLt, hdrop]
  have hrun : mconvertNumber .short mask v = .ok (putField 4 (masked mask (BitVec.ofNat 32
      ((declaredField .short mask 2 v).toNat + 2 ^ 16 * field 2 (v.drop 2)))).toNat
      (putField 2 (declaredField .short mask 2 v).toNat v)) := by
    have hone : cvt16 mask v = .ok (putField 2 (declaredField .short mask 2 v).toNat v) := by
      rw [← hfirst]
      exact cvtField_eq hmask v
    have htwo := cvtField_eq (k := 4) (fun hnum => setWidth_num (hmask hnum)) (putField 2 (declaredField .short mask 2 v).toNat v)
    rw [hsecond] at htwo
    rw [mconvertNumber, hone]
    exact htwo
  rw [hrun]
  simp only [Except.ok.injEq, exists_eq_left', ofNat_field_two, BitVec.ofNat_toNat, BitVec.setWidth_eq, GoesRight]

/-- Every type is one of these. -/
theorem mem_plainTypes (hk : numberWidth type = some k) : type ∈ plainTypes ∨ type ∈ [FileType.short, .leshort] ∨
    type ∈ [FileType.lelong, .ledate, .leldate] := by
  cases type <;> cases hk <;> decide

/-- The bytes the other way round are those of the other order. -/
theorem declaredBytes_reverse {v' : List UInt8} (hbig : type ∈ bigTypes) (hk : numberWidth type = some k)
    (hrev : v'.take k = (v.take k).reverse) : declaredBytes (cvtFlip type true) v' = declaredBytes type v := by
  have hother : cvtFlip type true ∉ bigTypes ∧ cvtFlip type true ∉ middleTypes := by
    simp only [bigTypes, List.mem_cons, List.not_mem_nil, or_false] at hbig
    obtain rfl | rfl | rfl | rfl | rfl | rfl | rfl | rfl := hbig <;> decide
  simp only [declaredBytes, numberWidth_cvtFlip, hk, Option.getD_some, if_pos hbig, if_neg hother.1, if_neg hother.2, hrev]

/-- An entry of a type of so many bytes, with a mask that has bits in them, is compared as it is declared just if its type, after
`cvt_flip`, goes right. What is declared for a big-endian type is what is declared for the little-endian one on the bytes the other
way round. -/
theorem compares_iff (hk : numberWidth type = some k) (hmask : mask.num ≠ 0 → mask.num.setWidth (8 * k) ≠ 0)
    (hv : v.length = maxString) :
    (Compares type flip unsigned mask k v ↔ GoesRight (cvtFlip type flip) mask v) ∧
      (type ∈ bigTypes → ∀ v' : List UInt8, v'.take k = (v.take k).reverse →
        declaredField (cvtFlip type true) mask k v' = declaredField type mask k v) := by
  have hmax : maxString = 64 := rfl
  have hflip : numberWidth (cvtFlip type flip) = some k := by rw [numberWidth_cvtFlip, hk]
  have hwidth := numberWidth_le hk
  refine ⟨?_, fun hbig v' hrev => by rw [declaredField, declaredField, declaredBytes_reverse hbig hk hrev]⟩
  rw [compares_iff_field hk]
  generalize cvtFlip type flip = t at hflip
  rcases mem_plainTypes hflip with hplain | hshort | hmissing
  · obtain ⟨v', hrun, hfield⟩ := mconvertNumber_plain mask hplain hflip (v := v) (by omega)
    have hright : GoesRight t mask v := by cases t <;> trivial
    refine iff_of_true ⟨_, hrun.trans (cvtField_eq hmask v'), ?_⟩ hright
    rw [field_putField (masked _ _).isLt, hfield, BitVec.ofNat_toNat, BitVec.setWidth_eq, declaredField]
  · simp only [List.mem_cons, List.not_mem_nil, or_false] at hshort
    obtain rfl | rfl := hshort
    · cases hflip
      exact short_iff hmask
    · cases hflip
      exact leshort_iff hmask (by omega)
  · simp only [List.mem_cons, List.not_mem_nil, or_false] at hmissing
    obtain rfl | rfl | rfl := hmissing
    all_goals
      refine iff_of_false ?_ (fun h => h)
      rintro ⟨v', hv', -⟩
      cases hv'

/-- `belong&0xff`. -/
theorem compares_belong :
    Compares .belong false false ⟨0, 0xff⟩ 4 (List.replicate maxString 1) :=
  (compares_iff rfl (fun _ => by decide) List.length_replicate).1.mpr trivial

/-- `lelong`, of which `mconvert` knows nothing. -/
theorem not_compares_lelong :
    ¬ ∀ (type : FileType) (flip unsigned : Bool) (mask : Mask) (k : ℕ) (v : List UInt8), numberWidth type = some k →
      mask.num.setWidth (8 * k) ≠ 0 → v.length = maxString → Compares type flip unsigned mask k v := by
  intro h
  obtain ⟨v', hv', -⟩ := h .lelong false false ⟨0, 0xff⟩ 4 (List.replicate maxString 1) rfl (by decide) List.length_replicate
  cases hv'

end CodingExercises.File
