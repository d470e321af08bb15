import CodingExercises.File.Data
import CodingExercises.Lib.ByteOrder

/-!
# file: Pascal strings

`file_pstring_length_size` and `file_pstring_get_length` of `apprentice.c`, and `FILE_PSTRING` in `mconvert` of `softmagic.c`. The
bytes of the length are read as `char`, which has a sign: the length comes out right, or so large that it is cut off as the right
one is (`pstringGetLength_eq`). The string is not always right: `mconvert_pstring_iff`.

An access of `p->s` that is not within it is `none`.
-/

namespace CodingExercises.File

open CodingExercises.Lib (ByteOrder)

/-- `PSTRING_1_LE` and so on: the formats of the length. -/
inductive LengthFormat
  | one
  | twoBe
  | twoLe
  | fourBe
  | fourLe
deriving DecidableEq

def LengthFormat.bit : LengthFormat → BitVec 32
  | .one => 0x80
  | .twoBe => 0x100
  | .twoLe => 0x200
  | .fourBe => 0x400
  | .fourLe => 0x800

/-- `CHAR_PSTRING_1_LE` and so on. -/
def lengthFormatOfChar : Char → Option LengthFormat
  | 'B' => some .one
  | 'H' => some .twoBe
  | 'h' => some .twoLe
  | 'L' => some .fourBe
  | 'l' => some .fourLe
  | _ => none

/-- `PSTRING_LEN`. -/
def pstringLen : BitVec 32 := 0xf80

/-- `PSTRING_LENGTH_INCLUDES_ITSELF`. -/
def pstringLengthIncludesItself : BitVec 32 := 0x1000

/-- What `parse` makes of the flags where it reads such a character. -/
def setLengthFormat (strFlags : BitVec 32) (f : LengthFormat) : BitVec 32 := (strFlags &&& ~~~pstringLen) ||| f.bit

/-- `switch(m->str_flags & PSTRING_LEN)`, with `none` for its default. -/
def lengthFormat (strFlags : BitVec 32) : Option LengthFormat :=
  [LengthFormat.one, .twoLe, .twoBe, .fourLe, .fourBe].find? (·.bit = strFlags &&& pstringLen)

/-- `m->str_flags & PSTRING_LENGTH_INCLUDES_ITSELF`. -/
def lengthIncludesItself (strFlags : BitVec 32) : Bool := strFlags &&& pstringLengthIncludesItself ≠ 0

def LengthFormat.size : LengthFormat → ℕ
  | .one => 1
  | .twoLe | .twoBe => 2
  | .fourLe | .fourBe => 4

/-- `file_pstring_length_size`, or `none` for `abort`. -/
def pstringLengthSize (strFlags : BitVec 32) : Option ℕ := (lengthFormat strFlags).map LengthFormat.size

/-- A `char` as an `int`. -/
def charInt (c : UInt8) : BitVec 32 := c.toBitVec.signExtend 32

/-- The number that the format makes of `s`, as an `int`. -/
def LengthFormat.int (f : LengthFormat) (s : ℕ → UInt8) : BitVec 32 :=
  match f with
  | .one => charInt (s 0)
  | .twoLe => (charInt (s 1) <<< 8) ||| charInt (s 0)
  | .twoBe => (charInt (s 0) <<< 8) ||| charInt (s 1)
  | .fourLe => (charInt (s 3) <<< 24) ||| (charInt (s 2) <<< 16) ||| (charInt (s 1) <<< 8) ||| charInt (s 0)
  | .fourBe => (charInt (s 0) <<< 24) ||| (charInt (s 1) <<< 16) ||| (charInt (s 2) <<< 8) ||| charInt (s 3)

/-- `file_pstring_get_length`, or `none` for `abort`. The length is a `size_t`. -/
def pstringGetLength (strFlags : BitVec 32) (s : ℕ → UInt8) : Option (BitVec 64) := do
  let f ← lengthFormat strFlags
  let len := (f.int s).signExtend 64
  if lengthIncludesItself strFlags then return len - BitVec.ofNat 64 f.size else return len

/-- `while(len--) *ptr1++ = *ptr2++` and the zero behind it, with `ptr1` at `i` and `ptr2` at `j`. -/
def pstringLoop : ℕ → ℕ → ℕ → List UInt8 → Option (List UInt8)
  | 0, i, _, v => if i < v.length then some (v.set i 0) else none
  | len + 1, i, j, v => do
    let c ← v[j]?
    if i < v.length then pstringLoop len (i + 1) (j + 1) (v.set i c) else none

/-- `FILE_PSTRING` in `mconvert`: `p->s` behind it. -/
def mconvertPstring (strFlags : BitVec 32) (v : List UInt8) : Option (List UInt8) := do
  let size ← pstringLengthSize strFlags
  let len ← pstringGetLength strFlags fun i => v.getD i 0
  let len := if maxString ≤ len.toNat then maxString - 1 else len.toNat
  pstringLoop len 0 size v

/-! ## The length -/

def LengthFormat.order : LengthFormat → ByteOrder
  | .one | .twoLe | .fourLe => .little
  | .twoBe | .fourBe => .big

/-- The number in front of the string, in the declared width and order. -/
def prefixNumber (f : LengthFormat) (v : List UInt8) : ℕ := f.order.decode (v.take f.size)

/-- The length of the string. -/
def declaredLength (strFlags : BitVec 32) (f : LengthFormat) (v : List UInt8) : ℕ :=
  if lengthIncludesItself strFlags then prefixNumber f v - f.size else prefixNumber f v

/-- `p->s` is the string behind the length, with a zero behind it, and nothing outside of `p->s` is accessed. -/
def Copied (strFlags : BitVec 32) (f : LengthFormat) (v : List UInt8) : Prop :=
  let n := min (declaredLength strFlags f v) (maxString - 1)
  ∃ v', mconvertPstring strFlags v = some v' ∧ v'.length = v.length ∧ v'.take (n + 1) = (v.drop f.size).take n ++ [0]

variable {strFlags : BitVec 32} {f : LengthFormat} {v : List UInt8} {c : UInt8} {i j len : ℕ}

/-- What `parse` sets is the format. -/
theorem lengthFormat_setLengthFormat (strFlags : BitVec 32) (f : LengthFormat) :
    lengthFormat (setLengthFormat strFlags f) = some f := by
  have hbit : f.bit &&& pstringLen = f.bit := by cases f <;> rfl
  have hmask : setLengthFormat strFlags f &&& pstringLen = f.bit := by
    rw [setLengthFormat, BitVec.and_comm, BitVec.and_or_distrib_left, BitVec.and_comm _ (_ &&& _), BitVec.and_assoc,
      BitVec.not_and_self, BitVec.and_comm pstringLen, hbit]
    simp
  rw [lengthFormat, hmask]
  cases f <;> decide

theorem msb_charInt (c : UInt8) {k : ℕ} (hk : k ≤ 24) : (charInt c <<< k).msb = decide (128 ≤ c.toNat) := by
  have hmsb : c.toBitVec.msb = decide (128 ≤ c.toNat) := by
    rw [BitVec.msb_eq_decide]
    rfl
  have hwidth : ¬ 32 - 1 < k := by omega
  have hbit : 32 - 1 - k < 32 := by omega
  rw [← hmsb, charInt, BitVec.msb_eq_getLsbD_last, BitVec.getLsbD_shiftLeft, BitVec.getLsbD_signExtend]
  by_cases hlast : 32 - 1 - k < 8
  · obtain rfl : k = 24 := by omega
    simp [BitVec.msb_eq_getLsbD_last]
  · simp [hwidth, hbit, hlast]

theorem toNat_charInt (h : c.toNat < 128) : (charInt c).toNat = c.toNat := by
  have hmsb : c.toBitVec.msb = false := by
    rw [BitVec.msb_eq_decide]
    simpa using h
  have hc : c.toBitVec.toNat = c.toNat := rfl
  rw [charInt, BitVec.signExtend_eq_setWidth_of_msb_false hmsb, BitVec.toNat_setWidth, hc]
  omega

/-- One more byte behind a number. -/
theorem toNat_append {x : BitVec 32} (hx : x.toNat < 2 ^ 23) (h : c.toNat < 128) :
    ((x <<< 8) ||| charInt c).toNat = 256 * x.toNat + c.toNat := by
  have hshift : x.toNat <<< 8 % 2 ^ 32 = x.toNat <<< 8 := by
    rw [Nat.shiftLeft_eq]
    omega
  rw [BitVec.toNat_or, BitVec.toNat_shiftLeft, toNat_charInt h, hshift,
    ← Nat.shiftLeft_add_eq_or_of_lt (by omega : c.toNat < 2 ^ 8), Nat.shiftLeft_eq]
  omega

/-- Four bytes without a sign. -/
theorem toNat_four {a b c d : UInt8} (ha : a.toNat < 128) (hb : b.toNat < 128) (hc : c.toNat < 128) (hd : d.toNat < 128) :
    ((charInt a <<< 24) ||| (charInt b <<< 16) ||| (charInt c <<< 8) ||| charInt d).toNat =
      256 * (256 * (256 * a.toNat + b.toNat) + c.toNat) + d.toNat := by
  have hnest : (charInt a <<< 24) ||| (charInt b <<< 16) ||| (charInt c <<< 8) ||| charInt d =
      (((charInt a <<< 8 ||| charInt b) <<< 8 ||| charInt c) <<< 8) ||| charInt d := by
    simp only [BitVec.shiftLeft_or_distrib, ← BitVec.shiftLeft_add]
  have hab := toNat_append (by rw [toNat_charInt ha]; omega) hb
  rw [toNat_charInt ha] at hab
  have habc := toNat_append (x := charInt a <<< 8 ||| charInt b) (by omega) hc
  rw [hnest, toNat_append (by omega) hd, habc, hab]

theorem msb_charInt_zero (c : UInt8) : (charInt c).msb = decide (128 ≤ c.toNat) := by
  simpa using msb_charInt c (Nat.zero_le 24)

/-- The number is right where no byte has a sign, and has one itself where some byte has. -/
theorem LengthFormat.int_eq (f : LengthFormat) (h : 4 ≤ v.length) :
    ((f.int fun i => v.getD i 0).msb = false ∧ (f.int fun i => v.getD i 0).toNat = prefixNumber f v) ∨
      ((f.int fun i => v.getD i 0).msb = true ∧ 128 ≤ prefixNumber f v) := by
  obtain ⟨a, b, c, d, rest, rfl⟩ : ∃ a b c d rest, v = a :: b :: c :: d :: rest := by
    match v, h with
    | a :: b :: c :: d :: rest, _ => exact ⟨a, b, c, d, rest, rfl⟩
  cases f with
  | one =>
    have hnumber : prefixNumber .one (a :: b :: c :: d :: rest) = a.toNat := by
      simp [prefixNumber, LengthFormat.order, LengthFormat.size, ByteOrder.decode]
    simp only [LengthFormat.int, List.getD_cons_zero, hnumber, msb_charInt_zero, decide_eq_false_iff_not, decide_eq_true_eq]
    by_cases ha : a.toNat < 128
    · exact .inl ⟨by omega, toNat_charInt ha⟩
    · exact .inr ⟨by omega, by omega⟩
  | twoLe =>
    have hnumber : prefixNumber .twoLe (a :: b :: c :: d :: rest) = a.toNat + 256 * b.toNat := by
      simp [prefixNumber, LengthFormat.order, LengthFormat.size, ByteOrder.decode]
    simp only [LengthFormat.int, List.getD_cons_zero, List.getD_cons_succ, hnumber, BitVec.msb_or, msb_charInt_zero,
      msb_charInt _ (by decide : 8 ≤ 24), Bool.or_eq_false_iff, Bool.or_eq_true, decide_eq_false_iff_not, decide_eq_true_eq]
    by_cases hsmall : a.toNat < 128 ∧ b.toNat < 128
    · have hb := toNat_charInt hsmall.2
      have hvalue := toNat_append (x := charInt b) (by omega) hsmall.1
      exact .inl ⟨by omega, by omega⟩
    · exact .inr ⟨by omega, by omega⟩
  | twoBe =>
    have hnumber : prefixNumber .twoBe (a :: b :: c :: d :: rest) = b.toNat + 256 * a.toNat := by
      simp [prefixNumber, LengthFormat.order, LengthFormat.size, ByteOrder.decode]
    simp only [LengthFormat.int, List.getD_cons_zero, List.getD_cons_succ, hnumber, BitVec.msb_or, msb_charInt_zero,
      msb_charInt _ (by decide : 8 ≤ 24), Bool.or_eq_false_iff, Bool.or_eq_true, decide_eq_false_iff_not, decide_eq_true_eq]
    by_cases hsmall : a.toNat < 128 ∧ b.toNat < 128
    · have ha := toNat_charInt hsmall.1
      have hvalue := toNat_append (x := charInt a) (by omega) hsmall.2
      exact .inl ⟨by omega, by omega⟩
    · exact .inr ⟨by omega, by omega⟩
  | fourLe =>
    have hnumber : prefixNumber .fourLe (a :: b :: c :: d :: rest) =
        a.toNat + 256 * (b.toNat + 256 * (c.toNat + 256 * d.toNat)) := by
      simp [prefixNumber, LengthFormat.order, LengthFormat.size, ByteOrder.decode]
    simp only [LengthFormat.int, List.getD_cons_zero, List.getD_cons_succ, hnumber, BitVec.msb_or, msb_charInt_zero,
      msb_charInt _ (by decide : 8 ≤ 24), msb_charInt _ (by decide : 16 ≤ 24), msb_charInt _ (by decide : 24 ≤ 24),
      Bool.or_eq_false_iff, Bool.or_eq_true, decide_eq_false_iff_not, decide_eq_true_eq]
    by_cases hsmall : a.toNat < 128 ∧ b.toNat < 128 ∧ c.toNat < 128 ∧ d.toNat < 128
    · have hvalue := toNat_four hsmall.2.2.2 hsmall.2.2.1 hsmall.2.1 hsmall.1
      exact .inl ⟨by omega, by omega⟩
    · exact .inr ⟨by omega, by omega⟩
  | fourBe =>
    have hnumber : prefixNumber .fourBe (a :: b :: c :: d :: rest) =
        d.toNat + 256 * (c.toNat + 256 * (b.toNat + 256 * a.toNat)) := by
      simp [prefixNumber, LengthFormat.order, LengthFormat.size, ByteOrder.decode]
    simp only [LengthFormat.int, List.getD_cons_zero, List.getD_cons_succ, hnumber, BitVec.msb_or, msb_charInt_zero,
      msb_charInt _ (by decide : 8 ≤ 24), msb_charInt _ (by decide : 16 ≤ 24), msb_charInt _ (by decide : 24 ≤ 24),
      Bool.or_eq_false_iff, Bool.or_eq_true, decide_eq_false_iff_not, decide_eq_true_eq]
    by_cases hsmall : a.toNat < 128 ∧ b.toNat < 128 ∧ c.toNat < 128 ∧ d.toNat < 128
    · have hvalue := toNat_four hsmall.1 hsmall.2.1 hsmall.2.2.1 hsmall.2.2.2
      exact .inl ⟨by omega, by omega⟩
    · exact .inr ⟨by omega, by omega⟩

/-- The length that `mconvert` copies is the declared one, but for a length that should include itself and does not. -/
theorem pstringGetLength_eq (hf : lengthFormat strFlags = some f) (h : 4 ≤ v.length) :
    ∃ len, pstringGetLength strFlags (fun i => v.getD i 0) = some len ∧
      (if maxString ≤ len.toNat then maxString - 1 else len.toNat) =
        if lengthIncludesItself strFlags = true ∧ prefixNumber f v < f.size then maxString - 1
        else min (declaredLength strFlags f v) (maxString - 1) := by
  have hsize : f.size ≤ 4 := by cases f <;> decide
  have hof : (BitVec.ofNat 64 f.size).toNat = f.size := by
    rw [BitVec.toNat_ofNat]
    omega
  have hmax : maxString = 64 := rfl
  have hint := f.int_eq h
  set x := f.int fun i => v.getD i 0
  have hlen : ((x.signExtend 64).toNat = prefixNumber f v ∧ prefixNumber f v < 2 ^ 31) ∨
      (2 ^ 64 - 2 ^ 31 ≤ (x.signExtend 64).toNat ∧ 128 ≤ prefixNumber f v) := by
    rcases hint with ⟨hmsb, hvalue⟩ | ⟨hmsb, hvalue⟩
    · left
      have hlt := BitVec.toNat_lt_of_msb_false hmsb
      rw [BitVec.signExtend_eq_setWidth_of_msb_false hmsb, BitVec.toNat_setWidth, hvalue] at *
      omega
    · right
      have hge := BitVec.toNat_ge_of_msb_true hmsb
      rw [BitVec.toNat_signExtend, hmsb, BitVec.toNat_setWidth, if_pos rfl]
      omega
  rw [pstringGetLength, hf, Option.bind_eq_bind, Option.bind_some]
  by_cases hitself : lengthIncludesItself strFlags = true
  · refine ⟨x.signExtend 64 - BitVec.ofNat 64 f.size, by simp only [hitself, if_true]; rfl, ?_⟩
    rw [BitVec.toNat_sub, hof, declaredLength, if_pos hitself, hmax]
    simp only [hitself, true_and]
    split <;> split <;> omega
  · refine ⟨x.signExtend 64, by simp only [hitself]; rfl, ?_⟩
    simp only [declaredLength, hmax, hitself, Bool.false_eq_true, false_and, if_false]
    split <;> omega

theorem set_take_succ {α : Type*} {l : List α} {i : ℕ} (h : i < l.length) (x : α) : (l.set i x).take (i + 1) = l.take i ++ [x] := by
  rw [List.take_set, List.take_succ_eq_append_getElem h, List.set_append_right _ _ (by rw [List.length_take]; omega)]
  simp [List.length_take, Nat.min_eq_left h.le]

/-- The forward copy moves the bytes to the front, though they overlap. -/
theorem pstringLoop_some (hj : j + len ≤ v.length) (hij : i < j) (hi : i + len < v.length) :
    pstringLoop len i j v = some (v.take i ++ (v.drop j).take len ++ 0 :: v.drop (i + len + 1)) := by
  induction len generalizing i j v with
  | zero =>
    have hset : i < v.length := by omega
    rw [pstringLoop, if_pos hset, List.set_eq_take_append_cons_drop, if_pos hset, List.take_zero, List.append_nil]
  | succ len ih =>
    have hlt : j < v.length := by omega
    have hset : i < v.length := by omega
    have hcons : (v.drop j).take (len + 1) = v[j] :: (v.drop (j + 1)).take len := by
      rw [List.drop_eq_getElem_cons hlt, List.take_succ_cons]
    rw [pstringLoop, List.getElem?_eq_getElem hlt, Option.bind_eq_bind, Option.bind_some, if_pos hset, ih,
      set_take_succ hset, hcons, List.drop_set_of_lt (by omega), List.drop_set_of_lt (by omega)]
    · simp [Nat.add_assoc, Nat.add_comm 1]
    · rw [List.length_set]
      omega
    · omega
    · rw [List.length_set]
      omega

theorem pstringLoop_none (hj : j ≤ v.length) (h : v.length < j + len) : pstringLoop len i j v = none := by
  induction len generalizing i j v with
  | zero => omega
  | succ len ih =>
    rw [pstringLoop]
    cases hc : v[j]? with
    | none => rfl
    | some c =>
      have hlt : j < v.length := (List.getElem?_eq_some_iff.mp hc).1
      rw [Option.bind_eq_bind, Option.bind_some]
      split
      · exact ih (by rw [List.length_set]; omega) (by rw [List.length_set]; omega)
      · rfl

/-! ## The string -/

/-- `FILE_PSTRING` gives the string behind the length just if that is within `p->s`, and a length that includes itself is not less
than its own size; or it is a single zero byte with a zero behind it, which is copied as if it were the end. -/
theorem mconvert_pstring_iff (hf : lengthFormat strFlags = some f) (hv : v.length = maxString) :
    Copied strFlags f v ↔ f.size + min (declaredLength strFlags f v) (maxString - 1) ≤ maxString ∧
      (lengthIncludesItself strFlags = true → f.size ≤ prefixNumber f v ∨ f = .one ∧ v.getD 1 0 = 0) := by
  have hmax : maxString = 64 := rfl
  have hpos : 1 ≤ f.size ∧ f.size ≤ 4 := by cases f <;> decide
  have hone : f.size = 1 ↔ f = .one := by cases f <;> decide
  obtain ⟨len, hlen, hcut⟩ := pstringGetLength_eq hf (v := v) (by omega)
  have hrun : mconvertPstring strFlags v = pstringLoop (if maxString ≤ len.toNat then maxString - 1 else len.toNat) 0 f.size v := by
    simp only [mconvertPstring, pstringLengthSize, hf, Option.map_some, hlen, Option.bind_eq_bind, Option.bind_some]
  rw [hcut] at hrun
  simp only [Copied, hrun]
  generalize hn : min (declaredLength strFlags f v) (maxString - 1) = n
  split
  case isTrue hwrap =>
    -- The size is more than the length: 63 bytes are copied, and none should be.
    have hzero : n = 0 := by
      rw [declaredLength, if_pos hwrap.1] at hn
      omega
    subst hzero
    by_cases hsize : f.size = 1
    · have hhead : ((v.drop 1).take (maxString - 1) ++ 0 :: v.drop (0 + (maxString - 1) + 1)).take 1 = [v.getD 1 0] := by
        rw [List.take_append_of_le_length (by rw [List.length_take, List.length_drop]; omega), List.take_take,
          List.drop_eq_getElem_cons (by omega), List.getD_eq_getElem?_getD, List.getElem?_eq_getElem (by omega)]
        rfl
      rw [hsize, pstringLoop_some (by omega) (by omega) (by omega)]
      constructor
      · rintro ⟨v', hv', -, htake⟩
        cases hv'
        have hbyte : [v.getD 1 0] = [0] := hhead.symm.trans htake
        exact ⟨by omega, fun _ => .inr ⟨hone.mp hsize, List.head_eq_of_cons_eq hbyte⟩⟩
      · rintro ⟨-, hbyte⟩
        have hbyte : v.getD 1 0 = 0 := ((hbyte hwrap.1).resolve_left (by omega)).2
        refine ⟨_, rfl, ?_, ?_⟩
        · simp only [List.length_append, List.length_take, List.length_drop, List.length_cons, List.take_zero, List.length_nil]
          omega
        · exact hhead.trans (by rw [hbyte]; rfl)
    · rw [pstringLoop_none (by omega) (by omega)]
      constructor
      · rintro ⟨v', hv', -⟩
        cases hv'
      · rintro ⟨-, hbyte⟩
        rcases hbyte hwrap.1 with hle | ⟨heq, -⟩
        · omega
        · exact absurd (hone.mpr heq) hsize
  case isFalse hno =>
    by_cases hfits : f.size + n ≤ v.length
    · rw [pstringLoop_some hfits (by omega) (by omega)]
      have hlength : ((v.drop f.size).take n).length = n := by
        rw [List.length_take, List.length_drop]
        omega
      constructor
      · intro _
        exact ⟨by omega, fun hitself => .inl (by have := not_and.mp hno hitself; omega)⟩
      · intro _
        refine ⟨_, rfl, ?_, ?_⟩
        · simp only [List.length_append, List.length_take, List.length_drop, List.length_cons, List.take_zero, List.length_nil]
          omega
        · rw [List.take_zero, List.nil_append, List.take_append, hlength, List.take_of_length_le (by omega),
            Nat.add_sub_cancel_left]
          rfl
    · rw [pstringLoop_none (by omega) (by omega)]
      constructor
      · rintro ⟨v', hv', -⟩
        cases hv'
      · rintro ⟨hle, -⟩
        omega

/-- A length of one byte and a string of 200: of it there are 63 bytes. -/
theorem mconvert_pstring_long : Copied LengthFormat.one.bit .one (200 :: List.replicate 63 97) :=
  (mconvert_pstring_iff rfl rfl).mpr ⟨by decide, fun _ => .inl (by decide)⟩

/-- A length of two bytes and a string of 63 bytes: the last one is not in `p->s`. -/
theorem not_copied_two_bytes :
    ¬ ∀ (strFlags : BitVec 32) (f : LengthFormat) (v : List UInt8), v.length = maxString →
      Copied (setLengthFormat strFlags f) f v := by
  intro h
  obtain ⟨v', hv', -⟩ := h 0 .twoLe (63 :: 0 :: List.replicate 62 97) rfl
  have hnone : mconvertPstring (setLengthFormat 0 .twoLe) (63 :: 0 :: List.replicate 62 97) = none := by decide +kernel
  rw [hnone] at hv'
  cases hv'

end CodingExercises.File
