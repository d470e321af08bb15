import CodingExercises.File.Bounds
import CodingExercises.File.Traps
import CodingExercises.Lib.SignedDivision

/-!
# file: indirect offsets

The offset that `mget` of `softmagic.c` computes from the number in the file. Each type and operator has its own copy of the
expression there; all say that the operator is applied to the number in its declared order, but for two (`follows_law_iff`):
`lelong` with nothing to do takes the third byte for the first, and `long` is divided without a sign.
-/

namespace CodingExercises.File

open CodingExercises.Lib (ByteOrder udiv_eq_sdiv_iff umod_eq_srem_iff)

/-- The types of an integer at an indirect offset, as `parse` makes them. -/
def integerInTypes : List FileType := [.byte, .leshort, .beshort, .lelong, .belong, .melong, .long]

/-- The number in the declared order, as an `int`. -/
def declaredOperand (type : FileType) (v : List UInt8) : BitVec 32 :=
  match type with
  | .byte => (BitVec.ofNat 8 (ByteOrder.little.decode (v.take 1))).setWidth 32
  | .leshort => (BitVec.ofNat 16 (ByteOrder.little.decode (v.take 2))).signExtend 32
  | .beshort => (BitVec.ofNat 16 (ByteOrder.big.decode (v.take 2))).signExtend 32
  | .belong => BitVec.ofNat 32 (ByteOrder.big.decode (v.take 4))
  | .melong => BitVec.ofNat 32 (ByteOrder.little.decode ((v.take 4).drop 2 ++ (v.take 4).take 2))
  | _ => BitVec.ofNat 32 (ByteOrder.little.decode (v.take 4))

/-- The operators on an `int`. -/
def intOperate (op : BitVec 8) (d off : BitVec 32) : BitVec 32 :=
  match (op &&& 7).toNat with
  | 0 => d &&& off
  | 1 => d ||| off
  | 2 => d ^^^ off
  | 3 => d + off
  | 4 => d - off
  | 5 => d * off
  | 6 => d.sdiv off
  | _ => d.srem off

/-- The offset that is asked for. -/
def law (m : Entry) (type : FileType) (v : List UInt8) : BitVec 32 :=
  let d := declaredOperand type v
  let d := if m.inOffset ≠ 0 then intOperate m.inOp d m.inOffset else d
  if m.inHas opInverse then ~~~d else d

variable {R : Type}

/-- The bytes at an offset of the file. -/
def fourAt (x : Outside R) (s : ℕ) (offset : BitVec 32) : List UInt8 := bytesAt x.mem (s + offset.toNat) 4

/-- `mget` comes to the offset that is asked for at the bytes of the file, without a trap. -/
def FollowsLaw (x : Outside R) (m : Entry) (flip : Bool) (s nbytes : ℕ) (offset : BitVec 32) (w : Work R) : Prop :=
  let type := cvtFlip m.inType flip
  let first := (mcopy x m.type true s offset (low32 nbytes) m.strRange w).2
  indirectTraps m type first.value (indirectOff x.mem m type s offset) nbytes offset = false ∧
    (indirect x m flip s nbytes offset first).1 = some (law m type (fourAt x s offset))

/-- Division with and without a sign comes to the same. -/
def SignsAgree (modulo : Bool) (d off : ℤ) : Prop :=
  (0 ≤ d ∧ (0 < off ∨ d < -off)) ∨ d = off ∨ d < 0 ∧ if modulo then 0 < off ∧ off ∣ d ∧ off ∣ 2 ^ 32 else off = 1

/-- The least `int` by -1. -/
def LeastByMinus (m : Entry) (type : FileType) (v : List UInt8) : Prop :=
  divides m.inOp = true ∧ declaredOperand type v = BitVec.intMin 32 ∧ m.inOffset = -1

/-- What goes right: `lelong` with an offset, or with the first byte that is also the third; `long` where it is not divided, or its
sign does not matter; and a division that does not trap. -/
def IndirectRight (m : Entry) (type : FileType) (v : List UInt8) : Prop :=
  match type with
  | .lelong => (m.inOffset = 0 → v.getD 0 0 = v.getD 2 0) ∧ ¬ LeastByMinus m type v
  | .belong | .melong => ¬ LeastByMinus m type v
  | .long => m.inOffset ≠ 0 → divides m.inOp = true →
    SignsAgree ((m.inOp &&& 7).toNat = 7) (declaredOperand type v).toInt m.inOffset.toInt
  | _ => True

variable {type : FileType} {flip : Bool} {m : Entry} {v : List UInt8}

theorem mem_integerInTypes : type ∈ integerInTypes ↔ type = .byte ∨ type = .leshort ∨ type = .beshort ∨ type = .lelong ∨
    type = .belong ∨ type = .melong ∨ type = .long := by
  simp only [integerInTypes, List.mem_cons, List.not_mem_nil, or_false]

theorem integerInTypes_cvtFlip (flip : Bool) (h : type ∈ integerInTypes) : cvtFlip type flip ∈ integerInTypes := by
  obtain rfl | rfl | rfl | rfl | rfl | rfl | rfl := mem_integerInTypes.mp h <;> cases flip <;> decide

/-- `parse` gives one of these types, or one of those that are no integers. -/
theorem parseInType_mem (letter : Option Char) :
    parseInType letter ∈ integerInTypes ∨ parseInType letter ∈ [FileType.ledouble, .bedouble, .leid3, .beid3] := by
  unfold parseInType
  split <;> decide

/-- The bytes are put together in the declared order. -/
theorem operand_eq (h : type ∈ integerInTypes) (hlen : 4 ≤ v.length) : operand v type = declaredOperand type v := by
  have htake (k : ℕ) (hk : k ≤ 4) : v.take k = (List.range k).map fun i => v.getD i 0 := take_eq_map (hk.trans hlen)
  obtain rfl | rfl | rfl | rfl | rfl | rfl | rfl := mem_integerInTypes.mp h
  case inl =>
    have hlt : word v [0] < 2 ^ 8 := word_lt v [0]
    have hword : ByteOrder.little.decode (v.take 1) = word v [0] := by
      rw [htake 1 (by decide), word_eq]
      rfl
    apply BitVec.eq_of_toNat_eq
    rw [operand, declaredOperand, hword, BitVec.toNat_setWidth, BitVec.toNat_ofNat, BitVec.toNat_ofNat, Nat.mod_eq_of_lt hlt]
  all_goals
    simp only [operand, declaredOperand, htake 2 (by decide), htake 4 (by decide), word_eq]
    rfl

/-- With nothing to do, `lelong` is right where its first byte is its third. -/
theorem plainOperand_iff (h : type ∈ integerInTypes) (hlen : 4 ≤ v.length) :
    plainOperand v type = declaredOperand type v ↔ (type = .lelong → v.getD 0 0 = v.getD 2 0) := by
  rw [← operand_eq h hlen]
  by_cases hlelong : type = .lelong
  · subst hlelong
    have hword (i : ℕ) : word v [3, 2, 1, i] = word v [3, 2, 1] * 256 + (v.getD i 0).toNat := word_append v [3, 2, 1] i
    have hlt : word v [3, 2, 1] < 2 ^ 24 := word_lt v [3, 2, 1]
    have hbyte (i : ℕ) : (v.getD i 0).toNat < 2 ^ 8 := (v.getD i 0).toNat_lt
    have hmod (i : ℕ) : (word v [3, 2, 1] * 256 + (v.getD i 0).toNat) % 2 ^ 32 = word v [3, 2, 1] * 256 + (v.getD i 0).toNat := by
      have hi := hbyte i
      exact Nat.mod_eq_of_lt (by omega)
    have hplain : plainOperand v .lelong = .ofNat 32 (word v [3, 2, 1, 2]) := rfl
    have hoperand : operand v .lelong = .ofNat 32 (word v [3, 2, 1, 0]) := rfl
    rw [hplain, hoperand, ← BitVec.toNat_inj, BitVec.toNat_ofNat, BitVec.toNat_ofNat, hword, hword, hmod, hmod,
      Nat.add_left_cancel_iff, UInt8.toNat_inj, eq_comm]
    exact ⟨fun heq _ => heq, fun heq => heq rfl⟩
  · refine iff_of_true ?_ (fun heq => absurd heq hlelong)
    obtain rfl | rfl | rfl | rfl | rfl | rfl | rfl := mem_integerInTypes.mp h
    case inr.inr.inr.inl => exact absurd rfl hlelong
    all_goals rfl

/-- The operator is that on `int`, but for the division of a `long`. -/
theorem operate_iff {op : BitVec 8} {d off : BitVec 32} (hoff : off ≠ 0) : operate op type d off = intOperate op d off ↔
    (type = .long → divides op = true → SignsAgree ((op &&& 7).toNat = 7) d.toInt off.toInt) := by
  have hlt : (op &&& 7).toNat < 8 := by
    rw [BitVec.toNat_and]
    exact Nat.lt_succ_of_le Nat.and_le_right
  have hinj : d = off ↔ d.toInt = off.toInt := BitVec.toInt_inj.symm
  rw [operate, intOperate, divides]
  generalize (op &&& 7).toNat = n at hlt
  by_cases hlong : type = .long
  · subst hlong
    obtain hless | rfl | rfl : n < 6 ∨ n = 6 ∨ n = 7 := by omega
    · refine iff_of_true ?_ (fun _ hdiv => absurd hdiv (by simpa using hless))
      obtain rfl | rfl | rfl | rfl | rfl | rfl : n = 0 ∨ n = 1 ∨ n = 2 ∨ n = 3 ∨ n = 4 ∨ n = 5 := by omega
      all_goals rfl
    · have hdiv := udiv_eq_sdiv_iff (x := d) hoff
      rw [hinj] at hdiv
      exact hdiv.trans ⟨fun h _ _ => h, fun h => h rfl rfl⟩
    · have hmod := umod_eq_srem_iff (x := d) hoff
      rw [hinj] at hmod
      exact hmod.trans ⟨fun h _ _ => h, fun h => h rfl rfl⟩
  · refine iff_of_true ?_ (fun heq => absurd heq hlong)
    obtain rfl | rfl | rfl | rfl | rfl | rfl | rfl | rfl :
      n = 0 ∨ n = 1 ∨ n = 2 ∨ n = 3 ∨ n = 4 ∨ n = 5 ∨ n = 6 ∨ n = 7 := by omega
    all_goals first | rfl | exact if_neg hlong

theorem inWidth_integer (h : type ∈ integerInTypes) : ∃ width, inWidth type = some width := by
  obtain rfl | rfl | rfl | rfl | rfl | rfl | rfl := mem_integerInTypes.mp h <;> exact ⟨_, rfl⟩

theorem indirectRight_iff (h : type ∈ integerInTypes) : IndirectRight m type v ↔
    (type = .lelong → m.inOffset = 0 → v.getD 0 0 = v.getD 2 0) ∧ (type ∈ signedLongs → ¬ LeastByMinus m type v) ∧
      (type = .long → m.inOffset ≠ 0 → divides m.inOp = true →
        SignsAgree ((m.inOp &&& 7).toNat = 7) (declaredOperand type v).toInt m.inOffset.toInt) := by
  obtain rfl | rfl | rfl | rfl | rfl | rfl | rfl := mem_integerInTypes.mp h <;> simp [IndirectRight, signedLongs]

/-- Only the bytes of the number are looked at. -/
theorem operand_congr {v' : List UInt8} {width : ℕ} (h : type ∈ integerInTypes) (hwidth : inWidth type = some width)
    (hagree : ∀ i < width, v.getD i 0 = v'.getD i 0) :
    operand v type = operand v' type ∧ plainOperand v type = plainOperand v' type := by
  have hword (is : List ℕ) (his : ∀ i ∈ is, i < width) : word v is = word v' is := by
    rw [word, word]
    refine List.foldl_ext _ _ _ fun n i hi => ?_
    rw [hagree i (his i hi)]
  obtain rfl | rfl | rfl | rfl | rfl | rfl | rfl := mem_integerInTypes.mp h <;> cases hwidth
  case inl => simp only [plainOperand, operand, hword [0] (by decide), and_self]
  case inr.inl => simp only [plainOperand, operand, hword [1, 0] (by decide), and_self]
  case inr.inr.inl => simp only [plainOperand, operand, hword [0, 1] (by decide), and_self]
  case inr.inr.inr.inl =>
    simp only [plainOperand, operand, hword [3, 2, 1, 0] (by decide), hword [3, 2, 1, 2] (by decide), and_self]
  case inr.inr.inr.inr.inl => simp only [plainOperand, operand, hword [0, 1, 2, 3] (by decide), and_self]
  case inr.inr.inr.inr.inr.inl => simp only [plainOperand, operand, hword [1, 0, 3, 2] (by decide), and_self]
  case inr.inr.inr.inr.inr.inr => simp only [plainOperand, operand, hword [3, 2, 1, 0] (by decide), and_self]

/-- The bytes in the file are copied. -/
theorem copied_getD (mem : ℤ → UInt8) {s offset nbytes i : ℕ} (hin : offset + i < nbytes) (hi : i < maxString) :
    (copied mem s offset nbytes).getD i 0 = mem (s + offset + i) := by
  have hlt : i < min (nbytes - offset) maxString := by omega
  rw [copied, List.getD_eq_getElem?_getD, List.getElem?_append_left (by rwa [length_bytesAt]), ← List.getD_eq_getElem?_getD,
    bytesAt_getD mem _ hlt]

/-- The offset is that asked for just if the number is, before it is complemented. -/
theorem indirectOf_iff {b : List UInt8} {nbytes width : ℕ} {offset : BitVec 32} (h : type ∈ integerInTypes)
    (hwidth : inWidth type = some width) (henough : short nbytes offset width = false) :
    indirectOf m type v m.inOffset nbytes offset = some (law m type b) ↔
      if m.inOffset ≠ 0 then operate m.inOp type (operand v type) m.inOffset = intOperate m.inOp (declaredOperand type b) m.inOffset
      else plainOperand v type = declaredOperand type b := by
  have hid : (type = .leid3 || type = .beid3) = false := by
    obtain rfl | rfl | rfl | rfl | rfl | rfl | rfl := mem_integerInTypes.mp h <;> rfl
  simp only [indirectOf, law, hwidth, henough, hid, Bool.false_eq_true, if_false, Option.some.injEq]
  by_cases hinverse : m.inHas opInverse = true <;> by_cases hzero : m.inOffset = 0 <;>
    simp only [hinverse, hzero, ne_eq, not_true_eq_false, not_false_eq_true, if_true, if_false, Bool.false_eq_true,
      BitVec.not_inj]

/-- With enough bytes of the file in the value, what goes right is that. -/
theorem indirectOf_right {b : List UInt8} {nbytes width : ℕ} {offset : BitVec 32} (h : type ∈ integerInTypes)
    (hlen : 4 ≤ b.length) (hwidth : inWidth type = some width) (henough : short nbytes offset width = false)
    (hagree : ∀ i < width, v.getD i 0 = b.getD i 0) :
    (indirectTraps m type v m.inOffset nbytes offset = false ∧
      indirectOf m type v m.inOffset nbytes offset = some (law m type b)) ↔ IndirectRight m type b := by
  obtain ⟨hoperand, hplain⟩ := operand_congr h hwidth hagree
  rw [indirectOf_iff h hwidth henough, indirectRight_iff h, hoperand, hplain, indirectTraps, hwidth]
  dsimp only
  rw [henough, hoperand, operand_eq h hlen]
  by_cases hzero : m.inOffset = 0
  · have hleast : ¬ LeastByMinus m type b := by
      rintro ⟨-, -, hminus⟩
      rw [hzero] at hminus
      exact absurd hminus (by decide)
    simp [hzero, plainOperand_iff h hlen, hleast]
  · have htraps := divisionTraps_iff (v := b) hzero hwidth
    rw [operand_eq h hlen] at htraps
    have hleast : (divides m.inOp && divisionTraps type (declaredOperand type b) m.inOffset) = false ↔
        (type ∈ signedLongs → ¬ LeastByMinus m type b) := by
      rw [Bool.and_eq_false_iff, ← Bool.not_eq_true, ← Bool.not_eq_true, htraps, LeastByMinus]
      tauto
    simp only [hzero, ne_eq, not_false_eq_true, if_true, operate_iff hzero, decide_true, Bool.not_false, Bool.true_and, hleast]
    simp only [forall_const, IsEmpty.forall_iff, implies_true, true_and]

theorem decode_turned {k : ℕ} (hlen : v.length = k) : ByteOrder.big.decode (v.reverse.take k) = ByteOrder.little.decode (v.take k) := by
  rw [List.take_of_length_le (by rw [List.length_reverse, hlen]), List.take_of_length_le hlen.le, ByteOrder.decode_reverse]
  rfl

/-- Where the type, the number and the offset are such as said, `mget` comes to the offset that is asked for, without a trap; and
what is asked for is the same in both orders, and for `long` and `lelong`. -/
theorem follows_law_iff (x : Outside R) (m : Entry) (flip : Bool) (s nbytes : ℕ) (offset : BitVec 32) (w : Work R)
    (htype : m.inType ∈ integerInTypes) (hdirect : m.inHas opIndirect = false) (hbytes : nbytes < 2 ^ 32)
    (hin : ∀ width, inWidth (cvtFlip m.inType flip) = some width → offset.toNat + width ≤ nbytes) :
    (FollowsLaw x m flip s nbytes offset w ↔ IndirectRight m (cvtFlip m.inType flip) (fourAt x s offset)) ∧
      (∀ v : List UInt8, v.length = 4 → law m .belong v.reverse = law m .lelong v ∧ law m .long v = law m .lelong v) ∧
      ∀ v : List UInt8, v.length = 2 → law m .beshort v.reverse = law m .leshort v := by
  refine ⟨?_, fun v hlen => ?_, fun v hlen => ?_⟩
  · have hmem := integerInTypes_cvtFlip flip htype
    have hoff : indirectOff x.mem m (cvtFlip m.inType flip) s offset = m.inOffset := by
      simp only [indirectOff, hdirect, Bool.false_and, Bool.false_eq_true, if_false]
    have hrun (w' : Work R) : (indirect x m flip s nbytes offset w').1 =
        indirectOf m (cvtFlip m.inType flip) w'.value (indirectOff x.mem m (cvtFlip m.inType flip) s offset) nbytes offset := by
      rw [indirect]
      split <;> [rfl; split <;> rfl]
    have hcopy : mcopy x m.type true s offset (low32 nbytes) m.strRange w = (true, copyValue x s offset.toNat nbytes w) := by
      rw [low32, Nat.mod_eq_of_lt hbytes]
      rfl
    have hfirst : (copyValue x s offset.toNat nbytes w).value = copied x.mem s offset.toNat nbytes := by
      rw [copyValue]
      split <;> rfl
    rw [FollowsLaw, hrun, hcopy, hfirst, hoff]
    generalize cvtFlip m.inType flip = type at hmem hin
    obtain ⟨width, hwidth⟩ := inWidth_integer hmem
    have hle := hin width hwidth
    have hfour : width ≤ 4 := by
      cases type <;> cases hwidth <;> decide
    refine indirectOf_right hmem (length_bytesAt _ _ _).ge hwidth ?_ (fun i hi => ?_)
    · rw [short, decide_eq_false_iff_not, BitVec.toNat_add, BitVec.toNat_ofNat, Nat.mod_eq_of_lt (by omega : width < 2 ^ 32),
        Nat.mod_eq_of_lt (by omega)]
      exact Nat.not_lt.mpr hle
    · rw [fourAt, bytesAt_getD _ _ (by omega), copied_getD _ (by omega) (by unfold maxString; omega)]
  · have hbig : declaredOperand .belong v.reverse = declaredOperand .lelong v := congrArg (BitVec.ofNat 32) (decode_turned hlen)
    exact ⟨by rw [law, law, hbig], rfl⟩
  · have hbig : declaredOperand .beshort v.reverse = declaredOperand .leshort v :=
      congrArg (fun n => (BitVec.ofNat 16 n).signExtend 32) (decode_turned hlen)
    rw [law, law, hbig]

/-- A file with the byte 1 first, and zeros. -/
def firstOne : Outside Unit := { sevens with mem := fun b => if b = 0 then 1 else 0 }

/-- `(0.L+4) byte 7`. -/
theorem follows_law_belong :
    FollowsLaw firstOne { sevenAt 0 flagIndir 0 with inType := .belong, inOp := 3, inOffset := 4 } false 0 4 0
      ⟨[], ⟨0, 0, 0, 0⟩, (), []⟩ := by
  refine (follows_law_iff firstOne { sevenAt 0 flagIndir 0 with inType := .belong, inOp := 3, inOffset := 4 } false 0 4 0
    ⟨[], ⟨0, 0, 0, 0⟩, (), []⟩ (by decide) (by decide) (by decide) ?_).1.mpr ?_
  · intro width hwidth
    cases hwidth
    decide
  · exact fun hleast => absurd hleast.1 (by decide)

/-- `(0.l) byte 7`: the third byte is taken for the first. -/
theorem not_follows_law_lelong : ¬ ∀ (x : Outside Unit) (m : Entry) (flip : Bool) (s nbytes : ℕ) (offset : BitVec 32)
    (w : Work Unit), m.inType ∈ integerInTypes → m.inHas opIndirect = false → nbytes < 2 ^ 32 →
    (∀ width, inWidth (cvtFlip m.inType flip) = some width → offset.toNat + width ≤ nbytes) →
    FollowsLaw x m flip s nbytes offset w := by
  intro h
  have hlaw := h firstOne { sevenAt 0 flagIndir 0 with inType := .lelong } false 0 4 0 ⟨[], ⟨0, 0, 0, 0⟩, (), []⟩ (by decide)
    (by decide) (by decide) (by
      intro width hwidth
      cases hwidth
      decide)
  exact absurd hlaw.2 (by decide)

end CodingExercises.File
