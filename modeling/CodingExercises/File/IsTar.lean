import Mathlib.Algebra.BigOperators.Intervals
import Mathlib.Data.List.Range
import CodingExercises.Lib.Traced

/-!
# file: tar archives

`is_tar` of `is_tar.c`, with the offsets of the bytes that it reads. The memory is whole (`mem`, by the offset from the record):
nothing keeps a read within the record but the code. White space is a parameter.

The second loop, which takes the bytes of the field `chksum` out of the sum, starts from the address of the field for its size, and
it takes them as `char`, which has a sign. So the result is right if the address, as an `int`, is not beyond what is behind the
field in the record, and the bytes that are taken out give the same sum or the number in the field is neither of the two sums
(`isTar_right_iff`).
-/

namespace CodingExercises.File.IsTar

open CodingExercises.Lib

/-! ## The code -/

/-- `RECORDSIZE`. -/
def recordSize : ℕ := 512

/-- The offset of `header.chksum`, which has eight bytes. -/
def chksum : ℕ := 100 + 8 + 8 + 8 + 12 + 12

/-- The offset of `header.magic`. -/
def magic : ℕ := chksum + 8 + 1 + 100

/-- `TMAGIC`, without the null. -/
def tmagic : List UInt8 := [0x75, 0x73, 0x74, 0x61, 0x72]

/-- `GNUTMAGIC`, without the null. -/
def gnutmagic : List UInt8 := tmagic ++ [0x20, 0x20]

def isodigit (c : UInt8) : Bool := 0x30 ≤ c ∧ c ≤ 0x37

/-- What is read: the offsets of the bytes. -/
abbrev Reading := Traced ℕ

section

variable (isspace : UInt8 → Bool) (mem : ℕ → UInt8)

def byte (o : ℕ) : Reading UInt8 := .touch o (mem o)

/-- The first loop of `from_oct`: `digs` and `where` behind it, or nothing for an all blank field. -/
def skipSpaces : ℕ → ℕ → Reading (Option (ℕ × ℕ))
  | 0, _ => pure none
  | digs + 1, o => do
    if isspace (← byte mem o) then skipSpaces digs (o + 1) else return some (digs + 1, o)

/-- The second loop, with the value. -/
def octDigits : ℕ → ℕ → ℕ → Reading (ℕ × ℕ × ℕ)
  | 0, o, value => pure (0, o, value)
  | digs + 1, o, value => do
    let c ← byte mem o
    if isodigit c then octDigits digs (o + 1) (value <<< 3 ||| (c.toNat - 0x30)) else return (digs + 1, o, value)

/-- `from_oct` from the second loop on. -/
def octRest (digs o value : ℕ) : Reading ℤ := do
  let (digs, o, value) ← octDigits mem digs o value
  if digs = 0 then return value
  else
    let c ← byte mem o
    if c ≠ 0 ∧ ¬isspace c then return -1 else return value

/-- `from_oct`. -/
def fromOct (digs o : ℕ) : Reading ℤ := do
  match ← skipSpaces isspace mem digs o with
  | none => return -1
  | some (digs, o) => octRest isspace mem digs o 0

/-- The loop over the record, for `i` more bytes. -/
def sumBytes : ℕ → ℕ → ℤ → Reading ℤ
  | 0, _, sum => pure sum
  | i + 1, p, sum => do
    let c ← byte mem p
    sumBytes i (p + 1) (sum + c.toNat)

/-- A byte as `char`. -/
def char (c : UInt8) : ℤ := Int.bmod c.toNat 256

/-- The loop over `header.chksum`, for the indices below `i`. While they are in the record, `sum` fits an `int`. -/
def lessField : ℕ → ℤ → Reading ℤ
  | 0, sum => pure sum
  | i + 1, sum => do
    let c ← byte mem (chksum + i)
    lessField i (sum - char c)

/-- How often that loop is entered, where the record is at the address `addr`: it starts from the address of the field as `int`. -/
def turns (addr : ℕ) : ℕ :=
  let i := Int.bmod (addr + chksum) (2 ^ 32)
  -- `--i` wraps
  if i = -2 ^ 31 then 2 ^ 31 else i.toNat

/-- Whether `strcmp` finds the string at an offset, with its null. -/
def strcmp : ℕ → List UInt8 → Reading Bool
  | o, [] => do return (← byte mem o) = 0
  | o, c :: s => do
    if (← byte mem o) = c then strcmp (o + 1) s else return false

/-- The comparisons of `header.magic`. -/
def tarType : Reading ℕ := do
  if ← strcmp mem magic gnutmagic then return 3
  else if ← strcmp mem magic tmagic then return 2
  else return 1

/-- `is_tar`. -/
def isTar (addr nbytes : ℕ) : Reading ℕ := do
  if nbytes < recordSize then return 0
  else
    let recsum ← fromOct isspace mem 8 chksum
    let sum ← sumBytes mem recordSize 0 0
    let sum ← lessField mem (turns addr) sum
    if sum + 0x20 * 8 ≠ recsum then return 0
    else tarType mem

end

/-! ## The number in a field -/

/-- Octal digits from a value on, up to the end of the field, a null or white space. -/
inductive Octal (isspace : UInt8 → Bool) : List UInt8 → ℕ → ℕ → Prop
  | nil {v : ℕ} : Octal isspace [] v v
  | stop {c : UInt8} {f : List UInt8} {v : ℕ} : c = 0 ∨ isspace c → Octal isspace (c :: f) v v
  | digit {c : UInt8} {f : List UInt8} {v n : ℕ} : isodigit c → Octal isspace f (8 * v + (c.toNat - 0x30)) n →
      Octal isspace (c :: f) v n

/-- The octal number in a field, behind white space. -/
inductive IsNumber (isspace : UInt8 → Bool) : List UInt8 → ℕ → Prop
  | blank {c : UInt8} {f : List UInt8} {n : ℕ} : isspace c → IsNumber isspace f n → IsNumber isspace (c :: f) n
  | digits {c : UInt8} {f : List UInt8} {n : ℕ} : isodigit c → Octal isspace f (c.toNat - 0x30) n → IsNumber isspace (c :: f) n

section

variable {isspace : UInt8 → Bool} {mem : ℕ → UInt8}

/-- The `n` bytes from an offset on. -/
def bytesFrom (mem : ℕ → UInt8) (o n : ℕ) : List UInt8 := (List.range' o n).map mem

theorem bytesFrom_succ (mem : ℕ → UInt8) (o n : ℕ) : bytesFrom mem o (n + 1) = mem o :: bytesFrom mem (o + 1) n := by
  rw [bytesFrom, List.range'_succ, List.map_cons]
  rfl

theorem digit_lt {c : UInt8} (hc : isodigit c) : c.toNat - 0x30 < 2 ^ 3 := by
  have hle : c ≤ 0x37 := (of_decide_eq_true hc).2
  have hnat : c.toNat ≤ 0x37 := UInt8.le_iff_toNat_le.mp hle
  omega

/-- The value with one digit more. -/
theorem shift_digit {c : UInt8} (hc : isodigit c) (v : ℕ) : v <<< 3 ||| (c.toNat - 0x30) = 8 * v + (c.toNat - 0x30) := by
  rw [← Nat.shiftLeft_add_eq_or_of_lt (digit_lt hc), Nat.shiftLeft_eq, Nat.mul_comm]

/-- A digit ends no number. -/
theorem octal_digit_iff (hspace : ∀ c, isodigit c → isspace c = false) {c : UInt8} {f : List UInt8} {v n : ℕ} (hc : isodigit c) :
    Octal isspace (c :: f) v n ↔ Octal isspace f (8 * v + (c.toNat - 0x30)) n := by
  constructor
  · intro h
    cases h with
    | digit _ h => exact h
    | stop hstop =>
      rcases hstop with rfl | hstop
      · cases hc
      · rw [hspace c hc] at hstop
        cases hstop
  · exact .digit hc

theorem octal_other_iff {c : UInt8} {f : List UInt8} {v n : ℕ} (hc : isodigit c = false) :
    Octal isspace (c :: f) v n ↔ (c = 0 ∨ isspace c) ∧ n = v := by
  constructor
  · intro h
    cases h with
    | digit hdigit =>
      rw [hc] at hdigit
      cases hdigit
    | stop hstop => exact ⟨hstop, rfl⟩
  · rintro ⟨hstop, rfl⟩
    exact .stop hstop

/-- The digits are read as the number that they are. -/
theorem octRest_iff (hspace : ∀ c, isodigit c → isspace c = false) (digs o v n : ℕ) :
    (octRest isspace mem digs o v).value = n ↔ Octal isspace (bytesFrom mem o digs) v n := by
  induction digs generalizing o v with
  | zero =>
    simp only [octRest, octDigits, Traced.value_bind, Traced.value_pure, if_true, Int.natCast_inj]
    constructor
    · rintro rfl
      exact .nil
    · intro h
      cases h
      rfl
  | succ digs ih =>
    rw [bytesFrom_succ]
    cases hc : isodigit (mem o) with
    | true =>
      have hstep : (octRest isspace mem (digs + 1) o v).value =
          (octRest isspace mem digs (o + 1) (v <<< 3 ||| ((mem o).toNat - 0x30))).value := by
        simp only [octRest, octDigits, byte, Traced.value_bind, Traced.value_touch, hc, if_true]
      rw [hstep, ih, octal_digit_iff hspace hc, shift_digit hc]
    | false =>
      have hstop : (octRest isspace mem (digs + 1) o v).value =
          if mem o ≠ 0 ∧ ¬isspace (mem o) then -1 else (v : ℤ) := by
        simp only [octRest, octDigits, byte, Traced.value_bind, Traced.value_touch, Traced.value_pure, hc, Bool.false_eq_true,
          if_false, Nat.add_eq_zero_iff, Nat.one_ne_zero, and_false]
        by_cases h : mem o ≠ 0 ∧ ¬isspace (mem o)
        · rw [if_pos h]
          exact congrArg Traced.value (if_pos h)
        · rw [if_neg h]
          exact congrArg Traced.value (if_neg h)
      rw [hstop, octal_other_iff hc]
      split_ifs with h
      · constructor
        · exact False.elim
        · rintro ⟨h0 | hblank, -⟩
          · exact absurd h0 h.1
          · exact absurd hblank h.2
      · have hend : mem o = 0 ∨ isspace (mem o) := by
          rwa [not_and_or, not_not, not_not] at h
        rw [and_iff_right hend, Int.natCast_inj, eq_comm]

/-- The field is read as the number in it; a field without one is read as -1 or 0. -/
theorem fromOct_iff (hspace : ∀ c, isodigit c → isspace c = false) (digs o : ℕ) {n : ℕ} (hn : n ≠ 0) :
    (fromOct isspace mem digs o).value = n ↔ IsNumber isspace (bytesFrom mem o digs) n := by
  induction digs generalizing o with
  | zero =>
    constructor
    · intro h
      have hneg : (-1 : ℤ) = n := h
      omega
    · intro h
      cases h
  | succ digs ih =>
    rw [bytesFrom_succ]
    cases hc : isspace (mem o) with
    | true =>
      have hstep : (fromOct isspace mem (digs + 1) o).value = (fromOct isspace mem digs (o + 1)).value := by
        simp only [fromOct, skipSpaces, byte, Traced.value_bind, Traced.value_touch, hc, if_true]
      rw [hstep, ih]
      constructor
      · exact .blank hc
      · intro h
        cases h with
        | blank _ h => exact h
        | digits hdigit =>
          rw [hspace _ hdigit] at hc
          cases hc
    | false =>
      have hrest : (fromOct isspace mem (digs + 1) o).value = (octRest isspace mem (digs + 1) o 0).value := by
        simp only [fromOct, skipSpaces, byte, Traced.value_bind, Traced.value_touch, Traced.value_pure, hc, Bool.false_eq_true, if_false]
      rw [hrest, octRest_iff hspace, bytesFrom_succ]
      constructor
      · intro h
        cases h with
        | stop => exact absurd rfl hn
        | digit hdigit h =>
          rw [Nat.mul_zero, Nat.zero_add] at h
          exact .digits hdigit h
      · intro h
        cases h with
        | blank hblank =>
          rw [hc] at hblank
          cases hblank
        | digits hdigit h =>
          refine .digit hdigit ?_
          rwa [Nat.mul_zero, Nat.zero_add]

end

/-! ## Sums -/

section

variable (mem : ℕ → UInt8)

/-- The sum of the bytes of the record. -/
def total : ℕ := ∑ o ∈ Finset.range recordSize, (mem o).toNat

/-- The sum of the eight bytes of the field. -/
def fieldSum : ℕ := ∑ i ∈ Finset.range 8, (mem (chksum + i)).toNat

/-- The sum of the bytes that are taken out, as `char`. -/
def charSum (n : ℕ) : ℤ := ∑ i ∈ Finset.range n, char (mem (chksum + i))

/-- The sum of the bytes of the record, with those of the field as blanks. -/
def checksum : ℕ := ∑ o ∈ Finset.range recordSize, if chksum ≤ o ∧ o < chksum + 8 then 0x20 else (mem o).toNat

theorem sumBytes_value (n p : ℕ) (sum : ℤ) :
    (sumBytes mem n p sum).value = sum + ((∑ i ∈ Finset.range n, (mem (p + i)).toNat : ℕ) : ℤ) := by
  induction n generalizing p sum with
  | zero =>
    rw [Finset.sum_range_zero]
    exact (Int.add_zero sum).symm
  | succ n ih =>
    have hstep : (sumBytes mem (n + 1) p sum).value = (sumBytes mem n (p + 1) (sum + (mem p).toNat)).value := rfl
    have hshift : ∀ i, p + 1 + i = p + (i + 1) := fun i => by omega
    rw [hstep, ih, Finset.sum_range_succ', Int.natCast_add]
    simp only [hshift]
    rw [Int.add_assoc, Int.add_comm (mem p).toNat, Nat.add_zero]

theorem lessField_value (n : ℕ) (sum : ℤ) : (lessField mem n sum).value = sum - charSum mem n := by
  induction n generalizing sum with
  | zero =>
    rw [charSum, Finset.sum_range_zero, Int.sub_zero]
    rfl
  | succ n ih =>
    have hstep : (lessField mem (n + 1) sum).value = (lessField mem n (sum - char (mem (chksum + n)))).value := rfl
    rw [hstep, ih, charSum, charSum, Finset.sum_range_succ]
    omega

/-- The field as blanks, or its bytes: the difference. -/
theorem checksum_add_fieldSum : checksum mem + fieldSum mem = total mem + 0x20 * 8 := by
  have hsplit : recordSize = chksum + (8 + 356) := rfl
  have hbefore : ∀ o ∈ Finset.range chksum, (if chksum ≤ o ∧ o < chksum + 8 then 0x20 else (mem o).toNat) = (mem o).toNat := by
    intro o ho
    rw [Finset.mem_range] at ho
    exact if_neg (by omega)
  have hfield : ∀ i ∈ Finset.range 8,
      (if chksum ≤ chksum + i ∧ chksum + i < chksum + 8 then 0x20 else (mem (chksum + i)).toNat) = 0x20 := by
    intro i hi
    rw [Finset.mem_range] at hi
    exact if_pos (by omega)
  have hbehind : ∀ i ∈ Finset.range 356, (if chksum ≤ chksum + (8 + i) ∧ chksum + (8 + i) < chksum + 8 then 0x20 else
      (mem (chksum + (8 + i))).toNat) = (mem (chksum + (8 + i))).toNat := by
    intro i _
    exact if_neg (by omega)
  rw [checksum, total, fieldSum, hsplit]
  simp only [Finset.sum_range_add]
  rw [Finset.sum_congr rfl hbefore, Finset.sum_congr rfl hfield, Finset.sum_congr rfl hbehind, Finset.sum_const, Finset.card_range,
    nsmul_eq_mul]
  omega

end

/-! ## Reads -/

section

variable {isspace : UInt8 → Bool} {mem : ℕ → UInt8}

/-- What is read is from one offset up to another. -/
abbrev Within {α : Type} (lo hi : ℕ) (t : Reading α) : Prop := t.Only fun o => lo ≤ o ∧ o < hi

theorem Within.mono {α : Type} {lo hi lo' hi' : ℕ} {t : Reading α} (h : Within lo hi t) (hlo : lo' ≤ lo) (hhi : hi ≤ hi') :
    Within lo' hi' t :=
  Traced.Only.mono h fun _ ho => ⟨hlo.trans ho.1, ho.2.trans_le hhi⟩

theorem byte_within {lo hi o : ℕ} (hlo : lo ≤ o) (hhi : o < hi) : Within lo hi (byte mem o) := .touch ⟨hlo, hhi⟩ _

/-- The white space and what is left of the field. -/
theorem skipSpaces_within (isspace : UInt8 → Bool) (mem : ℕ → UInt8) (digs o : ℕ) : Within o (o + digs) (skipSpaces isspace mem digs o) ∧
    ∀ digs' o', (skipSpaces isspace mem digs o).value = some (digs', o') → o ≤ o' ∧ o' + digs' = o + digs := by
  induction digs generalizing o with
  | zero => exact ⟨.pure _, nofun⟩
  | succ digs ih =>
    have hstep : skipSpaces isspace mem (digs + 1) o =
        byte mem o >>= fun c => if isspace c then skipSpaces isspace mem digs (o + 1) else return some (digs + 1, o) := rfl
    have hbyte : (byte mem o).value = mem o := rfl
    rw [hstep, Traced.value_bind, hbyte]
    cases hc : isspace (mem o) with
    | true =>
      obtain ⟨hreads, hrest⟩ := ih (o + 1)
      constructor
      · refine .bind (byte_within (Nat.le_refl o) (by omega)) ?_
        rw [hbyte, if_pos hc]
        exact Within.mono hreads (Nat.le_succ o) (by omega)
      · intro digs' o' hvalue
        have := hrest digs' o' hvalue
        omega
    | false =>
      constructor
      · refine .bind (byte_within (Nat.le_refl o) (by omega)) ?_
        rw [hbyte, if_neg (by rw [hc]; decide)]
        exact .pure _
      · intro digs' o' hvalue
        cases hvalue
        exact ⟨Nat.le_refl _, rfl⟩

/-- The digits and what is left of the field. -/
theorem octDigits_within (mem : ℕ → UInt8) (digs o v : ℕ) : Within o (o + digs) (octDigits mem digs o v) ∧
    o ≤ (octDigits mem digs o v).value.2.1 ∧
    (octDigits mem digs o v).value.2.1 + (octDigits mem digs o v).value.1 = o + digs := by
  induction digs generalizing o v with
  | zero => exact ⟨.pure _, Nat.le_refl _, rfl⟩
  | succ digs ih =>
    have hstep : octDigits mem (digs + 1) o v = byte mem o >>= fun c =>
        if isodigit c then octDigits mem digs (o + 1) (v <<< 3 ||| (c.toNat - 0x30)) else return (digs + 1, o, v) := rfl
    have hbyte : (byte mem o).value = mem o := rfl
    rw [hstep, Traced.value_bind, hbyte]
    cases hc : isodigit (mem o) with
    | true =>
      obtain ⟨hreads, hle, heq⟩ := ih (o + 1) (v <<< 3 ||| ((mem o).toNat - 0x30))
      rw [if_pos rfl]
      refine ⟨.bind (byte_within (Nat.le_refl o) (by omega)) ?_, by omega, by omega⟩
      rw [hbyte, if_pos hc]
      exact Within.mono hreads (Nat.le_succ o) (by omega)
    | false =>
      rw [if_neg (by decide)]
      refine ⟨.bind (byte_within (Nat.le_refl o) (by omega)) ?_, Nat.le_refl _, rfl⟩
      rw [hbyte, if_neg (by rw [hc]; decide)]
      exact .pure _

theorem octRest_within (digs o v : ℕ) : Within o (o + digs) (octRest isspace mem digs o v) := by
  obtain ⟨hreads, hle, heq⟩ := octDigits_within mem digs o v
  refine .bind hreads ?_
  generalize (octDigits mem digs o v).value = r at hle heq ⊢
  obtain ⟨digs', o', v'⟩ := r
  simp only at hle heq ⊢
  split_ifs with h0
  · exact .pure _
  · refine .bind (byte_within hle (by omega)) ?_
    split_ifs
    · exact .pure _
    · exact .pure _

/-- `from_oct` keeps to the field. -/
theorem fromOct_within (digs o : ℕ) : Within o (o + digs) (fromOct isspace mem digs o) := by
  obtain ⟨hreads, hrest⟩ := skipSpaces_within isspace mem digs o
  refine .bind hreads ?_
  cases hvalue : (skipSpaces isspace mem digs o).value with
  | none => exact .pure _
  | some r =>
    obtain ⟨hle, heq⟩ := hrest r.1 r.2 hvalue
    exact Within.mono (octRest_within r.1 r.2 0) hle (Nat.le_of_eq heq)

theorem sumBytes_within (n p : ℕ) (sum : ℤ) : Within p (p + n) (sumBytes mem n p sum) := by
  induction n generalizing p sum with
  | zero => exact .pure _
  | succ n ih =>
    refine .bind (byte_within (Nat.le_refl p) (by omega)) ?_
    exact Within.mono (ih (p + 1) _) (Nat.le_succ p) (by omega)

theorem lessField_within (n : ℕ) (sum : ℤ) : Within chksum (chksum + n) (lessField mem n sum) := by
  induction n generalizing sum with
  | zero => exact .pure _
  | succ n ih =>
    refine .bind (byte_within (Nat.le_add_right _ _) (by omega)) ?_
    exact Within.mono (ih _) (Nat.le_refl _) (by omega)

/-- The first byte that is taken out. -/
theorem lessField_first (n : ℕ) (sum : ℤ) : chksum + n ∈ (lessField mem (n + 1) sum).events := List.mem_cons_self

theorem strcmp_within (o : ℕ) (s : List UInt8) : Within o (o + s.length + 1) (strcmp mem o s) := by
  induction s generalizing o with
  | nil => exact .bind (byte_within (Nat.le_refl o) (by omega)) (.pure _)
  | cons c s ih =>
    refine .bind (byte_within (Nat.le_refl o) (by omega)) ?_
    split_ifs
    · refine Within.mono (ih (o + 1)) (Nat.le_succ o) ?_
      rw [List.length_cons]
      omega
    · exact .pure _

end

/-! ## is_tar -/

section

variable {isspace : UInt8 → Bool} {mem : ℕ → UInt8} {addr nbytes : ℕ}

/-- The sum that `is_tar` compares. -/
def codeSum (mem : ℕ → UInt8) (addr : ℕ) : ℤ := total mem - charSum mem (turns addr) + 0x20 * 8

theorem tarType_value (mem : ℕ → UInt8) : (tarType mem).value ≠ 0 := by
  rw [tarType, Traced.value_bind]
  split_ifs
  · exact Nat.succ_ne_zero 2
  · rw [Traced.value_bind]
    split_ifs
    · exact Nat.succ_ne_zero 1
    · exact Nat.succ_ne_zero 0

theorem codeSum_eq (mem : ℕ → UInt8) (addr : ℕ) :
    (lessField mem (turns addr) (sumBytes mem recordSize 0 0).value).value + 0x20 * 8 = codeSum mem addr := by
  rw [lessField_value, sumBytes_value, codeSum, total, Int.zero_add]
  simp only [Nat.zero_add]

/-- The end of `is_tar`, for any field and any sum. -/
theorem compared_value (mem : ℕ → UInt8) (field sum : Reading ℤ) (less : ℤ → Reading ℤ) :
    (field >>= fun recsum => sum >>= fun sum => less sum >>= fun sum =>
      if sum + 0x20 * 8 ≠ recsum then return 0 else tarType mem).value ≠ 0 ↔ (less sum.value).value + 0x20 * 8 = field.value := by
  rw [Traced.value_bind, Traced.value_bind, Traced.value_bind]
  by_cases h : (less sum.value).value + 0x20 * 8 = field.value
  · rw [if_neg (not_not_intro h)]
    exact iff_of_true (tarType_value mem) h
  · rw [if_pos h]
    exact iff_of_false (fun h => h rfl) h

theorem isTar_value (hbytes : recordSize ≤ nbytes) : (isTar isspace mem addr nbytes).value ≠ 0 ↔
    codeSum mem addr = (fromOct isspace mem 8 chksum).value := by
  rw [isTar, if_neg (Nat.not_lt_of_le hbytes), ← codeSum_eq]
  exact compared_value mem (fromOct isspace mem 8 chksum) (sumBytes mem recordSize 0 0) (lessField mem (turns addr))

theorem tarType_within (mem : ℕ → UInt8) : Within magic (magic + 8) (tarType mem) := by
  refine .bind (Within.mono (strcmp_within magic gnutmagic) (Nat.le_refl _) (by decide)) ?_
  split_ifs
  · exact .pure _
  · refine .bind (Within.mono (strcmp_within magic tmagic) (Nat.le_refl _) (by decide)) ?_
    split_ifs
    · exact .pure _
    · exact .pure _

/-- What is read, but for the bytes that are taken out, is in the record. -/
theorem isTar_inside (hbytes : recordSize ≤ nbytes) :
    (∀ o ∈ (isTar isspace mem addr nbytes).events, o < recordSize) ↔ chksum + turns addr ≤ recordSize := by
  rw [isTar, if_neg (Nat.not_lt_of_le hbytes)]
  constructor
  · intro h
    obtain ⟨-, h⟩ := Traced.Only.of_bind (P := (· < recordSize)) h
    obtain ⟨-, h⟩ := Traced.Only.of_bind h
    obtain ⟨h, -⟩ := Traced.Only.of_bind h
    cases hturns : turns addr with
    | zero => decide
    | succ n =>
      rw [hturns] at h
      exact h _ (lessField_first n _)
  · intro hle
    have hin : ∀ {α : Type} {lo hi : ℕ} {t : Reading α}, Within lo hi t → hi ≤ recordSize → t.Only (· < recordSize) :=
      fun h hhi => Traced.Only.mono h fun o ho => ho.2.trans_le hhi
    refine Traced.Only.bind (hin (fromOct_within 8 chksum) (by decide)) ?_
    refine .bind (hin (sumBytes_within recordSize 0 0) (Nat.le_refl _)) ?_
    refine .bind (hin (lessField_within (turns addr) _) hle) ?_
    split_ifs
    · exact .pure _
    · exact hin (tarType_within mem) (by decide)

/-- A `char` is not above the byte. -/
theorem char_le (c : UInt8) : char c ≤ c.toNat := by
  have hlt : (c.toNat : ℤ) < ((256 : ℕ) : ℤ) := by
    have := c.toNat_lt
    omega
  have hmod : (c.toNat : ℤ) % ((256 : ℕ) : ℤ) = c.toNat := Int.emod_eq_of_lt (Int.natCast_nonneg _) hlt
  unfold char
  rw [Int.bmod_def, hmod]
  split
  · exact Int.le_refl _
  · omega

theorem charSum_le (mem : ℕ → UInt8) (n : ℕ) : charSum mem n ≤ ((∑ i ∈ Finset.range n, (mem (chksum + i)).toNat : ℕ) : ℤ) := by
  induction n with
  | zero => exact Int.le_refl 0
  | succ n ih =>
    have hchar := char_le (mem (chksum + n))
    rw [charSum] at ih ⊢
    rw [Finset.sum_range_succ, Finset.sum_range_succ, Int.natCast_add]
    omega

/-- Both sums count eight blanks at least, as long as what is taken out is in the record. -/
theorem codeSum_ge (mem : ℕ → UInt8) (h : chksum + turns addr ≤ recordSize) : 0x20 * 8 ≤ codeSum mem addr := by
  have hchar := charSum_le mem (turns addr)
  have htotal : ∑ i ∈ Finset.range (turns addr), (mem (chksum + i)).toNat ≤ total mem := by
    have hsplit : recordSize = chksum + (turns addr + (recordSize - (chksum + turns addr))) := by omega
    rw [total, hsplit]
    simp only [Finset.sum_range_add]
    omega
  rw [codeSum]
  omega

theorem checksum_ge (mem : ℕ → UInt8) : 0x20 * 8 ≤ checksum mem := by
  have hfield : fieldSum mem ≤ total mem := by
    have hsplit : recordSize = chksum + (8 + 356) := rfl
    rw [fieldSum, total, hsplit]
    simp only [Finset.sum_range_add]
    omega
  have := checksum_add_fieldSum mem
  omega

/-- The field `chksum`. -/
def field (mem : ℕ → UInt8) : List UInt8 := bytesFrom mem chksum 8

/-- `is_tar` says whether the number in the field is the sum of the record with the field as blanks, and it reads the record. -/
def Right (isspace : UInt8 → Bool) (mem : ℕ → UInt8) (addr nbytes : ℕ) : Prop :=
  ((isTar isspace mem addr nbytes).value ≠ 0 ↔ ∃ n, IsNumber isspace (field mem) n ∧ checksum mem = n) ∧
    ∀ o ∈ (isTar isspace mem addr nbytes).events, o < recordSize

/-- What is taken out is in the record, and it is the sum of the field, or the number in the field is neither of the two sums. -/
def Fits (isspace : UInt8 → Bool) (mem : ℕ → UInt8) (addr : ℕ) : Prop :=
  chksum + turns addr ≤ recordSize ∧ (charSum mem (turns addr) = fieldSum mem ∨
    ∀ n, IsNumber isspace (field mem) n → (n : ℤ) + fieldSum mem ≠ total mem + 0x20 * 8 ∧
      (n : ℤ) + charSum mem (turns addr) ≠ total mem + 0x20 * 8)

theorem isTar_iff (hspace : ∀ c, isodigit c → isspace c = false) (hbytes : recordSize ≤ nbytes)
    (h : chksum + turns addr ≤ recordSize) :
    (isTar isspace mem addr nbytes).value ≠ 0 ↔ ∃ n : ℕ, IsNumber isspace (field mem) n ∧ codeSum mem addr = n := by
  have hge := codeSum_ge mem h
  rw [isTar_value hbytes]
  constructor
  · intro heq
    have hcast : codeSum mem addr = (codeSum mem addr).toNat := by omega
    refine ⟨(codeSum mem addr).toNat, ?_, hcast⟩
    apply (fromOct_iff hspace 8 chksum (by omega)).mp
    rw [← heq, ← hcast]
  · rintro ⟨n, hn, heq⟩
    rw [heq, (fromOct_iff hspace 8 chksum (by omega)).mpr hn]

theorem number_unique (hspace : ∀ c, isodigit c → isspace c = false) {n n' : ℕ} (hn : IsNumber isspace (field mem) n)
    (hn' : IsNumber isspace (field mem) n') (h0 : n ≠ 0) (h0' : n' ≠ 0) : n = n' := by
  have h := (fromOct_iff hspace 8 chksum h0).mpr hn
  rw [(fromOct_iff hspace 8 chksum h0').mpr hn'] at h
  exact (Int.natCast_inj.mp h).symm

/-- `is_tar` is right just for these records at these addresses. -/
theorem isTar_right_iff (isspace : UInt8 → Bool) (mem : ℕ → UInt8) (addr nbytes : ℕ)
    (hspace : ∀ c, isodigit c → isspace c = false) (hbytes : recordSize ≤ nbytes) :
    Right isspace mem addr nbytes ↔ Fits isspace mem addr := by
  have hdiff := checksum_add_fieldSum mem
  have hright := checksum_ge mem
  rw [Right, isTar_inside hbytes, Fits]
  constructor
  · rintro ⟨hvalue, hle⟩
    refine ⟨hle, ?_⟩
    have hcode := codeSum_ge mem hle
    rw [isTar_iff hspace hbytes hle] at hvalue
    by_cases hsum : charSum mem (turns addr) = fieldSum mem
    · exact .inl hsum
    · refine .inr fun n hn => ⟨fun heq => hsum ?_, fun heq => hsum ?_⟩
      · obtain ⟨n', hn', heq'⟩ := hvalue.mpr ⟨n, hn, by omega⟩
        obtain rfl := number_unique hspace hn hn' (by omega) (by omega)
        rw [codeSum] at heq'
        omega
      · have hn' : codeSum mem addr = n := by
          rw [codeSum]
          omega
        obtain ⟨n', hnum', heq'⟩ := hvalue.mp ⟨n, hn, hn'⟩
        obtain rfl := number_unique hspace hn hnum' (by omega) (by omega)
        omega
  · rintro ⟨hle, hsum⟩
    refine ⟨?_, hle⟩
    rw [isTar_iff hspace hbytes hle]
    rcases hsum with hsum | hsum
    · have heq : codeSum mem addr = checksum mem := by
        rw [codeSum, hsum]
        omega
      simp only [heq, Int.natCast_inj]
    · constructor
      · rintro ⟨n, hn, heq⟩
        rw [codeSum] at heq
        exact absurd (by omega) (hsum n hn).2
      · rintro ⟨n, hn, heq⟩
        exact absurd (by omega) (hsum n hn).1

end

/-- `isspace` of the C locale. -/
def isspaceC (c : UInt8) : Bool := c = 0x20 ∨ 9 ≤ c ∧ c ≤ 13

theorem isspaceC_digit (c : UInt8) (hc : isodigit c) : isspaceC c = false := by
  have hdigit := of_decide_eq_true hc
  rw [UInt8.le_iff_toNat_le, UInt8.le_iff_toNat_le] at hdigit
  apply decide_eq_false
  rintro (rfl | ⟨-, hle⟩)
  · exact absurd hdigit.1 (by decide)
  · rw [UInt8.le_iff_toNat_le] at hle
    exact absurd (hdigit.1.trans hle) (by decide)

/-- A record of zeros with the checksum `000400`. -/
def empty (o : ℕ) : UInt8 := if o < chksum then 0 else [0x30, 0x30, 0x30, 0x34, 0x30, 0x30, 0, 0x20].getD (o - chksum) 0

/-- At this address the eight bytes of the field are taken out. -/
theorem right_empty : Right isspaceC empty (2 ^ 32 - 140) 512 :=
  (isTar_right_iff isspaceC empty (2 ^ 32 - 140) 512 isspaceC_digit (by decide)).mpr ⟨by decide, .inl (by decide)⟩

/-- At an address as `malloc` gives it, bytes beyond the record are read. -/
theorem not_isTar_right : ¬Right isspaceC empty 0x7f0000001000 512 := by
  rintro ⟨-, hinside⟩
  have hle := (isTar_inside (by decide)).mp hinside
  revert hle
  decide

end CodingExercises.File.IsTar
