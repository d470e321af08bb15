import Mathlib.Algebra.Group.Nat.Defs
import Mathlib.Data.List.Basic
import Mathlib.Data.Nat.Notation

/-!
# UTF-8 with sequences of up to six bytes

A text is characters of one byte below 128 and sequences: a first byte that says how many bytes are behind it, and those, each
with six bits. It may end within a sequence (`Text`). The bytes of a sequence are the digits of its value to the base of 64
(`value_tails`), so what the digits of a number make is a character with this value (`text_sequence`). A text is read from its
first byte on (`text_cons_ascii`, `text_cons_lead`, `text_cons_other`), and in one way only (`Text.unique`).
-/

namespace CodingExercises.Lib.Utf8

/-- A byte `10xxxxxx`. -/
def IsTail (b : UInt8) : Prop := 0x80 ≤ b.toNat ∧ b.toNat < 0xc0

/-- The first byte of a sequence with `n` bytes behind it: `110xxxxx` for one, and so on to `1111110x` for five. -/
def IsLead (n : ℕ) (b : UInt8) : Prop := 1 ≤ n ∧ n ≤ 5 ∧ 256 - 2 ^ (7 - n) ≤ b.toNat ∧ b.toNat < 256 - 2 ^ (6 - n)

/-- The value of a first byte. -/
def leadValue (n : ℕ) (b : UInt8) : ℕ := b.toNat - (256 - 2 ^ (7 - n))

/-- The value of a sequence, where the first byte has the value `c`. -/
def value (c : ℕ) (ts : List UInt8) : ℕ := ts.foldl (fun c t => 64 * c + (t.toNat - 0x80)) c

/-- A text with the values of its characters; it may be cut off in the last one. -/
inductive Text : List UInt8 → List ℕ → Prop
  | nil : Text [] []
  | cut {n : ℕ} {b : UInt8} {ts : List UInt8} : IsLead n b → ts.length < n → (∀ t ∈ ts, IsTail t) → Text (b :: ts) []
  | ascii {b : UInt8} {bs : List UInt8} {us : List ℕ} : b.toNat < 0x80 → Text bs us → Text (b :: bs) (b.toNat :: us)
  | sequence {n : ℕ} {b : UInt8} {ts bs : List UInt8} {us : List ℕ} : IsLead n b → ts.length = n → (∀ t ∈ ts, IsTail t) →
      Text bs us → Text (b :: (ts ++ bs)) (value (leadValue n b) ts :: us)

/-! ## Digits -/

/-- The last `n` digits of a number to the base of 64, as bytes of a sequence. -/
def tails : ℕ → ℕ → List UInt8
  | 0, _ => []
  | n + 1, u => tails n (u / 64) ++ [UInt8.ofNat (u % 64 + 0x80)]

theorem length_tails (n u : ℕ) : (tails n u).length = n := by
  induction n generalizing u with
  | zero => rfl
  | succ n ih => rw [tails, List.length_append, ih, List.length_singleton]

theorem toNat_tail (u : ℕ) : (UInt8.ofNat (u % 64 + 0x80)).toNat = u % 64 + 0x80 := by
  rw [UInt8.toNat_ofNat']
  omega

theorem isTail_tails (n u : ℕ) : ∀ t ∈ tails n u, IsTail t := by
  induction n generalizing u with
  | zero => nofun
  | succ n ih =>
    intro t ht
    rcases List.mem_append.mp ht with ht | ht
    · exact ih _ t ht
    · obtain rfl := List.mem_singleton.mp ht
      rw [IsTail, toNat_tail]
      omega

/-- The digits, the first one first. -/
theorem tails_succ (n u : ℕ) : tails (n + 1) u = UInt8.ofNat (u / 64 ^ n % 64 + 0x80) :: tails n u := by
  induction n generalizing u with
  | zero =>
    rw [Nat.pow_zero, Nat.div_one]
    rfl
  | succ n ih =>
    rw [tails, ih, tails, Nat.div_div_eq_div_mul, ← Nat.pow_succ']
    rfl

theorem value_append (c : ℕ) (ts ts' : List UInt8) : value c (ts ++ ts') = value (value c ts) ts' := List.foldl_append

/-- A number is the value of its digits. -/
theorem value_tails (n u : ℕ) : value (u / 64 ^ n) (tails n u) = u := by
  induction n generalizing u with
  | zero => exact Nat.div_one u
  | succ n ih =>
    have hdigits : value (u / 64 ^ (n + 1)) (tails n (u / 64)) = u / 64 := by
      rw [Nat.pow_succ', ← Nat.div_div_eq_div_mul]
      exact ih (u / 64)
    rw [tails, value_append, hdigits, value, List.foldl_cons, List.foldl_nil, toNat_tail]
    omega

/-- The digits of a number behind a first byte are a character. -/
theorem text_sequence {n u : ℕ} {b : UInt8} {bs : List UInt8} {us : List ℕ} (hn : 1 ≤ n ∧ n ≤ 5)
    (hb : b.toNat = 256 - 2 ^ (7 - n) + u / 64 ^ n) (hu : u / 64 ^ n < 2 ^ (6 - n)) (h : Text bs us) :
    Text (b :: (tails n u ++ bs)) (u :: us) := by
  have hpow : 2 ^ (7 - n) = 2 * 2 ^ (6 - n) := by
    rw [← Nat.pow_succ']
    congr 1
    omega
  have hle : 2 ^ (7 - n) ≤ 2 ^ 6 := Nat.pow_le_pow_right (by omega) (by omega)
  have hdigits := value_tails n u
  generalize u / 64 ^ n = c at hb hu hdigits
  have hlead : IsLead n b := ⟨hn.1, hn.2, by omega, by omega⟩
  have hvalue : leadValue n b = c := by
    rw [leadValue]
    omega
  have htext := Text.sequence hlead (length_tails n u) (isTail_tails n u) h
  rwa [hvalue, hdigits] at htext

/-! ## Reading a text -/

section

variable {n : ℕ} {b : UInt8} {bs : List UInt8} {us : List ℕ}

theorem IsLead.ge (h : IsLead n b) : 0xc0 ≤ b.toNat := by
  obtain ⟨hlo, hhi, hb, -⟩ := h
  have hle : 2 ^ (7 - n) ≤ 2 ^ 6 := Nat.pow_le_pow_right (by omega) (by omega)
  omega

theorem IsLead.lt (h : IsLead n b) : b.toNat < 0xfe := by
  obtain ⟨hlo, hhi, -, hb⟩ := h
  have hle : 2 ^ 1 ≤ 2 ^ (6 - n) := Nat.pow_le_pow_right (by omega) (by omega)
  omega

theorem IsLead.unique {n' : ℕ} (h : IsLead n b) (h' : IsLead n' b) : n = n' := by
  obtain ⟨hlo, hhi, hb, hb'⟩ := h
  obtain ⟨hlo', hhi', hc, hc'⟩ := h'
  rcases Nat.lt_trichotomy n n' with hlt | heq | hlt
  · have hle : 2 ^ (7 - n') ≤ 2 ^ (6 - n) := Nat.pow_le_pow_right (by omega) (by omega)
    omega
  · exact heq
  · have hle : 2 ^ (7 - n) ≤ 2 ^ (6 - n') := Nat.pow_le_pow_right (by omega) (by omega)
    omega

theorem text_nil_iff : Text [] us ↔ us = [] := by
  constructor
  · intro h
    cases h
    rfl
  · rintro rfl
    exact .nil

theorem text_cons_ascii (hb : b.toNat < 0x80) : Text (b :: bs) us ↔ ∃ us', us = b.toNat :: us' ∧ Text bs us' := by
  constructor
  · intro h
    generalize hbs : b :: bs = text at h
    cases h with
    | nil => cases hbs
    | cut hlead =>
      cases hbs
      have := hlead.ge
      omega
    | ascii _ h =>
      cases hbs
      exact ⟨_, rfl, h⟩
    | sequence hlead =>
      cases hbs
      have := hlead.ge
      omega
  · rintro ⟨us', rfl, h⟩
    exact .ascii hb h

/-- Behind a first byte there are the bytes of the sequence, or the text ends before. -/
theorem text_cons_lead (hb : IsLead n b) : Text (b :: bs) us ↔ (us = [] ∧ bs.length < n ∧ ∀ t ∈ bs, IsTail t) ∨
    ∃ ts rest us', bs = ts ++ rest ∧ ts.length = n ∧ (∀ t ∈ ts, IsTail t) ∧ us = value (leadValue n b) ts :: us' ∧ Text rest us' := by
  constructor
  · intro h
    generalize hbs : b :: bs = text at h
    cases h with
    | nil => cases hbs
    | cut hlead hlt htails =>
      cases hbs
      exact .inl ⟨rfl, hb.unique hlead ▸ hlt, htails⟩
    | ascii hlt =>
      cases hbs
      have := hb.ge
      omega
    | sequence hlead hlength htails h =>
      cases hbs
      obtain rfl := hb.unique hlead
      exact .inr ⟨_, _, _, rfl, hlength, htails, rfl, h⟩
  · rintro (⟨rfl, hlt, htails⟩ | ⟨ts, rest, us', rfl, hlength, htails, rfl, h⟩)
    · exact .cut hb hlt htails
    · exact .sequence hb hlength htails h

theorem text_cons_other (hascii : 0x80 ≤ b.toNat) (hlead : ∀ n, ¬IsLead n b) : ¬Text (b :: bs) us := by
  intro h
  cases h with
  | cut h => exact hlead _ h
  | ascii h => omega
  | sequence h => exact hlead _ h

/-- A text has no more characters than bytes. -/
theorem Text.length_le (h : Text bs us) : us.length ≤ bs.length := by
  induction h with
  | nil => exact Nat.le_refl 0
  | cut => exact Nat.zero_le _
  | ascii _ _ ih => exact Nat.succ_le_succ ih
  | sequence _ _ _ _ ih =>
    rw [List.length_cons, List.length_cons, List.length_append]
    omega

/-- A text is read in one way only. -/
theorem Text.unique {us' : List ℕ} (h : Text bs us) (h' : Text bs us') : us = us' := by
  induction h generalizing us' with
  | nil => exact (text_nil_iff.mp h').symm
  | cut hlead hlt =>
    obtain ⟨rfl, -⟩ | ⟨ts, rest, us'', rfl, hlength, -⟩ := (text_cons_lead hlead).mp h'
    · rfl
    · rw [List.length_append] at hlt
      omega
  | ascii hb _ ih =>
    obtain ⟨us'', rfl, h''⟩ := (text_cons_ascii hb).mp h'
    rw [ih h'']
  | sequence hlead hlength _ _ ih =>
    obtain ⟨rfl, hlt, -⟩ | ⟨ts, rest, us'', heq, hlength', -, rfl, h''⟩ := (text_cons_lead hlead).mp h'
    · rw [List.length_append] at hlt
      omega
    · obtain ⟨rfl, rfl⟩ := List.append_inj heq (hlength.trans hlength'.symm)
      rw [ih h'']

end

/-! ## Characters of a text -/

theorem IsTail.not_ascii {t : UInt8} (h : IsTail t) : ¬t.toNat < 0x80 := Nat.not_lt_of_le h.1

theorem IsLead.not_ascii {n : ℕ} {b : UInt8} (h : IsLead n b) : ¬b.toNat < 0x80 := by
  have hb := h.ge
  omega

/-- No byte of a sequence is below 128. -/
theorem sequence_not_ascii {n : ℕ} {b : UInt8} {ts : List UInt8} (hb : IsLead n b) (hts : ∀ t ∈ ts, IsTail t) :
    ∀ c ∈ b :: ts, ¬c.toNat < 0x80 :=
  List.forall_mem_cons.mpr ⟨hb.not_ascii, fun t ht => (hts t ht).not_ascii⟩

/-- A byte below 128 is a character. -/
theorem Text.mem_of_ascii {bs : List UInt8} {us : List ℕ} (h : Text bs us) {c : UInt8} (hc : c ∈ bs) (hlt : c.toNat < 0x80) :
    c.toNat ∈ us := by
  induction h with
  | nil => cases hc
  | cut hlead _ htails => exact absurd hlt (sequence_not_ascii hlead htails c hc)
  | ascii _ _ ih =>
    obtain rfl | hc := List.mem_cons.mp hc
    · exact List.mem_cons_self
    · exact List.mem_cons_of_mem _ (ih hc)
  | sequence hlead _ htails _ ih =>
    rw [← List.cons_append, List.mem_append] at hc
    obtain hc | hc := hc
    · exact absurd hlt (sequence_not_ascii hlead htails c hc)
    · exact List.mem_cons_of_mem _ (ih hc)

/-- The bytes of a sequence below 128 are none. -/
theorem countP_sequence {n : ℕ} {b : UInt8} {ts : List UInt8} (hb : IsLead n b) (hts : ∀ t ∈ ts, IsTail t) :
    (b :: ts).countP (fun c => c.toNat < 0x80) = 0 := by
  apply List.countP_eq_zero.mpr
  intro c hc
  rw [decide_eq_true_eq]
  exact sequence_not_ascii hb hts c hc

/-- There are no more bytes below 128 than characters. -/
theorem Text.countP_le {bs : List UInt8} {us : List ℕ} (h : Text bs us) : bs.countP (fun c => c.toNat < 0x80) ≤ us.length := by
  induction h with
  | nil => exact Nat.le_refl 0
  | cut hlead _ htails => exact Nat.le_of_eq (countP_sequence hlead htails)
  | ascii hb _ ih =>
    rw [List.countP_cons_of_pos (by simpa using hb), List.length_cons]
    omega
  | sequence hlead _ htails _ ih =>
    rw [← List.cons_append, List.countP_append, countP_sequence hlead htails, List.length_cons]
    omega

/-- Each byte of a sequence gives six bits. -/
theorem value_lt {c k : ℕ} {ts : List UInt8} (hc : c < k) (hts : ∀ t ∈ ts, IsTail t) : value c ts < k * 64 ^ ts.length := by
  induction ts generalizing c k with
  | nil => rwa [List.length_nil, Nat.pow_zero, Nat.mul_one]
  | cons t ts ih =>
    obtain ⟨⟨hlo, hhi⟩, hts⟩ := List.forall_mem_cons.mp hts
    have hlt := ih (c := 64 * c + (t.toNat - 0x80)) (k := 64 * k) (by omega) hts
    rw [value, List.foldl_cons, ← value, List.length_cons, Nat.pow_succ', ← Nat.mul_assoc, Nat.mul_comm k 64]
    exact hlt

/-- A character is below 2 ^ 31. -/
theorem Text.lt {bs : List UInt8} {us : List ℕ} (h : Text bs us) : ∀ u ∈ us, u < 2 ^ 31 := by
  induction h with
  | nil => exact fun u hu => absurd hu List.not_mem_nil
  | cut => exact fun u hu => absurd hu List.not_mem_nil
  | ascii hb _ ih => exact List.forall_mem_cons.mpr ⟨Nat.lt_trans hb (by decide), ih⟩
  | @sequence n b ts _ _ hlead hlength htails _ ih =>
    refine List.forall_mem_cons.mpr ⟨?_, ih⟩
    have hlead' : leadValue n b < 2 ^ (6 - n) := by
      obtain ⟨hlo, hhi, hb, hb'⟩ := hlead
      have hpow : 2 ^ (7 - n) = 2 * 2 ^ (6 - n) := by
        rw [← Nat.pow_succ']
        congr 1
        omega
      have hle : 2 ^ (7 - n) ≤ 2 ^ 6 := Nat.pow_le_pow_right (by omega) (by omega)
      rw [leadValue]
      omega
    have hvalue := value_lt hlead' htails
    have hpow : 2 ^ (6 - n) * 64 ^ ts.length ≤ 2 ^ 31 := by
      rw [hlength, show (64 : ℕ) = 2 ^ 6 from rfl, ← Nat.pow_mul, ← Nat.pow_add]
      exact Nat.pow_le_pow_right (by omega) (by have := hlead.1; have := hlead.2.1; omega)
    omega

end CodingExercises.Lib.Utf8
