import Mathlib.Data.Int.Notation
import CodingExercises.Lib.Utf8

/-!
# file: UTF-8

`encode_utf8` of `ascmagic.c` and `file_looks_utf8` of `encoding.c`. A `unichar` is a number.

- What `encode_utf8` makes of numbers below 2 ^ 31 is a text with these values (`encodeUtf8_text`);
- what `file_looks_utf8` does not refuse are the texts, and it stores their values (`looksLoop_text`, `looksLoop_other`).
-/

namespace CodingExercises.File.Encoding

open Lib.Utf8

/-! ## encode_utf8 -/

/-- The bytes that are stored for a `unichar`; nothing for an invalid one. -/
def encodeChar (u : ℕ) : Option (List UInt8) :=
  if u ≤ 0x7f then some [.ofNat u]
  else if u ≤ 0x7ff then some [.ofNat ((u >>> 6) + 0xc0), .ofNat ((u &&& 0x3f) + 0x80)]
  else if u ≤ 0xffff then
    some [.ofNat ((u >>> 12) + 0xe0), .ofNat (((u >>> 6) &&& 0x3f) + 0x80), .ofNat ((u &&& 0x3f) + 0x80)]
  else if u ≤ 0x1fffff then
    some [.ofNat ((u >>> 18) + 0xf0), .ofNat (((u >>> 12) &&& 0x3f) + 0x80), .ofNat (((u >>> 6) &&& 0x3f) + 0x80),
      .ofNat ((u &&& 0x3f) + 0x80)]
  else if u ≤ 0x3ffffff then
    some [.ofNat ((u >>> 24) + 0xf8), .ofNat (((u >>> 18) &&& 0x3f) + 0x80), .ofNat (((u >>> 12) &&& 0x3f) + 0x80),
      .ofNat (((u >>> 6) &&& 0x3f) + 0x80), .ofNat ((u &&& 0x3f) + 0x80)]
  else if u ≤ 0x7fffffff then
    some [.ofNat ((u >>> 30) + 0xfc), .ofNat (((u >>> 24) &&& 0x3f) + 0x80), .ofNat (((u >>> 18) &&& 0x3f) + 0x80),
      .ofNat (((u >>> 12) &&& 0x3f) + 0x80), .ofNat (((u >>> 6) &&& 0x3f) + 0x80), .ofNat ((u &&& 0x3f) + 0x80)]
  else none

/-- `encode_utf8`: the bytes before the pointer that it returns, or nothing for `NULL`. There is room for `len` bytes. -/
def encodeUtf8 (len : ℕ) : List ℕ → Option (List UInt8)
  | [] => some []
  | u :: us => do
    let bytes ← encodeChar u
    -- each branch tests `end - buf` for the number of its bytes
    if len < bytes.length then none else return bytes ++ (← encodeUtf8 (len - bytes.length) us)

/-! ## file_looks_utf8 -/

/-- The kinds of characters in `text_chars`. -/
inductive TextChar
  | f
  | t
  | i
  | x
deriving DecidableEq

open TextChar in
/-- `text_chars`. -/
def textChars : List TextChar :=
  [f, f, f, f, f, f, f, t, t, t, t, f, t, t, f, f] ++
  [f, f, f, f, f, f, f, f, f, f, f, t, f, f, f, f] ++
  List.replicate (5 * 16) t ++
  [t, t, t, t, t, t, t, t, t, t, t, t, t, t, t, f] ++
  [x, x, x, x, x, t, x, x, x, x, x, x, x, x, x, x] ++
  List.replicate 16 x ++
  List.replicate (6 * 16) i

/-- What `c` and `following` are set to at a byte `11xxxxxx`, if it is not refused. -/
def following (b : UInt8) : Option (ℕ × ℕ) :=
  if b &&& 0x20 = 0 then some ((b &&& 0x1f).toNat, 1)
  else if b &&& 0x10 = 0 then some ((b &&& 0x0f).toNat, 2)
  else if b &&& 0x08 = 0 then some ((b &&& 0x07).toNat, 3)
  else if b &&& 0x04 = 0 then some ((b &&& 0x03).toNat, 4)
  else if b &&& 0x02 = 0 then some ((b &&& 0x01).toNat, 5)
  else none

/-- How the inner loop ends: with -1, at the end of the data, or with a character and what is behind it. -/
inductive Followed
  | invalid
  | done
  | char (c : ℕ) (rest : List UInt8)

/-- The inner loop, for `n` more bytes. -/
def followLoop : ℕ → ℕ → List UInt8 → Followed
  | 0, c, buf => .char c buf
  | _ + 1, _, [] => .done
  | n + 1, c, b :: buf =>
    if b &&& 0x80 = 0 ∨ b &&& 0x40 ≠ 0 then .invalid else followLoop n ((c <<< 6) + (b &&& 0x3f).toNat) buf

theorem followLoop_length {n c c' : ℕ} {buf rest : List UInt8} (h : followLoop n c buf = .char c' rest) :
    rest.length ≤ buf.length := by
  induction n generalizing c buf with
  | zero =>
    cases h
    exact Nat.le_refl _
  | succ n ih =>
    cases buf with
    | nil => cases h
    | cons b buf =>
      rw [followLoop] at h
      split at h
      · cases h
      · exact Nat.le_succ_of_le (ih h)

/-- The variables of `file_looks_utf8`, with what is stored in `ubuf`. -/
structure Looks where
  ctrl : Bool
  gotone : Bool
  ubuf : List ℕ

/-- What is behind the label `done`. -/
def Looks.result (st : Looks) : ℤ := if st.ctrl then 0 else if st.gotone then 2 else 1

/-- The outer loop: the value that is returned, and what has been stored. -/
def looksLoop (st : Looks) : List UInt8 → ℤ × List ℕ
  | [] => (st.result, st.ubuf)
  | b :: buf =>
    if b &&& 0x80 = 0 then
      looksLoop { st with ctrl := st.ctrl || textChars[b.toNat]? ≠ some .t, ubuf := st.ubuf ++ [b.toNat] } buf
    else if b &&& 0x40 = 0 then (-1, st.ubuf)
    else
      match following b with
      | none => (-1, st.ubuf)
      | some (c, n) =>
        match h : followLoop n c buf with
        | .invalid => (-1, st.ubuf)
        | .done => (st.result, st.ubuf)
        | .char c rest => looksLoop { st with gotone := true, ubuf := st.ubuf ++ [c] } rest
termination_by buf => buf.length
decreasing_by
  · exact Nat.lt_succ_self _
  · exact Nat.lt_succ_of_le (followLoop_length h)

/-- `file_looks_utf8`, with a `ubuf`. -/
def fileLooksUtf8 (buf : List UInt8) : ℤ × List ℕ := looksLoop ⟨false, false, []⟩ buf

/-! ## Encoding -/

section

variable {u : ℕ} {bs : List UInt8} {us : List ℕ}

/-- A sequence with `n` bytes behind the first one. -/
def sequenceOf (n u : ℕ) : List UInt8 := .ofNat (u / 64 ^ n + (256 - 2 ^ (7 - n))) :: tails n u

/-- What is stored beyond 127 are the digits of the number. -/
theorem encodeChar_eq (u : ℕ) : encodeChar u =
    if u ≤ 0x7f then some [.ofNat u]
    else if u ≤ 0x7ff then some (sequenceOf 1 u)
    else if u ≤ 0xffff then some (sequenceOf 2 u)
    else if u ≤ 0x1fffff then some (sequenceOf 3 u)
    else if u ≤ 0x3ffffff then some (sequenceOf 4 u)
    else if u ≤ 0x7fffffff then some (sequenceOf 5 u)
    else none := by
  have hmask : ∀ n : ℕ, n &&& 0x3f = n % 64 := fun n => Nat.and_two_pow_sub_one_eq_mod n 6
  have h1 : tails 1 u = [.ofNat (u % 64 + 0x80)] := rfl
  have h2 : tails 2 u = .ofNat (u / 64 % 64 + 0x80) :: tails 1 u := tails_succ 1 u
  have h3 : tails 3 u = .ofNat (u / 4096 % 64 + 0x80) :: tails 2 u := tails_succ 2 u
  have h4 : tails 4 u = .ofNat (u / 262144 % 64 + 0x80) :: tails 3 u := tails_succ 3 u
  have h5 : tails 5 u = .ofNat (u / 16777216 % 64 + 0x80) :: tails 4 u := tails_succ 4 u
  simp only [encodeChar, sequenceOf, h5, h4, h3, h2, h1, hmask, Nat.shiftRight_eq_div_pow, Nat.reducePow, Nat.reduceSub]

theorem text_sequenceOf {n : ℕ} (hn : 1 ≤ n ∧ n ≤ 5) (hu : u / 64 ^ n < 2 ^ (6 - n)) (h : Text bs us) :
    Text (sequenceOf n u ++ bs) (u :: us) := by
  have hpow : 2 ^ (7 - n) = 2 * 2 ^ (6 - n) := by
    rw [← Nat.pow_succ']
    congr 1
    omega
  have hle : 2 ^ (7 - n) ≤ 2 ^ 6 := Nat.pow_le_pow_right (by omega) (by omega)
  refine text_sequence hn ?_ hu h
  generalize u / 64 ^ n = c at hu
  rw [UInt8.toNat_ofNat_of_lt' (by rw [UInt8.size]; omega), Nat.add_comm]

/-- What is stored for a number is a character with its value. -/
theorem encodeChar_text (hu : u ≤ 0x7fffffff) (h : Text bs us) :
    ∃ bytes, encodeChar u = some bytes ∧ bytes.length ≤ 6 ∧ Text (bytes ++ bs) (u :: us) := by
  have hlength : ∀ n, n ≤ 5 → (sequenceOf n u).length ≤ 6 := by
    intro n hn
    rw [sequenceOf, List.length_cons, length_tails]
    omega
  rw [encodeChar_eq]
  split_ifs with h0 h1 h2 h3 h4
  · have hascii : (UInt8.ofNat u).toNat = u := UInt8.toNat_ofNat_of_lt' (by rw [UInt8.size]; omega)
    refine ⟨_, rfl, Nat.le_add_left 1 5, ?_⟩
    have htext : Text (UInt8.ofNat u :: bs) ((UInt8.ofNat u).toNat :: us) := .ascii (by omega) h
    rwa [hascii] at htext
  all_goals refine ⟨_, rfl, hlength _ (by decide), text_sequenceOf (by decide) ?_ h⟩
  all_goals
    simp only [Nat.reducePow, Nat.reduceSub]
    omega

/-- What is stored for numbers below 2 ^ 31 is a text with these values. -/
theorem encodeUtf8_text (us : List ℕ) (hus : ∀ u ∈ us, u ≤ 0x7fffffff) (len : ℕ) (hlen : 6 * us.length ≤ len) :
    ∃ bytes, encodeUtf8 len us = some bytes ∧ Text bytes us := by
  induction us generalizing len with
  | nil => exact ⟨[], rfl, .nil⟩
  | cons u us ih =>
    obtain ⟨hu, hus'⟩ := List.forall_mem_cons.mp hus
    obtain ⟨bytes, hchar, hlength, -⟩ := encodeChar_text hu .nil
    rw [List.length_cons] at hlen
    obtain ⟨rest, hrest, htext⟩ := ih hus' (len - bytes.length) (by omega)
    obtain ⟨bytes', hchar', -, htext'⟩ := encodeChar_text hu htext
    obtain rfl := Option.some.inj (hchar.symm.trans hchar')
    refine ⟨bytes ++ rest, ?_, htext'⟩
    simp only [encodeUtf8, hchar, hrest, bind, Option.bind, if_neg (show ¬len < bytes.length by omega)]
    rfl

end

/-! ## Decoding -/

section

variable {b : UInt8} {buf : List UInt8} {us : List ℕ}

/-- The tests of a byte's bits. -/
theorem bits_tests (b : UInt8) : (b &&& 0x80 = 0 ↔ b.toNat < 0x80) ∧ (0x80 ≤ b.toNat → (b &&& 0x40 = 0 ↔ b.toNat < 0xc0)) := by
  have hall : ∀ n < 256, ((UInt8.ofNat n &&& 0x80 = 0 ↔ (UInt8.ofNat n).toNat < 0x80) ∧
      (0x80 ≤ (UInt8.ofNat n).toNat → (UInt8.ofNat n &&& 0x40 = 0 ↔ (UInt8.ofNat n).toNat < 0xc0))) := by decide +kernel
  have hb := hall b.toNat b.toNat_lt
  rwa [UInt8.ofNat_toNat] at hb

/-- The bits of a byte `10xxxxxx` that count. -/
theorem tail_bits (hb : IsTail b) : (b &&& 0x3f).toNat = b.toNat - 0x80 := by
  have hall : ∀ n < 256, 0x80 ≤ n → n < 0xc0 → (UInt8.ofNat n &&& 0x3f).toNat = n - 0x80 := by decide +kernel
  have hbits := hall b.toNat b.toNat_lt hb.1 hb.2
  rwa [UInt8.ofNat_toNat] at hbits

/-- What is tested of a byte within a sequence. -/
theorem tail_tests (b : UInt8) : (b &&& 0x80 = 0 ∨ b &&& 0x40 ≠ 0) ↔ ¬IsTail b := by
  obtain ⟨h80, h40⟩ := bits_tests b
  rw [IsTail, h80]
  by_cases hb : b.toNat < 0x80
  · simp only [hb, true_or, true_iff]
    omega
  · rw [Ne, h40 (by omega)]
    omega

/-- The test of the bit that ends the ones of a first byte, and the bits below it. -/
theorem lead_bits (b : UInt8) :
    (0xc0 ≤ b.toNat → (b &&& 0x20 = 0 ↔ b.toNat < 0xe0) ∧ (b.toNat < 0xe0 → (b &&& 0x1f).toNat = b.toNat - 0xc0)) ∧
    (0xe0 ≤ b.toNat → (b &&& 0x10 = 0 ↔ b.toNat < 0xf0) ∧ (b.toNat < 0xf0 → (b &&& 0x0f).toNat = b.toNat - 0xe0)) ∧
    (0xf0 ≤ b.toNat → (b &&& 0x08 = 0 ↔ b.toNat < 0xf8) ∧ (b.toNat < 0xf8 → (b &&& 0x07).toNat = b.toNat - 0xf0)) ∧
    (0xf8 ≤ b.toNat → (b &&& 0x04 = 0 ↔ b.toNat < 0xfc) ∧ (b.toNat < 0xfc → (b &&& 0x03).toNat = b.toNat - 0xf8)) ∧
    (0xfc ≤ b.toNat → (b &&& 0x02 = 0 ↔ b.toNat < 0xfe) ∧ (b.toNat < 0xfe → (b &&& 0x01).toNat = b.toNat - 0xfc)) := by
  have h20 : ∀ n < 256, 0xc0 ≤ n → ((UInt8.ofNat n &&& 0x20 = 0 ↔ n < 0xe0) ∧
      (n < 0xe0 → (UInt8.ofNat n &&& 0x1f).toNat = n - 0xc0)) := by decide +kernel
  have h10 : ∀ n < 256, 0xe0 ≤ n → ((UInt8.ofNat n &&& 0x10 = 0 ↔ n < 0xf0) ∧
      (n < 0xf0 → (UInt8.ofNat n &&& 0x0f).toNat = n - 0xe0)) := by decide +kernel
  have h08 : ∀ n < 256, 0xf0 ≤ n → ((UInt8.ofNat n &&& 0x08 = 0 ↔ n < 0xf8) ∧
      (n < 0xf8 → (UInt8.ofNat n &&& 0x07).toNat = n - 0xf0)) := by decide +kernel
  have h04 : ∀ n < 256, 0xf8 ≤ n → ((UInt8.ofNat n &&& 0x04 = 0 ↔ n < 0xfc) ∧
      (n < 0xfc → (UInt8.ofNat n &&& 0x03).toNat = n - 0xf8)) := by decide +kernel
  have h02 : ∀ n < 256, 0xfc ≤ n → ((UInt8.ofNat n &&& 0x02 = 0 ↔ n < 0xfe) ∧
      (n < 0xfe → (UInt8.ofNat n &&& 0x01).toNat = n - 0xfc)) := by decide +kernel
  have h1 := h20 b.toNat b.toNat_lt
  have h2 := h10 b.toNat b.toNat_lt
  have h3 := h08 b.toNat b.toNat_lt
  have h4 := h04 b.toNat b.toNat_lt
  have h5 := h02 b.toNat b.toNat_lt
  rw [UInt8.ofNat_toNat] at h1 h2 h3 h4 h5
  exact ⟨h1, h2, h3, h4, h5⟩

/-- A byte `11xxxxxx` is refused, or it begins a sequence. -/
theorem following_spec (hb : 0xc0 ≤ b.toNat) :
    (∃ n, following b = some (leadValue n b, n) ∧ IsLead n b) ∨ following b = none ∧ 0xfe ≤ b.toNat := by
  have hlead : ∀ n c, 1 ≤ n ∧ n ≤ 5 → 256 - 2 ^ (7 - n) ≤ b.toNat → b.toNat < 256 - 2 ^ (6 - n) →
      c = b.toNat - (256 - 2 ^ (7 - n)) → ∃ n', some (c, n) = some (leadValue n' b, n') ∧ IsLead n' b := by
    rintro n c hn hlo hhi rfl
    exact ⟨n, rfl, hn.1, hn.2, hlo, hhi⟩
  obtain ⟨h20, h10, h08, h04, h02⟩ := lead_bits b
  rw [following]
  by_cases h1 : b &&& 0x20 = 0
  · have hlt := (h20 hb).1.mp h1
    rw [if_pos h1]
    exact .inl (hlead 1 _ (by decide) hb hlt ((h20 hb).2 hlt))
  have he0 := Nat.le_of_not_lt (mt (h20 hb).1.mpr h1)
  rw [if_neg h1]
  by_cases h2 : b &&& 0x10 = 0
  · have hlt := (h10 he0).1.mp h2
    rw [if_pos h2]
    exact .inl (hlead 2 _ (by decide) he0 hlt ((h10 he0).2 hlt))
  have hf0 := Nat.le_of_not_lt (mt (h10 he0).1.mpr h2)
  rw [if_neg h2]
  by_cases h3 : b &&& 0x08 = 0
  · have hlt := (h08 hf0).1.mp h3
    rw [if_pos h3]
    exact .inl (hlead 3 _ (by decide) hf0 hlt ((h08 hf0).2 hlt))
  have hf8 := Nat.le_of_not_lt (mt (h08 hf0).1.mpr h3)
  rw [if_neg h3]
  by_cases h4 : b &&& 0x04 = 0
  · have hlt := (h04 hf8).1.mp h4
    rw [if_pos h4]
    exact .inl (hlead 4 _ (by decide) hf8 hlt ((h04 hf8).2 hlt))
  have hfc := Nat.le_of_not_lt (mt (h04 hf8).1.mpr h4)
  rw [if_neg h4]
  by_cases h5 : b &&& 0x02 = 0
  · have hlt := (h02 hfc).1.mp h5
    rw [if_pos h5]
    exact .inl (hlead 5 _ (by decide) hfc hlt ((h02 hfc).2 hlt))
  · rw [if_neg h5]
    exact .inr ⟨rfl, Nat.le_of_not_lt (mt (h02 hfc).1.mpr h5)⟩

/-- The inner loop takes the bytes of the sequence, or it stops before. -/
theorem followLoop_spec (n c : ℕ) (buf : List UInt8) :
    match followLoop n c buf with
    | .invalid => ¬(buf.length < n ∧ ∀ t ∈ buf, IsTail t) ∧ ¬∃ ts rest, buf = ts ++ rest ∧ ts.length = n ∧ ∀ t ∈ ts, IsTail t
    | .done => buf.length < n ∧ ∀ t ∈ buf, IsTail t
    | .char c' rest => ∃ ts, buf = ts ++ rest ∧ ts.length = n ∧ (∀ t ∈ ts, IsTail t) ∧ c' = value c ts := by
  induction n generalizing c buf with
  | zero => exact ⟨[], rfl, rfl, nofun, rfl⟩
  | succ n ih =>
    cases buf with
    | nil => exact ⟨Nat.succ_pos n, nofun⟩
    | cons b buf =>
      rw [followLoop]
      by_cases hb : IsTail b
      · rw [if_neg (by rwa [tail_tests, not_not]), tail_bits hb]
        have hspec := ih ((c <<< 6) + (b.toNat - 0x80)) buf
        have hshift : c <<< 6 = 64 * c := by rw [Nat.shiftLeft_eq, Nat.mul_comm]
        cases hloop : followLoop n ((c <<< 6) + (b.toNat - 0x80)) buf with
        | invalid =>
          rw [hloop] at hspec
          obtain ⟨hcut, hwhole⟩ := hspec
          constructor
          · rintro ⟨hlt, htails⟩
            exact hcut ⟨Nat.lt_of_succ_lt_succ hlt, (List.forall_mem_cons.mp htails).2⟩
          · rintro ⟨ts, rest, heq, hlength, htails⟩
            cases ts with
            | nil => cases hlength
            | cons t ts =>
              obtain ⟨rfl, rfl⟩ := List.cons.inj heq
              exact hwhole ⟨ts, rest, rfl, Nat.succ.inj hlength, (List.forall_mem_cons.mp htails).2⟩
        | done =>
          rw [hloop] at hspec
          exact ⟨Nat.succ_lt_succ hspec.1, List.forall_mem_cons.mpr ⟨hb, hspec.2⟩⟩
        | char c' rest =>
          rw [hloop] at hspec
          obtain ⟨ts, rfl, hlength, htails, hvalue⟩ := hspec
          rw [hshift] at hvalue
          refine ⟨b :: ts, rfl, congrArg (· + 1) hlength, List.forall_mem_cons.mpr ⟨hb, htails⟩, ?_⟩
          rw [hvalue, value, value, List.foldl_cons]
      · rw [if_pos ((tail_tests b).mpr hb)]
        constructor
        · rintro ⟨-, htails⟩
          exact hb (htails b (List.mem_cons_self))
        · rintro ⟨ts, rest, heq, hlength, htails⟩
          cases ts with
          | nil => cases hlength
          | cons t ts =>
            obtain ⟨rfl, -⟩ := List.cons.inj heq
            exact hb (htails b List.mem_cons_self)

theorem result_ne (st : Looks) : st.result ≠ -1 := by
  rw [Looks.result]
  split_ifs <;> decide

/-- A first byte for which `following` is set. -/
theorem lead_of_following {c n : ℕ} (h80 : ¬b &&& 0x80 = 0) (h40 : ¬b &&& 0x40 = 0) (hsome : following b = some (c, n)) :
    IsLead n b ∧ c = leadValue n b := by
  have hge : 0x80 ≤ b.toNat := Nat.le_of_not_lt (mt (bits_tests b).1.mpr h80)
  have hc0 : 0xc0 ≤ b.toNat := Nat.le_of_not_lt (mt ((bits_tests b).2 hge).mpr h40)
  obtain ⟨n', hsome', hlead⟩ | ⟨hnone, -⟩ := following_spec hc0
  · obtain ⟨rfl, rfl⟩ := Prod.mk.inj (Option.some.inj (hsome.symm.trans hsome'))
    exact ⟨hlead, rfl⟩
  · rw [hsome] at hnone
    cases hnone

/-- The outer loop stores the characters of a text, and it refuses nothing but what is no text. -/
theorem looksLoop_spec (st : Looks) (buf : List UInt8) :
    ((looksLoop st buf).1 ≠ -1 ∧ ∃ us, Text buf us ∧ (looksLoop st buf).2 = st.ubuf ++ us) ∨
      (looksLoop st buf).1 = -1 ∧ (∀ us, ¬Text buf us) ∧ (looksLoop st buf).2.length ≤ st.ubuf.length + buf.length := by
  fun_induction looksLoop st buf with
  | case1 st => exact .inl ⟨result_ne st, [], .nil, (List.append_nil _).symm⟩
  | case2 st b buf hb ih =>
    have hascii := (bits_tests b).1.mp hb
    rcases ih with ⟨hresult, us, htext, hstored⟩ | ⟨hresult, hno, hlength⟩
    · refine .inl ⟨hresult, b.toNat :: us, .ascii hascii htext, ?_⟩
      rw [hstored, List.append_assoc, List.singleton_append]
    · refine .inr ⟨hresult, ?_, ?_⟩
      · intro us htext
        obtain ⟨us', -, htext'⟩ := (text_cons_ascii hascii).mp htext
        exact hno us' htext'
      · simp only [List.length_append, List.length_cons, List.length_nil] at hlength ⊢
        omega
  | case3 st b buf h80 h40 =>
    have hge : 0x80 ≤ b.toNat := Nat.le_of_not_lt (mt (bits_tests b).1.mpr h80)
    have hlt := ((bits_tests b).2 hge).mp h40
    refine .inr ⟨rfl, fun us => text_cons_other hge ?_, Nat.le_add_right _ _⟩
    intro n hlead
    exact absurd hlead.ge (Nat.not_le_of_lt hlt)
  | case4 st b buf h80 h40 hnone =>
    have hge : 0x80 ≤ b.toNat := Nat.le_of_not_lt (mt (bits_tests b).1.mpr h80)
    have hc0 : 0xc0 ≤ b.toNat := Nat.le_of_not_lt (mt ((bits_tests b).2 hge).mpr h40)
    obtain ⟨n, hsome, -⟩ | ⟨-, hfe⟩ := following_spec hc0
    · rw [hnone] at hsome
      cases hsome
    · refine .inr ⟨rfl, fun us => text_cons_other hge ?_, Nat.le_add_right _ _⟩
      intro n hlead
      exact absurd hlead.lt (Nat.not_lt_of_le hfe)
  | case5 st b buf h80 h40 c n hsome hloop =>
    obtain ⟨hlead, rfl⟩ := lead_of_following h80 h40 hsome
    have hspec := followLoop_spec n (leadValue n b) buf
    rw [hloop] at hspec
    refine .inr ⟨rfl, ?_, Nat.le_add_right _ _⟩
    intro us htext
    obtain ⟨-, hcut⟩ | ⟨ts, rest, us', heq, hlength, htails, -⟩ := (text_cons_lead hlead).mp htext
    · exact hspec.1 hcut
    · exact hspec.2 ⟨ts, rest, heq, hlength, htails⟩
  | case6 st b buf h80 h40 c n hsome hloop =>
    obtain ⟨hlead, rfl⟩ := lead_of_following h80 h40 hsome
    have hspec := followLoop_spec n (leadValue n b) buf
    rw [hloop] at hspec
    exact .inl ⟨result_ne st, [], .cut hlead hspec.1 hspec.2, (List.append_nil _).symm⟩
  | case7 st b buf h80 h40 c n hsome c' rest hloop ih =>
    obtain ⟨hlead, rfl⟩ := lead_of_following h80 h40 hsome
    have hspec := followLoop_spec n (leadValue n b) buf
    rw [hloop] at hspec
    obtain ⟨ts, rfl, hts, htails, rfl⟩ := hspec
    rcases ih with ⟨hresult, us, htext, hstored⟩ | ⟨hresult, hno, hlength⟩
    · refine .inl ⟨hresult, _ :: us, .sequence hlead hts htails htext, ?_⟩
      rw [hstored, List.append_assoc, List.singleton_append]
    · refine .inr ⟨hresult, ?_, ?_⟩
      · intro us htext
        obtain ⟨-, hlt, -⟩ | ⟨ts', rest', us', heq, hts', -, -, htext'⟩ := (text_cons_lead hlead).mp htext
        · rw [List.length_append] at hlt
          omega
        · obtain ⟨-, rfl⟩ := List.append_inj heq (hts.trans hts'.symm)
          exact hno us' htext'
      · simp only [List.length_append, List.length_cons, List.length_nil] at hlength ⊢
        omega

/-- A text is decoded. -/
theorem fileLooksUtf8_text (h : Text buf us) : (fileLooksUtf8 buf).1 ≠ -1 ∧ (fileLooksUtf8 buf).2 = us := by
  obtain ⟨hresult, us', htext, hstored⟩ | ⟨-, hno, -⟩ := looksLoop_spec ⟨false, false, []⟩ buf
  · refine ⟨hresult, ?_⟩
    rw [fileLooksUtf8, hstored, h.unique htext, List.nil_append]
  · exact absurd h (hno us)

/-- What is refused is no text. -/
theorem fileLooksUtf8_refused (buf : List UInt8) : (fileLooksUtf8 buf).1 = -1 ↔ ¬∃ us, Text buf us := by
  obtain ⟨hresult, us, htext, -⟩ | ⟨hresult, hno, -⟩ := looksLoop_spec ⟨false, false, []⟩ buf
  · exact iff_of_false hresult (not_not_intro ⟨us, htext⟩)
  · exact iff_of_true hresult (not_exists.mpr hno)

/-- No more than one `unichar` is stored for each byte. -/
theorem fileLooksUtf8_length (buf : List UInt8) : (fileLooksUtf8 buf).2.length ≤ buf.length := by
  obtain ⟨-, us, htext, hstored⟩ | ⟨-, -, hlength⟩ := looksLoop_spec ⟨false, false, []⟩ buf
  · rw [fileLooksUtf8, hstored, List.nil_append]
    exact htext.length_le
  · rw [List.length_nil, Nat.zero_add] at hlength
    exact hlength

end

/-- What is encoded is decoded again; what is refused is no text; and there is no more stored than there are bytes. -/
theorem utf8_codec :
    (∀ us : List ℕ, (∀ u ∈ us, u ≤ 0x7fffffff) → ∃ bytes, encodeUtf8 (6 * us.length) us = some bytes ∧
      (fileLooksUtf8 bytes).1 ≠ -1 ∧ (fileLooksUtf8 bytes).2 = us) ∧
    (∀ bytes : List UInt8, (fileLooksUtf8 bytes).1 = -1 ↔ ¬∃ us, Text bytes us) ∧
    ∀ bytes : List UInt8, (fileLooksUtf8 bytes).2.length ≤ bytes.length := by
  refine ⟨?_, fileLooksUtf8_refused, fileLooksUtf8_length⟩
  intro us hus
  obtain ⟨bytes, hbytes, htext⟩ := encodeUtf8_text us hus (6 * us.length) (Nat.le_refl _)
  exact ⟨bytes, hbytes, fileLooksUtf8_text htext⟩

/-- `A`, a letter of two bytes and the euro sign. -/
theorem utf8_codec_euro : ∃ bytes, encodeUtf8 (6 * 3) [0x41, 0xe9, 0x20ac] = some bytes ∧
    (fileLooksUtf8 bytes).1 ≠ -1 ∧ (fileLooksUtf8 bytes).2 = [0x41, 0xe9, 0x20ac] :=
  utf8_codec.1 [0x41, 0xe9, 0x20ac] (by decide)

end CodingExercises.File.Encoding
