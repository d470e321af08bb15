import Mathlib.Algebra.Polynomial.Div
import Mathlib.Algebra.Field.ZMod
import Mathlib.Algebra.CharP.Two
import Mathlib.Data.ZMod.Basic
import Mathlib.Tactic.LinearCombination

/-!
# Cyclic redundancy checks

A register of `w` bits divides a message by a polynomial over the field of two elements, one bit of the message at a
time, most significant bit first.

- The register holds the remainder of the message, times `X ^ w`, by `X ^ w + poly` (`toPoly_feed`);
- some bits at once are fed by a table: the entry of these bits, xored with the bits that leave the register, is xored
  to the shifted register (`feed_eq_table`).
-/

namespace CodingExercises.Lib.Crc

open Polynomial

variable {w : ℕ} (poly : BitVec w)

/-- One bit of the message goes in. -/
def feedBit (r : BitVec w) (b : Bool) : BitVec w := if r.msb ^^ b then (r <<< 1) ^^^ poly else r <<< 1

/-- The bits of a message go in, one after the other. -/
def feed (r : BitVec w) (bits : List Bool) : BitVec w := bits.foldl (feedBit poly) r

variable {poly}

@[simp] theorem feed_nil (r : BitVec w) : feed poly r [] = r := rfl

theorem feed_cons (r : BitVec w) (b : Bool) (bits : List Bool) :
    feed poly r (b :: bits) = feed poly (feedBit poly r b) bits := rfl

theorem feed_append (r : BitVec w) (bits more : List Bool) :
    feed poly r (bits ++ more) = feed poly (feed poly r bits) more := List.foldl_append

/-! ## The table -/

theorem xor_cancel_right (a b p : BitVec w) : a ^^^ p ^^^ (b ^^^ p) = a ^^^ b := by
  rw [BitVec.xor_comm b p, ← BitVec.xor_assoc, BitVec.xor_assoc a p p, BitVec.xor_self, BitVec.xor_zero]

theorem xor_right_comm (a b p : BitVec w) : a ^^^ p ^^^ b = a ^^^ b ^^^ p := by
  rw [BitVec.xor_assoc, BitVec.xor_comm p b, ← BitVec.xor_assoc]

/-- Feeding is linear. -/
theorem feedBit_xor (r s : BitVec w) (a b : Bool) :
    feedBit poly (r ^^^ s) (a ^^ b) = feedBit poly r a ^^^ feedBit poly s b := by
  have hbit : ((r ^^^ s).msb ^^ (a ^^ b)) = ((r.msb ^^ a) ^^ (s.msb ^^ b)) := by
    rw [BitVec.msb_xor]
    cases r.msb <;> cases s.msb <;> cases a <;> cases b <;> rfl
  unfold feedBit
  rw [hbit, BitVec.shiftLeft_xor_distrib]
  cases r.msb ^^ a <;> cases s.msb ^^ b
  · rfl
  · exact BitVec.xor_assoc ..
  · exact (xor_right_comm ..).symm
  · exact (xor_cancel_right ..).symm

variable (poly) in
theorem feed_xor (r s : BitVec w) {as bs : List Bool} (h : as.length = bs.length) :
    feed poly (r ^^^ s) (List.zipWith xor as bs) = feed poly r as ^^^ feed poly s bs := by
  induction as generalizing r s bs with
  | nil =>
    obtain rfl : bs = [] := List.length_eq_zero_iff.1 h.symm
    rfl
  | cons a as ih =>
    cases bs with
    | nil => cases h
    | cons b bs =>
      rw [List.zipWith_cons_cons, feed_cons, feed_cons, feed_cons, feedBit_xor]
      exact ih _ _ (Nat.succ.inj h)

/-- The `n` most significant bits. -/
def top (r : BitVec w) (n : ℕ) : List Bool := (List.range n).map r.getMsbD

@[simp] theorem length_top (r : BitVec w) (n : ℕ) : (top r n).length = n := by simp [top]

theorem top_succ (r : BitVec w) (n : ℕ) : top r (n + 1) = r.msb :: top (r <<< 1) n := by
  unfold top
  rw [List.range_succ_eq_map, List.map_cons, List.map_map]
  congr 1
  refine List.map_congr_left fun i _ => ?_
  simp only [Function.comp_apply, Nat.succ_eq_add_one, BitVec.getMsbD_shiftLeft]

theorem zip_false_left (bits : List Bool) : List.zipWith xor (List.replicate bits.length false) bits = bits := by
  induction bits with
  | nil => rfl
  | cons b bits ih => rw [List.length_cons, List.replicate_succ, List.zipWith_cons_cons, ih, Bool.false_xor]

theorem zip_false_right (bits : List Bool) : List.zipWith xor bits (List.replicate bits.length false) = bits := by
  induction bits with
  | nil => rfl
  | cons b bits ih => rw [List.length_cons, List.replicate_succ, List.zipWith_cons_cons, ih, Bool.xor_false]

variable (poly) in
/-- A part of the register, and the rest with the bits. -/
theorem feed_xor_left (r s : BitVec w) (bits : List Bool) :
    feed poly (r ^^^ s) bits = feed poly r (List.replicate bits.length false) ^^^ feed poly s bits := by
  have h := feed_xor poly r s (List.length_replicate : (List.replicate bits.length false).length = _)
  rwa [zip_false_left] at h

theorem feed_xor_right (r s : BitVec w) (bits : List Bool) :
    feed poly (r ^^^ s) bits = feed poly r bits ^^^ feed poly s (List.replicate bits.length false) := by
  have h := feed_xor poly r s
    (List.length_replicate.symm : bits.length = (List.replicate bits.length false).length)
  rwa [zip_false_right] at h

/-- **Some bits at once.** The register is shifted, and the entry of the bits, xored with those that leave the register,
is xored to it. -/
theorem feed_eq_table (r : BitVec w) (bits : List Bool) :
    feed poly r bits = (r <<< bits.length) ^^^ feed poly 0#w (List.zipWith xor (top r bits.length) bits) := by
  induction bits generalizing r with
  | nil => simp [top]
  | cons b bits ih =>
    -- The first bit acts on the others only through the polynomial, which linearity takes out.
    have hfirst : feedBit poly r b = (r <<< 1) ^^^ feedBit poly 0#w (r.msb ^^ b) := by
      unfold feedBit
      cases r.msb <;> cases b <;> simp
    have hlen : (List.zipWith xor (top (r <<< 1) bits.length) bits).length = bits.length := by simp
    have hrest := feed_xor_left poly (feedBit poly 0#w (r.msb ^^ b)) 0#w
      (List.zipWith xor (top (r <<< 1) bits.length) bits)
    rw [BitVec.xor_zero, hlen] at hrest
    rw [List.length_cons, top_succ, List.zipWith_cons_cons, feed_cons, feed_cons, hfirst, feed_xor_right, ih, hrest,
      ← BitVec.shiftLeft_add, Nat.add_comm 1, BitVec.xor_assoc, BitVec.xor_comm (feed poly 0#w _)]

/-! ## The remainder -/

/-- A bit as a number. -/
def bit (b : Bool) : ZMod 2 := if b then 1 else 0

theorem bit_xor (a b : Bool) : bit (a ^^ b) = bit a + bit b := by
  cases a <;> cases b <;> decide

/-- The register as a polynomial. -/
noncomputable def toPoly (r : BitVec w) : (ZMod 2)[X] := ∑ i ∈ Finset.range w, monomial i (bit (r.getLsbD i))

/-- The polynomial that the register divides by. -/
noncomputable def divisor (poly : BitVec w) : (ZMod 2)[X] := X ^ w + toPoly poly

/-- The message as a polynomial. -/
noncomputable def message (bits : List Bool) : (ZMod 2)[X] := bits.foldl (fun p b => p * X + C (bit b)) 0

theorem coeff_toPoly (r : BitVec w) (i : ℕ) : (toPoly r).coeff i = bit (r.getLsbD i) := by
  simp only [toPoly, finsetSum_coeff, coeff_monomial, Finset.sum_ite_eq', Finset.mem_range]
  split
  · rfl
  · rename_i h
    rw [BitVec.getLsbD_of_ge r i (by omega)]; rfl

theorem degree_toPoly_lt (r : BitVec w) : (toPoly r).degree < w := by
  rw [degree_lt_iff_coeff_zero]
  intro i hi
  rw [coeff_toPoly, BitVec.getLsbD_of_ge r i hi]; rfl

theorem monic_divisor (poly : BitVec w) : (divisor poly).Monic := monic_X_pow_add (degree_toPoly_lt poly)

theorem degree_divisor (poly : BitVec w) : (divisor poly).degree = w := by
  unfold divisor
  rw [degree_add_eq_left_of_degree_lt]
  · exact degree_X_pow w
  · rw [degree_X_pow]; exact degree_toPoly_lt poly

/-- Feeding a bit is a step of the division. -/
theorem toPoly_feedBit (r : BitVec w) (b : Bool) :
    toPoly (feedBit poly r b) =
      toPoly r * X + C (bit b) * X ^ w + C (bit (r.msb ^^ b)) * divisor poly := by
  have hfeed : ∀ i, bit ((feedBit poly r b).getLsbD i) =
      bit ((r <<< 1).getLsbD i) + bit (r.msb ^^ b) * bit (poly.getLsbD i) := by
    intro i
    unfold feedBit
    cases r.msb ^^ b
    · simp [bit]
    · rw [if_pos rfl, BitVec.getLsbD_xor, bit_xor]
      exact congrArg _ (one_mul _).symm
  ext i
  rw [coeff_toPoly, hfeed]
  simp only [divisor, coeff_add, coeff_C_mul, coeff_X_pow, coeff_toPoly]
  rcases Nat.lt_trichotomy i w with hi | rfl | hi
  · rw [if_neg (by omega)]
    cases i with
    | zero => simp [bit]
    | succ i =>
      have hshift : (r <<< 1).getLsbD (i + 1) = r.getLsbD i := by
        rw [BitVec.getLsbD_shiftLeft]
        simp [hi]
      rw [coeff_mul_X, coeff_toPoly, hshift, mul_zero, zero_add, add_zero]
  · -- The bit that leaves the register and the bit of the message make up the polynomial's leading term.
    have htop : (toPoly r * X).coeff i = bit r.msb := by
      cases i with
      | zero => simp [bit, BitVec.msb_eq_getLsbD_last]
      | succ i => rw [coeff_mul_X, coeff_toPoly, BitVec.msb_eq_getLsbD_last]; rfl
    have hout : ∀ s : BitVec i, bit (s.getLsbD i) = 0 := fun s => by rw [BitVec.getLsbD_of_ge s i (Nat.le_refl i)]; rfl
    rw [htop, hout, hout, if_pos rfl, mul_zero, add_zero, add_zero, mul_one, mul_one, ← bit_xor]
    exact (CharTwo.add_self_eq_zero _).symm
  · rw [if_neg (by omega)]
    cases i with
    | zero => omega
    | succ i =>
      have hout : ∀ (s : BitVec w) (j : ℕ), w ≤ j → bit (s.getLsbD j) = 0 := fun s j hj => by
        rw [BitVec.getLsbD_of_ge s j hj]; rfl
      rw [coeff_mul_X, coeff_toPoly, hout r i (by omega), hout _ (i + 1) (by omega), hout _ (i + 1) (by omega)]
      simp

theorem message_concat (bits : List Bool) (b : Bool) : message (bits ++ [b]) = message bits * X + C (bit b) := by
  simp [message]

/-- **What the register holds** is the remainder of the message. -/
theorem toPoly_feed (bits : List Bool) : toPoly (feed poly 0#w bits) = message bits * X ^ w %ₘ divisor poly := by
  have hrem : ∃ q, toPoly (feed poly 0#w bits) + divisor poly * q = message bits * X ^ w := by
    induction bits using List.reverseRecOn with
    | nil =>
      refine ⟨0, ?_⟩
      simp [message, toPoly, bit]
    | append_singleton bits b ih =>
      obtain ⟨q, hq⟩ := ih
      refine ⟨q * X + C (bit ((feed poly 0#w bits).msb ^^ b)), ?_⟩
      have hchar : ∀ p : (ZMod 2)[X], p + p = 0 := CharTwo.add_self_eq_zero
      rw [feed_append, feed_cons, feed_nil, toPoly_feedBit, message_concat, add_mul, mul_right_comm, ← hq]
      have hc := hchar (C (bit ((feed poly 0#w bits).msb ^^ b)) * divisor poly)
      linear_combination hc
  obtain ⟨q, hq⟩ := hrem
  have h := div_modByMonic_unique q (toPoly (feed poly 0#w bits)) (monic_divisor poly)
    ⟨hq, by rw [degree_divisor]; exact degree_toPoly_lt _⟩
  exact h.2.symm

end CodingExercises.Lib.Crc
