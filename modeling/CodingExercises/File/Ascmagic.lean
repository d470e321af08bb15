import Mathlib.Data.Nat.Notation
import CodingExercises.Lib.LineEnds

/-!
# file: statistics of line terminators

The counting loop of `file_ascmagic_with_encoding` of `ascmagic.c`. A `unichar` is a number, and so are the counters: an `int` holds
the number of the characters. The loop takes the letter `r` for the carriage return (`seen_cr = (ubuf[i] == 'r')`): its counts are
those for the letter (`lineStatistics_spec`), and those for the carriage return where the two agree (`describes_iff`).
-/

namespace CodingExercises.File.Ascmagic

open Lib.LineEnds

/-! ## The loop -/

def howmany : ℕ := 256 * 1024

def maxLineLen : ℕ := 300

/-- The letter `r`. -/
def letterR : ℕ := 'r'.toNat

/-- The variables of the loop; `last_line_end` is a `size_t`. -/
structure Statistics where
  nCrlf : ℕ
  nLf : ℕ
  nCr : ℕ
  nNel : ℕ
  seenCr : Bool
  lastLineEnd : ℕ
  hasLongLines : Bool
  hasEscapes : Bool
  hasBackspace : Bool
deriving DecidableEq

/-- The values before the loop; `last_line_end` is `(size_t)-1`. -/
def start : Statistics := ⟨0, 0, 0, 0, false, 2 ^ 64 - 1, false, false, false⟩

/-- The body of the loop for the character `u` at the index `i`. -/
def Statistics.turn (st : Statistics) (i u : ℕ) : Statistics :=
  let st :=
    if u = '\n'.toNat then
      if st.seenCr then { st with nCrlf := st.nCrlf + 1, lastLineEnd := i } else { st with nLf := st.nLf + 1, lastLineEnd := i }
    else if st.seenCr then { st with nCr := st.nCr + 1 }
    else st
  let st := { st with seenCr := u = letterR }
  let st := if st.seenCr then { st with lastLineEnd := i } else st
  let st := if u = 0x85 then { st with nNel := st.nNel + 1, lastLineEnd := i } else st
  let st := if (st.lastLineEnd + maxLineLen) % 2 ^ 64 < i then { st with hasLongLines := true } else st
  let st := if u = 0o33 then { st with hasEscapes := true } else st
  if u = 0o10 then { st with hasBackspace := true } else st

/-- The loop over the characters from the index `i` on. -/
def countLoop (st : Statistics) (i : ℕ) : List ℕ → Statistics
  | [] => st
  | u :: us => countLoop (st.turn i u) (i + 1) us

/-- The counting, with what is done after the loop. -/
def lineStatistics (nbytes : ℕ) (ubuf : List ℕ) : Statistics :=
  let st := countLoop start 0 ubuf
  if st.seenCr ∧ nbytes < howmany then { st with nCr := st.nCr + 1 } else st

/-! ## A turn -/

section

variable (st : Statistics) (i u : ℕ)

theorem turn_seenCr : (st.turn i u).seenCr = (u = letterR : Bool) := by
  simp only [Statistics.turn, apply_ite Statistics.seenCr, ite_self]

theorem turn_nCrlf : (st.turn i u).nCrlf = st.nCrlf + if u = '\n'.toNat ∧ st.seenCr then 1 else 0 := by
  simp only [Statistics.turn, apply_ite Statistics.nCrlf, ite_self]
  split_ifs <;> simp_all

theorem turn_nLf : (st.turn i u).nLf = st.nLf + if u = '\n'.toNat ∧ ¬st.seenCr then 1 else 0 := by
  simp only [Statistics.turn, apply_ite Statistics.nLf, ite_self]
  split_ifs <;> simp_all

theorem turn_nCr : (st.turn i u).nCr = st.nCr + if u ≠ '\n'.toNat ∧ st.seenCr then 1 else 0 := by
  simp only [Statistics.turn, apply_ite Statistics.nCr, ite_self]
  split_ifs <;> simp_all

theorem turn_nNel : (st.turn i u).nNel = st.nNel + if u = 0x85 then 1 else 0 := by
  simp only [Statistics.turn, apply_ite Statistics.nNel, ite_self]
  split_ifs <;> rfl

/-- The characters that end a line, where `cr` is the carriage return. -/
def isEnd (cr u : ℕ) : Bool := u = '\n'.toNat ∨ u = cr ∨ u = 0x85

theorem turn_lastLineEnd : (st.turn i u).lastLineEnd = if isEnd letterR u then i else st.lastLineEnd := by
  simp only [Statistics.turn, apply_ite Statistics.lastLineEnd, ite_self, isEnd, decide_eq_true_eq]
  split_ifs <;> simp_all

theorem turn_hasLongLines : (st.turn i u).hasLongLines ↔
    st.hasLongLines ∨ ((st.turn i u).lastLineEnd + maxLineLen) % 2 ^ 64 < i := by
  simp only [Statistics.turn, apply_ite Statistics.hasLongLines, apply_ite Statistics.lastLineEnd, ite_self]
  have hite : ∀ (p : Prop) [Decidable p] (b : Bool), ((if p then true else b) = true ↔ b = true ∨ p) := by
    intro p _ b
    by_cases hp : p <;> simp only [hp, if_true, if_false, or_true, or_false]
  exact hite _ _

end

/-! ## What is counted -/

/-- The counts are those of a text, where `cr` is the carriage return. -/
def Statistics.Describes (st : Statistics) (cr : ℕ) (us : List ℕ) : Prop :=
  st.nCrlf = pairs cr '\n'.toNat us ∧ st.nLf = lfAlone cr '\n'.toNat us ∧ st.nCr = crAlone cr '\n'.toNat us ∧
    st.nNel = us.count 0x85 ∧ (st.hasLongLines ↔ Long (isEnd cr) maxLineLen us)

/-- What holds in the loop behind the characters `us`. -/
structure Statistics.After (st : Statistics) (us : List ℕ) : Prop where
  nCrlf : st.nCrlf = pairs letterR '\n'.toNat us
  nLf : st.nLf = lfAlone letterR '\n'.toNat us
  nCr : st.nCr + st.nCrlf + (if st.seenCr then 1 else 0) = us.count letterR
  nNel : st.nNel = us.count 0x85
  seenCr : st.seenCr ↔ us.getLast? = some letterR
  last : NoEnd (isEnd letterR) us ∧ st.lastLineEnd = 2 ^ 64 - 1 ∨ LastEnd (isEnd letterR) us st.lastLineEnd
  long : st.hasLongLines ↔ Long (isEnd letterR) maxLineLen us

theorem start_after : start.After [] where
  nCrlf := rfl
  nLf := rfl
  nCr := rfl
  nNel := rfl
  seenCr := by decide
  last := .inl ⟨fun _ => rfl, rfl⟩
  long := by decide

/-- The last line end behind a turn. -/
theorem Statistics.After.last_turn {st : Statistics} {us : List ℕ} (h : st.After us) (u : ℕ) :
    NoEnd (isEnd letterR) (us ++ [u]) ∧ (st.turn us.length u).lastLineEnd = 2 ^ 64 - 1 ∨
      LastEnd (isEnd letterR) (us ++ [u]) (st.turn us.length u).lastLineEnd := by
  rw [turn_lastLineEnd]
  cases hu : isEnd letterR u with
  | true => exact .inr (lastEnd_snoc hu)
  | false =>
    rcases h.last with ⟨hno, hlast⟩ | hlast
    · exact .inl ⟨hno.snoc hu, hlast⟩
    · exact .inr (hlast.snoc hu)

/-- What a turn keeps, as long as the index and the length of a line fit a `size_t`. -/
theorem Statistics.After.turn {st : Statistics} {us : List ℕ} {u : ℕ} (h : st.After us) (hlen : us.length + maxLineLen < 2 ^ 64) :
    (st.turn us.length u).After (us ++ [u]) := by
  have hr : letterR ≠ '\n'.toNat := by decide
  refine ⟨?_, ?_, ?_, ?_, ?_, ?_, ?_⟩
  · rw [turn_nCrlf, pairs_snoc, h.nCrlf]
    exact congrArg _ (if_congr (and_congr_right fun _ => h.seenCr) rfl rfl)
  · rw [turn_nLf, lfAlone_snoc, h.nLf]
    exact congrArg _ (if_congr (and_congr_right fun _ => not_congr h.seenCr) rfl rfl)
  · rw [turn_nCr, turn_nCrlf, turn_seenCr, list_count_snoc, ← h.nCr]
    by_cases hu : u = '\n'.toNat <;> cases st.seenCr <;> simp only [hu, hr.symm, ne_eq, not_true, not_false_iff, true_and, false_and,
      if_true, if_false, decide_eq_true_eq, Bool.false_eq_true] <;> omega
  · rw [turn_nNel, list_count_snoc, h.nNel]
  · rw [turn_seenCr, List.getLast?_concat, Option.some.injEq, decide_eq_true_eq]
  · exact h.last_turn u
  · rw [turn_hasLongLines, h.long]
    rcases h.last_turn u with ⟨hno, hlast⟩ | hlast
    · rw [hno.long_snoc, hlast]
      exact or_congr_right Nat.lt_iff_add_one_le
    · have hlt := hlast.lt
      rw [List.length_append, List.length_singleton] at hlt
      rw [hlast.long_snoc, Nat.mod_eq_of_lt (by omega)]

theorem countLoop_after {st : Statistics} {pre : List ℕ} (us : List ℕ) (h : st.After pre)
    (hlen : (pre ++ us).length + maxLineLen ≤ 2 ^ 64) : (countLoop st pre.length us).After (pre ++ us) := by
  induction us generalizing st pre with
  | nil => rwa [List.append_nil]
  | cons u us ih =>
    rw [List.append_cons] at hlen ⊢
    have hpre : pre.length + maxLineLen < 2 ^ 64 := by
      rw [List.length_append, List.length_append, List.length_singleton] at hlen
      omega
    have hturn := ih (h.turn hpre) hlen
    rwa [List.length_append] at hturn

/-- The counts are those for the letter `r`. -/
theorem lineStatistics_spec {nbytes : ℕ} {ubuf : List ℕ} (hbytes : nbytes < howmany) (hlen : ubuf.length < 2 ^ 31) :
    (lineStatistics nbytes ubuf).Describes letterR ubuf := by
  have hmax : ubuf.length + maxLineLen ≤ 2 ^ 64 := by
    rw [maxLineLen]
    omega
  have hafter := countLoop_after ubuf start_after (by rwa [List.nil_append])
  rw [List.nil_append, List.length_nil] at hafter
  have hcr := hafter.nCr
  rw [← crAlone_add_pairs letterR '\n'.toNat ubuf, hafter.nCrlf] at hcr
  rw [lineStatistics]
  cases hseen : (countLoop start 0 ubuf).seenCr with
  | true =>
    rw [hseen, if_pos rfl] at hcr
    rw [if_pos ⟨rfl, hbytes⟩]
    refine ⟨hafter.nCrlf, hafter.nLf, ?_, hafter.nNel, hafter.long⟩
    simp only
    omega
  | false =>
    rw [hseen, if_neg (by decide)] at hcr
    rw [if_neg (by rintro ⟨h, -⟩; cases h)]
    exact ⟨hafter.nCrlf, hafter.nLf, by omega, hafter.nNel, hafter.long⟩

/-- The letter `r` stands for the carriage return: there are as many of them, as many before a line feed, and there is a long line
with the ones as line ends if there is one with the others. -/
def LetterForCr (us : List ℕ) : Prop :=
  us.count letterR = us.count '\r'.toNat ∧ pairs letterR '\n'.toNat us = pairs '\r'.toNat '\n'.toNat us ∧
    (Long (isEnd letterR) maxLineLen us ↔ Long (isEnd '\r'.toNat) maxLineLen us)

instance (us : List ℕ) : Decidable (LetterForCr us) := by
  unfold LetterForCr
  infer_instance

/-- The statistics are those of the text just when the letter stands for the carriage return. -/
theorem describes_iff (nbytes : ℕ) (ubuf : List ℕ) (hbytes : nbytes < howmany) (hlen : ubuf.length < 2 ^ 31) :
    (lineStatistics nbytes ubuf).Describes '\r'.toNat ubuf ↔ LetterForCr ubuf := by
  obtain ⟨hcrlf, hlf, hcr, hnel, hlong⟩ := lineStatistics_spec hbytes hlen
  have hlfR := lfAlone_add_pairs letterR '\n'.toNat ubuf
  have hlfCr := lfAlone_add_pairs '\r'.toNat '\n'.toNat ubuf
  have hcrR := crAlone_add_pairs letterR '\n'.toNat ubuf
  have hcrCr := crAlone_add_pairs '\r'.toNat '\n'.toNat ubuf
  rw [Statistics.Describes, LetterForCr, hcrlf, hlf, hcr, hlong]
  constructor
  · rintro ⟨hpairs, -, hcr, -, hlong⟩
    exact ⟨by omega, hpairs, hlong⟩
  · rintro ⟨hcount, hpairs, hlong⟩
    exact ⟨hpairs, by omega, by omega, hnel, hlong⟩

theorem describes_line : (lineStatistics 3 [0x61, 0x62, 0x0a]).Describes '\r'.toNat [0x61, 0x62, 0x0a] :=
  (describes_iff 3 [0x61, 0x62, 0x0a] (by decide) (by decide)).mpr (by decide)

/-- A line that ends with CR LF. -/
theorem not_describes : ¬(lineStatistics 3 [0x61, 0x0d, 0x0a]).Describes '\r'.toNat [0x61, 0x0d, 0x0a] := by
  rintro ⟨hpairs, -⟩
  revert hpairs
  decide

end CodingExercises.File.Ascmagic
