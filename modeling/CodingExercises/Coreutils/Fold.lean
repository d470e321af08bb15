import Mathlib.Data.List.Basic
import CodingExercises.Coreutils.Xalloc

/-!
# coreutils: fold

`adjust_column` and `fold_file` of `src/fold.c`. What is written is a list of marks, in which an inserted newline (`Mark.fold`)
is told apart from a character of the input.

Everything rests on a column being the later the later it starts (`adjustColumn_mono`): what is moved behind a blank to the
beginning of a line fits there. `main` keeps the width below `SIZE_MAX - TAB_WIDTH`, so that no column overflows
(`column_le`).
-/

namespace CodingExercises.Coreutils.Fold

def newline : Byte := 10

def tabWidth : ℕ := 8

/-- The options, the width, and `isblank` of the locale. -/
structure Options where
  countBytes : Bool
  breakSpaces : Bool
  width : ℕ
  isblank : Byte → Bool

/-- What is written: a character that was read, or a newline that is put in. -/
inductive Mark
  | char (c : Byte)
  | fold
deriving DecidableEq

/-- The byte on the output. -/
def Mark.byte : Mark → Byte
  | .char c => c
  | .fold => newline

/-- The character of the input. -/
def Mark.read : Mark → Option Byte
  | .char c => some c
  | .fold => none

section

variable (o : Options)

/-- `adjust_column`. -/
def adjustColumn (column : ℕ) (c : Byte) : ℕ :=
  if !o.countBytes then
    if c = 8 then (if column > 0 then column - 1 else column)
    else if c = 13 then 0
    else if c = 9 then column + (tabWidth - column % tabWidth)
    else column + 1
  else column + 1

/-- The column behind a text that begins in the first column. -/
def columnOf (text : List Byte) : ℕ := text.foldl (adjustColumn o) 0

/-- The search from `logical_end` for the last blank: its index. -/
def lastBlank (lineOut : List Byte) : ℕ → Option ℕ
  | 0 => none
  | logicalEnd + 1 =>
    if lineOut[logicalEnd]?.any o.isblank then some logicalEnd else lastBlank lineOut logicalEnd

theorem lastBlank_lt {lineOut : List Byte} {n i : ℕ} (h : lastBlank o lineOut n = some i) : i < n := by
  induction n with
  | zero => cases h
  | succ n ih =>
    rw [lastBlank] at h
    split at h
    · obtain rfl := Option.some.inj h
      exact Nat.lt_succ_self _
    · exact Nat.lt_succ_of_lt (ih h)

/-- What is left of the turn from `rescan` on: what is written, and the new `column` and `line_out`. -/
def rescan (column : ℕ) (lineOut : List Byte) (c : Byte) : List Mark × ℕ × List Byte :=
  if adjustColumn o column c > o.width then
    match h : (if o.breakSpaces then lastBlank o lineOut lineOut.length else none) with
    | some i =>
      let rest := lineOut.drop (i + 1)
      let next := rescan (columnOf o rest) rest c
      ((lineOut.take (i + 1)).map .char ++ .fold :: next.1, next.2)
    | none =>
      if lineOut = [] then ([], adjustColumn o column c, [c])
      else
        let next := rescan 0 [] c
        (lineOut.map .char ++ .fold :: next.1, next.2)
  else ([], adjustColumn o column c, lineOut ++ [c])
  termination_by lineOut.length
  decreasing_by
    · have hi : i < lineOut.length := by
        split at h
        · exact lastBlank_lt o h
        · cases h
      simp only [List.length_drop]
      omega
    · next hne => exact List.length_pos_iff.2 hne

/-- The loop over the input, from a `column` and a `line_out`: what is written. -/
def foldFrom (column : ℕ) (lineOut : List Byte) : List Byte → List Mark
  | [] => lineOut.map .char
  | c :: input =>
    if c = newline then (lineOut ++ [c]).map .char ++ foldFrom 0 [] input
    else
      let r := rescan o column lineOut c
      r.1 ++ foldFrom r.2.1 r.2.2 input

/-- `fold_file`. -/
def foldFile (input : List Byte) : List Mark := foldFrom o 0 [] input

/-! ## Columns -/

/-- A character moves the cursor further right when it stands further right. -/
theorem adjustColumn_mono {m n : ℕ} (h : m ≤ n) (c : Byte) : adjustColumn o m c ≤ adjustColumn o n c := by
  unfold adjustColumn tabWidth
  split
  · split
    · split <;> split <;> omega
    split
    · exact Nat.le_refl _
    split
    · omega
    · omega
  · omega

theorem foldl_adjustColumn_mono {m n : ℕ} (h : m ≤ n) (text : List Byte) :
    text.foldl (adjustColumn o) m ≤ text.foldl (adjustColumn o) n := by
  induction text generalizing m n with
  | nil => exact h
  | cons c text ih => exact ih (adjustColumn_mono o h c)

@[simp] theorem columnOf_concat (text : List Byte) (c : Byte) :
    columnOf o (text ++ [c]) = adjustColumn o (columnOf o text) c := by
  simp [columnOf]

/-- A text that begins further left ends no further right. -/
theorem columnOf_append_le (s t : List Byte) : columnOf o t ≤ columnOf o (s ++ t) := by
  rw [columnOf, columnOf, List.foldl_append]
  exact foldl_adjustColumn_mono o (Nat.zero_le _) t

/-! ## Lines -/

/-- Each character after the first leaves the column at most at the width. -/
def Fits (line : List Byte) : Prop := ∀ s c, s ≠ [] → s ++ [c] <+: line → columnOf o (s ++ [c]) ≤ o.width

/-- The line has a blank, and is to be broken at it. -/
def HasBreak (line : List Byte) : Prop := o.breakSpaces = true ∧ ∃ b ∈ line, o.isblank b = true

/-- Why a newline is put in between `line` and `rest`: what is held of the line goes on to `moved`, and the next character of
the input would make the column exceed the width. When the line held has a blank, it is broken behind the last one, and else
nothing is moved. -/
def FoldedAt (line rest : List Byte) : Prop :=
  ∃ moved c rest', rest = moved ++ c :: rest' ∧ c ≠ newline ∧ newline ∉ moved ∧ columnOf o (line ++ moved ++ [c]) > o.width ∧
    (HasBreak o (line ++ moved) → (∃ b, line.getLast? = some b ∧ o.isblank b = true) ∧ ∀ b ∈ moved, o.isblank b = false) ∧
    (¬HasBreak o (line ++ moved) → moved = [])

/-- A line begins behind `before`. -/
def BeginsLine (before : List Mark) : Prop := before = [] ∨ ∃ before' m, before = before' ++ [m] ∧ m.byte = newline

/-- What is written, from the middle of a line on: every character fits, and every newline put in has its reason. -/
def Good (line : List Byte) : List Mark → Prop
  | [] => True
  | .char c :: marks =>
    if c = newline then Good [] marks
    else (line ≠ [] → columnOf o (line ++ [c]) ≤ o.width) ∧ Good (line ++ [c]) marks
  | .fold :: marks => FoldedAt o line (marks.filterMap Mark.read) ∧ Good [] marks

/-- The characters of `text`, behind `line`, fit. -/
def FitsFrom (line text : List Byte) : Prop :=
  ∀ s c, line ++ s ≠ [] → s ++ [c] <+: text → columnOf o (line ++ s ++ [c]) ≤ o.width

variable {o}

theorem fits_iff {line : List Byte} : Fits o line ↔ FitsFrom o [] line := by simp [Fits, FitsFrom]

theorem fitsFrom_nil (line : List Byte) : FitsFrom o line [] := by
  intro s c _ h
  simp at h

theorem fitsFrom_cons {line text : List Byte} {c : Byte} :
    FitsFrom o line (c :: text) ↔ (line ≠ [] → columnOf o (line ++ [c]) ≤ o.width) ∧ FitsFrom o (line ++ [c]) text := by
  constructor
  · intro h
    refine ⟨fun hne => ?_, fun s d _ hs => ?_⟩
    · simpa using h [] c (by simpa using hne) (by simp)
    · simpa using h (c :: s) d (by simp) (by simpa using hs)
  · rintro ⟨hc, htext⟩ s d hne hs
    cases s with
    | nil =>
      obtain rfl : d = c := by simpa using hs
      simpa using hc (by simpa using hne)
    | cons e s =>
      rw [List.cons_append, List.cons_prefix_cons] at hs
      obtain ⟨rfl, hs⟩ := hs
      simpa using htext s d (by simp) hs

/-- A stretch of characters of one line. -/
theorem good_chars {line text : List Byte} (h : newline ∉ text) (marks : List Mark) :
    Good o line (text.map .char ++ marks) ↔ FitsFrom o line text ∧ Good o (line ++ text) marks := by
  induction text generalizing line with
  | nil => simp [fitsFrom_nil]
  | cons c text ih =>
    obtain ⟨hc, htext⟩ := not_or.1 (mt List.mem_cons.2 h)
    rw [List.map_cons, List.cons_append, Good, if_neg (Ne.symm hc), ih htext, fitsFrom_cons, List.append_assoc,
      List.singleton_append, and_assoc]

/-- Behind the end of a line. -/
theorem Good.behind {before marks : List Mark} {line : List Byte} (h : Good o line (before ++ marks))
    (hline : before = [] → line = []) (hb : BeginsLine before) : Good o [] marks := by
  induction before generalizing line with
  | nil => rwa [hline rfl] at h
  | cons m before ih =>
    have hrest : before = [] → m.byte = newline := by
      rintro rfl
      rcases hb with hb | ⟨before', m', hb, hm⟩
      · cases hb
      · obtain rfl : m = m' := List.singleton_inj.1 (List.append_inj_right' (show [] ++ [m] = before' ++ [m'] from hb) rfl)
        exact hm
    have hb' : BeginsLine before := by
      rcases List.eq_nil_or_concat before with rfl | ⟨before', m', rfl⟩
      · exact .inl rfl
      · rcases hb with hb | ⟨before'', m'', hb, hm⟩
        · cases hb
        · rw [List.concat_eq_append, ← List.cons_append] at hb
          obtain rfl : m' = m'' := List.singleton_inj.1 (List.append_inj_right' hb rfl)
          exact .inr ⟨before', m', by simp, hm⟩
    cases m with
    | char c =>
      rw [List.cons_append, Good] at h
      split at h
      · exact ih h (fun _ => rfl) hb'
      · next hc => exact ih h.2 (fun hnil => absurd (hrest hnil) hc) hb'
    | fold => exact ih h.2 (fun _ => rfl) hb'

/-! ## The last blank -/

theorem lastBlank_some {lineOut : List Byte} {n i : ℕ} (h : lastBlank o lineOut n = some i) :
    (∃ b, lineOut[i]? = some b ∧ o.isblank b = true) ∧
      ∀ j b, i < j → j < n → lineOut[j]? = some b → o.isblank b = false := by
  induction n with
  | zero => cases h
  | succ n ih =>
    rw [lastBlank] at h
    split at h
    · next hb =>
      obtain rfl := Option.some.inj h
      exact ⟨by simpa [Option.any_eq_true] using hb, fun j b hij hj => absurd hj (by omega)⟩
    · next hb =>
      obtain ⟨hi, hrest⟩ := ih h
      refine ⟨hi, fun j b hij hj hjb => ?_⟩
      rcases Nat.lt_succ_iff_lt_or_eq.1 hj with hj | rfl
      · exact hrest j b hij hj hjb
      · simpa [hjb] using hb

theorem lastBlank_none {lineOut : List Byte} {n : ℕ} (h : lastBlank o lineOut n = none) :
    ∀ j b, j < n → lineOut[j]? = some b → o.isblank b = false := by
  induction n with
  | zero => exact fun j b hj => absurd hj (Nat.not_lt_zero j)
  | succ n ih =>
    rw [lastBlank] at h
    split at h
    · cases h
    · next hb =>
      intro j b hj hjb
      rcases Nat.lt_succ_iff_lt_or_eq.1 hj with hj | rfl
      · exact ih h j b hj hjb
      · simpa [hjb] using hb

/-! ## The line that is held -/

/-- A line that fits and is not yet ended. -/
structure Held (o : Options) (line : List Byte) : Prop where
  fits : Fits o line
  noNewline : newline ∉ line

theorem held_nil : Held o [] := ⟨fits_iff.2 (fitsFrom_nil []), List.not_mem_nil⟩

theorem held_singleton {c : Byte} (hc : c ≠ newline) : Held o [c] := by
  refine ⟨fun s d hs h => ?_, by simpa using hc.symm⟩
  exfalso
  have hlen := h.length_le
  have hpos := List.length_pos_iff.2 hs
  simp only [List.length_append, List.length_singleton] at hlen
  omega

/-- The column of a line that is held is small: nothing overflows. -/
theorem column_le {line : List Byte} (h : Held o line) : columnOf o line ≤ max o.width tabWidth := by
  rcases List.eq_nil_or_concat line with rfl | ⟨s, c, rfl⟩
  · exact Nat.zero_le _
  · rw [List.concat_eq_append]
    by_cases hs : s = []
    · subst hs
      have hfirst : adjustColumn o 0 c ≤ tabWidth := by
        unfold adjustColumn tabWidth
        split
        · split
          · simp
          split
          · simp
          split <;> simp
        · simp
      rw [columnOf_concat]
      exact Nat.le_trans hfirst (Nat.le_max_right _ _)
    · exact Nat.le_trans (h.fits s c hs (by simp)) (Nat.le_max_left _ _)

/-- A character that does not exceed the width joins the line. -/
theorem Held.concat {line : List Byte} (h : Held o line) {c : Byte} (hc : c ≠ newline)
    (hw : adjustColumn o (columnOf o line) c ≤ o.width) : Held o (line ++ [c]) := by
  refine ⟨fun s d hs hp => ?_, by simpa using ⟨h.noNewline, hc.symm⟩⟩
  rcases List.prefix_concat_iff.1 hp with heq | hp
  · rw [heq, columnOf_concat]
    exact hw
  · exact h.fits s d hs hp

theorem Held.take {line : List Byte} (h : Held o line) (n : ℕ) : Held o (line.take n) :=
  ⟨fun s c hs hp => h.fits s c hs (hp.trans (List.take_prefix n line)), fun hn => h.noNewline (List.mem_of_mem_take hn)⟩

/-- What is moved to the beginning of a line fits there. -/
theorem Held.drop {line : List Byte} (h : Held o line) (n : ℕ) : Held o (line.drop n) := by
  refine ⟨fun s c hs hp => ?_, fun hn => h.noNewline (List.mem_of_mem_drop hn)⟩
  have hp' : line.take n ++ s ++ [c] <+: line := by
    rw [List.append_assoc]
    simpa using (List.prefix_append_right_inj (line.take n)).2 hp
  refine Nat.le_trans (columnOf_append_le o (line.take n) (s ++ [c])) ?_
  rw [← List.append_assoc]
  exact h.fits _ c (by simp [hs]) hp'

/-- What stands in front of a newline that is put in, when the character `c` does not fit. -/
theorem good_break {line moved input : List Byte} {c : Byte} (hc : c ≠ newline) (h : Held o (line ++ moved))
    (hw : adjustColumn o (columnOf o (line ++ moved)) c > o.width)
    (hbreak : HasBreak o (line ++ moved) → (∃ b, line.getLast? = some b ∧ o.isblank b = true) ∧ ∀ b ∈ moved, o.isblank b = false)
    (hmoved : ¬HasBreak o (line ++ moved) → moved = []) {marks : List Mark} (hgood : Good o [] marks)
    (hread : marks.filterMap Mark.read = moved ++ c :: input) : Good o [] (line.map .char ++ .fold :: marks) := by
  have hline : Held o line := by simpa using h.take line.length
  have hnew : newline ∉ moved := fun hn => h.noNewline (List.mem_append_right _ hn)
  rw [good_chars hline.noNewline]
  refine ⟨fits_iff.1 hline.fits, ⟨moved, c, input, hread, hc, hnew, ?_, hbreak, hmoved⟩, hgood⟩
  rw [List.nil_append, columnOf_concat]
  exact hw

theorem read_chars (line : List Byte) (marks : List Mark) :
    (line.map Mark.char ++ marks).filterMap Mark.read = line ++ marks.filterMap Mark.read := by
  induction line with
  | nil => rfl
  | cons c line ih => simpa [Mark.read] using ih

/-- One turn: whatever is written for the line that it leaves is written well, and so is what the turn writes before. -/
theorem good_rescan {c : Byte} (hc : c ≠ newline) {input : List Byte}
    (hnext : ∀ line, Held o line → Good o [] (foldFrom o (columnOf o line) line input) ∧
      (foldFrom o (columnOf o line) line input).filterMap Mark.read = line ++ input) (line : List Byte) (h : Held o line) :
    ∀ r, r = rescan o (columnOf o line) line c → Good o [] (r.1 ++ foldFrom o r.2.1 r.2.2 input) ∧
      (r.1 ++ foldFrom o r.2.1 r.2.2 input).filterMap Mark.read = line ++ c :: input := by
  induction hn : line.length using Nat.strongRecOn generalizing line with
  | ind n ih =>
    rintro r rfl
    rw [rescan]
    split
    · next hw =>
      split
      · next i hi =>
        have hbreak : o.breakSpaces = true ∧ lastBlank o line line.length = some i := by
          split at hi
          · next hb => exact ⟨hb, hi⟩
          · cases hi
        obtain ⟨⟨b, hb, hblank⟩, hrest⟩ := lastBlank_some hbreak.2
        have hlt := lastBlank_lt o hbreak.2
        have hsplit : line.take (i + 1) ++ line.drop (i + 1) = line := List.take_append_drop _ _
        obtain ⟨hgood, hread⟩ := ih (line.drop (i + 1)).length (by simp; omega) _ (h.drop (i + 1)) rfl _ rfl
        have hlast : (line.take (i + 1)).getLast? = some b := by simp [List.getLast?_take, hb]
        have hmoved : ∀ x ∈ line.drop (i + 1), o.isblank x = false := by
          intro x hx
          obtain ⟨j, hj⟩ := List.getElem?_of_mem hx
          rw [List.getElem?_drop] at hj
          exact hrest _ x (by omega) (List.getElem?_eq_some_iff.1 hj).1 hj
        have hhas : HasBreak o line := ⟨hbreak.1, b, List.mem_of_getElem? hb, hblank⟩
        simp only [List.append_assoc, List.cons_append]
        refine ⟨good_break hc (by rwa [hsplit]) (by rwa [hsplit]) (fun _ => ⟨⟨b, hlast, hblank⟩, hmoved⟩)
          (fun hno => absurd (by rwa [hsplit]) hno) hgood hread, ?_⟩
        rw [read_chars, List.filterMap_cons_none rfl, hread, ← List.append_assoc, hsplit]
      · next hnone =>
        split
        · next hnil =>
          subst hnil
          exact hnext [c] (held_singleton hc)
        · next hne =>
          have hno : ¬HasBreak o line := by
            rintro ⟨hb, b, hmem, hblank⟩
            rw [if_pos hb] at hnone
            obtain ⟨j, hj⟩ := List.getElem?_of_mem hmem
            rw [lastBlank_none hnone j b (List.getElem?_eq_some_iff.1 hj).1 hj] at hblank
            cases hblank
          obtain ⟨hgood, hread⟩ := ih 0 (hn ▸ List.length_pos_iff.2 hne) [] held_nil rfl _ rfl
          simp only [List.append_assoc, List.cons_append]
          refine ⟨good_break hc (by rwa [List.append_nil]) (by rwa [List.append_nil])
            (fun hhas => absurd (by rwa [List.append_nil] at hhas) hno) (fun _ => rfl) hgood hread, ?_⟩
          rw [read_chars, List.filterMap_cons_none rfl]
          exact congrArg (line ++ ·) hread
    · next hw =>
      have hline := h.concat hc (by omega)
      obtain ⟨hgood, hread⟩ := hnext _ hline
      rw [columnOf_concat] at hgood hread
      exact ⟨hgood, by rw [List.nil_append, hread]; simp⟩

theorem good_foldFrom (input line : List Byte) (h : Held o line) :
    Good o [] (foldFrom o (columnOf o line) line input) ∧
      (foldFrom o (columnOf o line) line input).filterMap Mark.read = line ++ input := by
  induction input generalizing line with
  | nil =>
    have hgood : Good o [] (line.map .char ++ []) := (good_chars h.noNewline []).2 ⟨fits_iff.1 h.fits, trivial⟩
    have hread := read_chars line []
    rw [List.append_nil] at hgood hread
    exact ⟨hgood, hread⟩
  | cons c input ih =>
    rw [foldFrom]
    by_cases hc : c = newline
    · obtain ⟨hgood, hread⟩ := ih [] held_nil
      rw [if_pos hc]
      constructor
      · rw [List.map_append, List.append_assoc, good_chars h.noNewline]
        refine ⟨fits_iff.1 h.fits, ?_⟩
        rw [List.map_singleton, List.singleton_append, Good, if_pos hc]
        exact hgood
      · have hrest : (foldFrom o 0 [] input).filterMap Mark.read = input := hread
        rw [read_chars, hrest, List.append_assoc]
        rfl
    · rw [if_neg hc]
      exact good_rescan hc ih line h _ rfl

/-- The output without the newlines put in is the input; in every line, each character after the first fits; and wherever a
newline is put in, the next character of the input would exceed the width, and the line is broken behind its last blank if it
is to be broken at blanks and has one. -/
theorem foldFile_lines (o : Options) (input : List Byte) :
    (foldFile o input).filterMap Mark.read = input ∧
    (∀ before line after, foldFile o input = before ++ line.map .char ++ after → BeginsLine before → newline ∉ line →
      Fits o line) ∧
    ∀ before line after, foldFile o input = before ++ line.map .char ++ .fold :: after → BeginsLine before → newline ∉ line →
      FoldedAt o line (after.filterMap Mark.read) := by
  obtain ⟨hgood, hread⟩ := good_foldFrom (o := o) input [] held_nil
  refine ⟨hread, fun before line after heq hb hline => ?_, fun before line after heq hb hline => ?_⟩
  · have h : Good o [] (before ++ (line.map .char ++ after)) := by
      rw [← List.append_assoc, ← heq]
      exact hgood
    exact fits_iff.2 ((good_chars hline after).1 (h.behind (fun _ => rfl) hb)).1
  · have h : Good o [] (before ++ (line.map .char ++ .fold :: after)) := by
      rw [← List.append_assoc, ← heq]
      exact hgood
    exact ((good_chars hline _).1 (h.behind (fun _ => rfl) hb)).2.1

end

end CodingExercises.Coreutils.Fold
