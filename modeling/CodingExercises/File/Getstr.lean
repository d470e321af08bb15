import CodingExercises.File.IsTar
import CodingExercises.File.Pstring

/-!
# file: the strings of magic lines

`hextoint` and `getstr` of `apprentice.c`. A string is read back from every way of writing it (`getstr_written`), and whatever
the line is, nothing is stored outside of `m->value.s` and nothing read behind the zero of the line. But the pointer that is
returned is behind that zero where the string is all that is left of the line (`getstr_pointer_iff`).

What is left of a line is a list with the zero at its end. A read behind it and a store outside of the value are `none`. The
locale is `C`.
-/

namespace CodingExercises.File

open CodingExercises.File.IsTar (isspaceC)

/-- The character `\`. -/
def backslash : UInt8 := 92

/-- `isprint`. -/
def isprintC (c : UInt8) : Bool := 32 ≤ c ∧ c ≤ 126

/-- `hextoint`, with `none` for -1. -/
def hextoint (c : UInt8) : Option ℕ :=
  if 48 ≤ c ∧ c ≤ 57 then some (c.toNat - 48)
  else if 97 ≤ c ∧ c ≤ 102 then some (c.toNat + 10 - 97)
  else if 65 ≤ c ∧ c ≤ 70 then some (c.toNat + 10 - 65)
  else none

/-- `c >= '0' && c <= '7'`. -/
def isOctal (c : UInt8) : Bool := 48 ≤ c ∧ c ≤ 55

/-! ## Escapes -/

/-- `a`, `b`, `f`, `n`, `r`, `t` and `v`. -/
def letterEscapes : List (UInt8 × UInt8) := [(97, 7), (98, 8), (102, 12), (110, 10), (114, 13), (116, 9), (118, 11)]

/-- The relations, of which `!` is the last. -/
def relations : List UInt8 := [62, 60, 38, 94, 61, 33]

/-- Up to three octal digits, of which `c` is the first: the byte, and where the scan goes on. -/
def octalEscape (c : UInt8) (s : List UInt8) : Option (UInt8 × List UInt8) :=
  match s with
  | [] => none
  | c₂ :: s₂ =>
    if isOctal c₂ then
      match s₂ with
      | [] => none
      | c₃ :: s₃ =>
        if isOctal c₃ then some (UInt8.ofNat (((c.toNat - 48) * 8 + (c₂.toNat - 48)) * 8 + (c₃.toNat - 48)), s₃)
        else some (UInt8.ofNat ((c.toNat - 48) * 8 + (c₂.toNat - 48)), c₃ :: s₃)
    else some (UInt8.ofNat (c.toNat - 48), c₂ :: s₂)

/-- Up to two hexadecimal digits. -/
def hexEscape (s : List UInt8) : Option (UInt8 × List UInt8) :=
  match s with
  | [] => none
  | c₁ :: s₁ =>
    match hextoint c₁ with
    | none => some (120, c₁ :: s₁)
    | some d =>
      match s₁ with
      | [] => none
      | c₂ :: s₂ =>
        match hextoint c₂ with
        | none => some (UInt8.ofNat d, c₂ :: s₂)
        | some e => some (UInt8.ofNat (d * 16 + e), s₂)

/-- What follows a backslash. -/
def escape (c : UInt8) (s : List UInt8) : Option (UInt8 × List UInt8) :=
  if isOctal c then octalEscape c s
  else if c = 120 then hexEscape s
  else some ((letterEscapes.lookup c).getD c, s)

/-- What `file_magwarn` says. -/
inductive EscapeWarning
  | incompleteEscape
  | escapedTab
  | noNeedToEscape (c : UInt8)
  | unknownEscape (c : UInt8)
deriving DecidableEq

/-- The warning for an escape, and `warn` behind it. -/
def escapeWarning (type : FileType) (warn : Bool) (c : UInt8) : List EscapeWarning × Bool :=
  if !warn then ([], false)
  else if c = 9 then ([.escapedTab], false)
  else if isOctal c || c = 120 || (letterEscapes.lookup c).isSome || c = 32 || c ∈ relations || c = backslash then ([], true)
  else if isprintC c then
    -- `[]().*?^$|{}`.
    if type ≠ .regex || c ∉ ([91, 93, 40, 41, 46, 42, 63, 94, 36, 124, 123, 125] : List UInt8) then ([.noNeedToEscape c], true)
    else ([], true)
  else ([.unknownEscape c], true)

/-! ## `getstr` -/

/-- The variables of `getstr`, with what it has stored and said. -/
structure Scan where
  s : List UInt8
  p : ℕ
  value : List UInt8
  warn : Bool
  warnings : List EscapeWarning

/-- `*p++ = c`. -/
def Scan.store (st : Scan) (c : UInt8) : Option Scan :=
  if st.p < st.value.length then some { st with value := st.value.set st.p c, p := st.p + 1 } else none

/-- How the loop ends. -/
inductive Scanned
  | out (st : Scan)
  | tooLong (st : Scan)

/-- The loop of `getstr`; `fuel` bounds the number of its turns. -/
def getstrLoop (type : FileType) : ℕ → Scan → Option Scanned
  | 0, _ => none
  | fuel + 1, st =>
    match st.s with
    | [] => none
    | c :: s =>
      if c = 0 then some (.out { st with s })
      else if isspaceC c then some (.out { st with s })
      else if maxString - 1 ≤ st.p then some (.tooLong { st with s })
      else if c = backslash then
        match s with
        | [] => none
        | c :: s =>
          if c = 0 then
            some (.out { st with s, warnings := if st.warn then .incompleteEscape :: st.warnings else st.warnings })
          else do
            let r ← escape c s
            let w := escapeWarning type st.warn c
            let st ← { st with s := r.2, warn := w.2, warnings := w.1 ++ st.warnings }.store r.1
            getstrLoop type fuel st
      else do
        let st ← { st with s }.store c
        getstrLoop type fuel st

/-- What `getstr` returns, `none` for `NULL`, and what it leaves in the entry. -/
structure Got where
  ret : Option (List UInt8)
  value : List UInt8
  vallen : ℕ
  warnings : List EscapeWarning

/-- `getstr`. -/
def getstr (type : FileType) (strFlags : BitVec 32) (vallen : ℕ) (value : List UInt8) (s : List UInt8) (warn : Bool) :
    Option Got := do
  match ← getstrLoop type s.length ⟨s, 0, value, warn, []⟩ with
  | .tooLong st => return ⟨none, st.value, vallen, st.warnings⟩
  | .out st =>
    let ended ← st.store 0
    let vallen := st.p % 256
    if type = .pstring then
      let size ← pstringLengthSize strFlags
      return ⟨some st.s, ended.value, (vallen + size) % 256, st.warnings⟩
    else return ⟨some st.s, ended.value, vallen, st.warnings⟩

/-! ## Ways of writing a byte -/

/-- A byte and a way to write it: itself, three octal digits, two hexadecimal ones, its letter, or a backslash in front. -/
inductive Written : UInt8 → List UInt8 → Prop
  | itself {b : UInt8} (hzero : b ≠ 0) (hspace : isspaceC b = false) (hbackslash : b ≠ backslash) : Written b [b]
  | octal {b c₁ c₂ c₃ : UInt8} (h₁ : c₁.toNat = 48 + b.toNat / 64) (h₂ : c₂.toNat = 48 + b.toNat / 8 % 8)
      (h₃ : c₃.toNat = 48 + b.toNat % 8) : Written b [backslash, c₁, c₂, c₃]
  | hex {b c₁ c₂ : UInt8} (h₁ : hextoint c₁ = some (b.toNat / 16)) (h₂ : hextoint c₂ = some (b.toNat % 16)) :
      Written b [backslash, 120, c₁, c₂]
  | letter {b c : UInt8} (h : (c, b) ∈ letterEscapes) : Written b [backslash, c]
  | quoted {b : UInt8} (h : b ∈ relations ∨ b = 32 ∨ b = backslash) : Written b [backslash, b]

variable {type : FileType} {b c : UInt8} {s rest : List UInt8} {st : Scan} {n fuel : ℕ}

theorem isOctal_iff : isOctal c = true ↔ 48 ≤ c.toNat ∧ c.toNat ≤ 55 := by
  rw [isOctal, decide_eq_true_eq, UInt8.le_iff_toNat_le, UInt8.le_iff_toNat_le]
  rfl

theorem octalEscape_written {c₁ c₂ c₃ : UInt8} (h₁ : c₁.toNat = 48 + b.toNat / 64) (h₂ : c₂.toNat = 48 + b.toNat / 8 % 8)
    (h₃ : c₃.toNat = 48 + b.toNat % 8) : escape c₁ (c₂ :: c₃ :: rest) = some (b, rest) := by
  have hlt := b.toNat_lt
  have hfirst : isOctal c₁ = true := isOctal_iff.mpr (by omega)
  have hsecond : isOctal c₂ = true := isOctal_iff.mpr (by omega)
  have hthird : isOctal c₃ = true := isOctal_iff.mpr (by omega)
  have hvalue : ((c₁.toNat - 48) * 8 + (c₂.toNat - 48)) * 8 + (c₃.toNat - 48) = b.toNat := by omega
  simp only [escape, octalEscape, hfirst, hsecond, hthird, if_true, hvalue, UInt8.ofNat_toNat]

theorem hexEscape_written {c₁ c₂ : UInt8} (h₁ : hextoint c₁ = some (b.toNat / 16)) (h₂ : hextoint c₂ = some (b.toNat % 16)) :
    escape 120 (c₁ :: c₂ :: rest) = some (b, rest) := by
  have hno : isOctal 120 = false := by decide
  have hvalue : b.toNat / 16 * 16 + b.toNat % 16 = b.toNat := by omega
  simp only [escape, hexEscape, hno, Bool.false_eq_true, if_false, if_true, h₁, h₂, hvalue, UInt8.ofNat_toNat]

theorem escape_letter (h : (c, b) ∈ letterEscapes) : escape c rest = some (b, rest) := by
  simp only [letterEscapes, List.mem_cons, Prod.mk.injEq, List.not_mem_nil, or_false] at h
  obtain ⟨rfl, rfl⟩ | ⟨rfl, rfl⟩ | ⟨rfl, rfl⟩ | ⟨rfl, rfl⟩ | ⟨rfl, rfl⟩ | ⟨rfl, rfl⟩ | ⟨rfl, rfl⟩ := h <;> rfl

theorem escape_quoted (h : b ∈ relations ∨ b = 32 ∨ b = backslash) : escape b rest = some (b, rest) := by
  simp only [relations, List.mem_cons, List.not_mem_nil, or_false, backslash] at h
  obtain (rfl | rfl | rfl | rfl | rfl | rfl) | rfl | rfl := h <;> rfl

/-! ## Reading a string back -/

/-- A turn of the loop at a byte that is written in some way: it is stored, and the scan goes on behind it. -/
theorem getstrLoop_written {t : List UInt8} (type : FileType) (fuel : ℕ) (hw : Written b t) (hs : st.s = t ++ rest)
    (hp : st.p < maxString - 1) (hlen : st.value.length = maxString) : ∃ warn warnings,
      getstrLoop type (fuel + 1) st = getstrLoop type fuel ⟨rest, st.p + 1, st.value.set st.p b, warn, warnings⟩ := by
  have hroom : st.p < st.value.length := by omega
  have hshort : ¬ maxString - 1 ≤ st.p := by omega
  have hspace : isspaceC backslash = false := by decide
  -- Behind a backslash the escape says what is stored.
  have hescape {c : UInt8} {s : List UInt8} (hc : c ≠ 0) (hcs : st.s = backslash :: c :: s) (he : escape c s = some (b, rest)) :
      getstrLoop type (fuel + 1) st = getstrLoop type fuel ⟨rest, st.p + 1, st.value.set st.p b,
        (escapeWarning type st.warn c).2, (escapeWarning type st.warn c).1 ++ st.warnings⟩ := by
    have hzero : backslash ≠ 0 := by decide
    simp only [getstrLoop, hcs, if_neg hzero, hspace, Bool.false_eq_true, if_false, if_neg hshort, if_true, if_neg hc, he,
      Option.bind_eq_bind, Option.bind_some, Scan.store, if_pos hroom]
  cases hw with
  | itself hzero hno hbackslash =>
    refine ⟨st.warn, st.warnings, ?_⟩
    have hcs : st.s = b :: rest := hs
    simp only [getstrLoop, hcs, if_neg hzero, hno, Bool.false_eq_true, if_false, if_neg hshort, if_neg hbackslash,
      Option.bind_eq_bind, Option.bind_some, Scan.store, if_pos hroom]
  | octal h₁ h₂ h₃ =>
    refine ⟨_, _, hescape ?_ hs (octalEscape_written h₁ h₂ h₃)⟩
    rintro rfl
    simp at h₁
    omega
  | hex h₁ h₂ => exact ⟨_, _, hescape (by decide) hs (hexEscape_written h₁ h₂)⟩
  | letter h =>
    refine ⟨_, _, hescape ?_ hs (escape_letter h)⟩
    rintro rfl
    revert h
    simp [letterEscapes]
  | quoted h =>
    refine ⟨_, _, hescape ?_ hs (escape_quoted h)⟩
    rintro rfl
    revert h
    decide

/-- A string that is written in some way is stored, up to white space or the end of the line. -/
theorem getstrLoop_string {bs : List UInt8} {units : List (List UInt8)} (type : FileType) (st : Scan)
    (hwritten : List.Forall₂ Written bs units) (hend : c = 0 ∨ isspaceC c = true)
    (hs : st.s = units.flatten ++ c :: rest) (hp : st.p + bs.length ≤ maxString - 1) (hlen : st.value.length = maxString)
    (hfuel : bs.length < fuel) : ∃ warn warnings, getstrLoop type fuel st =
      some (.out ⟨rest, st.p + bs.length, st.value.take st.p ++ bs ++ st.value.drop (st.p + bs.length), warn, warnings⟩) := by
  obtain ⟨fuel, rfl⟩ : ∃ k, fuel = k + 1 := ⟨fuel - 1, by omega⟩
  induction hwritten generalizing st fuel with
  | nil =>
    refine ⟨st.warn, st.warnings, ?_⟩
    have hcs : st.s = c :: rest := hs
    have hvalue : st.value.take st.p ++ st.value.drop st.p = st.value := List.take_append_drop _ _
    by_cases hzero : c = 0
    · simp only [getstrLoop, hcs, if_pos hzero, List.append_nil, List.length_nil, Nat.add_zero, hvalue]
    · have hspace := hend.resolve_left hzero
      simp only [getstrLoop, hcs, if_neg hzero, hspace, if_true, List.append_nil, List.length_nil, Nat.add_zero, hvalue]
  | @cons b t bs units hb _ ih =>
    rw [List.length_cons] at hp hfuel
    obtain ⟨fuel, rfl⟩ : ∃ k, fuel = k + 1 := ⟨fuel - 1, by omega⟩
    have hcs : st.s = t ++ (units.flatten ++ c :: rest) := by rw [hs, List.flatten_cons, List.append_assoc]
    obtain ⟨warn, warnings, hturn⟩ := getstrLoop_written type (fuel + 1) hb hcs (by omega) hlen
    rw [hturn]
    obtain ⟨warn, warnings, hrest⟩ := ih ⟨_, st.p + 1, st.value.set st.p b, warn, warnings⟩ rfl
      (by dsimp only; omega) (by rw [List.length_set, hlen]) fuel (by omega)
    refine ⟨warn, warnings, ?_⟩
    rw [hrest, set_take_succ (by omega), List.drop_set_of_lt (by dsimp only; omega)]
    simp [Nat.add_assoc, Nat.add_comm 1]

/-! ## Any line -/

/-- What is left of a line: its characters, with the zero behind them. -/
def OfLine (s : List UInt8) : Prop := ∃ l, 0 ∉ l ∧ s = l ++ [0]

theorem OfLine.ne_nil (h : OfLine s) : s ≠ [] := by
  obtain ⟨l, -, rfl⟩ := h
  exact List.append_ne_nil_of_right_ne_nil _ (List.cons_ne_nil 0 [])

theorem OfLine.tail (h : OfLine (c :: s)) (hc : c ≠ 0) : OfLine s := by
  obtain ⟨l, hl, heq⟩ := h
  cases l with
  | nil =>
    cases heq
    exact absurd rfl hc
  | cons x l =>
    cases heq
    exact ⟨l, fun hmem => hl (List.mem_cons_of_mem _ hmem), rfl⟩

theorem OfLine.tail_eq (h : OfLine (0 :: s)) : s = [] := by
  obtain ⟨l, hl, heq⟩ := h
  cases l with
  | nil =>
    cases heq
    rfl
  | cons x l =>
    cases heq
    exact absurd List.mem_cons_self hl

/-- Digits are no zeros. -/
theorem ne_zero_of_isOctal (h : isOctal c = true) : c ≠ 0 := by
  rintro rfl
  exact absurd h (by decide)

theorem ne_zero_of_hextoint {d : ℕ} (h : hextoint c = some d) : c ≠ 0 := by
  rintro rfl
  have hnone : hextoint 0 = none := by decide
  rw [hnone] at h
  cases h

theorem OfLine.octalEscape (h : OfLine s) (c : UInt8) : ∃ b s', File.octalEscape c s = some (b, s') ∧ OfLine s' ∧ s' <:+ s := by
  match s, h with
  | [], h => exact absurd rfl h.ne_nil
  | [c₂], h =>
    have hno : ¬ isOctal c₂ = true := fun hoctal => (h.tail (ne_zero_of_isOctal hoctal)).ne_nil rfl
    exact ⟨_, [c₂], by rw [File.octalEscape, if_neg hno], h, List.suffix_refl _⟩
  | c₂ :: c₃ :: s, h =>
    by_cases hsecond : isOctal c₂ = true
    · have htail := h.tail (ne_zero_of_isOctal hsecond)
      by_cases hthird : isOctal c₃ = true
      · refine ⟨_, s, by simp only [File.octalEscape, hsecond, hthird, if_true]; rfl, htail.tail (ne_zero_of_isOctal hthird), ?_⟩
        exact (List.suffix_cons c₃ s).trans (List.suffix_cons c₂ _)
      · exact ⟨_, c₃ :: s, by simp only [File.octalEscape, hsecond, if_true, if_neg hthird]; rfl, htail, List.suffix_cons c₂ _⟩
    · exact ⟨_, c₂ :: c₃ :: s, by simp only [File.octalEscape, if_neg hsecond]; rfl, h, List.suffix_refl _⟩

theorem OfLine.hexEscape (h : OfLine s) : ∃ b s', File.hexEscape s = some (b, s') ∧ OfLine s' ∧ s' <:+ s := by
  obtain _ | ⟨c₁, s⟩ := s
  · exact absurd rfl h.ne_nil
  cases hfirst : hextoint c₁ with
  | none => exact ⟨_, c₁ :: s, by simp only [File.hexEscape, hfirst]; rfl, h, List.suffix_refl _⟩
  | some d =>
    have htail := h.tail (ne_zero_of_hextoint hfirst)
    obtain _ | ⟨c₂, s⟩ := s
    · exact absurd rfl htail.ne_nil
    cases hsecond : hextoint c₂ with
    | none => exact ⟨_, c₂ :: s, by simp only [File.hexEscape, hfirst, hsecond]; rfl, htail, List.suffix_cons c₁ _⟩
    | some e =>
      refine ⟨_, s, by simp only [File.hexEscape, hfirst, hsecond]; rfl, htail.tail (ne_zero_of_hextoint hsecond), ?_⟩
      exact (List.suffix_cons c₂ s).trans (List.suffix_cons c₁ _)

/-- An escape does not read behind the zero of the line. -/
theorem OfLine.escape (h : OfLine s) (c : UInt8) : ∃ b s', File.escape c s = some (b, s') ∧ OfLine s' ∧ s' <:+ s := by
  unfold File.escape
  split
  case isTrue => exact h.octalEscape c
  case isFalse =>
    split
    case isTrue => exact h.hexEscape
    case isFalse => exact ⟨_, s, rfl, h, List.suffix_refl s⟩

/-- The string goes to the end of the line: up to its zero or a last backslash there are no more than so many characters and
escapes, and no white space among them. -/
inductive EndsLine : ℕ → List UInt8 → Prop
  | zero {n : ℕ} : EndsLine n [0]
  | backslash {n : ℕ} : EndsLine (n + 1) [backslash, 0]
  | char {n : ℕ} {c : UInt8} {s : List UInt8} (hzero : c ≠ 0) (hspace : isspaceC c = false) (hbackslash : c ≠ File.backslash)
      (h : EndsLine n s) : EndsLine (n + 1) (c :: s)
  | escape {n : ℕ} {c b : UInt8} {s s' : List UInt8} (hzero : c ≠ 0) (hescape : File.escape c s = some (b, s'))
      (h : EndsLine n s') : EndsLine (n + 1) (File.backslash :: c :: s)

/-- The pointer is `NULL`, or one that is not behind the zero of the line. -/
def Scanned.InLine : Scanned → Prop
  | .out st => st.s ≠ []
  | .tooLong _ => True

/-- What holds of the state at the end. -/
def Scanned.Sound (s : List UInt8) : Scanned → Prop
  | .out st => st.s <:+ s ∧ st.p < maxString ∧ st.value.length = maxString
  | .tooLong st => st.value.length = maxString

theorem not_endsLine_space (hzero : c ≠ 0) (hspace : isspaceC c = true) : ¬ EndsLine n (c :: s) := by
  have hback : isspaceC backslash = false := by decide
  intro h
  cases h with
  | zero => exact hzero rfl
  | backslash => exact absurd hspace (by rw [hback]; exact Bool.false_ne_true)
  | char _ hno => exact absurd hspace (by rw [hno]; exact Bool.false_ne_true)
  | escape => exact absurd hspace (by rw [hback]; exact Bool.false_ne_true)

theorem endsLine_char (hzero : c ≠ 0) (hspace : isspaceC c = false) (hback : c ≠ backslash) :
    EndsLine (n + 1) (c :: s) ↔ EndsLine n s := by
  constructor
  · intro h
    cases h with
    | zero => exact absurd rfl hzero
    | backslash => exact absurd rfl hback
    | char _ _ _ h => exact h
    | escape => exact absurd rfl hback
  · exact .char hzero hspace hback

theorem endsLine_escape {s' : List UInt8} (hzero : c ≠ 0) (hescape : escape c s = some (b, s')) :
    EndsLine (n + 1) (backslash :: c :: s) ↔ EndsLine n s' := by
  constructor
  · intro h
    cases h with
    | backslash => exact absurd rfl hzero
    | char _ _ hback => exact absurd rfl hback
    | escape _ hother h =>
      rw [hescape] at hother
      cases hother
      exact h
  · exact .escape hzero hescape

theorem Scanned.Sound.of_suffix {r : Scanned} {s' : List UInt8} (h : r.Sound s') (hs : s' <:+ s) : r.Sound s := by
  cases r with
  | out st => exact ⟨h.1.trans hs, h.2⟩
  | tooLong st => exact h

/-- The loop ends without a fault on every line, and at a pointer behind its zero just if the string goes to its end. -/
theorem getstrLoop_line (type : FileType) (st : Scan) (hs : OfLine st.s) (hp : st.p ≤ maxString - 1)
    (hlen : st.value.length = maxString) (hfuel : st.s.length ≤ fuel) : ∃ r, getstrLoop type fuel st = some r ∧ r.Sound st.s ∧
      (r.InLine ↔ ¬ EndsLine (maxString - 1 - st.p) st.s) := by
  have hmax : maxString = 64 := rfl
  induction fuel generalizing st with
  | zero => exact absurd (List.length_eq_zero_iff.mp (Nat.le_zero.mp hfuel)) hs.ne_nil
  | succ fuel ih =>
    obtain ⟨s, p, value, warn, warnings⟩ := st
    dsimp only at hs hp hlen hfuel ⊢
    cases s with
    | nil => exact absurd rfl hs.ne_nil
    | cons c s =>
      rw [List.length_cons] at hfuel
      by_cases hzero : c = 0
      · subst hzero
        obtain rfl := hs.tail_eq
        refine ⟨.out ⟨[], p, value, warn, warnings⟩, rfl, ⟨List.nil_suffix, by dsimp only; omega, hlen⟩, ?_⟩
        exact iff_of_false (fun h => h rfl) (fun h => h .zero)
      by_cases hspace : isspaceC c = true
      · refine ⟨.out ⟨s, p, value, warn, warnings⟩, by simp only [getstrLoop, if_neg hzero, if_pos hspace],
          ⟨List.suffix_cons c s, by dsimp only; omega, hlen⟩, ?_⟩
        exact iff_of_true (hs.tail hzero).ne_nil (not_endsLine_space hzero hspace)
      have hno : isspaceC c = false := Bool.eq_false_iff.mpr hspace
      by_cases hfull : maxString - 1 ≤ p
      · refine ⟨.tooLong ⟨s, p, value, warn, warnings⟩, by simp only [getstrLoop, if_neg hzero, if_neg hspace, if_pos hfull],
          hlen, ?_⟩
        have hnone : maxString - 1 - p = 0 := by omega
        refine iff_of_true trivial ?_
        rw [hnone]
        intro h
        cases h
        exact hzero rfl
      have hroom : p < value.length := by omega
      obtain ⟨k, hk⟩ : ∃ k, maxString - 1 - p = k + 1 := ⟨maxString - 1 - p - 1, by omega⟩
      have hnext : maxString - 1 - (p + 1) = k := by omega
      by_cases hback : c = backslash
      · subst hback
        cases s with
        | nil => exact absurd rfl (hs.tail hzero).ne_nil
        | cons c s =>
          have htail := hs.tail hzero
          by_cases hend : c = 0
          · subst hend
            obtain rfl := htail.tail_eq
            refine ⟨.out ⟨[], p, value, warn, if warn then .incompleteEscape :: warnings else warnings⟩, ?_,
              ⟨List.nil_suffix, by dsimp only; omega, hlen⟩, ?_⟩
            · simp only [getstrLoop, if_neg hzero, if_neg hspace, if_neg hfull, if_true]
            · refine iff_of_false (fun h => h rfl) (fun h => h ?_)
              rw [hk]
              exact .backslash
          · obtain ⟨b, s', hescape, hline, hsuffix⟩ := (htail.tail hend).escape c
            have hshort : s'.length ≤ s.length := hsuffix.length_le
            rw [List.length_cons] at hfuel
            obtain ⟨r, hr, hsound, hin⟩ := ih ⟨s', p + 1, value.set p b, (escapeWarning type warn c).2,
              (escapeWarning type warn c).1 ++ warnings⟩ hline (by dsimp only; omega) (by rw [List.length_set, hlen])
              (by dsimp only; omega)
            refine ⟨r, ?_, hsound.of_suffix ?_, ?_⟩
            · simp only [getstrLoop, if_neg hzero, if_neg hspace, if_neg hfull, if_true, if_neg hend, hescape,
                Option.bind_eq_bind, Option.bind_some, Scan.store, if_pos hroom, hr]
            · exact (hsuffix.trans (List.suffix_cons c s)).trans (List.suffix_cons _ _)
            · rw [hin, hk, endsLine_escape hend hescape, hnext]
      · obtain ⟨r, hr, hsound, hin⟩ := ih ⟨s, p + 1, value.set p c, warn, warnings⟩ (hs.tail hzero)
          (by dsimp only; omega) (by rw [List.length_set, hlen]) (by dsimp only; omega)
        refine ⟨r, ?_, hsound.of_suffix (List.suffix_cons c s), ?_⟩
        · simp only [getstrLoop, if_neg hzero, if_neg hspace, if_neg hfull, if_neg hback, Option.bind_eq_bind, Option.bind_some,
            Scan.store, if_pos hroom, hr]
        · rw [hin, hk, endsLine_char hzero hno hback, hnext]

/-! ## The value of an entry -/

/-- What is added to the length for `FILE_PSTRING`. -/
def prefixSize (type : FileType) (strFlags : BitVec 32) : ℕ := if type = .pstring then (pstringLengthSize strFlags).getD 0 else 0

/-- What `getstr` leaves at the end of the loop. -/
def Got.Of (got : Got) (type : FileType) (strFlags : BitVec 32) : Scanned → Prop
  | .out st => got.ret = some st.s ∧ got.value = st.value.set st.p 0 ∧ got.vallen = st.p + prefixSize type strFlags
  | .tooLong st => got.ret = none ∧ got.value = st.value

theorem getstr_eq {strFlags : BitVec 32} {value : List UInt8} {warn : Bool} {r : Scanned} (vallen : ℕ)
    (hformat : type = .pstring → (lengthFormat strFlags).isSome) (hloop : getstrLoop type s.length ⟨s, 0, value, warn, []⟩ = some r)
    (hsound : r.Sound s) : ∃ got, getstr type strFlags vallen value s warn = some got ∧ got.Of type strFlags r := by
  have hmax : maxString = 64 := rfl
  rw [getstr, hloop]
  cases r with
  | tooLong st => exact ⟨⟨none, st.value, vallen, st.warnings⟩, rfl, rfl, rfl⟩
  | out st =>
    obtain ⟨-, hp, hlen⟩ := hsound
    have hlow : st.p % 256 = st.p := Nat.mod_eq_of_lt (by omega)
    simp only [Option.bind_eq_bind, Option.bind_some, Scan.store, if_pos (hlen ▸ hp : st.p < st.value.length), hlow]
    by_cases htype : type = .pstring
    · obtain ⟨f, hf⟩ := Option.isSome_iff_exists.mp (hformat htype)
      have hsize : f.size ≤ 4 := by cases f <;> decide
      have hsum : (st.p + f.size) % 256 = st.p + f.size := Nat.mod_eq_of_lt (by omega)
      refine ⟨⟨some st.s, st.value.set st.p 0, st.p + f.size, st.warnings⟩, ?_, rfl, rfl, ?_⟩
      · simp only [if_pos htype, pstringLengthSize, hf, Option.map_some, Option.bind_some, hsum]
        rfl
      · simp only [prefixSize, if_pos htype, pstringLengthSize, hf, Option.map_some, Option.getD_some]
    · refine ⟨⟨some st.s, st.value.set st.p 0, st.p, st.warnings⟩, ?_, rfl, rfl, ?_⟩
      · rw [if_neg htype]
        rfl
      · rw [prefixSize, if_neg htype, Nat.add_zero]

theorem Written.length_pos {t : List UInt8} (h : Written b t) : 0 < t.length := by
  cases h <;> exact Nat.succ_pos _

theorem length_le_flatten {bs : List UInt8} {units : List (List UInt8)} (h : List.Forall₂ Written bs units) :
    bs.length ≤ units.flatten.length := by
  induction h with
  | nil => exact Nat.le_refl 0
  | cons hb _ ih =>
    have := hb.length_pos
    rw [List.flatten_cons, List.length_append, List.length_cons]
    omega

/-- A string of at most 63 bytes is read back, with its length, whichever way its bytes are written. -/
theorem getstr_written {strFlags : BitVec 32} {vallen : ℕ} {value : List UInt8} {warn : Bool} {bs : List UInt8}
    {units : List (List UInt8)} (hformat : type = .pstring → (lengthFormat strFlags).isSome) (hvalue : value.length = maxString)
    (hwritten : List.Forall₂ Written bs units) (hlen : bs.length ≤ maxString - 1) (hend : c = 0 ∨ isspaceC c = true) :
    ∃ got, getstr type strFlags vallen value (units.flatten ++ c :: rest) warn = some got ∧ got.ret = some rest ∧
      got.value = bs ++ 0 :: value.drop (bs.length + 1) ∧ got.vallen = bs.length + prefixSize type strFlags := by
  have hmax : maxString = 64 := rfl
  have hfuel : bs.length < (units.flatten ++ c :: rest).length := by
    have := length_le_flatten hwritten
    rw [List.length_append, List.length_cons]
    omega
  obtain ⟨warn', warnings, hloop⟩ := getstrLoop_string type
    ⟨units.flatten ++ c :: rest, 0, value, warn, []⟩ hwritten hend rfl (by dsimp only; omega) hvalue hfuel
  simp only [Nat.zero_add, List.take_zero, List.nil_append] at hloop
  have hstored : (bs ++ value.drop bs.length).length = maxString := by
    rw [List.length_append, List.length_drop]
    omega
  obtain ⟨got, hgot, hret, hset, hvallen⟩ := getstr_eq vallen hformat hloop
    ⟨⟨units.flatten ++ [c], by simp⟩, by dsimp only; omega, hstored⟩
  refine ⟨got, hgot, hret, ?_, hvallen⟩
  rw [hset, List.set_append_right _ _ (Nat.le_refl _), Nat.sub_self, List.drop_eq_getElem_cons (by omega), List.set_cons_zero]

/-- On every line `getstr` stores within the value and reads up to the zero; and the pointer that it returns is not behind that
zero just if the string does not go to the end of the line. -/
theorem getstr_line {strFlags : BitVec 32} {value : List UInt8} (vallen : ℕ) (warn : Bool)
    (hformat : type = .pstring → (lengthFormat strFlags).isSome) (hvalue : value.length = maxString) (hs : OfLine s) :
    ∃ got, getstr type strFlags vallen value s warn = some got ∧ got.value.length = maxString ∧
      (∀ rest, got.ret = some rest → rest <:+ s) ∧
      ((∀ rest, got.ret = some rest → rest ≠ []) ↔ ¬ EndsLine (maxString - 1) s) := by
  obtain ⟨r, hloop, hsound, hin⟩ := getstrLoop_line type ⟨s, 0, value, warn, []⟩ hs (Nat.zero_le _) hvalue
    (Nat.le_refl _)
  obtain ⟨got, hgot, hwhat⟩ := getstr_eq vallen hformat hloop hsound
  refine ⟨got, hgot, ?_⟩
  dsimp only at hin
  rw [Nat.sub_zero] at hin
  rw [← hin]
  cases r with
  | out st =>
    obtain ⟨hret, hset, -⟩ := hwhat
    rw [hset, hret, List.length_set]
    exact ⟨hsound.2.2, fun rest h => by cases h; exact hsound.1, fun h => h st.s rfl, fun h rest hrest => by cases hrest; exact h⟩
  | tooLong st =>
    obtain ⟨hret, hset⟩ := hwhat
    rw [hset, hret]
    exact ⟨hsound, fun rest h => (nomatch h), iff_of_true (fun rest h => (nomatch h)) trivial⟩

/-- What is asked of `getstr` on a line: it has no fault, and returns `NULL` or a pointer into the line, with its zero. -/
def SafeOn (type : FileType) (strFlags : BitVec 32) (vallen : ℕ) (value : List UInt8) (warn : Bool) (line : List UInt8) : Prop :=
  ∃ got, getstr type strFlags vallen value (line ++ [0]) warn = some got ∧ got.value.length = maxString ∧
    ∀ rest, got.ret = some rest → rest ≠ [] ∧ rest <:+ line ++ [0]

/-- Strings are read back from every way of writing them; a line is read safely just if the string does not go to its end. -/
theorem getstr_pointer_iff (type : FileType) (strFlags : BitVec 32) (vallen : ℕ) (value : List UInt8) (warn : Bool)
    (hformat : type = .pstring → (lengthFormat strFlags).isSome) (hvalue : value.length = maxString) :
    (∀ (bs : List UInt8) (units : List (List UInt8)) (c : UInt8) (rest : List UInt8), List.Forall₂ Written bs units →
      bs.length ≤ maxString - 1 → c = 0 ∨ isspaceC c = true →
      ∃ got, getstr type strFlags vallen value (units.flatten ++ c :: rest) warn = some got ∧ got.ret = some rest ∧
        got.value = bs ++ 0 :: value.drop (bs.length + 1) ∧ got.vallen = bs.length + prefixSize type strFlags) ∧
    ∀ line : List UInt8, 0 ∉ line →
      (SafeOn type strFlags vallen value warn line ↔ ¬ EndsLine (maxString - 1) (line ++ [0])) := by
  constructor
  · intro bs units c rest hwritten hlen hend
    exact getstr_written hformat hvalue hwritten hlen hend
  · intro line hline
    obtain ⟨got, hgot, hlen, hsuffix, hin⟩ := getstr_line vallen warn hformat hvalue ⟨line, hline, rfl⟩
    rw [← hin]
    constructor
    · rintro ⟨other, hother, -, hrest⟩ rest hret
      rw [hgot] at hother
      cases hother
      exact (hrest rest hret).1
    · intro hne
      exact ⟨got, hgot, hlen, fun rest hret => ⟨hne rest hret, hsuffix rest hret⟩⟩

/-- A string with a description behind it. -/
theorem safeOn_described : SafeOn .string 0 0 (List.replicate maxString 0) false [97, 32, 98] := by
  refine ((getstr_pointer_iff .string 0 0 (List.replicate maxString 0) false (fun h => (nomatch h)) rfl).2 [97, 32, 98]
    (by decide)).mpr fun h => ?_
  cases h with
  | char _ _ _ h => exact not_endsLine_space (by decide) (by decide) h

/-- A string at the end of its line. -/
theorem not_safeOn_last : ¬ ∀ line : List UInt8, 0 ∉ line → SafeOn .string 0 0 (List.replicate maxString 0) false line := by
  intro h
  obtain ⟨got, hgot, -, hrest⟩ := h [97] (by decide)
  have hret : (getstr .string 0 0 (List.replicate maxString 0) ([97] ++ [0]) false).bind Got.ret = some [] := by decide
  rw [hgot, Option.bind_some] at hret
  exact (hrest [] hret).1 rfl

end CodingExercises.File
