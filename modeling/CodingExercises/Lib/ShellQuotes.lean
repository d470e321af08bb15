import CodingExercises.Lib.Words

/-!
# Quoting in the shell

The POSIX rules of quoting for apostrophes and backslashes: `lex` reads a text into characters, each with whether it is
quoted, and `commands` are the words of each command. Any other character that the shell would interpret is refused where
it stands outside quotes.

Text in which every apostrophe closes the quotes, escapes an apostrophe and opens them again (`Enclosed`) stays quoted from
its first byte to its last (`Enclosed.lex`).
-/

namespace CodingExercises.Lib

/-- What the shell reads: a character of a word, an opening quote, a blank between words or the end of a command. -/
inductive Token
  | char (c : UInt8) (quoted : Bool)
  | quote
  | blank
  | stop
deriving DecidableEq

inductive Mode
  | plain
  | quoted
  | escaped

def quoteChar : UInt8 := 39

def escapeChar : UInt8 := 92

/-- The characters other than apostrophes and backslashes that have to be quoted, or that expand:
``$ ` " | & < > ( ) # * ? [ ~``. -/
def specials : List UInt8 := [36, 96, 34, 124, 38, 60, 62, 40, 41, 35, 42, 63, 91, 126]

/-- The tokens of a text. -/
def lex : Mode → List UInt8 → Option (List Token)
  | .plain, [] => some []
  | .quoted, [] => none
  | .escaped, [] => none
  | .plain, c :: s =>
    if c = quoteChar then (lex .quoted s).map (.quote :: ·)
    else if c = escapeChar then lex .escaped s
    else if c = 32 ∨ c = 9 then (lex .plain s).map (.blank :: ·)
    else if c = 59 ∨ c = 10 then (lex .plain s).map (.stop :: ·)
    else if c ∈ specials then none
    else (lex .plain s).map (.char c false :: ·)
  | .quoted, c :: s => if c = quoteChar then lex .plain s else (lex .quoted s).map (.char c true :: ·)
  | .escaped, c :: s => if c = 10 then lex .plain s else (lex .plain s).map (.char c true :: ·)

def Token.char? : Token → Option (UInt8 × Bool)
  | .char c quoted => some (c, quoted)
  | _ => none

/-- The commands of a text: their words, as characters with whether they are quoted. -/
def commands (s : List UInt8) : Option (List (List (List (UInt8 × Bool)))) :=
  (lex .plain s).map fun toks =>
    (words (· = .stop) toks).map fun cmd => (words (· = .blank) cmd).map (·.filterMap Token.char?)

/-- Characters outside quotes. -/
def unquoted (s : List UInt8) : List (UInt8 × Bool) := s.map (·, false)

/-- Characters inside quotes. -/
def quoted (s : List UInt8) : List (UInt8 × Bool) := s.map (·, true)

/-! ## Text outside quotes -/

/-- A character that stands for itself outside quotes. -/
def Ordinary (c : UInt8) : Prop :=
  c ≠ quoteChar ∧ c ≠ escapeChar ∧ ¬(c = 32 ∨ c = 9) ∧ ¬(c = 59 ∨ c = 10) ∧ c ∉ specials

instance : DecidablePred Ordinary := fun _ => inferInstanceAs (Decidable (_ ∧ _))

theorem lex_plain {s : List UInt8} (hs : ∀ c ∈ s, Ordinary c) (t : List UInt8) :
    lex .plain (s ++ t) = (lex .plain t).map (s.map (.char · false) ++ ·) := by
  induction s with
  | nil => simp
  | cons c s ih =>
    obtain ⟨hquote, hescape, hblank, hstop, hspecial⟩ := hs c List.mem_cons_self
    rw [List.cons_append, lex, if_neg hquote, if_neg hescape, if_neg hblank, if_neg hstop, if_neg hspecial,
      ih fun c hc => hs c (List.mem_cons_of_mem _ hc), Option.map_map]
    rfl

/-! ## Text inside apostrophes -/

/-- The text stands inside apostrophes, and every apostrophe of it closes them, is escaped and opens them again. -/
inductive Enclosed : List UInt8 → Prop
  | nil : Enclosed []
  | char {c s} : c ≠ quoteChar → Enclosed s → Enclosed (c :: s)
  | quote {s} : Enclosed s → Enclosed (quoteChar :: escapeChar :: quoteChar :: quoteChar :: s)

/-- The text with each quote sequence read as one apostrophe. -/
def readQuotes : List UInt8 → List UInt8
  | 39 :: 92 :: 39 :: 39 :: s => quoteChar :: readQuotes s
  | c :: s => c :: readQuotes s
  | [] => []

theorem Enclosed.append {s t : List UInt8} (hs : Enclosed s) (ht : Enclosed t) : Enclosed (s ++ t) := by
  induction hs with
  | nil => exact ht
  | char hc _ ih => exact .char hc ih
  | quote _ ih => exact .quote ih

theorem readQuotes_char {c : UInt8} (hc : c ≠ quoteChar) (s : List UInt8) : readQuotes (c :: s) = c :: readQuotes s := by
  rw [readQuotes]
  rintro s' rfl
  exact absurd rfl hc

/-- Enclosed text gives quoted characters only. -/
theorem Enclosed.lex {s : List UInt8} (hs : Enclosed s) (t : List UInt8) :
    ∃ toks, Lib.lex .quoted (s ++ t) = (Lib.lex .quoted t).map (toks ++ ·) ∧
      (∀ tok ∈ toks, tok ≠ .stop ∧ tok ≠ .blank) ∧ toks.filterMap Token.char? = quoted (readQuotes s) := by
  induction hs with
  | nil => exact ⟨[], by simp, List.forall_mem_nil _, rfl⟩
  | @char c s hc _ ih =>
    obtain ⟨toks, hlex, hword, hchars⟩ := ih
    refine ⟨.char c true :: toks, ?_, ?_, ?_⟩
    · rw [List.cons_append, Lib.lex, if_neg hc, hlex, Option.map_map]
      rfl
    · exact List.forall_mem_cons.2 ⟨⟨Token.noConfusion, Token.noConfusion⟩, hword⟩
    · rw [readQuotes_char hc, List.filterMap_cons]
      simp [Token.char?, hchars, quoted]
  | @quote s _ ih =>
    obtain ⟨toks, hlex, hword, hchars⟩ := ih
    refine ⟨.char quoteChar true :: .quote :: toks, ?_, ?_, ?_⟩
    · simp only [List.cons_append, Lib.lex, quoteChar, escapeChar, if_true]
      rw [hlex]
      simp [Function.comp_def]
    · intro tok htok
      rcases List.mem_cons.1 htok with rfl | htok
      · exact ⟨Token.noConfusion, Token.noConfusion⟩
      · rcases List.mem_cons.1 htok with rfl | htok
        · exact ⟨Token.noConfusion, Token.noConfusion⟩
        · exact hword tok htok
    · have hskip : (Token.quote :: toks).filterMap Token.char? = toks.filterMap Token.char? :=
        List.filterMap_cons_none rfl
      have hquote : (Token.char quoteChar true :: .quote :: toks).filterMap Token.char?
          = (quoteChar, true) :: (Token.quote :: toks).filterMap Token.char? := List.filterMap_cons_some rfl
      rw [hquote, hskip, hchars]
      rfl

end CodingExercises.Lib
