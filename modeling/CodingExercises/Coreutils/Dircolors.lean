import Mathlib.Data.List.DropRight
import CodingExercises.Coreutils.Xalloc
import CodingExercises.Lib.Escapes
import CodingExercises.Lib.ShellQuotes

/-!
# coreutils: dircolors

`parse_line`, `append_quoted` and `dc_parse_stream` of `src/dircolors.c`, and what `main` writes of the obstack.

- Every byte of the configuration stays inside the quotes that `main` opens (`bourneShell_quoted`).
- `need_backslash` is the parity of the backslashes and carets at the end of what was written (`within_appendQuoted`), and
  `dc_parse_stream` writes its `=` and `:` without looking at it: the entries are read back just when no token ends in an
  odd number of them (`fields_obstack_iff`).
-/

namespace CodingExercises.Coreutils.Dircolors

open Lib (joined fields Clean within marks bare Enclosed)

/-- The bytes of a string literal. -/
def bytes (s : String) : List Byte := s.toList.map fun c => UInt8.ofNat c.toNat

def quoteChar : Byte := 39

def backslash : Byte := 92

def caret : Byte := 94

def colon : Byte := 58

def equals : Byte := 61

def hash : Byte := 35

def star : Byte := 42

def period : Byte := 46

/-- `slack_codes`. -/
def slackCodes : List String :=
  ["NORMAL", "NORM", "FILE", "RESET", "DIR", "LNK", "LINK",
    "SYMLINK", "ORPHAN", "MISSING", "FIFO", "PIPE", "SOCK", "BLK", "BLOCK",
    "CHR", "CHAR", "DOOR", "EXEC", "LEFT", "LEFTCODE", "RIGHT", "RIGHTCODE",
    "END", "ENDCODE", "SUID", "SETUID", "SGID", "SETGID", "STICKY",
    "OTHER_WRITABLE", "OWR", "STICKY_OTHER_WRITABLE", "OWT", "CAPABILITY",
    "MULTIHARDLINK", "CLRTOEOL"]

/-- `ls_codes`. -/
def lsCodes : List String :=
  ["no", "no", "fi", "rs", "di", "ln", "ln", "ln", "or", "mi", "pi", "pi",
    "so", "bd", "bd", "cd", "cd", "do", "ex", "lc", "lc", "rc", "rc", "ec", "ec",
    "su", "su", "sg", "sg", "st", "ow", "ow", "tw", "tw", "ca", "mh", "cl"]

/-- `c_tolower`. -/
def cTolower (c : Byte) : Byte := if 65 ≤ c ∧ c ≤ 90 then c + 32 else c

/-- `c_strcasecmp (s, t) == 0`. -/
def cStrcaseEq (s t : List Byte) : Bool := s.map cTolower = t.map cTolower

/-- The two-letter code of a keyword. -/
def lsCode (keywd : List Byte) : Option (List Byte) :=
  ((slackCodes.zip lsCodes).find? fun code => cStrcaseEq keywd (bytes code.1)).map fun code => bytes code.2

/-! ## The parser -/

section

variable (isspace : Byte → Bool)

/-- `parse_line`: the keyword and the argument, where they are not `NULL`. -/
def parseLine (line : List Byte) : Option (List Byte × Option (List Byte)) :=
  let p := line.dropWhile isspace
  if p = [] ∨ p.head? = some hash then none
  else
    let keyword := p.takeWhile (!isspace ·)
    let p := p.dropWhile (!isspace ·)
    let p := p.tail.dropWhile isspace
    if p = [] ∨ p.head? = some hash then some (keyword, none)
    else some (keyword, some ((p.takeWhile (· ≠ hash)).rdropWhile isspace))

/-- The loop of `append_quoted` with its `need_backslash`: what it appends. -/
def appendQuotedFrom : Bool → List Byte → List Byte
  | _, [] => []
  | needBackslash, c :: str =>
    if c = quoteChar then quoteChar :: backslash :: quoteChar :: c :: appendQuotedFrom true str
    else if c = backslash ∨ c = caret then c :: appendQuotedFrom (!needBackslash) str
    else if c = colon ∨ c = equals then
      if needBackslash then backslash :: c :: appendQuotedFrom true str else c :: appendQuotedFrom true str
    else c :: appendQuotedFrom true str

/-- `append_quoted`. -/
def appendQuoted (str : List Byte) : List Byte := appendQuotedFrom true str

/-- The state of the parser. -/
inductive TermState
  | termno
  | termyes
  | termsure
  | global
deriving DecidableEq

/-- After a `TERM` line. -/
def TermState.onTerm (term arg : List Byte) (state : TermState) : TermState :=
  if arg = term then .termsure else if state ≠ .termsure then .termno else state

/-- At any other line: another `TERM` can cancel. -/
def TermState.onOther (state : TermState) : TermState := if state = .termsure then .termyes else state

/-- The variables of `dc_parse_stream`. -/
structure Parser where
  state : TermState
  ok : Bool
  obstack : List Byte

/-- `unrecognized`, which is an error for the terminal's own lines only. -/
def Parser.unrecognized (p : Parser) : Parser :=
  { p with ok := p.ok && !(p.state = .termsure || p.state = .termyes) }

/-- One round of the loop. -/
def dcLine (term : List Byte) (p : Parser) (line : List Byte) : Parser :=
  match parseLine isspace line with
  | none => p
  | some (_, none) => { p with ok := false }
  | some (keywd, some arg) =>
    if cStrcaseEq keywd (bytes "TERM") then { p with state := p.state.onTerm term arg }
    else
      let p := { p with state := p.state.onOther }
      if p.state ≠ .termno then
        if keywd.head? = some period then
          { p with obstack := p.obstack ++ star :: (appendQuoted keywd ++ equals :: (appendQuoted arg ++ [colon])) }
        else if keywd.head? = some star then
          { p with obstack := p.obstack ++ (appendQuoted keywd ++ equals :: (appendQuoted arg ++ [colon])) }
        else if cStrcaseEq keywd (bytes "OPTIONS") || cStrcaseEq keywd (bytes "COLOR")
            || cStrcaseEq keywd (bytes "EIGHTBIT") then p
        else
          match lsCode keywd with
          | some code => { p with obstack := p.obstack ++ (code ++ equals :: (appendQuoted arg ++ [colon])) }
          | none => p.unrecognized
      else p.unrecognized

/-- `dc_parse_stream` over the lines, from an empty obstack. -/
def dcParseStream (term : List Byte) (lines : List (List Byte)) : Parser :=
  lines.foldl (dcLine isspace term) ⟨.global, true, []⟩

end

/-- The lines that `getline` reads, each with its newline. -/
def getLines : List Byte → List (List Byte)
  | [] => []
  | c :: s =>
    if c = 10 then [c] :: getLines s
    else
      match getLines s with
      | [] => [[c]]
      | line :: lines => (c :: line) :: lines

/-- The lines of a file as C strings. -/
def fileLines (file : List Byte) : List (List Byte) := (getLines file).map fun line => line.takeWhile (· ≠ 0)

/-- `SHELL_SYNTAX_BOURNE` and `SHELL_SYNTAX_C`. -/
inductive ShellSyntax
  | bourne
  | c

def ShellSyntax.before : ShellSyntax → List Byte
  | .bourne => bytes "LS_COLOR='"
  | .c => bytes "setenv LS_COLOR '"

def ShellSyntax.after : ShellSyntax → List Byte
  | .bourne => bytes "';\nexport LS_COLOR\n"
  | .c => bytes "'\n"

/-- What `main` writes for a configuration file, when it parses. -/
def output (isspace : Byte → Bool) (sh : ShellSyntax) (term file : List Byte) : Option (List Byte) :=
  let p := dcParseStream isspace term (fileLines file)
  if p.ok then some (sh.before ++ p.obstack ++ sh.after) else none

/-! ## The directives -/

/-- What a directive has before its `=`, if it is one that is translated. -/
def keyText (keywd : List Byte) : Option (List Byte) :=
  if keywd.head? = some period then some (star :: appendQuoted keywd)
  else if keywd.head? = some star then some (appendQuoted keywd)
  else if cStrcaseEq keywd (bytes "OPTIONS") || cStrcaseEq keywd (bytes "COLOR") || cStrcaseEq keywd (bytes "EIGHTBIT") then
    none
  else lsCode keywd

/-- The keyword and the argument of each directive that is accumulated, from a state of the parser. -/
def directivesFrom (isspace : Byte → Bool) (term : List Byte) : TermState → List (List Byte) → List (List Byte × List Byte)
  | _, [] => []
  | state, line :: lines =>
    match parseLine isspace line with
    | some (keywd, some arg) =>
      if cStrcaseEq keywd (bytes "TERM") then directivesFrom isspace term (state.onTerm term arg) lines
      else if state.onOther ≠ .termno ∧ (keyText keywd).isSome then
        (keywd, arg) :: directivesFrom isspace term state.onOther lines
      else directivesFrom isspace term state.onOther lines
    | _ => directivesFrom isspace term state lines

/-- The directives of a configuration file. -/
def directives (isspace : Byte → Bool) (term file : List Byte) : List (List Byte × List Byte) :=
  directivesFrom isspace term .global (fileLines file)

/-- A directive's key and value as they are written. -/
def entry (d : List Byte × List Byte) : List Byte × List Byte := ((keyText d.1).getD [], appendQuoted d.2)

/-- The entries of the directives, one after another. -/
def entriesText (ds : List (List Byte × List Byte)) : List Byte := joined colon equals (ds.map entry)

section

variable {isspace : Byte → Bool} {term : List Byte}

theorem entriesText_cons (d : List Byte × List Byte) (ds : List (List Byte × List Byte)) :
    entriesText (d :: ds) = (entry d).1 ++ equals :: ((entry d).2 ++ [colon]) ++ entriesText ds := by
  simp [entriesText, joined]

/-- One round appends the entry of its directive. -/
theorem obstack_dcLine (p : Parser) (line : List Byte) (lines : List (List Byte)) :
    (dcLine isspace term p line).obstack ++ entriesText (directivesFrom isspace term (dcLine isspace term p line).state lines)
      = p.obstack ++ entriesText (directivesFrom isspace term p.state (line :: lines)) := by
  unfold dcLine
  rw [directivesFrom]
  rcases parseLine isspace line with _ | ⟨keywd, _ | arg⟩
  · rfl
  · rfl
  · by_cases hterm : cStrcaseEq keywd (bytes "TERM") = true
    · simp [hterm]
    · by_cases hno : p.state.onOther = .termno
      · simp [hterm, hno, Parser.unrecognized]
      · by_cases hperiod : keywd.head? = some period
        · simp [hterm, hno, hperiod, keyText, entriesText_cons, entry]
        · by_cases hstar : keywd.head? = some star
          · simp [hterm, hno, hstar, keyText, entriesText_cons, entry, show star ≠ period by decide]
          · by_cases hignored : (cStrcaseEq keywd (bytes "OPTIONS") || cStrcaseEq keywd (bytes "COLOR")
                || cStrcaseEq keywd (bytes "EIGHTBIT")) = true
            · have hkey : keyText keywd = none := by rw [keyText, if_neg hperiod, if_neg hstar, if_pos hignored]
              simp only [hterm, hno, hperiod, hstar, hignored, hkey, ne_eq, not_false_eq_true, if_true, if_false]
              simp
            · have hkey : keyText keywd = lsCode keywd := by
                rw [keyText, if_neg hperiod, if_neg hstar, if_neg hignored]
              simp only [hterm, hno, hperiod, hstar, hignored, hkey, ne_eq, not_false_eq_true, if_true, if_false]
              cases hcode : lsCode keywd with
              | none => simp [Parser.unrecognized]
              | some code => simp [entriesText_cons, entry, hkey, hcode]

/-- The obstack holds the entries of the directives. -/
theorem obstack_dcParseStream (lines : List (List Byte)) :
    (dcParseStream isspace term lines).obstack = entriesText (directivesFrom isspace term .global lines) := by
  suffices h : ∀ p : Parser, (lines.foldl (dcLine isspace term) p).obstack
      = p.obstack ++ entriesText (directivesFrom isspace term p.state lines) by
    simpa [dcParseStream] using h ⟨.global, true, []⟩
  induction lines with
  | nil => simp [directivesFrom, entriesText, joined]
  | cons line lines ih =>
    intro p
    rw [List.foldl_cons, ih, obstack_dcLine]

end

/-! ## Quotes -/

theorem enclosed_appendQuotedFrom (needBackslash : Bool) (str : List Byte) : Enclosed (appendQuotedFrom needBackslash str) := by
  induction str generalizing needBackslash with
  | nil => exact .nil
  | cons c str ih =>
    rw [appendQuotedFrom]
    split
    · next hc => rw [hc]; exact .quote (ih true)
    next hquote =>
    split
    · exact .char hquote (ih _)
    split
    · split
      · exact .char (by decide) (.char hquote (ih _))
      · exact .char hquote (ih _)
    · exact .char hquote (ih _)

theorem enclosed_append {s t : List Byte} (hs : ∀ c ∈ s, c ≠ quoteChar) (ht : Enclosed t) : Enclosed (s ++ t) := by
  induction s with
  | nil => exact ht
  | cons c s ih => exact .char (hs c List.mem_cons_self) (ih fun c hc => hs c (List.mem_cons_of_mem _ hc))

/-- The codes are letters. -/
theorem lsCode_chars {keywd code : List Byte} (h : lsCode keywd = some code) :
    ∀ c ∈ code, c ≠ quoteChar ∧ c ≠ backslash ∧ c ≠ caret ∧ c ≠ colon ∧ c ≠ equals := by
  have hall : ((slackCodes.zip lsCodes).all fun x => (bytes x.2).all fun c =>
      c ∉ [quoteChar, backslash, caret, colon, equals]) = true := by decide +kernel
  obtain ⟨x, hx, rfl⟩ := Option.map_eq_some_iff.1 h
  intro c hc
  have hcode := List.all_eq_true.mp (List.all_eq_true.mp hall x (List.mem_of_find?_eq_some hx)) c hc
  simpa only [decide_eq_true_eq, List.mem_cons, List.not_mem_nil, or_false, not_or] using hcode

/-- What a key is made of: a star and the quoted keyword, the quoted keyword, or a code. -/
theorem keyText_cases (keywd : List Byte) : (keyText keywd).getD [] = star :: appendQuoted keywd ∨
    (keyText keywd).getD [] = appendQuoted keywd ∨
    ∀ c ∈ (keyText keywd).getD [], c ≠ quoteChar ∧ c ≠ backslash ∧ c ≠ caret ∧ c ≠ colon ∧ c ≠ equals := by
  unfold keyText
  split
  · exact .inl rfl
  split
  · exact .inr (.inl rfl)
  split
  · exact .inr (.inr (List.forall_mem_nil _))
  right; right
  cases hcode : lsCode keywd with
  | none => exact List.forall_mem_nil _
  | some code => exact lsCode_chars hcode

theorem enclosed_entry (d : List Byte × List Byte) : Enclosed (entry d).1 := by
  rcases keyText_cases d.1 with h | h | h
  · rw [entry, h]
    exact .char (by decide) (enclosed_appendQuotedFrom _ _)
  · rw [entry, h]
    exact enclosed_appendQuotedFrom _ _
  · simpa [entry] using enclosed_append (fun c hc => (h c hc).1) .nil

theorem enclosed_entriesText (ds : List (List Byte × List Byte)) : Enclosed (entriesText ds) := by
  induction ds with
  | nil => exact .nil
  | cons d ds ih =>
    rw [entriesText_cons]
    have hvalue : Enclosed ((entry d).2 ++ [colon]) :=
      (enclosed_appendQuotedFrom true d.2).append (.char (by decide) .nil)
    exact ((enclosed_entry d).append (.char (by decide) hvalue)).append ih

/-- The tokens of what stands behind the closing quote. -/
def exported : List Lib.Token :=
  .stop :: (bytes "export").map (.char · false) ++ .blank :: (bytes "LS_COLOR").map (.char · false) ++ [.stop]

theorem lex_after : Lib.lex .quoted (ShellSyntax.after .bourne) = some (.stop :: exported) := by decide

theorem commands_exported : (Lib.words (· = .stop) exported).map (fun cmd =>
    (Lib.words (· = .blank) cmd).map (·.filterMap Lib.Token.char?))
      = [[Lib.unquoted (bytes "export"), Lib.unquoted (bytes "LS_COLOR")]] := by decide

/-- For the Bourne shell the output is an assignment to `LS_COLOR`, of which all but the name is quoted and whose value is the
concatenation of the entries, and the `export` of that variable. -/
theorem bourneShell_quoted (isspace : Byte → Bool) (term file : List Byte) {out : List Byte}
    (h : output isspace .bourne term file = some out) :
    Lib.commands out = some
      [[Lib.unquoted (bytes "LS_COLOR=") ++ Lib.quoted (Lib.readQuotes (entriesText (directives isspace term file)))],
        [Lib.unquoted (bytes "export"), Lib.unquoted (bytes "LS_COLOR")]] := by
  obtain ⟨toks, hlex, hword, hchars⟩ :=
    (enclosed_entriesText (directives isspace term file)).lex (ShellSyntax.after .bourne)
  have hout : bytes "LS_COLOR='" ++ (entriesText (directives isspace term file) ++ ShellSyntax.after .bourne) = out := by
    rw [output] at h
    split at h
    · rw [obstack_dcParseStream, List.append_assoc] at h
      exact Option.some.inj h
    · cases h
  have hname : bytes "LS_COLOR='" = bytes "LS_COLOR=" ++ [quoteChar] := by decide
  have hordinary : ∀ c ∈ bytes "LS_COLOR=", Lib.Ordinary c := by decide +kernel
  have htokens : Lib.lex .plain out = some ((bytes "LS_COLOR=").map (.char · false) ++ .quote :: toks ++ .stop :: exported) := by
    rw [← hout, hname, List.append_assoc, Lib.lex_plain hordinary, List.singleton_append, Lib.lex,
      if_pos (show quoteChar = Lib.quoteChar from rfl), hlex, lex_after]
    simp
  have hfirst : ∀ tok ∈ (bytes "LS_COLOR=").map (Lib.Token.char · false) ++ .quote :: toks,
      tok ≠ Lib.Token.stop ∧ tok ≠ Lib.Token.blank := by
    intro tok htok
    rcases List.mem_append.1 htok with htok | htok
    · obtain ⟨c, -, rfl⟩ := List.mem_map.1 htok
      exact ⟨Lib.Token.noConfusion, Lib.Token.noConfusion⟩
    · rcases List.mem_cons.1 htok with rfl | htok
      · exact ⟨Lib.Token.noConfusion, Lib.Token.noConfusion⟩
      · exact hword tok htok
  rw [Lib.commands, htokens, Option.map_some,
    Lib.words_append (fun tok htok => decide_eq_false (hfirst tok htok).1) (by simp) (by simp), List.map_cons,
    Lib.words_eq_singleton (fun tok htok => decide_eq_false (hfirst tok htok).2) (by simp), List.map_singleton,
    List.filterMap_append, List.filterMap_cons_none rfl, hchars, commands_exported]
  rfl

theorem bourneShell_quoted_apostrophe : Lib.commands (bytes "LS_COLOR='di=a'\\''b:';\nexport LS_COLOR\n") = some
    [[Lib.unquoted (bytes "LS_COLOR=") ++ Lib.quoted (bytes "di=a'b:")],
      [Lib.unquoted (bytes "export"), Lib.unquoted (bytes "LS_COLOR")]] :=
  bourneShell_quoted (fun c => c = 32 || c = 10) (bytes "none") (bytes "DIR a'b\n") (by decide +kernel)

/-! ## Reading the entries back -/

/-- The characters that take the next one literally. -/
def isEscape (c : Byte) : Bool := c = backslash || c = caret

/-- The string ends in an odd number of backslashes and carets. -/
def OddEnd (str : List Byte) : Prop := (str.rtakeWhile isEscape).length % 2 = 1

instance : DecidablePred OddEnd := fun _ => inferInstanceAs (Decidable (_ = _))

/-- A `need_backslash` that is false says that an escape is open. -/
theorem within_appendQuotedFrom (needBackslash : Bool) (str : List Byte) :
    within isEscape (!needBackslash) (appendQuotedFrom needBackslash str)
      = !str.foldl (fun nb c => if isEscape c then !nb else true) needBackslash := by
  induction str generalizing needBackslash with
  | nil => cases needBackslash <;> rfl
  | cons c str ih =>
    rw [appendQuotedFrom, List.foldl_cons]
    by_cases hquote : c = quoteChar
    · subst hquote
      rw [if_pos rfl, if_neg (by decide), ← ih]
      cases needBackslash <;> rfl
    rw [if_neg hquote]
    by_cases hescape : c = backslash ∨ c = caret
    · have hc : isEscape c = true := by simpa [isEscape] using hescape
      rw [if_pos hescape, if_pos hc]
      cases needBackslash with
      | false => rw [← ih]; rfl
      | true => rw [← ih]; simp [within, hc]
    have hc : isEscape c = false := by simpa [isEscape] using hescape
    rw [if_neg hescape, hc, if_neg Bool.false_ne_true, ← ih]
    by_cases hsep : c = colon ∨ c = equals
    · rw [if_pos hsep]
      cases needBackslash <;> rfl
    · rw [if_neg hsep]
      cases needBackslash with
      | false => rfl
      | true => simp [within, hc]

theorem foldl_needBackslash (str : List Byte) :
    (!str.foldl (fun nb c => if isEscape c then !nb else true) true) = true ↔ OddEnd str := by
  induction str using List.reverseRecOn with
  | nil => simp [OddEnd]
  | append_singleton str c ih =>
    rw [List.foldl_append, List.foldl_cons, List.foldl_nil, OddEnd]
    by_cases hc : isEscape c = true
    · rw [if_pos hc, List.rtakeWhile_concat_pos _ _ _ hc, List.length_append, List.length_singleton]
      rw [OddEnd] at ih
      have hflip : (!(!str.foldl (fun nb c => if isEscape c then !nb else true) true)) = true
          ↔ ¬(str.rtakeWhile isEscape).length % 2 = 1 := by
        rw [← ih]
        simp
      rw [hflip]
      omega
    · rw [if_neg hc, List.rtakeWhile_concat_neg _ _ _ hc]
      simp

/-- `need_backslash` is a parity. -/
theorem within_appendQuoted (str : List Byte) : within isEscape false (appendQuoted str) = true ↔ OddEnd str := by
  rw [← foldl_needBackslash, ← within_appendQuotedFrom]
  rfl

/-- No separator of a token is left bare. -/
theorem clean_appendQuotedFrom (needBackslash : Bool) (str : List Byte) :
    ∀ x ∈ marks isEscape (!needBackslash) (appendQuotedFrom needBackslash str), bare colon x = false ∧ bare equals x = false := by
  induction str generalizing needBackslash with
  | nil => cases needBackslash <;> exact List.forall_mem_nil _
  | cons c str ih =>
    rw [appendQuotedFrom]
    by_cases hquote : c = quoteChar
    · subst hquote
      rw [if_pos rfl]
      cases needBackslash <;> simpa [marks, isEscape, bare, quoteChar, backslash, caret, colon, equals] using ih true
    rw [if_neg hquote]
    by_cases hescape : c = backslash ∨ c = caret
    · have hc : isEscape c = true := by simpa [isEscape] using hescape
      have hsep : c ≠ colon ∧ c ≠ equals := by rcases hescape with rfl | rfl <;> decide
      rw [if_pos hescape]
      cases needBackslash with
      | false => simpa [marks, bare] using ih true
      | true => simpa [marks, bare, hc, hsep] using ih false
    have hc : isEscape c = false := by simpa [isEscape] using hescape
    rw [if_neg hescape]
    by_cases hsep : c = colon ∨ c = equals
    · rw [if_pos hsep]
      cases needBackslash with
      | false => simpa [marks, bare] using ih true
      | true => simpa [marks, bare, isEscape, backslash, colon, equals] using ih true
    · have hsep' : c ≠ colon ∧ c ≠ equals := not_or.1 hsep
      rw [if_neg hsep]
      cases needBackslash with
      | false => simpa [marks, bare] using ih true
      | true => simpa [marks, bare, hc, hsep'] using ih true

/-- Nor is one of a text without escapes and separators, and it opens no escape. -/
theorem clean_plain {s : List Byte}
    (hs : ∀ c ∈ s, c ≠ quoteChar ∧ c ≠ backslash ∧ c ≠ caret ∧ c ≠ colon ∧ c ≠ equals) :
    Clean isEscape colon equals s ∧ within isEscape false s = false := by
  induction s with
  | nil => exact ⟨List.forall_mem_nil _, rfl⟩
  | cons c s ih =>
    obtain ⟨-, hbackslash, hcaret, hcolon, hequals⟩ := hs c List.mem_cons_self
    obtain ⟨hclean, hwithin⟩ := ih fun c hc => hs c (List.mem_cons_of_mem _ hc)
    have hc : isEscape c = false := by simp [isEscape, hbackslash, hcaret]
    rw [within, hc, Clean, marks, hc, List.forall_mem_cons]
    exact ⟨⟨by simp [bare, hcolon, hequals], hclean⟩, hwithin⟩

theorem clean_entry (d : List Byte × List Byte) :
    Clean isEscape colon equals (entry d).1 ∧ Clean isEscape colon equals (entry d).2 := by
  refine ⟨?_, clean_appendQuotedFrom true d.2⟩
  rcases keyText_cases d.1 with h | h | h
  · rw [entry, h]
    exact List.forall_mem_cons.2 ⟨by decide, clean_appendQuotedFrom true d.1⟩
  · rw [entry, h]
    exact clean_appendQuotedFrom true d.1
  · exact (clean_plain h).1

/-- The keyword is written by `append_quoted`. -/
def IsPattern (keywd : List Byte) : Prop := keywd.head? = some period ∨ keywd.head? = some star

instance : DecidablePred IsPattern := fun _ => inferInstanceAs (Decidable (_ ∨ _))

/-- A key ends in an escape when it is a pattern that ends in an odd number of them. -/
theorem within_key (d : List Byte × List Byte) :
    within isEscape false (entry d).1 = false ↔ (IsPattern d.1 → ¬OddEnd d.1) := by
  rw [entry, IsPattern]
  by_cases hperiod : d.1.head? = some period
  · have hstar : within isEscape false (star :: appendQuoted d.1) = within isEscape false (appendQuoted d.1) := rfl
    rw [keyText, if_pos hperiod, Option.getD_some, hstar, ← Bool.not_eq_true, within_appendQuoted]
    simp [hperiod]
  by_cases hstar : d.1.head? = some star
  · rw [keyText, if_neg hperiod, if_pos hstar, Option.getD_some, ← Bool.not_eq_true, within_appendQuoted]
    simp [hstar]
  · refine iff_of_true (clean_plain ?_).2 fun h => absurd h (not_or.2 ⟨hperiod, hstar⟩)
    rw [keyText, if_neg hperiod, if_neg hstar]
    split
    · exact List.forall_mem_nil _
    · cases hcode : lsCode d.1 with
      | none => exact List.forall_mem_nil _
      | some code => exact lsCode_chars hcode

/-- The scan of the obstack of a configuration file: what stands between bare colons, cut at bare equals signs. -/
def scanned (isspace : Byte → Bool) (term file : List Byte) : List (List (List Byte)) :=
  fields isEscape colon equals (dcParseStream isspace term (fileLines file)).obstack

/-- Every entry is read back as the key and the value of its directive, in order, and nothing else is, the last colon ending
the last entry. -/
def EntriesSurvive (isspace : Byte → Bool) (term file : List Byte) : Prop :=
  scanned isspace term file = (directives isspace term file).map (fun d => [(entry d).1, (entry d).2]) ++ [[[]]]

instance (isspace : Byte → Bool) (term file : List Byte) : Decidable (EntriesSurvive isspace term file) :=
  inferInstanceAs (Decidable (_ = _))

/-- The separators behind a token are written without looking at `need_backslash`. -/
theorem entriesSurvive_iff (isspace : Byte → Bool) (term file : List Byte) :
    EntriesSurvive isspace term file ↔
      ∀ d ∈ directives isspace term file, (IsPattern d.1 → ¬OddEnd d.1) ∧ ¬OddEnd d.2 := by
  have hclean : ∀ e ∈ (directives isspace term file).map entry,
      Clean isEscape colon equals e.1 ∧ Clean isEscape colon equals e.2 :=
    List.forall_mem_map.2 fun d _ => clean_entry d
  have hjoined := Lib.fields_joined_iff (by decide) (by decide) (by decide) hclean
  rw [EntriesSurvive, scanned, obstack_dcParseStream]
  rw [List.map_map] at hjoined
  refine hjoined.trans ?_
  rw [List.forall_mem_map]
  refine forall₂_congr fun d _ => and_congr (within_key d) ?_
  rw [← Bool.not_eq_true]
  exact not_congr (within_appendQuoted d.2)

/-- `.a\ 1` gives `*.a\=1:`, an entry without a separator. -/
theorem not_entriesSurvive_backslash :
    (dcParseStream (fun c => c = 32 || c = 10) (bytes "none") (fileLines (bytes ".a\\ 1\n"))).ok = true ∧
      ¬EntriesSurvive (fun c => c = 32 || c = 10) (bytes "none") (bytes ".a\\ 1\n") := by decide

end CodingExercises.Coreutils.Dircolors
