import Mathlib.Data.List.Basic
import CodingExercises.Coreutils.Xalloc

/-!
# coreutils: echo

`main` of `src/echo.c`. A pointer into a string is what is left of it from there on, its null included; no value is a read
behind the null.

- No argument is read beyond its null, and a backslash that begins no escape is printed (`echo_reads`).
- Each byte can be written as itself or by any of its escapes of full length, and `echo -ne` prints the bytes again, unless
  what was written is itself an option (`echo_encoding`).
-/

namespace CodingExercises.Coreutils.Echo

/-- The bytes of a string literal. -/
def bytes (s : String) : List Byte := s.toList.map fun c => UInt8.ofNat c.toNat

def backslash : Byte := 92

/-- An argument as it is stored. -/
def cstring (arg : List Byte) : List Byte := arg ++ [0]

/-! ## Options -/

/-- `STREQ (p, s)` for a literal `s`. -/
def streq : List Byte → List Byte → Option Bool
  | [], _ => none
  | c :: _, [] => some (c = 0)
  | c :: p, d :: s => if c = d then streq p s else some false

/-- `do_v9` and `display_return`. -/
structure Flags where
  doV9 : Bool
  displayReturn : Bool
deriving DecidableEq

def isOption (c : Byte) : Bool := c = 101 || c = 69 || c = 110

/-- The loop over `temp[i]`: all of the options in it are valid. -/
def validOptions : List Byte → Option Bool
  | [] => none
  | c :: temp => if c = 0 then some true else if isOption c then validOptions temp else some false

/-- The loop over `*temp++`. -/
def handleOptions (flags : Flags) : List Byte → Option Flags
  | [] => none
  | c :: temp =>
    if c = 0 then some flags
    else if c = 101 then handleOptions { flags with doV9 := true } temp
    else if c = 69 then handleOptions { flags with doV9 := false } temp
    else if c = 110 then handleOptions { flags with displayReturn := false } temp
    else handleOptions flags temp

/-- The loop over the options: the flags, and the arguments that are left to print. -/
def options (flags : Flags) : List (List Byte) → Option (Flags × List (List Byte))
  | [] => some (flags, [])
  | arg :: argv => do
    let c ← (cstring arg).head?
    if c ≠ 45 then some (flags, arg :: argv)
    else
      let temp := (cstring arg).tail
      if !(← validOptions temp) then some (flags, arg :: argv)
      else if (← temp.head?) = 0 then some (flags, arg :: argv)
      else options (← handleOptions flags temp) argv

/-! ## Escapes -/

def isxdigit (c : Byte) : Bool := (48 ≤ c && c ≤ 57) || (65 ≤ c && c ≤ 70) || (97 ≤ c && c ≤ 102)

/-- `hextobin`. -/
def hextobin (c : Byte) : Byte :=
  if c = 97 ∨ c = 65 then 10
  else if c = 98 ∨ c = 66 then 11
  else if c = 99 ∨ c = 67 then 12
  else if c = 100 ∨ c = 68 then 13
  else if c = 101 ∨ c = 69 then 14
  else if c = 102 ∨ c = 70 then 15
  else c - 48

def isOctal (c : Byte) : Bool := 48 ≤ c && c ≤ 55

/-- The escapes of one letter, `\\` among them. -/
def letter (c : Byte) : Option Byte :=
  if c = 97 then some 7
  else if c = 98 then some 8
  else if c = 101 then some 27
  else if c = 102 then some 12
  else if c = 110 then some 10
  else if c = 114 then some 13
  else if c = 116 then some 9
  else if c = 118 then some 11
  else if c = backslash then some backslash
  else none

/-- What one turn of the loop over `*s++` does: it ends at the null, leaves the program, or prints and goes on at `s`. -/
inductive Turn
  | done
  | exit
  | put (out : List Byte) (s : List Byte)
deriving DecidableEq

/-- One of the two steps from a digit to the next. -/
def octalDigit (c : Byte) (s : List Byte) : Option (Byte × List Byte) := do
  let d ← s.head?
  if isOctal d then some (c * 8 + (d - 48), s.tail) else some (c, s)

/-- Case `'1'` to `'7'`, with the digit in `c`. -/
def octal (c : Byte) (s : List Byte) : Option Turn := do
  let (c, s) ← octalDigit (c - 48) s
  let (c, s) ← octalDigit c s
  some (.put [c] s)

/-- Case `'x'`. -/
def hex (s : List Byte) : Option Turn := do
  let ch ← s.head?
  if !isxdigit ch then some (.put [backslash, 120] s)
  else
    let s := s.tail
    let c := hextobin ch
    let ch ← s.head?
    if isxdigit ch then some (.put [c * 16 + hextobin ch] s.tail) else some (.put [c] s)

/-- The `switch` over the character `c` behind a backslash. -/
def escape (c : Byte) (s : List Byte) : Option Turn :=
  match letter c with
  | some c => some (.put [c] s)
  | none =>
    if c = 99 then some .exit
    else if c = 120 then hex s
    else if c = 48 then do
      let d ← s.head?
      if !isOctal d then some (.put [0] s) else octal d s.tail
    else if isOctal c then octal c s
    else some (.put [backslash, c] s)

/-- One turn of the loop. -/
def turn : List Byte → Option Turn
  | [] => none
  | c :: s =>
    if c = 0 then some .done
    else if c = backslash then do
      let d ← s.head?
      if d ≠ 0 then escape d s.tail else some (.put [c] s)
    else some (.put [c] s)

/-- The null is still ahead. -/
def Ahead (s : List Byte) : Prop := 0 ∈ s

/-- What a turn leaves: the null is still ahead, and there is less than at `s`. -/
def Turn.After (s : List Byte) : Turn → Prop
  | .put _ s' => Ahead s' ∧ s'.length < s.length
  | _ => True

theorem Ahead.head {s : List Byte} (h : Ahead s) : ∃ c s', s = c :: s' ∧ (c ≠ 0 → Ahead s') := by
  cases s with
  | nil => cases h
  | cons c s => exact ⟨c, s, rfl, fun hc => (List.mem_cons.1 h).resolve_left fun h0 => hc h0.symm⟩

theorem isOctal_ne_zero {c : Byte} (h : isOctal c = true) : c ≠ 0 := by
  rintro rfl
  cases h

theorem isxdigit_ne_zero {c : Byte} (h : isxdigit c = true) : c ≠ 0 := by
  rintro rfl
  cases h

theorem octalDigit_ahead (c : Byte) {s : List Byte} (h : Ahead s) :
    ∃ r, octalDigit c s = some r ∧ Ahead r.2 ∧ r.2.length ≤ s.length := by
  obtain ⟨d, s', rfl, hs'⟩ := h.head
  by_cases hd : isOctal d = true
  · exact ⟨(c * 8 + (d - 48), s'), by simp [octalDigit, hd], hs' (isOctal_ne_zero hd), Nat.le_succ _⟩
  · exact ⟨(c, d :: s'), by simp [octalDigit, hd], h, Nat.le_refl _⟩

theorem octal_ahead (c : Byte) {s : List Byte} (h : Ahead s) :
    ∃ out s', octal c s = some (.put out s') ∧ Ahead s' ∧ s'.length ≤ s.length := by
  obtain ⟨r₁, h₁, ha₁, hl₁⟩ := octalDigit_ahead (c - 48) h
  obtain ⟨r₂, h₂, ha₂, hl₂⟩ := octalDigit_ahead r₁.1 ha₁
  exact ⟨[r₂.1], r₂.2, by simp [octal, h₁, h₂], ha₂, Nat.le_trans hl₂ hl₁⟩

theorem hex_ahead {s : List Byte} (h : Ahead s) :
    ∃ out s', hex s = some (.put out s') ∧ Ahead s' ∧ s'.length ≤ s.length := by
  obtain ⟨c, s₁, rfl, hs₁⟩ := h.head
  by_cases hc : isxdigit c = true
  · have ha₁ := hs₁ (isxdigit_ne_zero hc)
    obtain ⟨d, s₂, rfl, hs₂⟩ := ha₁.head
    by_cases hd : isxdigit d = true
    · exact ⟨[hextobin c * 16 + hextobin d], s₂, by simp [hex, hc, hd], hs₂ (isxdigit_ne_zero hd), by simp; omega⟩
    · exact ⟨[hextobin c], d :: s₂, by simp [hex, hc, hd], ha₁, Nat.le_succ _⟩
  · exact ⟨[backslash, 120], c :: s₁, by simp [hex, hc], h, Nat.le_refl _⟩

theorem escape_ahead (c : Byte) {s : List Byte} (h : Ahead s) :
    escape c s = some .exit ∨ ∃ out s', escape c s = some (.put out s') ∧ Ahead s' ∧ s'.length ≤ s.length := by
  rw [escape]
  split
  · exact .inr ⟨_, s, rfl, h, Nat.le_refl _⟩
  split
  · exact .inl rfl
  split
  · exact .inr (hex_ahead h)
  split
  · obtain ⟨d, s', rfl, hs'⟩ := h.head
    by_cases hd : isOctal d = true
    · obtain ⟨out, s'', heq, ha, hl⟩ := octal_ahead d (hs' (isOctal_ne_zero hd))
      exact .inr ⟨out, s'', by simp [hd, heq], ha, Nat.le_succ_of_le hl⟩
    · exact .inr ⟨[0], d :: s', by simp [hd], h, Nat.le_refl _⟩
  split
  · exact .inr (octal_ahead c h)
  · exact .inr ⟨_, s, rfl, h, Nat.le_refl _⟩

/-- A turn reads no further than the null, and leaves it ahead. -/
theorem turn_ahead {s : List Byte} (h : Ahead s) : ∃ t, turn s = some t ∧ t.After s := by
  obtain ⟨c, s₁, rfl, hs₁⟩ := h.head
  rw [turn]
  by_cases hc : c = 0
  · exact ⟨.done, by simp [hc], trivial⟩
  have ha₁ := hs₁ hc
  rw [if_neg hc]
  by_cases hb : c = backslash
  · obtain ⟨d, s₂, rfl, hs₂⟩ := ha₁.head
    rw [if_pos hb]
    by_cases hd : d = 0
    · exact ⟨.put [c] (d :: s₂), by simp [hd], ha₁, Nat.lt_succ_self _⟩
    · rcases escape_ahead d (hs₂ hd) with hexit | ⟨out, s', hput, ha, hl⟩
      · exact ⟨.exit, by simp [hd, hexit], trivial⟩
      · exact ⟨.put out s', by simp [hd, hput], ha, by simp; omega⟩
  · exact ⟨.put [c] s₁, by simp [hb], ha₁, Nat.lt_succ_self _⟩

/-! ## Printing -/

/-- The loop over `*s++`: what is printed, and whether the program is left. Every turn reads at least one character. -/
def escapes : ℕ → List Byte → Option (List Byte × Bool)
  | 0, _ => none
  | n + 1, s => do
    match ← turn s with
    | .done => some ([], false)
    | .exit => some ([], true)
    | .put out s => do
      let (more, exited) ← escapes n s
      some (out ++ more, exited)

/-- The loop from `s` on. -/
def v9 (s : List Byte) : Option (List Byte × Bool) := escapes s.length s

/-- The loop over the arguments when `do_v9`. -/
def echoV9 : List (List Byte) → Option (List Byte × Bool)
  | [] => some ([], false)
  | arg :: argv => do
    let (out, exited) ← v9 (cstring arg)
    if exited then some (out, true)
    else
      let (more, exited) ← echoV9 argv
      some (out ++ (if argv = [] then [] else [32]) ++ more, exited)

/-- What `fputs` writes. -/
def fputs : List Byte → Option (List Byte)
  | [] => none
  | c :: s => if c = 0 then some [] else (fputs s).map (c :: ·)

/-- The other loop over the arguments. -/
def echoPlain : List (List Byte) → Option (List Byte)
  | [] => some []
  | arg :: argv => do
    let out ← fputs (cstring arg)
    let more ← echoPlain argv
    some (out ++ (if argv = [] then [] else [32]) ++ more)

/-- What the program does. -/
inductive Result
  | usage
  | version
  | printed (out : List Byte)
deriving DecidableEq

/-- `DEFAULT_ECHO_TO_XPG`. -/
def defaultEchoToXpg : Bool := false

/-- `allow_options`. -/
def allowOptions (posixlyCorrect : Bool) (args : List (List Byte)) : Option Bool :=
  if !posixlyCorrect then some true
  else
    match args with
    | [] => some false
    | arg :: _ => if !defaultEchoToXpg then streq (cstring arg) (bytes "-n") else some false

/-- `main` from `just_echo` on. -/
def justEcho (flags : Flags) (argv : List (List Byte)) : Option Result :=
  if flags.doV9 then do
    let (out, exited) ← echoV9 argv
    if exited then some (.printed out) else some (.printed (out ++ if flags.displayReturn then [10] else []))
  else do
    let out ← echoPlain argv
    some (.printed (out ++ if flags.displayReturn then [10] else []))

/-- `main` after the options `--help` and `--version`. -/
def echoWords (allow : Bool) (args : List (List Byte)) : Option Result := do
  let flags : Flags := ⟨defaultEchoToXpg, true⟩
  let (flags, argv) ← if allow then options flags args else some (flags, args)
  justEcho flags argv

/-- `main`, on the arguments behind the name of the program. -/
def echo (posixlyCorrect : Bool) (args : List (List Byte)) : Option Result := do
  let allow ← allowOptions posixlyCorrect args
  match allow, args with
  | true, [arg] =>
    if ← streq (cstring arg) (bytes "--help") then some .usage
    else if ← streq (cstring arg) (bytes "--version") then some .version
    else echoWords allow args
  | _, _ => echoWords allow args

/-! ## No argument is read beyond its null -/

theorem ahead_cstring (arg : List Byte) : Ahead (cstring arg) := List.mem_append_right _ List.mem_cons_self

theorem streq_ahead {p : List Byte} (h : Ahead p) (s : List Byte) (hs : 0 ∉ s) : ∃ b, streq p s = some b := by
  induction s generalizing p with
  | nil =>
    obtain ⟨c, p', rfl, -⟩ := h.head
    exact ⟨c = 0, rfl⟩
  | cons d s ih =>
    obtain ⟨c, p', rfl, hp'⟩ := h.head
    rw [streq]
    by_cases hc : c = d
    · rw [if_pos hc]
      refine ih (hp' ?_) fun h0 => hs (List.mem_cons_of_mem _ h0)
      rintro rfl
      exact hs (hc ▸ List.mem_cons_self)
    · exact ⟨false, if_neg hc⟩

theorem validOptions_ahead {p : List Byte} (h : Ahead p) : ∃ b, validOptions p = some b := by
  induction p with
  | nil => cases h
  | cons c p ih =>
    rw [validOptions]
    split
    · exact ⟨_, rfl⟩
    next hc =>
    split
    · exact ih ((List.mem_cons.1 h).resolve_left fun h0 => hc h0.symm)
    · exact ⟨_, rfl⟩

theorem handleOptions_ahead {p : List Byte} (h : Ahead p) (flags : Flags) : ∃ flags', handleOptions flags p = some flags' := by
  induction p generalizing flags with
  | nil => cases h
  | cons c p ih =>
    rw [handleOptions]
    by_cases hc : c = 0
    · exact ⟨flags, if_pos hc⟩
    have hp : Ahead p := (List.mem_cons.1 h).resolve_left fun h0 => hc h0.symm
    rw [if_neg hc]
    split
    · exact ih hp _
    split
    · exact ih hp _
    split
    · exact ih hp _
    · exact ih hp _

theorem fputs_ahead {p : List Byte} (h : Ahead p) : ∃ out, fputs p = some out := by
  induction p with
  | nil => cases h
  | cons c p ih =>
    rw [fputs]
    by_cases hc : c = 0
    · exact ⟨[], if_pos hc⟩
    · obtain ⟨out, hout⟩ := ih ((List.mem_cons.1 h).resolve_left fun h0 => hc h0.symm)
      exact ⟨c :: out, by simp [hc, hout]⟩

theorem options_some (args : List (List Byte)) (flags : Flags) : ∃ r, options flags args = some r := by
  induction args generalizing flags with
  | nil => exact ⟨_, rfl⟩
  | cons arg argv ih =>
    obtain ⟨c, temp, hcstring, htemp⟩ := (ahead_cstring arg).head
    by_cases hc : c = 45
    · subst hc
      have ha := htemp (by decide)
      obtain ⟨b, hvalid⟩ := validOptions_ahead ha
      obtain ⟨flags', hflags⟩ := handleOptions_ahead ha flags
      obtain ⟨d, temp', rfl, -⟩ := ha.head
      obtain ⟨r, hr⟩ := ih flags'
      cases b with
      | false => exact ⟨(flags, arg :: argv), by simp [options, hcstring, hvalid]⟩
      | true =>
        by_cases hd : d = 0
        · subst hd
          exact ⟨(flags, arg :: argv), by simp [options, hcstring, hvalid]⟩
        · exact ⟨r, by simp [options, hcstring, hvalid, hd, hflags, hr]⟩
    · exact ⟨(flags, arg :: argv), by simp [options, hcstring, hc]⟩

theorem escapes_ahead (n : ℕ) {s : List Byte} (h : Ahead s) (hn : s.length ≤ n) : ∃ r, escapes n s = some r := by
  induction n generalizing s with
  | zero =>
    obtain ⟨c, s', rfl, -⟩ := h.head
    cases hn
  | succ n ih =>
    obtain ⟨t, ht, hafter⟩ := turn_ahead h
    cases t with
    | done => exact ⟨([], false), by simp [escapes, ht]⟩
    | exit => exact ⟨([], true), by simp [escapes, ht]⟩
    | put out s' =>
      obtain ⟨ha, hlt⟩ := hafter
      obtain ⟨r, hr⟩ := ih ha (by omega)
      exact ⟨(out ++ r.1, r.2), by simp [escapes, ht, hr]⟩

theorem echoV9_some (argv : List (List Byte)) : ∃ r, echoV9 argv = some r := by
  induction argv with
  | nil => exact ⟨_, rfl⟩
  | cons arg argv ih =>
    obtain ⟨r, hr⟩ := escapes_ahead _ (ahead_cstring arg) (Nat.le_refl _)
    obtain ⟨more, hmore⟩ := ih
    cases hexit : r.2 with
    | true => exact ⟨(r.1, true), by simp [echoV9, v9, hr, hexit]⟩
    | false => exact ⟨_, by simp [echoV9, v9, hr, hexit, hmore]; rfl⟩

theorem echoPlain_some (argv : List (List Byte)) : ∃ out, echoPlain argv = some out := by
  induction argv with
  | nil => exact ⟨_, rfl⟩
  | cons arg argv ih =>
    obtain ⟨out, hout⟩ := fputs_ahead (ahead_cstring arg)
    obtain ⟨more, hmore⟩ := ih
    exact ⟨_, by simp only [echoPlain, hout, hmore, Option.bind_eq_bind, Option.bind_some]; rfl⟩

theorem justEcho_some (flags : Flags) (argv : List (List Byte)) : ∃ r, justEcho flags argv = some r := by
  rw [justEcho]
  split
  · obtain ⟨⟨out, exited⟩, hr⟩ := echoV9_some argv
    cases exited with
    | true => exact ⟨.printed out, by simp [hr]⟩
    | false => exact ⟨_, by simp [hr]; rfl⟩
  · obtain ⟨out, hout⟩ := echoPlain_some argv
    exact ⟨_, by rw [hout, Option.bind_eq_bind, Option.bind_some]⟩

theorem echoWords_some (allow : Bool) (args : List (List Byte)) : ∃ r, echoWords allow args = some r := by
  cases allow with
  | false =>
    obtain ⟨r, hr⟩ := justEcho_some ⟨defaultEchoToXpg, true⟩ args
    exact ⟨r, by simpa [echoWords] using hr⟩
  | true =>
    obtain ⟨⟨flags, argv⟩, hr⟩ := options_some args ⟨defaultEchoToXpg, true⟩
    rw [echoWords, if_pos rfl, hr, Option.bind_eq_bind, Option.bind_some]
    exact justEcho_some flags argv

theorem allowOptions_some (posixlyCorrect : Bool) (args : List (List Byte)) : ∃ b, allowOptions posixlyCorrect args = some b := by
  unfold allowOptions
  split
  · exact ⟨_, rfl⟩
  · cases args with
    | nil => exact ⟨_, rfl⟩
    | cons arg argv => exact streq_ahead (ahead_cstring arg) _ (by decide)

/-- Every run ends, and no read is behind a null. -/
theorem echo_some (posixlyCorrect : Bool) (args : List (List Byte)) : ∃ r, echo posixlyCorrect args = some r := by
  obtain ⟨allow, hallow⟩ := allowOptions_some posixlyCorrect args
  obtain ⟨r, hr⟩ := echoWords_some allow args
  rw [echo, hallow, Option.bind_eq_bind, Option.bind_some]
  split
  · next arg =>
    obtain ⟨help, hhelp⟩ := streq_ahead (ahead_cstring arg) (bytes "--help") (by decide)
    obtain ⟨version, hversion⟩ := streq_ahead (ahead_cstring arg) (bytes "--version") (by decide)
    rw [hhelp, hversion]
    cases help with
    | true => exact ⟨.usage, rfl⟩
    | false =>
      cases version with
      | true => exact ⟨.version, rfl⟩
      | false => exact ⟨r, hr⟩
  · exact ⟨r, hr⟩

/-! ## Backslashes that begin no escape -/

/-- What stands behind a backslash makes it an escape. -/
def BeginsEscape : List Byte → Bool
  | [] => false
  | c :: s => (letter c).isSome || c = 99 || isOctal c || (c = 120 && s.head?.any isxdigit)

/-- Enough turns are enough. -/
theorem escapes_fuel {n m : ℕ} {s : List Byte} (h : Ahead s) (hn : s.length ≤ n) (hm : s.length ≤ m) :
    escapes n s = escapes m s := by
  induction n generalizing m s with
  | zero =>
    obtain ⟨c, s', rfl, -⟩ := h.head
    cases hn
  | succ n ih =>
    cases m with
    | zero =>
      obtain ⟨c, s', rfl, -⟩ := h.head
      cases hm
    | succ m =>
      obtain ⟨t, ht, hafter⟩ := turn_ahead h
      rw [escapes, escapes, ht, Option.bind_eq_bind, Option.bind_some, Option.bind_some]
      cases t with
      | done => rfl
      | exit => rfl
      | put out s' =>
        obtain ⟨ha, hlt⟩ := hafter
        simp only
        rw [ih ha (by omega) (by omega : s'.length ≤ m)]

/-- The loop from a turn on. -/
theorem v9_put {s s' out : List Byte} (h : Ahead s) (hturn : turn s = some (.put out s')) :
    v9 s = (v9 s').map fun r => (out ++ r.1, r.2) := by
  obtain ⟨t, ht, hafter⟩ := turn_ahead h
  rw [hturn] at ht
  obtain rfl := Option.some.inj ht
  obtain ⟨ha, hlt⟩ := hafter
  obtain ⟨r, hr⟩ := escapes_ahead _ ha (Nat.le_refl _)
  cases hs : s.length with
  | zero => omega
  | succ n =>
    rw [v9, hs, escapes, hturn, Option.bind_eq_bind, Option.bind_some, v9]
    simp only
    rw [escapes_fuel ha (by omega : s'.length ≤ n) (Nat.le_refl _), hr]
    rfl

theorem v9_literal {post : List Byte} (h : BeginsEscape post = false) :
    v9 (cstring (backslash :: post)) = (v9 (cstring post)).map fun r => (backslash :: r.1, r.2) := by
  have ha := ahead_cstring (backslash :: post)
  cases post with
  | nil =>
    have hend : turn (cstring [backslash]) = some (.put [backslash] (cstring [])) := by decide
    exact v9_put ha hend
  | cons c post =>
    simp only [BeginsEscape, Bool.or_eq_false_iff, decide_eq_false_iff_not] at h
    obtain ⟨⟨⟨hletter, hexit⟩, hoctal⟩, hhex⟩ := h
    have hnone : letter c = none := by simpa using hletter
    by_cases hc : c = 0
    · have hend : turn (cstring (backslash :: c :: post)) = some (.put [backslash] (cstring (c :: post))) := by
        rw [hc]
        rfl
      exact v9_put ha hend
    have hplain : turn (cstring (c :: post)) = some (.put [c] (cstring post)) := by
      have hb : c ≠ backslash := by
        rintro rfl
        cases hnone
      simp [cstring, turn, hc, hb]
    have hescape : turn (cstring (backslash :: c :: post)) = some (.put [backslash, c] (cstring post)) := by
      have hzero : c ≠ 48 := by
        rintro rfl
        cases hoctal
      have hswitch : escape c (cstring post) = some (.put [backslash, c] (cstring post)) := by
        rw [escape, hnone]
        simp only
        rw [if_neg hexit]
        by_cases hx : c = 120
        · subst hx
          have hxdigit : isxdigit ((cstring post).headD 0) = false := by
            cases post with
            | nil => rfl
            | cons d post => simpa [cstring] using hhex
          rw [if_pos rfl, hex]
          obtain ⟨d, s, hs, -⟩ := (ahead_cstring post).head
          rw [hs] at hxdigit ⊢
          simp only [List.headD_cons] at hxdigit
          simp [hxdigit]
        · rw [if_neg hx, if_neg hzero, if_neg (by simp [hoctal])]
      rw [← hswitch]
      simp [cstring, turn, hc, backslash]
    rw [v9_put ha hescape, v9_put (ahead_cstring _) hplain, Option.map_map]
    rfl

/-! ## Encodings -/

/-- The digit `i` in base eight. -/
def octalChar (i : ℕ) : Byte := UInt8.ofNat (48 + i)

/-- `c` is the digit `i` in base sixteen. -/
def HexDigit (i : ℕ) (c : Byte) : Prop :=
  (bytes "0123456789abcdef")[i]? = some c ∨ (bytes "0123456789ABCDEF")[i]? = some c

/-- The letters behind a backslash and their bytes. -/
def letters : List (Byte × Byte) :=
  [(97, 7), (98, 8), (101, 27), (102, 12), (110, 10), (114, 13), (116, 9), (118, 11), (backslash, backslash)]

/-- How a byte can be written: as itself, with three octal digits behind `\0`, with two hexadecimal digits behind `\x`, or with
its letter. -/
inductive EncodesByte : Byte → List Byte → Prop
  | self {b} : b ≠ backslash → b ≠ 0 → EncodesByte b [b]
  | octal {b i j k} : i < 8 → j < 8 → k < 8 → b.toNat = i * 64 + j * 8 + k →
      EncodesByte b [backslash, 48, octalChar i, octalChar j, octalChar k]
  | hex {b i j h l} : HexDigit i h → HexDigit j l → b.toNat = i * 16 + j → EncodesByte b [backslash, 120, h, l]
  | letter {b c} : (c, b) ∈ letters → EncodesByte b [backslash, c]

/-- An encoding of bytes, each written in any of these ways. -/
inductive Encodes : List Byte → List Byte → Prop
  | nil : Encodes [] []
  | cons {b e bs t} : EncodesByte b e → Encodes bs t → Encodes (b :: bs) (e ++ t)

/-- The argument is taken for options. -/
def isOptionWord (arg : List Byte) : Bool := arg.head? = some 45 && arg.tail ≠ [] && arg.tail.all isOption

theorem octalChar_spec : ∀ i < 8, isOctal (octalChar i) = true ∧ octalChar i - 48 = UInt8.ofNat i ∧ octalChar i ≠ 0 := by
  decide +kernel

theorem hexDigit_spec {i : ℕ} {c : Byte} (h : HexDigit i c) :
    isxdigit c = true ∧ hextobin c = UInt8.ofNat i ∧ c ≠ 0 := by
  have hall : ((List.range 16).all fun i => [(bytes "0123456789abcdef").getD i 0, (bytes "0123456789ABCDEF").getD i 0].all fun c =>
      isxdigit c && hextobin c == UInt8.ofNat i && c != 0) = true := by decide +kernel
  have hdigit (hi : i < 16) (hc : c ∈ [(bytes "0123456789abcdef").getD i 0, (bytes "0123456789ABCDEF").getD i 0]) :
      isxdigit c = true ∧ hextobin c = UInt8.ofNat i ∧ c ≠ 0 := by
    have hcheck := List.all_eq_true.mp (List.all_eq_true.mp hall i (List.mem_range.mpr hi)) c hc
    simpa only [Bool.and_eq_true, beq_iff_eq, bne_iff_ne, and_assoc] using hcheck
  rcases h with h | h
  · exact hdigit (List.getElem?_eq_some_iff.1 h).1 (by simp [List.getD_eq_getElem?_getD, h])
  · exact hdigit (List.getElem?_eq_some_iff.1 h).1 (by simp [List.getD_eq_getElem?_getD, h])

theorem letter_spec : ∀ x ∈ letters, letter x.1 = some x.2 ∧ x.1 ≠ 0 := by
  have hall : letters.all (fun x => letter x.1 = some x.2 ∧ x.1 ≠ 0) = true := by decide
  intro x hx
  simpa using List.all_eq_true.1 hall x hx

theorem encodesByte_ne_zero {b : Byte} {e : List Byte} (h : EncodesByte b e) : 0 ∉ e := by
  cases h with
  | self _ hb => simpa using hb.symm
  | octal hi hj hk _ =>
    have hi' := (octalChar_spec _ hi).2.2
    have hj' := (octalChar_spec _ hj).2.2
    have hk' := (octalChar_spec _ hk).2.2
    simp [backslash, hi'.symm, hj'.symm, hk'.symm]
  | hex hh hl _ =>
    have hh' := (hexDigit_spec hh).2.2
    have hl' := (hexDigit_spec hl).2.2
    simp [backslash, hh'.symm, hl'.symm]
  | letter hc =>
    have hc' := (letter_spec _ hc).2
    simp [backslash, hc'.symm]

/-- What a byte is written as is one turn, whatever follows. -/
theorem turn_encodesByte {b : Byte} {e : List Byte} (h : EncodesByte b e) (s : List Byte) :
    turn (e ++ s) = some (.put [b] s) := by
  cases h with
  | self hb h0 => simp [turn, hb, h0]
  | @octal i j k hi hj hk hval =>
    obtain ⟨hio, hiv, -⟩ := octalChar_spec _ hi
    obtain ⟨hjo, hjv, -⟩ := octalChar_spec _ hj
    obtain ⟨hko, hkv, -⟩ := octalChar_spec _ hk
    have hnum : i * 64 + j * 8 + k = (i * 8 + j) * 8 + k := by omega
    have hb : (UInt8.ofNat i * 8 + UInt8.ofNat j) * 8 + UInt8.ofNat k = b := by
      rw [← UInt8.ofNat_toNat (x := b), hval, hnum, UInt8.ofNat_add, UInt8.ofNat_mul, UInt8.ofNat_add, UInt8.ofNat_mul]
      rfl
    have hdigits : octal (octalChar i) (octalChar j :: octalChar k :: s) = some (.put [b] s) := by
      simp [octal, octalDigit, hjo, hko, hiv, hjv, hkv, hb]
    have hescape : escape 48 (octalChar i :: octalChar j :: octalChar k :: s) = some (.put [b] s) := by
      rw [← hdigits]
      simp [escape, letter, backslash, hio]
    rw [← hescape]
    rfl
  | @hex i j h l hh hl hval =>
    obtain ⟨hhx, hhv, -⟩ := hexDigit_spec hh
    obtain ⟨hlx, hlv, -⟩ := hexDigit_spec hl
    have hb : UInt8.ofNat i * 16 + UInt8.ofNat j = b := by
      rw [← UInt8.ofNat_toNat (x := b), hval, UInt8.ofNat_add, UInt8.ofNat_mul]
      rfl
    have hdigits : hex (h :: l :: s) = some (.put [b] s) := by
      simp [hex, hhx, hlx, hhv, hlv, hb]
    rw [← hdigits]
    rfl
  | @letter c hc =>
    obtain ⟨hletter, h0⟩ := letter_spec _ hc
    simp only at hletter h0
    have hescape : escape c s = some (.put [b] s) := by rw [escape, hletter]
    rw [← hescape]
    simp [turn, backslash, h0]

theorem encodes_ne_zero {bs enc : List Byte} (h : Encodes bs enc) : 0 ∉ enc := by
  induction h with
  | nil => exact List.not_mem_nil
  | cons hb _ ih =>
    rw [List.mem_append]
    exact not_or.2 ⟨encodesByte_ne_zero hb, ih⟩

/-- The loop prints what was encoded. -/
theorem v9_encodes {bs enc : List Byte} (h : Encodes bs enc) : v9 (cstring enc) = some (bs, false) := by
  induction h with
  | nil => decide
  | @cons b e bs t hb _ ih =>
    have hturn : turn (cstring (e ++ t)) = some (.put [b] (cstring t)) := by
      rw [cstring, List.append_assoc, turn_encodesByte hb]
      rfl
    rw [v9_put (ahead_cstring _) hturn, ih]
    rfl

/-! ## Options before the encoding -/

theorem validOptions_cstring {temp : List Byte} (h : 0 ∉ temp) : validOptions (cstring temp) = some (temp.all isOption) := by
  induction temp with
  | nil => rfl
  | cons c temp ih =>
    obtain ⟨hc, htemp⟩ := not_or.1 (mt List.mem_cons.2 h)
    rw [cstring, List.cons_append, validOptions, if_neg (Ne.symm hc), List.all_cons]
    by_cases hopt : isOption c = true
    · rw [if_pos hopt, hopt, Bool.true_and]
      exact ih htemp
    · simp [hopt]

theorem handleOptions_displayReturn {p : List Byte} {flags flags' : Flags} (h : handleOptions flags p = some flags')
    (hn : flags.displayReturn = false) : flags'.displayReturn = false := by
  induction p generalizing flags with
  | nil => cases h
  | cons c p ih =>
    rw [handleOptions] at h
    split at h
    · obtain rfl := Option.some.inj h
      exact hn
    split at h
    · exact ih h hn
    split at h
    · exact ih h hn
    split at h
    · exact ih h rfl
    · exact ih h hn

/-- An argument is taken for options, or it stays. -/
theorem options_word {enc : List Byte} (h : 0 ∉ enc) {flags : Flags} (hn : flags.displayReturn = false) :
    ∃ flags', flags'.displayReturn = false ∧
      options flags [enc] = some (if isOptionWord enc then (flags', []) else (flags, [enc])) := by
  cases enc with
  | nil => exact ⟨flags, hn, by simp [options, cstring, isOptionWord]⟩
  | cons c temp =>
    obtain ⟨hc, htemp⟩ := not_or.1 (mt List.mem_cons.2 h)
    have hcons : cstring (c :: temp) = c :: cstring temp := rfl
    by_cases hdash : c = 45
    · subst hdash
      obtain ⟨flags', hflags'⟩ := handleOptions_ahead (ahead_cstring temp) flags
      refine ⟨flags', handleOptions_displayReturn hflags' hn, ?_⟩
      have hvalid := validOptions_cstring htemp
      cases temp with
      | nil =>
        have hnull : validOptions (cstring []) = some true := rfl
        simp [options, hcons, hnull, isOptionWord]
        rfl
      | cons d temp =>
        have hd : d ≠ 0 := fun h0 => htemp (h0 ▸ List.mem_cons_self)
        have hhead : (cstring (d :: temp)).head? = some d := rfl
        cases hall : (d :: temp).all isOption with
        | false =>
          rw [hall] at hvalid
          simp only [List.all_cons] at hall
          simp [options, hcons, hvalid, isOptionWord, hall]
        | true =>
          rw [hall] at hvalid
          simp only [List.all_cons] at hall
          simp [options, hcons, hvalid, hhead, hd, hflags', isOptionWord, hall]
    · exact ⟨flags, hn, by simp [options, hcons, isOptionWord, hdash]⟩

/-- `-ne` in front. -/
theorem options_ne (argv : List (List Byte)) (flags : Flags) :
    options flags (bytes "-ne" :: argv) = options ⟨true, false⟩ argv := rfl

/-- `echo -ne` prints the bytes that an encoding stands for, or nothing when it takes the encoding for options; no argument is
ever read beyond its null; and a backslash that begins no escape is printed, with the loop going on behind it. -/
theorem echo_encoding :
    (∀ b enc, Encodes b enc →
      echo false [bytes "-ne", enc] = some (.printed (if isOptionWord enc then [] else b))) ∧
    (∀ posixlyCorrect args, ∃ r, echo posixlyCorrect args = some r) ∧
    ∀ post, BeginsEscape post = false →
      v9 (cstring (backslash :: post)) = (v9 (cstring post)).map fun r => (backslash :: r.1, r.2) := by
  refine ⟨fun b enc h => ?_, echo_some, fun post => v9_literal⟩
  obtain ⟨flags', hn, hoptions⟩ := options_word (encodes_ne_zero h) (show (Flags.mk true false).displayReturn = false from rfl)
  have hwords : echo false [bytes "-ne", enc] = echoWords true [bytes "-ne", enc] := rfl
  rw [hwords, echoWords, if_pos rfl, options_ne, hoptions, Option.bind_eq_bind, Option.bind_some]
  by_cases hopt : isOptionWord enc = true
  · rw [if_pos hopt, if_pos hopt]
    cases hv9 : flags'.doV9 with
    | true => simp [justEcho, hv9, echoV9, hn]
    | false => simp [justEcho, hv9, echoPlain, hn]
  · rw [if_neg hopt, if_neg hopt]
    simp [justEcho, echoV9, v9_encodes h]

theorem echo_encoding_hex : echo false [bytes "-ne", bytes "\\x41\\0102c"] = some (.printed (bytes "ABc")) := by
  have hA : EncodesByte 65 (bytes "\\x41") := .hex (i := 4) (j := 1) (.inl rfl) (.inl rfl) (by decide)
  have hB : EncodesByte 66 (bytes "\\0102") :=
    .octal (i := 1) (j := 0) (k := 2) (by decide) (by decide) (by decide) (by decide)
  have hc : EncodesByte 99 (bytes "c") := .self (by decide) (by decide)
  exact (echo_encoding.1 _ _ (.cons hA (.cons hB (.cons hc .nil)))).trans (by decide)

/-- The encoding `-n` of the bytes `-n` is taken for an option; and with `POSIXLY_CORRECT` the word `-ne` is not. -/
theorem echo_encoding_option : Encodes (bytes "-n") (bytes "-n") ∧
    echo false [bytes "-ne", bytes "-n"] = some (.printed []) ∧
    echo true [bytes "-ne", bytes "a"] = some (.printed (bytes "-ne a\n")) := by
  have hdash : EncodesByte 45 [45] := .self (by decide) (by decide)
  have hn : EncodesByte 110 [110] := .self (by decide) (by decide)
  exact ⟨.cons hdash (.cons hn .nil), by decide, by decide⟩

end CodingExercises.Coreutils.Echo
