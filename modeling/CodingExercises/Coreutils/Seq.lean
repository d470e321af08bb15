import CodingExercises.Coreutils.FileNameConcat
import CodingExercises.Coreutils.ModeChange

/-!
# coreutils: the format of seq

`long_double_format` of `src/seq.c`, which gives the directive of the format an `L`, with an access outside of a string as a
fault.

- A format whose directive has no `L` is taken, and the new one is right (`longDoubleFormat_text`);
- what is not a format is refused (`longDoubleFormat_other`);
- but the step over an `L` that is there is missing, so a format that has one is refused too (`longDoubleFormat_iff`).
-/

namespace CodingExercises.Coreutils.Seq

/-- How the program ends; that it goes on without an end is one of these, and so is an access outside of a string. -/
inductive Stop
  | noDirective
  | endsInPercent
  | unknownDirective (c : Byte)
  | tooManyDirectives
  | memoryExhausted
  | access
  | endless
deriving DecidableEq

/-- The format for a `long double`, the storage it is in and its `struct layout`. -/
structure LongFormat where
  cells : List (Option Byte)
  prefixLen : ℕ
  suffixLen : ℕ
deriving DecidableEq

/-! ## Strings -/

/-- `s[i]`, the NUL included. -/
def byteAt (s : List Byte) (i : ℕ) : Except Stop Byte :=
  if i ≤ s.length then .ok (s.getD i 0) else .error .access

/-- The string that a pointer to `s[i]` is. -/
def stringAt (s : List Byte) (i : ℕ) : Except Stop (List Byte) :=
  if i ≤ s.length then .ok (s.drop i) else .error .access

/-- The number of bytes that `strspn` finds from `s[i]` on. -/
def strspn (s : List Byte) (i : ℕ) (accept : List Byte) : Except Stop ℕ :=
  (stringAt s i).map fun s => (s.takeWhile (· ∈ accept)).length

/-- The first bytes of a string, for `memcpy`. -/
def bytesOf (s : List Byte) (n : ℕ) : Except Stop (List Byte) :=
  if n ≤ s.length + 1 then .ok ((s ++ [0]).take n) else .error .access

/-- A store of bytes. -/
def store (cells : List (Option Byte)) (p : ℕ) (src : List Byte) : Except Stop (List (Option Byte)) :=
  match storeAt cells p src with
  | some cells => .ok cells
  | none => .error .access

/-! ## long_double_format -/

/-- `'%'`. -/
def percent : Byte := 37

/-- `'.'`. -/
def dot : Byte := 46

/-- `'L'`. -/
def letterL : Byte := 76

/-- `"-+#0 '"`. -/
def flagBytes : List Byte := [45, 43, 35, 48, 32, 39]

/-- `"0123456789"`. -/
def digitBytes : List Byte := [48, 49, 50, 51, 52, 53, 54, 55, 56, 57]

/-- `"efgaEFGA"`. -/
def conversions : List Byte := [101, 102, 103, 97, 69, 70, 71, 65]

/-- `fmt[i] == '%' && fmt[i + 1] != '%'`. -/
def atDirective (fmt : List Byte) (i : ℕ) : Except Stop Bool := do
  if (← byteAt fmt i) = percent then
    return (← byteAt fmt (i + 1)) ≠ percent
  else return false

/-- `i += (fmt[i] == '%') + 1`. -/
def advance (i : ℕ) (c : Byte) : ℕ := i + ((if c = percent then 1 else 0) + 1)

/-- The loop for the bytes before the directive: where it ends, and `prefix_len`. -/
def prefixLoop (fmt : List Byte) : ℕ → ℕ → ℕ → Except Stop (ℕ × ℕ)
  | 0, _, _ => .error .endless
  | fuel + 1, i, prefixLen => do
    if ← atDirective fmt i then return (i, prefixLen)
    else
      let c ← byteAt fmt i
      if c = 0 then .error .noDirective else prefixLoop fmt fuel (advance i c) (prefixLen + 1)

/-- The flags, the width and the precision behind the `%`. -/
def skipOptions (fmt : List Byte) (i : ℕ) : Except Stop ℕ := do
  let i := i + (← strspn fmt i flagBytes)
  let i := i + (← strspn fmt i digitBytes)
  if (← byteAt fmt i) = dot then
    let i := i + 1
    return i + (← strspn fmt i digitBytes)
  else return i

/-- The loop for the bytes behind the directive. -/
def suffixLoop (fmt : List Byte) : ℕ → ℕ → ℕ → Except Stop (ℕ × ℕ)
  | 0, _, _ => .error .endless
  | fuel + 1, i, suffixLen => do
    if ← atDirective fmt i then .error .tooManyDirectives
    else
      let c ← byteAt fmt i
      if c ≠ 0 then suffixLoop fmt fuel (advance i c) (suffixLen + 1) else return (i, suffixLen)

/-- The new format; `malloc` tells whether there is memory for it. -/
def rewritten (malloc : Bool) (fmt : List Byte) (i lengthModifierOffset hasL : ℕ) : Except Stop (List (Option Byte)) := do
  let formatSize := i + 1
  if malloc then
    let ldfmt := List.replicate (formatSize + 1) none
    let ldfmt ← store ldfmt 0 (← bytesOf fmt lengthModifierOffset)
    let ldfmt ← store ldfmt lengthModifierOffset [letterL]
    store ldfmt (lengthModifierOffset + 1) ((← stringAt fmt (lengthModifierOffset + hasL)) ++ [0])
  else .error .memoryExhausted

/-- `long_double_format` from the length modifier on. -/
def convert (malloc : Bool) (fmt : List Byte) (prefixLen i : ℕ) : Except Stop LongFormat := do
  let lengthModifierOffset := i
  let c ← byteAt fmt i
  let hasL := if c = letterL then 1 else 0
  if c = 0 then .error .endsInPercent
  else if c ∉ conversions then .error (.unknownDirective c)
  else
    let (i, suffixLen) ← suffixLoop fmt (fmt.length + 1) (i + 1) 0
    return ⟨← rewritten malloc fmt i lengthModifierOffset hasL, prefixLen, suffixLen⟩

/-- `long_double_format`. -/
def longDoubleFormat (malloc : Bool) (fmt : List Byte) : Except Stop LongFormat := do
  let (i, prefixLen) ← prefixLoop fmt (fmt.length + 1) 0 0
  convert malloc fmt prefixLen (← skipOptions fmt (i + 1))

/-! ## Formats -/

/-- Bytes without a directive, and what `printf` writes for them. -/
inductive Literal : List Byte → List Byte → Prop
  | nil : Literal [] []
  | char {c : Byte} {text out : List Byte} : c ≠ 0 → c ≠ percent → Literal text out → Literal (c :: text) (c :: out)
  | pair {text out : List Byte} : Literal text out → Literal (percent :: percent :: text) (percent :: out)

/-- A directive up to its length modifier: the flags, the width, and the digits behind the point if there is one. -/
structure Directive where
  flags : List Byte
  width : List Byte
  precision : Option (List Byte)
  flags_mem : ∀ c ∈ flags, c ∈ flagBytes
  width_mem : ∀ c ∈ width, c ∈ digitBytes
  precision_mem : ∀ p ∈ precision, ∀ c ∈ p, c ∈ digitBytes

/-- The point and the digits behind it. -/
def precisionText : Option (List Byte) → List Byte
  | some digits => dot :: digits
  | none => []

/-- What stands between the `%` and the length modifier. -/
def Directive.text (d : Directive) : List Byte := d.flags ++ (d.width ++ precisionText d.precision)

/-- A format with one directive, in literal bytes. -/
structure Format where
  before : List Byte
  writtenBefore : List Byte
  directive : Directive
  hasL : Bool
  conversion : Byte
  behind : List Byte
  writtenBehind : List Byte
  literal_before : Literal before writtenBefore
  conversion_mem : conversion ∈ conversions
  literal_behind : Literal behind writtenBehind

/-- The format as it is written. -/
def Format.text (f : Format) : List Byte :=
  f.before ++ percent :: f.directive.text ++ ((if f.hasL then [letterL] else []) ++ f.conversion :: f.behind)

/-- The format with its one `L`. -/
def Format.long (f : Format) : List Byte :=
  f.before ++ percent :: f.directive.text ++ letterL :: f.conversion :: f.behind

/-- What `long_double_format` has to do with a string. -/
structure Meets (fmt : List Byte) : Prop where
  inside : ∀ malloc, longDoubleFormat malloc fmt ≠ .error .access
  ends : ∀ malloc, longDoubleFormat malloc fmt ≠ .error .endless
  accepts : (∃ r, longDoubleFormat true fmt = .ok r) ↔ ∃ f : Format, f.text = fmt
  result : ∀ f : Format, f.text = fmt → ∀ r, longDoubleFormat true fmt = .ok r →
    r = ⟨(f.long ++ [0]).map some, f.writtenBefore.length, f.writtenBehind.length⟩

/-! ## Reading -/

theorem byteAt_head (pre rest : List Byte) : byteAt (pre ++ rest) pre.length = .ok (rest.headD 0) := by
  rw [byteAt, if_pos (List.length_append ▸ Nat.le_add_right _ _)]
  cases rest <;> simp

theorem stringAt_head (pre rest : List Byte) : stringAt (pre ++ rest) pre.length = .ok rest := by
  rw [stringAt, if_pos (List.length_append ▸ Nat.le_add_right _ _), List.drop_left]

theorem atDirective_other {rest : List Byte} (pre : List Byte) (h : rest.headD 0 ≠ percent) :
    atDirective (pre ++ rest) pre.length = .ok false := by
  rw [atDirective, byteAt_head]
  simp only [bind, Except.bind, h, if_false]
  rfl

theorem atDirective_percent (pre rest : List Byte) :
    atDirective (pre ++ percent :: rest) pre.length = .ok (rest.headD 0 ≠ percent) := by
  have hnext := byteAt_head (pre ++ [percent]) rest
  rw [List.append_assoc, List.length_append] at hnext
  rw [atDirective, byteAt_head]
  simp only [bind, Except.bind, List.headD_cons, if_true]
  exact hnext ▸ rfl

theorem strspn_head (pre rest accept : List Byte) :
    strspn (pre ++ rest) pre.length accept = .ok (rest.takeWhile (· ∈ accept)).length := by
  rw [strspn, stringAt_head]
  rfl

theorem Literal.length_le {text out : List Byte} (h : Literal text out) : out.length ≤ text.length := by
  induction h with
  | nil => exact le_rfl
  | char _ _ _ ih => exact Nat.succ_le_succ ih
  | pair _ ih => exact (Nat.succ_le_succ ih).trans (Nat.le_succ _)

/-- A loop that goes over a byte or a pair at each turn goes over literal text. -/
theorem Literal.run {α : Type} {fmt : List Byte} (loop : ℕ → ℕ → ℕ → α)
    (hnext : ∀ fuel i k c, atDirective fmt i = .ok false → byteAt fmt i = .ok c → c ≠ 0 →
      loop (fuel + 1) i k = loop fuel (advance i c) (k + 1))
    {text out : List Byte} (h : Literal text out) (fuel : ℕ) :
    ∀ pre rest k, fmt = pre ++ (text ++ rest) →
      loop (out.length + fuel) pre.length k = loop fuel (pre ++ text).length (k + out.length) := by
  induction h with
  | nil =>
    intro pre rest k _
    rw [List.append_nil, List.length_nil, Nat.zero_add, Nat.add_zero]
  | @char c text out hzero hpercent _ ih =>
    intro pre rest k hfmt
    have hat : atDirective fmt pre.length = .ok false := hfmt ▸ atDirective_other pre hpercent
    have hbyte : byteAt fmt pre.length = .ok c := hfmt ▸ byteAt_head pre _
    have hadvance : advance pre.length c = (pre ++ [c]).length := by
      rw [advance, if_neg hpercent, List.length_append, List.length_singleton]
    have hrest := ih (pre ++ [c]) rest (k + 1) (by rw [hfmt, List.append_assoc]; rfl)
    rw [List.length_cons, Nat.succ_add, hnext _ _ _ c hat hbyte hzero, hadvance, hrest, List.append_assoc,
      List.singleton_append, Nat.add_assoc, Nat.add_comm 1]
  | @pair text out _ ih =>
    intro pre rest k hfmt
    have hat : atDirective fmt pre.length = .ok false := hfmt ▸ atDirective_percent pre _
    have hbyte : byteAt fmt pre.length = .ok percent := hfmt ▸ byteAt_head pre _
    have hadvance : advance pre.length percent = (pre ++ [percent, percent]).length := by
      rw [advance, if_pos rfl, List.length_append]
      rfl
    have hrest := ih (pre ++ [percent, percent]) rest (k + 1) (by rw [hfmt, List.append_assoc]; rfl)
    rw [List.length_cons, Nat.succ_add, hnext _ _ _ percent hat hbyte (by decide), hadvance, hrest, List.append_assoc,
      Nat.add_assoc, Nat.add_comm 1]
    rfl

theorem Literal.reaches {α : Type} {fmt : List Byte} (loop : ℕ → ℕ → ℕ → α)
    (hnext : ∀ fuel i k c, atDirective fmt i = .ok false → byteAt fmt i = .ok c → c ≠ 0 →
      loop (fuel + 1) i k = loop fuel (advance i c) (k + 1))
    {text out : List Byte} (h : Literal text out) {n : ℕ} (hn : out.length < n) (pre rest : List Byte)
    (hfmt : fmt = pre ++ (text ++ rest)) :
    ∃ fuel, loop n pre.length 0 = loop (fuel + 1) (pre ++ text).length out.length := by
  have hrun := h.run loop hnext (n - out.length - 1 + 1) pre rest 0 hfmt
  rw [Nat.zero_add, show out.length + (n - out.length - 1 + 1) = n by omega] at hrun
  exact ⟨_, hrun⟩

/-- Every string is literal up to its end, or up to a `%` that does not stand before another one. -/
theorem exists_literal (s : List Byte) (h : 0 ∉ s) :
    ∃ text out rest, Literal text out ∧ s = text ++ rest ∧
      (rest = [] ∨ ∃ more, rest = percent :: more ∧ more.headD 0 ≠ percent) := by
  match s with
  | [] => exact ⟨[], [], [], .nil, rfl, .inl rfl⟩
  | c :: s =>
    rw [List.mem_cons, not_or] at h
    by_cases hc : c = percent
    · subst hc
      match s with
      | [] => exact ⟨[], [], _, .nil, rfl, .inr ⟨[], rfl, by decide⟩⟩
      | d :: s =>
        by_cases hd : d = percent
        · subst hd
          obtain ⟨text, out, rest, htext, rfl, hrest⟩ := exists_literal s fun hmem => h.2 (List.mem_cons_of_mem _ hmem)
          exact ⟨_, _, rest, htext.pair, rfl, hrest⟩
        · exact ⟨[], [], _, .nil, rfl, .inr ⟨_, rfl, hd⟩⟩
    · obtain ⟨text, out, rest, htext, rfl, hrest⟩ := exists_literal s h.2
      exact ⟨_, _, rest, htext.char (Ne.symm h.1) hc, rfl, hrest⟩

/-! ## The loops -/

section

variable {fmt text out more : List Byte} {n : ℕ}

theorem prefixLoop_next (fuel i k : ℕ) (c : Byte) (hat : atDirective fmt i = .ok false) (hbyte : byteAt fmt i = .ok c)
    (hc : c ≠ 0) : prefixLoop fmt (fuel + 1) i k = prefixLoop fmt fuel (advance i c) (k + 1) := by
  rw [prefixLoop, hat, hbyte]
  simp only [bind, Except.bind, hc, if_false, Bool.false_eq_true]

theorem prefixLoop_directive (h : Literal text out) (hn : out.length < n) (hmore : more.headD 0 ≠ percent) :
    prefixLoop (text ++ percent :: more) n 0 0 = .ok (text.length, out.length) := by
  obtain ⟨fuel, hrun⟩ := h.reaches _ prefixLoop_next hn [] (percent :: more) rfl
  refine hrun.trans ?_
  rw [List.nil_append, List.nil_append, prefixLoop, atDirective_percent, decide_eq_true hmore]
  rfl

theorem prefixLoop_end (h : Literal text out) (hn : out.length < n) : prefixLoop text n 0 0 = .error .noDirective := by
  obtain ⟨fuel, hrun⟩ := h.reaches _ prefixLoop_next hn [] [] (List.append_nil _).symm
  have hat := @atDirective_other [] text (by decide)
  have hbyte := byteAt_head text []
  rw [List.append_nil] at hat hbyte
  refine hrun.trans ?_
  rw [List.nil_append, prefixLoop, hat, hbyte]
  rfl

theorem suffixLoop_next (fuel i k : ℕ) (c : Byte) (hat : atDirective fmt i = .ok false) (hbyte : byteAt fmt i = .ok c)
    (hc : c ≠ 0) : suffixLoop fmt (fuel + 1) i k = suffixLoop fmt fuel (advance i c) (k + 1) := by
  rw [suffixLoop, hat, hbyte]
  simp only [bind, Except.bind, if_pos hc, if_false, Bool.false_eq_true]

theorem suffixLoop_directive (h : Literal text out) (hn : out.length < n) (pre : List Byte) (hmore : more.headD 0 ≠ percent) :
    suffixLoop (pre ++ (text ++ percent :: more)) n pre.length 0 = .error .tooManyDirectives := by
  obtain ⟨fuel, hrun⟩ := h.reaches _ suffixLoop_next hn pre (percent :: more) rfl
  rw [hrun, ← List.append_assoc, suffixLoop, atDirective_percent, decide_eq_true hmore]
  rfl

theorem suffixLoop_end (h : Literal text out) (hn : out.length < n) (pre : List Byte) :
    suffixLoop (pre ++ text) n pre.length 0 = .ok ((pre ++ text).length, out.length) := by
  obtain ⟨fuel, hrun⟩ := h.reaches _ suffixLoop_next hn pre [] (by rw [List.append_nil])
  have hat := @atDirective_other [] (pre ++ text) (by decide)
  have hbyte := byteAt_head (pre ++ text) []
  rw [List.append_nil] at hat hbyte
  rw [hrun, suffixLoop, hat, hbyte]
  rfl

end

/-! ## The directive -/

/-- What is left behind the flags, the width and the precision. -/
def afterOptions (s : List Byte) : List Byte :=
  match (s.dropWhile (· ∈ flagBytes)).dropWhile (· ∈ digitBytes) with
  | [] => []
  | c :: s => if c = dot then s.dropWhile (· ∈ digitBytes) else c :: s

/-- What is read from a string is the flags, the width and the precision of a directive. -/
theorem exists_directive (s : List Byte) : ∃ d : Directive, s = d.text ++ afterOptions s := by
  have hflags := List.takeWhile_append_dropWhile (p := (· ∈ flagBytes)) (l := s)
  have hwidth := List.takeWhile_append_dropWhile (p := (· ∈ digitBytes)) (l := s.dropWhile (· ∈ flagBytes))
  have hmem : ∀ (accept l : List Byte), ∀ c ∈ l.takeWhile (· ∈ accept), c ∈ accept := fun accept l c hc =>
    of_decide_eq_true (List.mem_takeWhile_imp (p := (· ∈ accept)) hc)
  have hplain : ∀ rest, (s.dropWhile (· ∈ flagBytes)).dropWhile (· ∈ digitBytes) = rest →
      s = s.takeWhile (· ∈ flagBytes) ++ ((s.dropWhile (· ∈ flagBytes)).takeWhile (· ∈ digitBytes) ++ rest) := by
    rintro rest rfl
    rw [hwidth, hflags]
  rcases hrest : (s.dropWhile (· ∈ flagBytes)).dropWhile (· ∈ digitBytes) with _ | ⟨c, rest⟩
  · refine ⟨⟨_, _, none, hmem _ s, hmem _ (s.dropWhile (· ∈ flagBytes)), nofun⟩, ?_⟩
    rw [afterOptions, hrest]
    simpa [Directive.text, precisionText] using hplain _ hrest
  · by_cases hdot : c = dot
    · refine ⟨⟨_, _, some (rest.takeWhile (· ∈ digitBytes)), hmem _ s, hmem _ (s.dropWhile (· ∈ flagBytes)), ?_⟩, ?_⟩
      · rintro p hp
        obtain rfl := Option.some.inj hp
        exact hmem _ rest
      · rw [afterOptions, hrest]
        simpa [Directive.text, precisionText, hdot, List.takeWhile_append_dropWhile] using hplain _ hrest
    · refine ⟨⟨_, _, none, hmem _ s, hmem _ (s.dropWhile (· ∈ flagBytes)), nofun⟩, ?_⟩
      rw [afterOptions, hrest]
      simpa [Directive.text, precisionText, hdot] using hplain _ hrest

theorem strspn_split (pre s accept : List Byte) :
    ∃ pre' n, strspn (pre ++ s) pre.length accept = .ok n ∧ pre.length + n = pre'.length ∧
      pre ++ s = pre' ++ s.dropWhile (· ∈ accept) := by
  refine ⟨pre ++ s.takeWhile (· ∈ accept), _, strspn_head pre s accept, List.length_append.symm, ?_⟩
  rw [List.append_assoc, List.takeWhile_append_dropWhile]

/-- The code stops where the options end. -/
theorem skipOptions_eq (pre s : List Byte) :
    ∃ pre', skipOptions (pre ++ s) pre.length = .ok pre'.length ∧ pre ++ s = pre' ++ afterOptions s := by
  obtain ⟨pre₁, n₁, hspan₁, hlen₁, heq₁⟩ := strspn_split pre s flagBytes
  obtain ⟨pre₂, n₂, hspan₂, hlen₂, heq₂⟩ := strspn_split pre₁ (s.dropWhile (· ∈ flagBytes)) digitBytes
  rw [skipOptions, hspan₁]
  simp only [bind, Except.bind, hlen₁]
  rw [heq₁, hspan₂]
  simp only [hlen₂]
  rw [heq₂, byteAt_head, afterOptions]
  rcases (s.dropWhile (· ∈ flagBytes)).dropWhile (· ∈ digitBytes) with _ | ⟨c, rest⟩
  · exact ⟨pre₂, rfl, rfl⟩
  · by_cases hdot : c = dot
    · subst hdot
      obtain ⟨pre₃, n₃, hspan₃, hlen₃, heq₃⟩ := strspn_split (pre₂ ++ [dot]) rest digitBytes
      rw [List.append_assoc, List.singleton_append] at hspan₃ heq₃
      rw [List.length_append, List.length_singleton] at hspan₃ hlen₃
      refine ⟨pre₃, ?_, heq₃⟩
      simp only [List.headD_cons, if_true, hspan₃]
      exact congrArg Except.ok hlen₃
    · simp only [List.headD_cons, hdot, if_false]
      exact ⟨pre₂, rfl, rfl⟩

/-- Digits and flags that are read one after the other: a zero is both. -/
theorem dropWhile_width {width next : List Byte} (hwidth : ∀ c ∈ width, c ∈ digitBytes)
    (hflag : next.headD 0 ∉ flagBytes) (hdigit : next.headD 0 ∉ digitBytes) :
    ((width ++ next).dropWhile (· ∈ flagBytes)).dropWhile (· ∈ digitBytes) = next := by
  have hstop : ∀ accept : List Byte, next.headD 0 ∉ accept → next.dropWhile (· ∈ accept) = next := by
    intro accept hhead
    cases next with
    | nil => rfl
    | cons c next => exact List.dropWhile_cons_of_neg (by simpa using hhead)
  induction width with
  | nil => rw [List.nil_append, hstop _ hflag, hstop _ hdigit]
  | cons w width ih =>
    have hrest : ∀ c ∈ width, c ∈ digitBytes := fun c hc => hwidth c (List.mem_cons_of_mem _ hc)
    rw [List.cons_append]
    by_cases hw : w ∈ flagBytes
    · rw [List.dropWhile_cons_of_pos (p := (· ∈ flagBytes)) (decide_eq_true hw), ih hrest]
    · rw [List.dropWhile_cons_of_neg (by simpa using hw), ← List.cons_append,
        List.dropWhile_append_of_pos fun c hc => decide_eq_true (hwidth c hc), hstop _ hdigit]

/-- Behind a directive the code finds what comes behind it. -/
theorem afterOptions_text (d : Directive) {c : Byte} (rest : List Byte) (hflag : c ∉ flagBytes) (hdigit : c ∉ digitBytes)
    (hdot : c ≠ dot) : afterOptions (d.text ++ c :: rest) = c :: rest := by
  have hflags : ∀ next, (d.flags ++ next).dropWhile (· ∈ flagBytes) = next.dropWhile (· ∈ flagBytes) := fun next =>
    List.dropWhile_append_of_pos fun c hc => decide_eq_true (d.flags_mem c hc)
  rw [Directive.text, List.append_assoc, List.append_assoc, afterOptions, hflags]
  rcases hprecision : d.precision with _ | digits
  · rw [precisionText, List.nil_append, @dropWhile_width _ (c :: rest) d.width_mem hflag hdigit]
    exact if_neg hdot
  · have hdigits : ∀ c ∈ digits, c ∈ digitBytes := d.precision_mem _ hprecision
    rw [precisionText, List.cons_append,
      @dropWhile_width _ (dot :: _) d.width_mem (show dot ∉ flagBytes by decide) (show dot ∉ digitBytes by decide)]
    simp only [if_true]
    rw [List.dropWhile_append_of_pos fun c hc => decide_eq_true (hdigits c hc),
      List.dropWhile_cons_of_neg (by simpa using hdigit)]

/-! ## The new format -/

/-- A store behind what is there already. -/
theorem store_next (a src : List Byte) {n : ℕ} (h : src.length ≤ n) :
    store (a.map some ++ List.replicate n none) a.length src =
      .ok ((a ++ src).map some ++ List.replicate (n - src.length) none) := by
  have hstore := storeAt_append a [] src (n := n) (by rwa [List.length_nil, Nat.zero_add])
  rw [List.append_nil, List.drop_nil, List.append_nil, List.length_nil, Nat.sub_zero] at hstore
  rw [store, hstore]

/-- The storage has just the cells of the new format, which keeps the conversion behind the `L`. -/
theorem rewritten_eq (before behind : List Byte) :
    rewritten true (before ++ behind) (before ++ behind).length before.length 0 =
      .ok ((before ++ letterL :: behind ++ [0]).map some) := by
  have hbytes : bytesOf (before ++ behind) before.length = .ok before := by
    rw [bytesOf, if_pos (by rw [List.length_append]; omega), List.append_assoc, List.take_left]
  have hfirst : store (List.replicate ((before ++ behind).length + 1 + 1) none) 0 before =
      .ok (before.map some ++ List.replicate (behind.length + 1 + 1) none) := by
    have hstore := store_next [] before (n := (before ++ behind).length + 1 + 1) (by rw [List.length_append]; omega)
    rwa [List.length_append, show before.length + behind.length + 1 + 1 - before.length = behind.length + 1 + 1 by omega,
      ← List.length_append] at hstore
  have hletter := store_next before [letterL] (n := behind.length + 1 + 1) (by rw [List.length_singleton]; omega)
  have hrest := store_next (before ++ [letterL]) (behind ++ [0]) (n := behind.length + 1) (by rw [List.length_append]; rfl)
  rw [List.length_append, List.length_singleton] at hrest
  simp only [rewritten, if_true, bind, Except.bind, hbytes, hfirst, hletter, List.length_singleton, Nat.add_zero,
    stringAt_head, Nat.add_sub_cancel, hrest]
  simp

/-! ## What the function does -/

section

variable {before behind more out : List Byte} {c : Byte}

theorem longDoubleFormat_convert (malloc : Bool) (h : Literal before out) (hmore : more.headD 0 ≠ percent) :
    ∃ pre, before ++ percent :: more = pre ++ afterOptions more ∧
      longDoubleFormat malloc (before ++ percent :: more) = convert malloc (before ++ percent :: more) out.length pre.length := by
  have hlt : out.length < (before ++ percent :: more).length + 1 := by
    rw [List.length_append]
    have := h.length_le
    omega
  have hloop := prefixLoop_directive h hlt hmore
  obtain ⟨pre, hskip, heq⟩ := skipOptions_eq (before ++ [percent]) more
  rw [List.append_assoc, List.length_append, List.singleton_append, List.length_singleton] at hskip
  rw [List.append_assoc, List.singleton_append] at heq
  refine ⟨pre, heq, ?_⟩
  simp only [longDoubleFormat, hloop, bind, Except.bind, hskip]

theorem longDoubleFormat_literal (malloc : Bool) (h : Literal before out) :
    longDoubleFormat malloc before = .error .noDirective := by
  rw [longDoubleFormat, prefixLoop_end h (h.length_le.trans_lt (Nat.lt_succ_self _))]
  rfl

theorem convert_end (malloc : Bool) (pre : List Byte) (k : ℕ) : convert malloc pre k pre.length = .error .endsInPercent := by
  have hbyte := byteAt_head pre []
  rw [List.append_nil] at hbyte
  rw [convert, hbyte]
  rfl

theorem convert_unknown (malloc : Bool) (pre rest : List Byte) (k : ℕ) (hzero : c ≠ 0) (hc : c ∉ conversions) :
    convert malloc (pre ++ c :: rest) k pre.length = .error (.unknownDirective c) := by
  simp only [convert, byteAt_head, bind, Except.bind, List.headD_cons, if_neg hzero, if_pos hc]

/-- From a conversion that is known on, what the loop behind it finds decides. -/
theorem convert_known (malloc : Bool) (pre rest : List Byte) (k : ℕ) (hc : c ∈ conversions) :
    convert malloc (pre ++ c :: rest) k pre.length =
      (suffixLoop (pre ++ c :: rest) ((pre ++ c :: rest).length + 1) (pre.length + 1) 0).bind fun r =>
        (rewritten malloc (pre ++ c :: rest) r.1 pre.length 0).map fun cells => ⟨cells, k, r.2⟩ := by
  have hzero : c ≠ 0 := by
    rintro rfl
    exact absurd hc (by decide)
  have hL : c ≠ letterL := by
    rintro rfl
    exact absurd hc (by decide)
  simp only [convert, byteAt_head, bind, Except.bind, List.headD_cons, if_neg hzero, if_neg hL, if_neg (not_not.mpr hc)]
  rfl

theorem convert_tooMany (malloc : Bool) (pre : List Byte) (k : ℕ) (hc : c ∈ conversions) (h : Literal behind out)
    (hmore : more.headD 0 ≠ percent) :
    convert malloc (pre ++ c :: (behind ++ percent :: more)) k pre.length = .error .tooManyDirectives := by
  have hlt : out.length < (pre ++ c :: (behind ++ percent :: more)).length + 1 := by
    rw [List.length_append, List.length_cons, List.length_append]
    have := h.length_le
    omega
  have hloop := suffixLoop_directive h hlt (pre ++ [c]) hmore
  have hplace : (pre ++ [c]).length = pre.length + 1 := List.length_append
  rw [List.append_assoc, List.singleton_append, hplace] at hloop
  rw [convert_known _ _ _ _ hc, hloop]
  rfl

theorem convert_ok (malloc : Bool) (pre : List Byte) (k : ℕ) (hc : c ∈ conversions) (h : Literal behind out) :
    convert malloc (pre ++ c :: behind) k pre.length =
      if malloc then .ok ⟨((pre ++ letterL :: c :: behind) ++ [0]).map some, k, out.length⟩ else .error .memoryExhausted := by
  have hlt : out.length < (pre ++ c :: behind).length + 1 := by
    rw [List.length_append, List.length_cons]
    have := h.length_le
    omega
  have hloop := suffixLoop_end h hlt (pre ++ [c])
  have hplace : (pre ++ [c]).length = pre.length + 1 := List.length_append
  rw [List.append_assoc, List.singleton_append, hplace] at hloop
  rw [convert_known _ _ _ _ hc, hloop]
  cases malloc with
  | false => rfl
  | true =>
    simp only [Except.bind, rewritten_eq]
    rfl

end

/-! ## Formats and other strings -/

theorem Directive.percent_notMem (d : Directive) : percent ∉ d.text := by
  have hdigit : percent ∉ digitBytes := by decide
  have hprecision : percent ∉ precisionText d.precision := by
    rcases hp : d.precision with _ | digits
    · exact List.not_mem_nil
    · exact fun hmem => (List.mem_cons.mp hmem).elim (by decide) fun hmem => hdigit (d.precision_mem _ hp _ hmem)
  rw [Directive.text, List.mem_append, List.mem_append, not_or, not_or]
  exact ⟨fun hmem => absurd (d.flags_mem _ hmem) (by decide), fun hmem => hdigit (d.width_mem _ hmem), hprecision⟩

/-- What comes behind the `%` of a directive is no `%`. -/
theorem Directive.head_ne (d : Directive) {c : Byte} (rest : List Byte) (hc : c ≠ percent) :
    (d.text ++ c :: rest).headD 0 ≠ percent := by
  rcases htext : d.text with _ | ⟨b, text⟩
  · exact hc
  · rintro rfl
    exact d.percent_notMem (htext ▸ List.mem_cons_self)

/-- A directive with a letter behind its options. -/
theorem longDoubleFormat_letter (malloc : Bool) {before out : List Byte} (h : Literal before out) (d : Directive) {c : Byte}
    (rest : List Byte) (hflag : c ∉ flagBytes) (hdigit : c ∉ digitBytes) (hdot : c ≠ dot) (hpercent : c ≠ percent) :
    longDoubleFormat malloc (before ++ percent :: (d.text ++ c :: rest)) =
      convert malloc (before ++ percent :: d.text ++ c :: rest) out.length (before ++ percent :: d.text).length := by
  obtain ⟨pre, heq, hconvert⟩ := longDoubleFormat_convert malloc h (d.head_ne rest hpercent)
  have hfmt : before ++ percent :: (d.text ++ c :: rest) = before ++ percent :: d.text ++ c :: rest := by
    rw [List.append_assoc, List.cons_append]
  rw [afterOptions_text d rest hflag hdigit hdot] at heq
  obtain rfl := List.append_cancel_right (hfmt.symm.trans heq)
  rw [hconvert, hfmt]

/-- Of the formats just those without an `L` are taken. -/
theorem longDoubleFormat_text (malloc : Bool) (f : Format) :
    longDoubleFormat malloc f.text =
      if f.hasL then .error (.unknownDirective letterL)
      else if malloc then .ok ⟨(f.long ++ [0]).map some, f.writtenBefore.length, f.writtenBehind.length⟩
      else .error .memoryExhausted := by
  have hletters : ∀ c ∈ conversions, c ∉ flagBytes ∧ c ∉ digitBytes ∧ c ≠ dot ∧ c ≠ percent := by
    simp [conversions, flagBytes, digitBytes, dot, percent]
  rcases hL : f.hasL with _ | _
  · obtain ⟨hflag, hdigit, hdot, hpercent⟩ := hletters _ f.conversion_mem
    have hletter := longDoubleFormat_letter malloc f.literal_before f.directive f.behind hflag hdigit hdot hpercent
    rw [convert_ok _ _ _ f.conversion_mem f.literal_behind] at hletter
    simpa [Format.text, hL, Format.long] using hletter
  · have hletter := longDoubleFormat_letter malloc f.literal_before f.directive (c := letterL) (f.conversion :: f.behind)
      (by decide) (by decide) (by decide) (by decide)
    rw [convert_unknown _ _ _ _ (by decide) (by decide)] at hletter
    simpa [Format.text, hL] using hletter

/-- What is no format ends in a message. -/
theorem longDoubleFormat_other (malloc : Bool) {fmt : List Byte} (hfmt : 0 ∉ fmt) (hother : ∀ f : Format, f.text ≠ fmt) :
    ∃ e, longDoubleFormat malloc fmt = .error e ∧ e ≠ .access ∧ e ≠ .endless := by
  obtain ⟨before, out, rest, hbefore, rfl, rfl | ⟨more, rfl, hmore⟩⟩ := exists_literal fmt hfmt
  · rw [List.append_nil]
    exact ⟨.noDirective, longDoubleFormat_literal malloc hbefore, nofun, nofun⟩
  obtain ⟨pre, heq, hconvert⟩ := longDoubleFormat_convert malloc hbefore hmore
  obtain ⟨d, hd⟩ := exists_directive more
  rcases hrest : afterOptions more with _ | ⟨c, rest⟩
  · rw [hrest, List.append_nil] at heq
    rw [heq] at hconvert ⊢
    exact ⟨.endsInPercent, hconvert.trans (convert_end malloc pre _), nofun, nofun⟩
  rw [hrest] at heq hd
  rw [heq] at hconvert hfmt
  have hnul : c ≠ 0 ∧ 0 ∉ rest := by
    refine ⟨?_, fun hmem => hfmt (List.mem_append_right _ (List.mem_cons_of_mem _ hmem))⟩
    rintro rfl
    exact hfmt (List.mem_append_right _ List.mem_cons_self)
  rw [heq]
  by_cases hc : c ∈ conversions
  · obtain ⟨behind, outBehind, last, hbehind, rfl, rfl | ⟨more', rfl, hmore'⟩⟩ := exists_literal rest hnul.2
    · refine absurd ?_ (hother ⟨before, out, d, false, c, behind, outBehind, hbefore, hc, hbehind⟩)
      rw [hd]
      simp [Format.text]
    · exact ⟨.tooManyDirectives, hconvert.trans (convert_tooMany malloc pre _ hc hbehind hmore'), nofun, nofun⟩
  · exact ⟨.unknownDirective c, hconvert.trans (convert_unknown malloc pre rest _ hnul.1 hc), nofun, nofun⟩

/-- The function does what it has to just with the strings that are no format with an `L` in it. -/
theorem longDoubleFormat_iff (fmt : CString) : Meets fmt.bytes ↔ ¬∃ f : Format, f.text = fmt.bytes ∧ f.hasL = true := by
  constructor
  · rintro hmeets ⟨f, htext, hL⟩
    obtain ⟨r, hr⟩ := hmeets.accepts.mpr ⟨f, htext⟩
    rw [← htext, longDoubleFormat_text, if_pos hL] at hr
    cases hr
  · intro hnone
    have hrun : ∀ malloc, ∀ f : Format, f.text = fmt.bytes → longDoubleFormat malloc fmt.bytes =
        if malloc then .ok ⟨(f.long ++ [0]).map some, f.writtenBefore.length, f.writtenBehind.length⟩
        else .error .memoryExhausted := by
      intro malloc f htext
      rw [← htext, longDoubleFormat_text, if_neg fun hL => hnone ⟨f, htext, hL⟩]
    by_cases hformat : ∃ f : Format, f.text = fmt.bytes
    · obtain ⟨f, htext⟩ := hformat
      refine ⟨?_, ?_, ⟨fun _ => ⟨f, htext⟩, fun _ => ⟨_, hrun true f htext⟩⟩, ?_⟩
      · rintro (_ | _) <;> rw [hrun _ f htext] <;> exact nofun
      · rintro (_ | _) <;> rw [hrun _ f htext] <;> exact nofun
      · intro g hg r hr
        exact (Except.ok.inj ((hrun true g hg).symm.trans hr)).symm
    · have hother : ∀ f : Format, f.text ≠ fmt.bytes := fun f htext => hformat ⟨f, htext⟩
      refine ⟨?_, ?_, ⟨?_, fun h => absurd h hformat⟩, fun f htext => absurd htext (hother f)⟩
      · intro malloc heq
        obtain ⟨e, he, haccess, -⟩ := longDoubleFormat_other malloc fmt.noNul hother
        exact haccess (Except.error.inj (he.symm.trans heq))
      · intro malloc heq
        obtain ⟨e, he, -, hendless⟩ := longDoubleFormat_other malloc fmt.noNul hother
        exact hendless (Except.error.inj (he.symm.trans heq))
      · rintro ⟨r, hr⟩
        obtain ⟨e, he, -⟩ := longDoubleFormat_other true fmt.noNul hother
        cases he.symm.trans hr

/-- `"%Lf"` is refused. -/
theorem not_meets_explicit : ¬∀ fmt : CString, Meets fmt.bytes := by
  intro h
  have hformat : ∃ f : Format, f.text = [percent, letterL, 102] :=
    ⟨⟨[], [], ⟨[], [], none, nofun, nofun, nofun⟩, true, 102, [], [], .nil, by decide, .nil⟩, rfl⟩
  obtain ⟨r, hr⟩ := (h ⟨[percent, letterL, 102], by decide⟩).accepts.mpr hformat
  have hrun : longDoubleFormat true [percent, letterL, 102] = .error (.unknownDirective letterL) := by decide
  cases hrun.symm.trans hr

end CodingExercises.Coreutils.Seq
