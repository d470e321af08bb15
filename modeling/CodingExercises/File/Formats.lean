import Mathlib.Data.List.Basic
import Mathlib.Data.List.TakeWhile

/-!
# file: the formats of descriptions

`check_format_type` and `check_format` of `apprentice.c`, and what `mprint` of `softmagic.c` passes to `file_printf` with a
description that was accepted.

- An accepted description has at most one directive (`count_of_checkFormat`), and `check_fmt` finds no `%s` in it where the
  argument is a number (`matchesFmt_of_checkFormat`).
- The argument has the type that `printf` requires just if the directive is `Clean`: not `%ld` and the like for 32 bits,
  nothing but `d`, `i`, `u`, `x` or `X` behind the `ll` of 64 bits, and no second point (`checkFormat_safe_iff`).
-/

namespace CodingExercises.File

/-- `m->type`. -/
inductive FileType
  | invalid
  | byte
  | short
  | default
  | long
  | string
  | date
  | beshort
  | belong
  | bedate
  | leshort
  | lelong
  | ledate
  | pstring
  | ldate
  | beldate
  | leldate
  | regex
  | bestring16
  | lestring16
  | search
  | medate
  | meldate
  | melong
  | quad
  | lequad
  | bequad
  | qdate
  | leqdate
  | beqdate
  | qldate
  | leqldate
  | beqldate
  | float
  | befloat
  | lefloat
  | double
  | bedouble
  | ledouble
  | beid3
  | leid3
  | indirect
  | qwdate
  | leqwdate
  | beqwdate
  | name
  | use
deriving DecidableEq

/-- `FILE_FMT_NONE` and so on. -/
inductive Fmt
  | none
  | num
  | str
  | quad
  | float
  | double
deriving DecidableEq

/-- `type_tbl`. -/
def typeTbl : List (FileType × String × Fmt) :=
  [(.invalid, "invalid", .none), (.byte, "byte", .num), (.short, "short", .num), (.default, "default", .str),
    (.long, "long", .num), (.string, "string", .str), (.date, "date", .str), (.beshort, "beshort", .num),
    (.belong, "belong", .num), (.bedate, "bedate", .str), (.leshort, "leshort", .num), (.lelong, "lelong", .num),
    (.ledate, "ledate", .str), (.pstring, "pstring", .str), (.ldate, "ldate", .str), (.beldate, "beldate", .str),
    (.leldate, "leldate", .str), (.regex, "regex", .str), (.bestring16, "bestring16", .str),
    (.lestring16, "lestring16", .str), (.search, "search", .str), (.medate, "medate", .str), (.meldate, "meldate", .str),
    (.melong, "melong", .num), (.quad, "quad", .quad), (.lequad, "lequad", .quad), (.bequad, "bequad", .quad),
    (.qdate, "qdate", .str), (.leqdate, "leqdate", .str), (.beqdate, "beqdate", .str), (.qldate, "qldate", .str),
    (.leqldate, "leqldate", .str), (.beqldate, "beqldate", .str), (.float, "float", .float), (.befloat, "befloat", .float),
    (.lefloat, "lefloat", .float), (.double, "double", .double), (.bedouble, "bedouble", .double),
    (.ledouble, "ledouble", .double), (.leid3, "leid3", .num), (.beid3, "beid3", .num), (.indirect, "indirect", .num),
    (.qwdate, "qwdate", .str), (.leqwdate, "leqwdate", .str), (.beqwdate, "beqwdate", .str), (.name, "name", .none),
    (.use, "use", .none)]

/-- `file_formats`. -/
def fileFormats (t : FileType) : Fmt := ((typeTbl.lookup t).map (·.2)).getD .none

/-- `file_names`. -/
def fileNames (t : FileType) : String := ((typeTbl.lookup t).map (·.1)).getD ""

/-- The fields of an entry that say what is printed for it. -/
structure Magic where
  type : FileType
  desc : List Char
deriving DecidableEq

/-! ## `check_format` -/

/-- `if(*ptr == c) ptr++`. -/
def skip (c : Char) : List Char → List Char
  | x :: s => if x = c then s else x :: s
  | [] => []

/-- `while(isdigit((unsigned char)*ptr)) ptr++`. -/
def skipDigits (s : List Char) : List Char := s.dropWhile Char.isDigit

/-- Minus, point, digits, point and digits. -/
def scanNum (s : List Char) : List Char := skipDigits (skip '.' (skipDigits (skip '.' (skip '-' s))))

/-- Minus, digits, and a point with digits. -/
def scanStr (s : List Char) : List Char :=
  match skipDigits (skip '-' s) with
  | '.' :: s => skipDigits s
  | s => s

/-- `case 'i': case 'd': case 'u': case 'x': case 'X': return 0`. -/
def checkInteger : List Char → Bool
  | c :: _ => c = 'i' || c = 'd' || c = 'u' || c = 'x' || c = 'X'
  | [] => false

/-- The `switch` of `FILE_FMT_NUM`. -/
def checkNum : List Char → Bool
  | 'l' :: s => checkInteger s
  | 'h' :: 'h' :: s => checkInteger s
  | 'h' :: 'd' :: _ => true
  | 'h' :: _ => false
  | 'c' :: _ => true
  | s => checkInteger s

/-- `check_format_type`: whether it returns 0; with `FILE_FMT_NONE` it aborts. -/
def checkFormatType (ptr : List Char) (type : Fmt) : Option Bool :=
  if ptr = [] then some false
  else
    match type with
    | .quad =>
      match scanNum ptr with
      | 'l' :: 'l' :: s => some (checkNum s)
      | _ => some false
    | .num => some (checkNum (scanNum ptr))
    | .float | .double =>
      match scanNum ptr with
      | c :: _ => some (c = 'e' || c = 'E' || c = 'f' || c = 'F' || c = 'g' || c = 'G')
      | [] => some false
    | .str =>
      match scanStr ptr with
      | c :: _ => some (c = 's')
      | [] => some false
    | .none => none

/-- The warnings of `check_format`, with what is put into their texts. -/
inductive Warning
  | noFormat (desc : List Char) (name : String)
  | notValid (c : Char) (name : String) (desc : List Char)
  | tooMany (name : String) (desc : List Char)
  | aborted
deriving DecidableEq

/-- What stands behind the first `%`. -/
def directive (desc : List Char) : Option (List Char) := (desc.dropWhile (· ≠ '%')).tail?

/-- `check_format`: 1 without a directive, 0 with one, or a warning (for -1). -/
def checkFormat (m : Magic) : Except Warning ℕ :=
  match directive m.desc with
  | none => .ok 1
  | some ptr =>
    if fileFormats m.type = .none then .error (.noFormat m.desc (fileNames m.type))
    else
      match checkFormatType ptr (fileFormats m.type) with
      | none => .error .aborted
      | some false => .error (.notValid (ptr.headD '?') (fileNames m.type) m.desc)
      | some true => if '%' ∈ ptr then .error (.tooMany (fileNames m.type) m.desc) else .ok 0

/-! ## `mprint` -/

/-- The types of an argument, as they are passed: four or eight bytes, `double`, `char *`, or another. -/
inductive CType
  | int32
  | int64
  | double
  | charPtr
  | other
deriving DecidableEq

/-- `[-0-9\.]` of the regular expression. -/
def inRange (c : Char) : Bool := c = '-' || c.isDigit || c = '\\' || c = '.'

/-- `regexec` with `%[-0-9\.]*s`. -/
def matchesFmt : List Char → Bool
  | [] => false
  | c :: s => (c = '%' && (s.dropWhile inRange).head? = some 's') || matchesFmt s

/-- `check_fmt`; `regcomp` may fail. -/
def checkFmt (regcomp : Bool) (m : Magic) : Option Bool :=
  if '%' ∉ m.desc then some false else if regcomp then some (matchesFmt m.desc) else none

/-- The argument that `mprint` passes to `file_printf` behind the description, if it gets so far. -/
def mprintArg (regcomp : Bool) (m : Magic) : Option CType :=
  match m.type with
  | .byte | .short | .beshort | .leshort | .long | .belong | .lelong | .melong =>
    (checkFmt regcomp m).map fun b => if b then .charPtr else .int32
  | .quad | .bequad | .lequad => some .int64
  | .string | .pstring | .bestring16 | .lestring16 => some .charPtr
  | .date | .bedate | .ledate | .medate | .ldate | .beldate | .leldate | .meldate => some .charPtr
  | .qdate | .beqdate | .leqdate | .qldate | .beqldate | .leqldate | .qwdate | .beqwdate | .leqwdate => some .charPtr
  | .float | .befloat | .lefloat | .double | .bedouble | .ledouble =>
    (checkFmt regcomp m).map fun b => if b then .charPtr else .double
  | .regex | .search | .default => some .charPtr
  | .indirect | .use | .name => none
  | .invalid | .beid3 | .leid3 => none

/-! ## `printf` -/

def isFlag (c : Char) : Bool := c = '-' || c = '+' || c = ' ' || c = '#' || c = '0'

/-- What is behind the flags, the width and the precision of a directive. -/
def printfTail (s : List Char) : List Char :=
  match (s.dropWhile isFlag).dropWhile Char.isDigit with
  | '.' :: s => s.dropWhile Char.isDigit
  | s => s

def isInteger (c : Char) : Bool := c = 'd' || c = 'i' || c = 'o' || c = 'u' || c = 'x' || c = 'X'

def isFloat (c : Char) : Bool :=
  c = 'e' || c = 'E' || c = 'f' || c = 'F' || c = 'g' || c = 'G' || c = 'a' || c = 'A'

/-- The type that a length and a conversion require; not every length goes with every conversion. -/
def conversionType : List Char → Option CType
  | 'h' :: 'h' :: c :: _ => if isInteger c then some .int32 else if c = 'n' then some .other else none
  | 'h' :: c :: _ => if isInteger c then some .int32 else if c = 'n' then some .other else none
  | 'l' :: 'l' :: c :: _ => if isInteger c then some .int64 else if c = 'n' then some .other else none
  | 'l' :: c :: _ =>
    if isInteger c then some .int64 else if isFloat c then some .double
    else if c = 'c' then some .int32 else if c = 's' || c = 'n' then some .other else none
  | 'j' :: c :: _ | 'z' :: c :: _ | 't' :: c :: _ =>
    if isInteger c then some .int64 else if c = 'n' then some .other else none
  | 'L' :: c :: _ => if isFloat c then some .other else none
  | c :: _ =>
    if isInteger c || c = 'c' then some .int32 else if isFloat c then some .double
    else if c = 's' then some .charPtr else if c = 'p' || c = 'n' then some .other else none
  | [] => none

/-- The type of the argument that `printf` requires for the directive with this text behind its `%`. -/
def printfArg (s : List Char) : Option CType := conversionType (printfTail s)

/-! ## The condition -/

/-- At most one directive, and its argument has the type that `printf` requires. -/
def Safe (m : Magic) : Prop :=
  m.desc.count '%' ≤ 1 ∧
    ∀ (regcomp : Bool) (t : CType) (s : List Char), mprintArg regcomp m = some t → directive m.desc = some s →
      printfArg s = some t

/-- Minus, digits and points. -/
def isForm (c : Char) : Bool := c = '-' || c.isDigit || c = '.'

/-- `mprint` prints something for entries of the type. -/
def Printed (t : FileType) : Prop := t ≠ .beid3 ∧ t ≠ .leid3 ∧ t ≠ .indirect

/-- A directive that says what is passed: no `l` for 32 bits; `ll` with an integer conversion for 64 bits; one point. -/
def CleanDirective (fmt : Fmt) (s : List Char) : Prop :=
  match fmt with
  | .num => (s.takeWhile isForm).count '.' ≤ 1 ∧ (s.dropWhile isForm).head? ≠ some 'l'
  | .quad => (s.takeWhile isForm).count '.' ≤ 1 ∧ checkInteger ((s.dropWhile isForm).drop 2) = true
  | .float | .double => (s.takeWhile isForm).count '.' ≤ 1
  | .str | .none => True

def Clean (m : Magic) : Prop :=
  ∀ s, directive m.desc = some s → Printed m.type → CleanDirective (fileFormats m.type) s

/-! ## The scanner and `printf` -/

/-- A character that ends the form of a directive, or the end of the text. -/
def Stops (s : List Char) : Prop := ∀ c t, s = c :: t → isForm c = false ∧ isFlag c = false

theorem isForm_of_isDigit {c : Char} (h : c.isDigit = true) : isForm c = true := by simp [isForm, h]

theorem form_append {pre s : List Char} (hpre : ∀ c ∈ pre, isForm c = true) (hs : Stops s) :
    (pre ++ s).takeWhile isForm = pre ∧ (pre ++ s).dropWhile isForm = s := by
  rw [List.takeWhile_append_of_pos hpre, List.dropWhile_append_of_pos hpre]
  cases s with
  | nil => simp
  | cons c t =>
    have hc := (hs c t rfl).1
    rw [List.takeWhile_cons_of_neg (by simp [hc]), List.dropWhile_cons_of_neg (by simp [hc]), List.append_nil]
    exact ⟨rfl, rfl⟩

/-- Digits before something that is no digit and no flag are a width, with flags before it or not. -/
theorem dropWhile_width {ds t : List Char} (hds : ∀ c ∈ ds, c.isDigit = true)
    (ht : ∀ c u, t = c :: u → c.isDigit = false ∧ isFlag c = false) :
    ((ds ++ t).dropWhile isFlag).dropWhile Char.isDigit = t := by
  have hdigits : t.dropWhile Char.isDigit = t := by
    cases t with
    | nil => rfl
    | cons c u => exact List.dropWhile_cons_of_neg (by simp [(ht c u rfl).1])
  induction ds with
  | nil =>
    cases t with
    | nil => rfl
    | cons c u =>
      rw [List.nil_append, List.dropWhile_cons_of_neg (by simp [(ht c u rfl).2]), hdigits]
  | cons d ds ih =>
    rw [List.cons_append, List.dropWhile_cons]
    split
    case isTrue => exact ih fun c hc => hds c (List.mem_cons_of_mem _ hc)
    case isFalse =>
      rw [← List.cons_append, List.dropWhile_append_of_pos hds, hdigits]

theorem count_digits {ds : List Char} (h : ∀ c ∈ ds, c.isDigit = true) : ds.count '.' = 0 := by
  refine List.count_eq_zero.mpr fun hmem => ?_
  have := h _ hmem
  revert this
  decide

theorem digits_split (s : List Char) : ∃ ds t, s = ds ++ t ∧ (∀ c ∈ ds, c.isDigit = true) ∧ skipDigits s = t ∧
    ∀ c u, t = c :: u → c.isDigit = false := by
  refine ⟨s.takeWhile Char.isDigit, s.dropWhile Char.isDigit, List.takeWhile_append_dropWhile.symm,
    fun c hc => List.mem_takeWhile_imp hc, rfl, ?_⟩
  intro c u hu
  have := List.head?_dropWhile_not Char.isDigit s
  rw [hu] at this
  simpa using this

theorem minus_split (s : List Char) : ∃ pre, s = pre ++ skip '-' s ∧ (pre = [] ∨ pre = ['-']) := by
  cases s with
  | nil => exact ⟨[], rfl, .inl rfl⟩
  | cons c s =>
    rw [skip]
    split
    case isTrue hc => exact ⟨['-'], by rw [hc]; rfl, .inr rfl⟩
    case isFalse => exact ⟨[], rfl, .inl rfl⟩

theorem point_split (s : List Char) : (∃ t, s = '.' :: t ∧ skip '.' s = t) ∨
    (skip '.' s = s ∧ ∀ t, s ≠ '.' :: t) := by
  cases s with
  | nil => exact .inr ⟨rfl, fun t ht => by cases ht⟩
  | cons c s =>
    rw [skip]
    split
    case isTrue hc => exact .inl ⟨s, by rw [hc], rfl⟩
    case isFalse hc => exact .inr ⟨rfl, fun t ht => hc (List.cons.inj ht).1⟩

theorem isForm_digits {ds : List Char} (h : ∀ c ∈ ds, c.isDigit = true) : ∀ c ∈ ds, isForm c = true :=
  fun c hc => isForm_of_isDigit (h c hc)

/-- What does not begin with a digit. -/
theorem skipDigits_self {t : List Char} (ht : ∀ c u, t = c :: u → c.isDigit = false) : skipDigits t = t := by
  cases t with
  | nil => rfl
  | cons c u => exact List.dropWhile_cons_of_neg (by simp [ht c u rfl])

/-- A minus is a flag. -/
theorem printfTail_minus {pre : List Char} (hpre : pre = [] ∨ pre = ['-']) (t : List Char) : printfTail (pre ++ t) = printfTail t := by
  rcases hpre with rfl | rfl
  · rfl
  · rw [printfTail, printfTail, List.singleton_append, List.dropWhile_cons_of_pos (by decide)]

/-- The digits behind a point that comes first are a precision. -/
theorem printfTail_point {ds t : List Char} (hds : ∀ c ∈ ds, c.isDigit = true) (ht : ∀ c u, t = c :: u → c.isDigit = false) :
    printfTail ('.' :: (ds ++ t)) = t := by
  rw [printfTail, List.dropWhile_cons_of_neg (by decide), List.dropWhile_cons_of_neg (by decide)]
  exact (List.dropWhile_append_of_pos hds).trans (skipDigits_self ht)

/-- The digits before a point are a width. -/
theorem printfTail_width {ds : List Char} (hds : ∀ c ∈ ds, c.isDigit = true) (u : List Char) :
    printfTail (ds ++ '.' :: u) = skipDigits u := by
  have hwidth := @dropWhile_width ds ('.' :: u) hds fun c v hv => by
    cases hv
    decide
  rw [printfTail, hwidth]
  rfl

theorem printfTail_width_only {ds t : List Char} (hds : ∀ c ∈ ds, c.isDigit = true)
    (ht : ∀ c u, t = c :: u → c.isDigit = false ∧ isFlag c = false) (hno : ∀ u, t ≠ '.' :: u) : printfTail (ds ++ t) = t := by
  rw [printfTail, dropWhile_width hds ht]
  split
  case h_1 u => exact absurd rfl (hno u)
  case h_2 => rfl

/-- Where the scanner has passed over `form`, and `printf` as far or, from a second point on, less. -/
theorem passed_over {s form r : List Char} (hs : s = form ++ r) (hform : ∀ c ∈ form, isForm c = true) (hstop : Stops r)
    (htail : if form.count '.' ≤ 1 then printfTail s = r else ∃ t, printfTail s = '.' :: t) :
    s.dropWhile isForm = r ∧ ((s.takeWhile isForm).count '.' ≤ 1 → printfTail s = r) ∧
      (¬(s.takeWhile isForm).count '.' ≤ 1 → ∃ t, printfTail s = '.' :: t) := by
  subst hs
  obtain ⟨htake, hdrop⟩ := form_append hform hstop
  rw [htake, hdrop]
  split_ifs at htail with hcount
  · exact ⟨rfl, fun _ => htail, fun hmany => absurd hcount hmany⟩
  · exact ⟨rfl, fun hle => absurd hle hcount, fun _ => htail⟩

/-- What `printf` and the scanner pass over is the same, unless there is a second point. -/
theorem printfTail_scanNum {s : List Char} (hstop : Stops (scanNum s)) :
    s.dropWhile isForm = scanNum s ∧
      ((s.takeWhile isForm).count '.' ≤ 1 → printfTail s = scanNum s) ∧
      (¬(s.takeWhile isForm).count '.' ≤ 1 → ∃ t, printfTail s = '.' :: t) := by
  obtain ⟨pre, hs, hpre⟩ := minus_split s
  have hpreForm : ∀ c ∈ pre, isForm c = true := by
    rcases hpre with rfl | rfl
    · exact List.forall_mem_nil _
    · exact List.forall_mem_singleton.mpr rfl
  have hpreCount : pre.count '.' = 0 := by
    rcases hpre with rfl | rfl <;> decide
  unfold scanNum at hstop ⊢
  generalize skip '-' s = s₁ at hs hstop
  subst hs
  rcases point_split s₁ with ⟨s₂, rfl, hskip⟩ | ⟨hskip, hno⟩
  · -- a point comes first: the digits behind it are a precision
    rw [hskip] at hstop ⊢
    obtain ⟨ds, t, rfl, hds, hdrop, ht⟩ := digits_split s₂
    rw [hdrop] at hstop ⊢
    have htail : printfTail (pre ++ '.' :: (ds ++ t)) = t := (printfTail_minus hpre _).trans (printfTail_point hds ht)
    rcases point_split t with ⟨u, rfl, hskip'⟩ | ⟨hskip', hno'⟩
    · rw [hskip'] at hstop ⊢
      obtain ⟨ds', r, rfl, hds', hdrop', -⟩ := digits_split u
      rw [hdrop'] at hstop ⊢
      refine @passed_over _ (pre ++ '.' :: (ds ++ '.' :: ds')) r (by simp) ?_ hstop ?_
      · rw [List.forall_mem_append, List.forall_mem_cons, List.forall_mem_append, List.forall_mem_cons]
        exact ⟨hpreForm, rfl, isForm_digits hds, rfl, isForm_digits hds'⟩
      · rw [if_neg (by simp [hpreCount, count_digits hds, count_digits hds'])]
        exact ⟨ds' ++ r, htail⟩
    · rw [hskip', skipDigits_self ht] at hstop ⊢
      refine @passed_over _ (pre ++ '.' :: ds) t (by simp) ?_ hstop ?_
      · rw [List.forall_mem_append, List.forall_mem_cons]
        exact ⟨hpreForm, rfl, isForm_digits hds⟩
      · rwa [if_pos (by simp [hpreCount, count_digits hds])]
  · -- the digits before a point are a width
    rw [hskip] at hstop ⊢
    obtain ⟨ds, t, rfl, hds, hdrop, ht⟩ := digits_split s₁
    rw [hdrop] at hstop ⊢
    rcases point_split t with ⟨u, rfl, hskip'⟩ | ⟨hskip', hno'⟩
    · rw [hskip'] at hstop ⊢
      have htail : printfTail (pre ++ (ds ++ '.' :: u)) = skipDigits u := (printfTail_minus hpre _).trans (printfTail_width hds u)
      obtain ⟨ds', r, rfl, hds', hdrop', -⟩ := digits_split u
      rw [hdrop'] at hstop htail ⊢
      refine @passed_over _ (pre ++ (ds ++ '.' :: ds')) r (by simp) ?_ hstop ?_
      · rw [List.forall_mem_append, List.forall_mem_append, List.forall_mem_cons]
        exact ⟨hpreForm, isForm_digits hds, rfl, isForm_digits hds'⟩
      · rwa [if_pos (by simp [hpreCount, count_digits hds, count_digits hds'])]
    · rw [hskip', skipDigits_self ht] at hstop ⊢
      refine @passed_over _ (pre ++ ds) t (by simp) (List.forall_mem_append.mpr ⟨hpreForm, isForm_digits hds⟩) hstop ?_
      rw [if_pos (by simp [hpreCount, count_digits hds]), printfTail_minus hpre]
      exact printfTail_width_only hds (fun c v hv => ⟨ht c v hv, (hstop c v hv).2⟩) hno'

/-- For strings the scanner is that of `printf`. -/
theorem printfTail_scanStr {s : List Char} (hstop : Stops (scanStr s)) : printfTail s = scanStr s := by
  obtain ⟨pre, hs, hpre⟩ := minus_split s
  unfold scanStr at hstop ⊢
  generalize skip '-' s = s₁ at hs hstop
  subst hs
  obtain ⟨ds, t, rfl, hds, hdrop, ht⟩ := digits_split s₁
  rw [hdrop] at hstop ⊢
  have htail : ∀ c u, t = c :: u → c.isDigit = false ∧ isFlag c = false := by
    intro c u hu
    refine ⟨ht c u hu, ?_⟩
    subst hu
    by_cases hc : c = '.'
    · subst hc
      decide
    · refine (hstop c u ?_).2
      split
      case h_1 heq => exact absurd (List.cons.inj heq).1 hc
      case h_2 => rfl
  rw [printfTail_minus hpre, printfTail, dropWhile_width hds htail]
  rfl

/-! ## Accepted directives -/

theorem ne_of_isAlpha {c x : Char} (h : c.isAlpha = true) (hx : x.isAlpha = false) : c ≠ x := by
  rintro rfl
  rw [h] at hx
  cases hx

theorem isDigit_of_isAlpha {c : Char} (h : c.isAlpha = true) : c.isDigit = false := by
  delta Char.isAlpha Char.isUpper Char.isLower at h
  simp only [Char.isDigit, Bool.or_eq_true, Bool.and_eq_true,
    decide_eq_true_eq, Bool.and_eq_false_iff, decide_eq_false_iff_not] at h ⊢
  rcases h with h | h
  all_goals
    have h₁ := h.1
    have h₂ := h.2
    simp only [UInt32.le_iff_toNat_le] at *
    simp at *
    omega

theorem stops_of_isAlpha {c : Char} {t : List Char} (h : c.isAlpha = true) : Stops (c :: t) := by
  intro c' t' heq
  cases heq
  have hne {x : Char} (hx : x.isAlpha = false) : c ≠ x := ne_of_isAlpha h hx
  constructor
  · simp [isForm, isDigit_of_isAlpha h, @hne '-' (by decide), @hne '.' (by decide)]
  · simp [isFlag, @hne '-' (by decide), @hne '+' (by decide), @hne ' ' (by decide),
      @hne '#' (by decide), @hne '0' (by decide)]

theorem inRange_of_isAlpha {c : Char} (h : c.isAlpha = true) : inRange c = false := by
  have hne {x : Char} (hx : x.isAlpha = false) : c ≠ x := ne_of_isAlpha h hx
  simp [inRange, isDigit_of_isAlpha h, @hne '-' (by decide), @hne '\\' (by decide),
    @hne '.' (by decide)]

/-- The text begins with a letter other than `s`. -/
def Letter (s : List Char) : Prop := ∃ c t, s = c :: t ∧ c.isAlpha = true ∧ c ≠ 's'

theorem Letter.stops {s : List Char} (h : Letter s) : Stops s := by
  obtain ⟨c, t, rfl, hc, -⟩ := h
  exact stops_of_isAlpha hc

theorem checkInteger_eq {s : List Char} (h : checkInteger s = true) :
    ∃ c t, s = c :: t ∧ (c = 'i' ∨ c = 'd' ∨ c = 'u' ∨ c = 'x' ∨ c = 'X') := by
  cases s with
  | nil => cases h
  | cons c t =>
    simp only [checkInteger, Bool.or_eq_true, decide_eq_true_eq] at h
    exact ⟨c, t, rfl, by tauto⟩

/-- What is accepted for a number: `l` and an integer conversion, or something for four bytes. -/
theorem checkNum_eq {s : List Char} (h : checkNum s = true) : Letter s ∧
    ((s.head? = some 'l' ∧ conversionType s = some .int64) ∨
      (s.head? ≠ some 'l' ∧ conversionType s = some .int32)) := by
  unfold checkNum at h
  split at h
  case h_1 s =>
    obtain ⟨c, t, rfl, hc⟩ := checkInteger_eq h
    refine ⟨⟨_, _, rfl, by decide⟩, .inl ⟨rfl, ?_⟩⟩
    rcases hc with rfl | rfl | rfl | rfl | rfl <;> rfl
  case h_2 s =>
    obtain ⟨c, t, rfl, hc⟩ := checkInteger_eq h
    refine ⟨⟨_, _, rfl, by decide⟩, .inr ⟨by simp, ?_⟩⟩
    rcases hc with rfl | rfl | rfl | rfl | rfl <;> rfl
  case h_3 => exact ⟨⟨_, _, rfl, by decide⟩, .inr ⟨by simp, rfl⟩⟩
  case h_4 => cases h
  case h_5 => exact ⟨⟨_, _, rfl, by decide⟩, .inr ⟨by simp, rfl⟩⟩
  case h_6 =>
    obtain ⟨c, t, rfl, hc⟩ := checkInteger_eq h
    rcases hc with rfl | rfl | rfl | rfl | rfl
    all_goals exact ⟨⟨_, _, rfl, by decide⟩, .inr ⟨by simp, rfl⟩⟩

/-- Behind `ll` only an integer conversion is one of eight bytes. -/
theorem conversionType_quad {s : List Char} (h : checkNum s = true) :
    conversionType ('l' :: 'l' :: s) = some .int64 ↔ checkInteger s = true := by
  unfold checkNum at h
  split at h
  case h_1 _ => exact ⟨nofun, nofun⟩
  case h_2 _ => exact ⟨nofun, nofun⟩
  case h_3 => exact ⟨nofun, nofun⟩
  case h_4 => cases h
  case h_5 => exact ⟨nofun, nofun⟩
  case h_6 =>
    refine ⟨fun _ => h, fun _ => ?_⟩
    obtain ⟨c, t, rfl, hc⟩ := checkInteger_eq h
    rcases hc with rfl | rfl | rfl | rfl | rfl <;> rfl

theorem directive_eq {desc s : List Char} (h : directive desc = some s) :
    ∃ pre, desc = pre ++ '%' :: s ∧ '%' ∉ pre := by
  unfold directive at h
  refine ⟨desc.takeWhile (· ≠ '%'), ?_, ?_⟩
  · match hdrop : desc.dropWhile (· ≠ '%') with
    | [] =>
      rw [hdrop] at h
      cases h
    | c :: t =>
      rw [hdrop] at h
      cases h
      have hc := List.head?_dropWhile_not (fun c : Char => decide (c ≠ '%')) desc
      rw [hdrop] at hc
      have hpercent : c = '%' := by simpa using hc
      subst hpercent
      rw [← hdrop, List.takeWhile_append_dropWhile]
  · intro hmem
    simpa using List.mem_takeWhile_imp hmem

/-- Only the one `%` can start a match of the regular expression. -/
theorem matchesFmt_append {pre s : List Char} (hpre : '%' ∉ pre) (hs : '%' ∉ s) :
    matchesFmt (pre ++ '%' :: s) = decide ((s.dropWhile inRange).head? = some 's') := by
  have hnone : ∀ {t : List Char}, '%' ∉ t → matchesFmt t = false := by
    intro t ht
    induction t with
    | nil => rfl
    | cons c t ih =>
      obtain ⟨hc, ht'⟩ := not_or.mp (mt List.mem_cons.mpr ht)
      simp [matchesFmt, ih ht', Ne.symm hc]
  induction pre with
  | nil => simp [matchesFmt, hnone hs]
  | cons c pre ih =>
    obtain ⟨hc, hpre'⟩ := not_or.mp (mt List.mem_cons.mpr hpre)
    rw [List.cons_append, matchesFmt, ih hpre']
    simp [Ne.symm hc]

theorem not_mem_of_directive {desc : List Char} (h : directive desc = none) : '%' ∉ desc := by
  intro hmem
  have hdrop : desc.dropWhile (· ≠ '%') = [] := by
    unfold directive at h
    cases hd : desc.dropWhile (· ≠ '%') with
    | nil => rfl
    | cons c t =>
      rw [hd] at h
      cases h
  have hall := List.dropWhile_eq_nil_iff.mp hdrop '%' hmem
  simp at hall

/-- What `check_format` has found out about a directive. -/
theorem accepted {m : Magic} {r : ℕ} {s : List Char} (h : checkFormat m = .ok r) (hs : directive m.desc = some s) :
    checkFormatType s (fileFormats m.type) = some true ∧ '%' ∉ s := by
  unfold checkFormat at h
  rw [hs] at h
  dsimp only at h
  split at h
  case isTrue => cases h
  case isFalse =>
    split at h
    case h_1 => cases h
    case h_2 => cases h
    case h_3 htype =>
      split at h
      case isTrue => cases h
      case isFalse hpercent => exact ⟨htype, hpercent⟩

/-- An accepted description has at most one directive. -/
theorem count_of_checkFormat {m : Magic} {r : ℕ} (h : checkFormat m = .ok r) : m.desc.count '%' ≤ 1 := by
  cases hs : directive m.desc with
  | none =>
    rw [List.count_eq_zero.mpr (not_mem_of_directive hs)]
    exact Nat.zero_le 1
  | some s =>
    obtain ⟨pre, hdesc, hpre⟩ := directive_eq hs
    rw [hdesc, List.count_append, List.count_cons_self, List.count_eq_zero.mpr hpre,
      List.count_eq_zero.mpr (accepted h hs).2]

/-- The conversions of `FILE_FMT_FLOAT` and `FILE_FMT_DOUBLE`. -/
theorem float_eq {c : Char} (h : (c = 'e' || c = 'E' || c = 'f' || c = 'F' || c = 'g' || c = 'G') = true)
    (t : List Char) : Letter (c :: t) ∧ conversionType (c :: t) = some .double := by
  simp only [Bool.or_eq_true, decide_eq_true_eq] at h
  have hc : c = 'e' ∨ c = 'E' ∨ c = 'f' ∨ c = 'F' ∨ c = 'g' ∨ c = 'G' := by tauto
  rcases hc with rfl | rfl | rfl | rfl | rfl | rfl
  all_goals exact ⟨⟨_, _, rfl, by decide⟩, rfl⟩

/-- Behind the form of a numeric directive is a letter. -/
theorem letter_of_checkFormatType {s : List Char} {fmt : Fmt} (h : checkFormatType s fmt = some true)
    (hfmt : fmt ≠ .str) : Letter (scanNum s) := by
  unfold checkFormatType at h
  split at h
  case isTrue => cases h
  case isFalse =>
    cases fmt with
    | none => cases h
    | num => exact (checkNum_eq (Option.some.inj h)).1
    | str => exact absurd rfl hfmt
    | quad =>
      dsimp only at h
      split at h
      case h_1 hscan =>
        rw [hscan]
        exact ⟨_, _, rfl, by decide⟩
      case h_2 => cases h
    | float | double =>
      dsimp only at h
      split at h
      case h_1 c t hscan =>
        rw [hscan]
        exact (float_eq (Option.some.inj h) t).1
      case h_2 => cases h

/-- With a number `check_fmt` finds no `%s` in an accepted description. -/
theorem matchesFmt_of_checkFormat {m : Magic} {r : ℕ} {s : List Char} (h : checkFormat m = .ok r)
    (hs : directive m.desc = some s) (hfmt : fileFormats m.type ≠ .str) : matchesFmt m.desc = false := by
  obtain ⟨htype, hpercent⟩ := accepted h hs
  have hletter := letter_of_checkFormatType htype hfmt
  obtain ⟨pre, hdesc, hpre⟩ := directive_eq hs
  rw [hdesc, matchesFmt_append hpre hpercent]
  have hform := (printfTail_scanNum hletter.stops).1
  have hrange : ∀ c ∈ s.takeWhile isForm, inRange c = true := by
    intro c hc
    have := List.mem_takeWhile_imp hc
    simp only [isForm, Bool.or_eq_true] at this
    simp only [inRange, Bool.or_eq_true]
    tauto
  have hsplit : s.dropWhile inRange = (scanNum s).dropWhile inRange := by
    conv_lhs => rw [← @List.takeWhile_append_dropWhile _ isForm s]
    rw [List.dropWhile_append_of_pos hrange, hform]
  rw [hsplit]
  -- the range of the expression has a backslash that the scanner has not, but a letter ends both
  obtain ⟨c, t, hscan, hc, hne⟩ := hletter
  rw [hscan, List.dropWhile_cons_of_neg (by simp [inRange_of_isAlpha hc])]
  simpa using hne

/-! ## The argument of an accepted description -/

/-- Nothing is passed with a directive for `beid3`, `leid3` and `indirect`. -/
theorem mprintArg_of_not_printed {regcomp : Bool} {m : Magic} (h : ¬Printed m.type) : mprintArg regcomp m = none := by
  have htype : m.type = .beid3 ∨ m.type = .leid3 ∨ m.type = .indirect := by
    unfold Printed at h
    tauto
  unfold mprintArg
  rcases htype with htype | htype | htype
  all_goals rw [htype]

/-- Otherwise `mprint` passes what the class of the formats says, but for a `%s` in the description of a number. -/
theorem mprintArg_of_printed {regcomp : Bool} {m : Magic} (h : Printed m.type) :
    mprintArg regcomp m =
      match fileFormats m.type with
      | .num => (checkFmt regcomp m).map fun b => if b then .charPtr else .int32
      | .quad => some .int64
      | .str => some .charPtr
      | .float | .double => (checkFmt regcomp m).map fun b => if b then .charPtr else .double
      | .none => none := by
  obtain ⟨h₁, h₂, h₃⟩ := h
  unfold mprintArg
  cases htype : m.type with
  | beid3 => exact absurd htype h₁
  | leid3 => exact absurd htype h₂
  | indirect => exact absurd htype h₃
  | _ => rfl

/-- The type that goes with a class of formats. -/
def passed : Fmt → Option CType
  | .num => some .int32
  | .quad => some .int64
  | .str => some .charPtr
  | .float | .double => some .double
  | .none => none

theorem checkFmt_of_checkFormat {m : Magic} {r : ℕ} {s : List Char} (h : checkFormat m = .ok r)
    (hs : directive m.desc = some s) (hfmt : fileFormats m.type ≠ .str) (regcomp : Bool) :
    checkFmt regcomp m = if regcomp then some false else none := by
  have hmem : '%' ∈ m.desc := by
    obtain ⟨pre, hdesc, -⟩ := directive_eq hs
    rw [hdesc]
    simp
  simp [checkFmt, hmem, matchesFmt_of_checkFormat h hs hfmt]

/-- With an accepted directive nothing else than this type is passed, and it is if `regcomp` succeeds. -/
theorem mprintArg_of_checkFormat {m : Magic} {r : ℕ} {s : List Char} (h : checkFormat m = .ok r)
    (hs : directive m.desc = some s) (hprinted : Printed m.type) :
    mprintArg true m = passed (fileFormats m.type) ∧
      ∀ regcomp t, mprintArg regcomp m = some t → passed (fileFormats m.type) = some t := by
  have hfmt := checkFmt_of_checkFormat h hs
  simp only [mprintArg_of_printed hprinted]
  generalize fileFormats m.type = fmt at hfmt ⊢
  cases fmt with
  | none => exact ⟨rfl, fun _ _ ht => ht⟩
  | str => exact ⟨rfl, fun _ _ ht => ht⟩
  | quad => exact ⟨rfl, fun _ _ ht => ht⟩
  | num | float | double =>
    simp only [hfmt (by decide)]
    refine ⟨rfl, fun regcomp t ht => ?_⟩
    cases regcomp with
    | false => cases ht
    | true => exact ht

/-! ## What is printed -/

theorem passed_of_checkFormatType {s : List Char} {fmt : Fmt} (h : checkFormatType s fmt = some true) :
    ∃ t, passed fmt = some t := by
  cases fmt with
  | none =>
    unfold checkFormatType at h
    split at h <;> cases h
  | _ => exact ⟨_, rfl⟩

/-- For a number: what is behind the form of the directive decides, unless there is a second point. -/
theorem printfArg_iff {s : List Char} {t : CType} (h : Letter (scanNum s)) :
    printfArg s = some t ↔ (s.takeWhile isForm).count '.' ≤ 1 ∧ conversionType (scanNum s) = some t := by
  obtain ⟨-, hone, hmany⟩ := printfTail_scanNum h.stops
  unfold printfArg
  by_cases hcount : (s.takeWhile isForm).count '.' ≤ 1
  · simp only [hone hcount, hcount, true_and]
  · obtain ⟨u, hu⟩ := hmany hcount
    have hnone : conversionType ('.' :: u) = none := rfl
    simp [hu, hnone, hcount]

/-- An accepted directive takes what is passed just if it is clean. -/
theorem printfArg_iff_clean {s : List Char} {fmt : Fmt} {t : CType} (h : checkFormatType s fmt = some true)
    (ht : passed fmt = some t) : printfArg s = some t ↔ CleanDirective fmt s := by
  have hletter (hne : fmt ≠ .str) := letter_of_checkFormatType h hne
  unfold checkFormatType at h
  split at h
  case isTrue => cases h
  case isFalse =>
    cases fmt with
    | none => cases h
    | str =>
      cases ht
      refine iff_of_true ?_ trivial
      dsimp only at h
      split at h
      case h_1 c u hscan =>
        have hc : c = 's' := by simpa using h
        subst hc
        have hstop : Stops (scanStr s) := by
          rw [hscan]
          exact stops_of_isAlpha (by decide)
        rw [printfArg, printfTail_scanStr hstop, hscan]
        rfl
      case h_2 => cases h
    | num =>
      cases ht
      have hform := (printfTail_scanNum (hletter (by decide)).stops).1
      rw [printfArg_iff (hletter (by decide)), CleanDirective, hform]
      refine and_congr_right fun _ => ?_
      obtain ⟨-, ⟨hl, hconv⟩ | ⟨hl, hconv⟩⟩ := checkNum_eq (Option.some.inj h)
      · simp [hl, hconv]
      · simp [hl, hconv]
    | quad =>
      cases ht
      have hform := (printfTail_scanNum (hletter (by decide)).stops).1
      rw [printfArg_iff (hletter (by decide)), CleanDirective, hform]
      refine and_congr_right fun _ => ?_
      dsimp only at h
      split at h
      case h_1 u hscan =>
        rw [hscan]
        exact conversionType_quad (Option.some.inj h)
      case h_2 => cases h
    | float | double =>
      cases ht
      rw [printfArg_iff (hletter (by decide)), CleanDirective]
      dsimp only at h
      split at h
      case h_1 c u hscan =>
        rw [hscan, (float_eq (Option.some.inj h) u).2]
        exact and_iff_left rfl
      case h_2 => cases h

/-- **Formats of descriptions.** An accepted description is safe just if its directive is clean. -/
theorem checkFormat_safe_iff (m : Magic) (r : ℕ) (h : checkFormat m = .ok r) : Safe m ↔ Clean m := by
  constructor
  · rintro ⟨-, hsafe⟩ s hs hprinted
    obtain ⟨htype, -⟩ := accepted h hs
    obtain ⟨harg, -⟩ := mprintArg_of_checkFormat h hs hprinted
    obtain ⟨t, ht⟩ := passed_of_checkFormatType htype
    exact (printfArg_iff_clean htype ht).mp (hsafe true t s (harg.trans ht) hs)
  · intro hclean
    refine ⟨count_of_checkFormat h, fun regcomp t s harg hs => ?_⟩
    by_cases hprinted : Printed m.type
    · obtain ⟨htype, -⟩ := accepted h hs
      have ht := (mprintArg_of_checkFormat h hs hprinted).2 regcomp t harg
      exact (printfArg_iff_clean htype ht).mpr (hclean s hs hprinted)
    · rw [mprintArg_of_not_printed hprinted] at harg
      cases harg

/-- `"%d"` of a `long`. -/
theorem checkFormat_safe_d : Safe ⟨.long, ['%', 'd']⟩ := by
  refine (checkFormat_safe_iff ⟨.long, ['%', 'd']⟩ 0 (by decide)).mpr fun s hs _ => ?_
  cases hs
  exact ⟨by decide, by decide⟩

/-- `"%ld"` of a `long` is accepted; four bytes are passed where `printf` requires eight. -/
theorem not_safe_ld : ∃ m r, checkFormat m = .ok r ∧ ¬Safe m := by
  refine ⟨⟨.long, ['%', 'l', 'd']⟩, 0, by decide, fun h => ?_⟩
  have := h.2 true .int32 ['l', 'd'] (by decide) rfl
  revert this
  decide

end CodingExercises.File
