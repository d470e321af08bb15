import CodingExercises.File.ParseLine

/-!
# file: lines as they are written

What an entry says (`Parts`) can be written on a line of a magic file in many ways (`Writes`): a number in three bases, white
space of any length, a byte of a string as itself or by an escape. `parse` reads the same entry from each of them
(`readEntry_written`). Indirect offsets, the modifiers of strings and numbers with a point are not written here.
-/

namespace CodingExercises.File.WrittenLines

open Apprentice IsTar ParseLine

/-! ## What is written -/

/-- The number that digits stand for. -/
def valueOf (base : ℕ) (ds : List UInt8) : ℕ := ds.foldl (fun n c => n * base + (digitOf c).getD 0) 0

def Digits (base : ℕ) (ds : List UInt8) : Prop := ∀ c ∈ ds, (digitOf c).any (· < base) = true

instance decidableDigits (base : ℕ) (ds : List UInt8) : Decidable (Digits base ds) :=
  inferInstanceAs (Decidable (∀ c ∈ ds, (digitOf c).any (· < base) = true))

/-- A number and a way to write it. -/
inductive Numeral : ℕ → List UInt8 → Prop
  | decimal {c : UInt8} {ds : List UInt8} (hc : c ≠ 0x30) (hds : Digits 10 (c :: ds)) : Numeral (valueOf 10 (c :: ds)) (c :: ds)
  | octal {ds : List UInt8} (hds : Digits 8 ds) : Numeral (valueOf 8 ds) (0x30 :: ds)
  | hexadecimal {c : UInt8} {ds : List UInt8} (hds : Digits 16 (c :: ds)) :
      Numeral (valueOf 16 (c :: ds)) (0x30 :: 0x78 :: c :: ds)

/-- White space between two parts. -/
def Blank (b : List UInt8) : Prop := b ≠ [] ∧ ∀ c ∈ b, isspaceC c = true

/-- What a value is compared with. -/
inductive Constant
  | none
  | number (n : BitVec 64)
  | string (bs : List UInt8)

/-- What a line says. -/
structure Parts where
  level : ℕ
  relative : Bool
  offset : BitVec 32
  cond : Cond
  unsigned : Bool
  type : FileType
  mask : Option (BitVec 8 × BitVec 64)
  reln : Reln
  constant : Constant
  noSpace : Bool
  desc : List UInt8

/-- The value that is kept of it. -/
def Constant.value (type : FileType) (unsigned : Bool) : Constant → List UInt8
  | none => List.replicate maxString 0
  | number n => putField 8 (fileSignextend type unsigned n).toNat (List.replicate maxString 0)
  | string bs => bs ++ List.replicate (maxString - bs.length) 0

/-- The length of the value, with the size of the number in front of a Pascal string. -/
def Constant.vallen (type : FileType) : Constant → ℕ
  | none | number _ => 0
  | string bs => bs.length + if type = .pstring then LengthFormat.one.size else 0

/-- The number of the mask, as it is kept. -/
def Parts.num (p : Parts) : Option (BitVec 64) := p.mask.map fun mask => fileSignextend p.type p.unsigned mask.2

/-- The entry that says it. -/
def Parts.entry (p : Parts) : Entry :=
  { zeroEntry with
    type := p.type
    desc := p.desc.map chr
    contLevel := p.level
    flag := (if p.relative then flagOffAdd else 0) ||| (if p.unsigned then flagUnsigned else 0) |||
      (if p.noSpace then flagNoSpace else 0)
    reln := p.reln.char
    vallen := p.constant.vallen p.type
    cond := p.cond
    offset := p.offset
    strRange := p.num.elim 0 (·.setWidth 32)
    strFlags := p.num.elim (if p.type = .pstring then LengthFormat.one.bit else 0) fun num => (num >>> 32).setWidth 32
    value := p.constant.value p.type p.unsigned }

/-! ## Ways of writing it -/

def condNames : List (Cond × String) := [(.condIf, "if"), (.condElif, "elif"), (.condElse, "else")]

inductive CondText : Cond → List UInt8 → Prop
  | none : CondText .condNone []
  | word {cond : Cond} {name : String} {b : List UInt8} (hname : (cond, name) ∈ condNames) (hb : Blank b) :
      CondText cond (name.toUTF8.toList ++ b)

inductive MaskText (type : FileType) : Option (BitVec 8 × BitVec 64) → List UInt8 → Prop
  | none : MaskText type none []
  | number {c : UInt8} {op : BitVec 8} {n : BitVec 64} {s : List UInt8} (htype : isString type = false)
      (hc : getOp (chr c) = some op) (hs : Numeral n.toNat s) : MaskText type (some (op, n)) (c :: s)

/-- The types of which the value is a string. -/
def stringTypes : List FileType := [.string, .pstring, .bestring16, .lestring16, .regex, .search, .name, .use]

inductive ConstantText (type : FileType) : Constant → List UInt8 → Prop
  | number {n : BitVec 64} {s : List UInt8} (htype : (numberWidth type).isSome) (hs : Numeral n.toNat s) :
      ConstantText type (.number n) s
  | string {bs : List UInt8} {units : List (List UInt8)} (htype : type ∈ stringTypes) (hbs : List.Forall₂ Written bs units)
      (hlen : bs.length ≤ maxString - 1) : ConstantText type (.string bs) units.flatten

/-- The relation and the constant; `=` may be left out. -/
inductive RelnText (type : FileType) : Reln → Constant → List UInt8 → Prop
  | any : RelnText type .any .none [0x78]
  | given {reln : Reln} {constant : Constant} {c : UInt8} {s : List UInt8} (hreln : reln ≠ .any) (hc : chr c = reln.char)
      (hs : ConstantText type constant s) (hequals : s.head? ≠ some 0x3d) : RelnText type reln constant (c :: s)
  | equal {constant : Constant} {c : UInt8} {s : List UInt8} (hs : ConstantText type constant (c :: s)) (hc : c ∉ relations)
      (hx : c ≠ 0x78) : RelnText type .eq constant (c :: s)

inductive DescText : Bool → List UInt8 → List UInt8 → Prop
  | plain {desc : List UInt8} (hhead : ∀ c ∈ desc.head?, isspaceC c = false ∧ c ≠ 0x08) (hescape : ¬ [0x5c, 0x62] <+: desc) :
      DescText false desc desc
  | backspace {desc : List UInt8} : DescText true desc (0x08 :: desc)
  | escaped {desc : List UInt8} : DescText true desc (0x5c :: 0x62 :: desc)

/-- What stands behind the condition, with whatever is behind the zero of the line. -/
inductive BodyText (p : Parts) : List UInt8 → Prop
  | body {k b₂ r b₃ d z : List UInt8} {name : String} {fmt : Fmt} (htype : (p.type, name, fmt) ∈ typeTbl)
      (hinvalid : p.type ≠ .invalid) (hmask : MaskText p.type p.mask k) (hb₂ : Blank b₂)
      (hreln : RelnText p.type p.reln p.constant r) (hb₃ : Blank b₃) (hdesc : DescText p.noSpace p.desc d) (hzero : 0 ∉ p.desc)
      (hlen : p.desc.length ≤ maxDesc - 1) :
      BodyText p ((if p.unsigned then [0x75] else []) ++ (name.toUTF8.toList ++ (k ++ (b₂ ++ (r ++ (b₃ ++ (d ++ 0 :: z)))))))

/-- The lines that say it. -/
inductive Writes (p : Parts) : List UInt8 → Prop
  | line {o b₁ c t : List UInt8} (hoffset : Numeral p.offset.toNat o) (hb₁ : Blank b₁) (hcond : CondText p.cond c)
      (hbody : BodyText p t) :
      Writes p (List.replicate p.level 0x3e ++ ((if p.relative then [0x26] else []) ++ (o ++ (b₁ ++ (c ++ t)))))

/-- What `parse` makes of a line: the entry, and `m->mask_op`. -/
def parsed (F : Floats) (check : Bool) (l : List UInt8) : Option (Entry × BitVec 8) :=
  let r := readOffset l
  let c := getCond r.2
  readBody F check { r.1 with contLevel := levelOf l, cond := c.1 } (eatab c.2)

variable {F : Floats} {check : Bool} {n : ℕ} {s b rest : List UInt8} {type : FileType}

/-! ## Numbers -/

/-- What stands behind a number does not go on with it. -/
def Ends (rest : List UInt8) : Prop := ∀ c ∈ rest.head?, digitOf c = none ∧ c ≠ 0x78 ∧ c ≠ 0x58

theorem isspaceC_iff {c : UInt8} : isspaceC c = true ↔ c.toNat = 32 ∨ 9 ≤ c.toNat ∧ c.toNat ≤ 13 := by
  rw [isspaceC, decide_eq_true_eq, UInt8.le_iff_toNat_le, UInt8.le_iff_toNat_le, ← UInt8.toNat_inj]
  rfl

theorem digitOf_some {c : UInt8} {d : ℕ} (h : digitOf c = some d) :
    48 ≤ c.toNat ∧ c.toNat ≤ 57 ∨ 97 ≤ c.toNat ∧ c.toNat ≤ 102 ∨ 65 ≤ c.toNat ∧ c.toNat ≤ 70 := by
  rw [digitOf] at h
  simp only [UInt8.le_iff_toNat_le] at h
  split at h
  · next hc => exact .inl hc
  split at h
  · next hc => exact .inr (.inl hc)
  split at h
  · next hc => exact .inr (.inr hc)
  · cases h

theorem ne_of_toNat {c d : UInt8} (h : c.toNat ≠ d.toNat) : c ≠ d := fun heq => h (congrArg UInt8.toNat heq)

theorem digitOf_space {c : UInt8} (h : isspaceC c = true) : digitOf c = none ∧ c ≠ 0x78 ∧ c ≠ 0x58 := by
  rw [isspaceC_iff] at h
  have h78 : (0x78 : UInt8).toNat = 120 := rfl
  have h58 : (0x58 : UInt8).toNat = 88 := rfl
  refine ⟨Option.eq_none_iff_forall_ne_some.mpr fun d hd => ?_, ne_of_toNat (by omega), ne_of_toNat (by omega)⟩
  have := digitOf_some hd
  omega

theorem Blank.ends (hb : Blank b) : Ends (b ++ rest) := by
  intro c hc
  obtain ⟨x, b, rfl⟩ := List.exists_cons_of_ne_nil hb.1
  cases hc
  exact digitOf_space (hb.2 c List.mem_cons_self)

theorem digits_append {base : ℕ} {ds : List UInt8} (hds : Digits base ds) (hrest : Ends rest) :
    digits base (ds ++ rest) = ds := by
  rw [digits, List.takeWhile_append_of_pos hds]
  cases rest with
  | nil => simp
  | cons c rest => simp [hrest c rfl]

theorem digit_ne {base : ℕ} {c : UInt8} (h : (digitOf c).any (· < base) = true) :
    isspaceC c = false ∧ c ≠ 0x2d ∧ c ≠ 0x2b := by
  obtain ⟨d, hd, -⟩ := (Option.any_eq_true _ _).mp h
  have hc := digitOf_some hd
  have h2d : (0x2d : UInt8).toNat = 45 := rfl
  have h2b : (0x2b : UInt8).toNat = 43 := rfl
  refine ⟨Bool.eq_false_iff.mpr fun hspace => ?_, ne_of_toNat (by omega), ne_of_toNat (by omega)⟩
  have := isspaceC_iff.mp hspace
  omega

theorem eatab_of_ne {c : UInt8} (h : isspaceC c = false) : eatab (c :: rest) = c :: rest := by
  rw [eatab, List.dropWhile_cons_of_neg (by simp [h])]

theorem Blank.eatab (hb : Blank b) (hrest : ∀ c ∈ rest.head?, isspaceC c = false) : Apprentice.eatab (b ++ rest) = rest := by
  rw [Apprentice.eatab, List.dropWhile_append_of_pos hb.2]
  cases rest with
  | nil => rfl
  | cons c rest => exact eatab_of_ne (hrest c rfl)

/-- A number without a sign, in the base that its beginning says. -/
theorem strtoul_digit {base : ℕ} {c : UInt8} {l : List UInt8} (hc : (digitOf c).any (· < base) = true) :
    strtoul (c :: l) =
      let hex := c = 0x30 ∧ ((c :: l)[1]? = some 0x78 ∨ (c :: l)[1]? = some 0x58) ∧ digits 16 (l.drop 1) ≠ []
      let base := if hex then 16 else if c = 0x30 then 8 else 10
      let s := if hex then l.drop 1 else c :: l
      if digits base s = [] then (0, c :: l)
      else (if 2 ^ 64 ≤ valueOf base (digits base s) then 2 ^ 64 - 1 else valueOf base (digits base s),
        s.drop (digits base s).length) := by
  obtain ⟨hspace, hminus, hplus⟩ := digit_ne hc
  rw [strtoul]
  simp [eatab_of_ne hspace, hminus, hplus, valueOf]

/-- A number is read back from each of its numerals. -/
theorem strtoul_numeral (hs : Numeral n s) (hn : n < 2 ^ 64) (hrest : Ends rest) : strtoul (s ++ rest) = (n, rest) := by
  cases hs with
  | @decimal c ds hc hds =>
    have hdigits : digits 10 (c :: (ds ++ rest)) = c :: ds := digits_append hds hrest
    rw [List.cons_append, strtoul_digit (hds c List.mem_cons_self)]
    simp [hc, hdigits]
    omega
  | @octal ds hds =>
    have hall : Digits 8 (0x30 :: ds) := by
      intro c hc
      rcases List.mem_cons.mp hc with rfl | hc
      · decide
      · exact hds c hc
    have hdigits : digits 8 (0x30 :: (ds ++ rest)) = 0x30 :: ds := digits_append hall hrest
    have hvalue : valueOf 8 (0x30 :: ds) = valueOf 8 ds := rfl
    have hnot : ¬ ((ds ++ rest)[0]? = some 0x78 ∨ (ds ++ rest)[0]? = some 0x58) := by
      rw [← List.head?_eq_getElem?, List.head?_append]
      cases ds with
      | nil =>
        intro h
        rcases h with h | h
        · exact (hrest _ h).2.1 rfl
        · exact (hrest _ h).2.2 rfl
      | cons c ds =>
        have hc := hds c List.mem_cons_self
        rintro (h | h)
        · cases h; exact absurd hc (by decide)
        · cases h; exact absurd hc (by decide)
    rw [List.cons_append, strtoul_digit (hall 0x30 List.mem_cons_self)]
    simp [hnot, hdigits, hvalue]
    omega
  | @hexadecimal c ds hds =>
    have hdigits : digits 16 (c :: (ds ++ rest)) = c :: ds := digits_append hds hrest
    have hzero : (digitOf 0x30).any (· < 8) = true := by decide
    rw [List.cons_append, strtoul_digit hzero]
    simp [hdigits]
    omega

theorem Numeral.head (hs : Numeral n s) : ∃ c s', s = c :: s' ∧ (digitOf c).any (· < 16) = true := by
  have hmore {base : ℕ} {c : UInt8} (hbase : base ≤ 16) (h : (digitOf c).any (· < base) = true) :
      (digitOf c).any (· < 16) = true := by
    obtain ⟨d, hd, hlt⟩ := (Option.any_eq_true _ _).mp h
    have hlt := of_decide_eq_true hlt
    exact (Option.any_eq_true _ _).mpr ⟨d, hd, decide_eq_true (by omega)⟩
  cases hs with
  | decimal hc hds => exact ⟨_, _, rfl, hmore (by decide) (hds _ List.mem_cons_self)⟩
  | octal hds => exact ⟨_, _, rfl, by decide⟩
  | hexadecimal hds => exact ⟨_, _, rfl, by decide⟩

/-! ## The offset, the condition and the type -/

/-- No digit is one of the signs in front of an offset. -/
theorem digit_ne_sign {base : ℕ} {c : UInt8} (h : (digitOf c).any (· < base) = true) : c ≠ 0x3e ∧ c ≠ 0x26 ∧ c ≠ 0x28 := by
  obtain ⟨d, hd, -⟩ := (Option.any_eq_true _ _).mp h
  have hc := digitOf_some hd
  have h3e : (0x3e : UInt8).toNat = 62 := rfl
  have h26 : (0x26 : UInt8).toNat = 38 := rfl
  have h28 : (0x28 : UInt8).toNat = 40 := rfl
  exact ⟨ne_of_toNat (by omega), ne_of_toNat (by omega), ne_of_toNat (by omega)⟩

/-- The number of `>` is the level, and they are stepped over. -/
theorem level_append (level : ℕ) {l : List UInt8} (h : ∀ c ∈ l.head?, c ≠ 0x3e) :
    levelOf (List.replicate level 0x3e ++ l) = level ∧ (List.replicate level 0x3e ++ l).dropWhile (· = 0x3e) = l := by
  have hall : ∀ c ∈ List.replicate level (0x3e : UInt8), decide (c = 0x3e) = true := by
    intro c hc
    rw [List.eq_of_mem_replicate hc]
    rfl
  have hstop : l.takeWhile (· = 0x3e) = [] ∧ l.dropWhile (· = 0x3e) = l := by
    cases l with
    | nil => exact ⟨rfl, rfl⟩
    | cons c l => simp [h c rfl]
  rw [levelOf, List.takeWhile_append_of_pos hall, List.dropWhile_append_of_pos hall, hstop.1, hstop.2]
  simp

theorem readOffset_written (level : ℕ) (relative : Bool) {offset : BitVec 32} {o : List UInt8} (ho : Numeral offset.toNat o)
    (hb : Blank b) (hrest : ∀ c ∈ rest.head?, isspaceC c = false) :
    let l := List.replicate level 0x3e ++ ((if relative then [0x26] else []) ++ (o ++ (b ++ rest)))
    levelOf l = level ∧ readOffset l = ({ zeroEntry with flag := if relative then flagOffAdd else 0, offset }, rest) := by
  obtain ⟨c, s, rfl, hc⟩ := ho.head
  obtain ⟨hlevel, hamp, hparen⟩ := digit_ne_sign hc
  have hhead : ∀ x ∈ ((if relative then [0x26] else []) ++ (c :: s ++ (b ++ rest))).head?, x ≠ 0x3e := by
    intro x hx
    cases relative with
    | true => cases hx; decide
    | false => cases hx; exact hlevel
  obtain ⟨hlev, hdrop⟩ := level_append level hhead
  have hflags : readFlags ((if relative then [0x26] else []) ++ (c :: s ++ (b ++ rest))) =
      (if relative then flagOffAdd else 0, c :: s ++ (b ++ rest)) := by
    cases relative with
    | true => simp [readFlags, eat, hparen]
    | false => simp [readFlags, eat, hamp, hparen]
  have hnumber : strtoul (c :: s ++ (b ++ rest)) = (offset.toNat, b ++ rest) :=
    strtoul_numeral ho (by omega) hb.ends
  have hindir : (if relative then flagOffAdd else 0) &&& flagIndir = 0 := by cases relative <;> rfl
  refine ⟨hlev, ?_⟩
  simp only [readOffset, hdrop, hflags, hnumber, hindir, ne_eq, not_true_eq_false, if_false, hb.eatab hrest,
    BitVec.ofNat_toNat, BitVec.setWidth_eq]

/-- The words that are looked for one by one, as bytes. -/
theorem words_bytes : "if".toUTF8.toList = [0x69, 0x66] ∧ "elif".toUTF8.toList = [0x65, 0x6c, 0x69, 0x66] ∧
    "else".toUTF8.toList = [0x65, 0x6c, 0x73, 0x65] ∧ "use".toUTF8.toList = [0x75, 0x73, 0x65] ∧
    "name".toUTF8.toList = [0x6e, 0x61, 0x6d, 0x65] := by
  decide +kernel

/-- A word that is a condition is stepped over, up to the white space behind it. -/
theorem getCond_word {cond : Cond} {name : String} {x : UInt8} {l : List UInt8} (hname : (cond, name) ∈ condNames)
    (hx : isspaceC x = true) : getCond (name.toUTF8.toList ++ x :: l) = (cond, x :: l) := by
  obtain ⟨hif, helif, helse, -⟩ := words_bytes
  have hlen : "if".length = 2 ∧ "elif".length = 4 ∧ "else".length = 4 := by decide
  simp only [condNames, List.mem_cons, Prod.mk.injEq, List.not_mem_nil, or_false] at hname
  rcases hname with ⟨rfl, rfl⟩ | ⟨rfl, rfl⟩ | ⟨rfl, rfl⟩
  · simp [getCond, -String.toUTF8_eq_toByteArray, hif, hlen, hx]
  · simp [getCond, -String.toUTF8_eq_toByteArray, hif, helif, hlen, hx]
  · simp [getCond, -String.toUTF8_eq_toByteArray, hif, helif, helse, hlen, hx]

theorem getCond_written {cond : Cond} {c : List UInt8} (hc : CondText cond c)
    (hrest : ∀ c ∈ rest.head?, isspaceC c = false)
    (hnone : ∀ t ∈ condNames, t.2.toUTF8.toList.isPrefixOf rest = false) :
    (getCond (c ++ rest)).1 = cond ∧ eatab (getCond (c ++ rest)).2 = rest := by
  cases hc with
  | none =>
    have hif : "if".toUTF8.toList.isPrefixOf rest = false := hnone (.condIf, "if") (by decide)
    have helif : "elif".toUTF8.toList.isPrefixOf rest = false := hnone (.condElif, "elif") (by decide)
    have helse : "else".toUTF8.toList.isPrefixOf rest = false := hnone (.condElse, "else") (by decide)
    have hcond : getCond rest = (.condNone, rest) := by
      simp only [getCond, hif, helif, helse, Bool.false_and, Bool.false_eq_true, if_false]
    rw [List.nil_append, hcond]
    refine ⟨rfl, ?_⟩
    cases rest with
    | nil => rfl
    | cons c rest => exact eatab_of_ne (hrest c rfl)
  | @word cond name b hname hb =>
    obtain ⟨x, b, rfl⟩ := List.exists_cons_of_ne_nil hb.1
    rw [List.append_assoc, List.cons_append, getCond_word hname (hb.2 x List.mem_cons_self)]
    exact ⟨rfl, hb.eatab hrest⟩

/-! ## The type -/

/-- What is asked of the name of a type: it has a byte for each of its characters, three at least; it begins with `u` only if it
is `use`, and with `se` only if with `sea`; and it begins with no blank and no word of a condition. -/
abbrev NameBytes (name : String) (bytes : List UInt8) : Prop :=
  bytes.length = name.length ∧ (bytes.take 3).length = 3 ∧ (bytes.head? = some 0x75 → name = "use") ∧
    (bytes.take 2 = [0x73, 0x65] → bytes.take 3 = [0x73, 0x65, 0x61]) ∧ ∃ x ∈ bytes.head?, isspaceC x = false ∧
      ∃ y ∈ bytes[1]?, [x, y] ≠ [0x69, 0x66] ∧ [x, y] ≠ [0x65, 0x6c]

theorem NameBytes.cons {name : String} {bytes : List UInt8} (h : NameBytes name bytes) : ∃ x y z p, bytes = x :: y :: z :: p := by
  obtain ⟨-, hthree, -⟩ := h
  rcases bytes with _ | ⟨x, _ | ⟨y, _ | ⟨z, p⟩⟩⟩
  · cases hthree
  · cases hthree
  · cases hthree
  · exact ⟨x, y, z, p, rfl⟩

/-- No name of a type begins with another one. -/
theorem typeTbl_names : (∀ t ∈ typeTbl, ∀ u ∈ typeTbl, t.2.1.toUTF8.toList.isPrefixOf u.2.1.toUTF8.toList = true → t = u) ∧
    (∀ t ∈ typeTbl, t.2.1 = "use" → t.1 = .use) ∧ ∀ t ∈ typeTbl, NameBytes t.2.1 t.2.1.toUTF8.toList := by
  decide +kernel

/-- The name of a type is found in the table, whatever stands behind it. -/
theorem getType_name {name : String} {fmt : Fmt} (h : (type, name, fmt) ∈ typeTbl) :
    getType typeTbl (name.toUTF8.toList ++ rest) = some (type, rest) := by
  have hself : name.toUTF8.toList.isPrefixOf (name.toUTF8.toList ++ rest) = true :=
    List.isPrefixOf_iff_prefix.mpr (List.prefix_append _ _)
  obtain ⟨hprefixes, -, hnames⟩ := typeTbl_names
  rw [getType]
  cases hfind : typeTbl.find? fun t => t.2.1.toUTF8.toList.isPrefixOf (name.toUTF8.toList ++ rest) with
  | none => exact absurd hself (List.find?_eq_none.mp hfind _ h)
  | some t =>
    have hmem := List.mem_of_find?_eq_some hfind
    have hfound := List.find?_some hfind
    have hprefix := List.isPrefixOf_iff_prefix.mp hfound
    have hsame : t = (type, name, fmt) := by
      rcases List.prefix_or_prefix_of_prefix hprefix (List.prefix_append _ _) with hle | hle
      · exact hprefixes t hmem _ h (List.isPrefixOf_iff_prefix.mpr hle)
      · exact (hprefixes _ h t hmem (List.isPrefixOf_iff_prefix.mpr hle)).symm
    rw [hsame, Option.map_some, ← (hnames _ h).1, List.drop_left]

/-- `use` begins with the letter of what has no sign, and is found in the other table. -/
theorem readType_use (hrest : ∀ c ∈ rest.head?, c ≠ 0x61) :
    readType ("use".toUTF8.toList ++ rest) = (.use, false, rest) := by
  obtain ⟨-, -, -, huse, hname⟩ := words_bytes
  have hlen : "use".length = 3 := by decide
  have hnone : getType typeTbl (0x73 :: 0x65 :: rest) = none := by
    rw [getType, Option.map_eq_none_iff, List.find?_eq_none]
    intro t ht hprefix
    obtain ⟨u, hu⟩ := List.isPrefixOf_iff_prefix.mp hprefix
    obtain ⟨x, y, z, p, hp⟩ := (typeTbl_names.2.2 t ht).cons
    obtain ⟨-, -, -, hse, -⟩ := typeTbl_names.2.2 t ht
    rw [hp] at hu hse
    cases hu
    have := hse rfl
    cases this
    exact hrest _ rfl rfl
  have hstandard : getStandardIntegerType (0x75 :: 0x73 :: 0x65 :: rest) = (.invalid, 0x75 :: 0x73 :: 0x65 :: rest) := rfl
  have hspecial : getType specialTbl (0x75 :: 0x73 :: 0x65 :: rest) = some (.use, rest) := by
    simp [getType, specialTbl, -String.toUTF8_eq_toByteArray, huse, hname, hlen]
  rw [huse, List.cons_append, List.cons_append, List.cons_append, List.nil_append, readType]
  simp [hnone, hstandard, hspecial]

theorem readType_written {unsigned : Bool} {name : String} {fmt : Fmt} (h : (type, name, fmt) ∈ typeTbl)
    (hinvalid : type ≠ .invalid) (hrest : ∀ c ∈ rest.head?, c ≠ 0x61) :
    readType ((if unsigned then [0x75] else []) ++ (name.toUTF8.toList ++ rest)) = (type, unsigned, rest) := by
  have hfound : getType typeTbl (name.toUTF8.toList ++ rest) = some (type, rest) := getType_name h
  cases unsigned with
  | true => simp [readType, -String.toUTF8_eq_toByteArray, hfound, hinvalid]
  | false =>
    obtain ⟨-, huses, hnames⟩ := typeTbl_names
    by_cases hu : name.toUTF8.toList.head? = some 0x75
    · obtain rfl : name = "use" := (hnames _ h).2.2.1 hu
      obtain rfl : type = .use := huses _ h rfl
      exact readType_use hrest
    · obtain ⟨c, y, z, p, hl⟩ := (hnames _ h).cons
      dsimp only at hl
      generalize y :: z :: p = l at hl
      rw [hl] at hfound hu ⊢
      have hc : c ≠ 0x75 := fun hc => hu (by rw [hc]; rfl)
      rw [List.cons_append] at hfound ⊢
      simp [readType, hc, hfound, hinvalid]

/-! ## The mask -/

variable {m : Entry}

theorem space_cases {c : UInt8} (h : isspaceC c = true) :
    chr c = ' ' ∨ chr c = '\t' ∨ chr c = '\n' ∨ chr c = '\x0b' ∨ chr c = '\x0c' ∨ chr c = '\r' := by
  have hn : c.toNat = 32 ∨ c.toNat = 9 ∨ c.toNat = 10 ∨ c.toNat = 11 ∨ c.toNat = 12 ∨ c.toNat = 13 := by
    have := isspaceC_iff.mp h
    omega
  rcases hn with hn | hn | hn | hn | hn | hn
  · exact .inl (by rw [chr, hn])
  · exact .inr (.inl (by rw [chr, hn]))
  · exact .inr (.inr (.inl (by rw [chr, hn])))
  · exact .inr (.inr (.inr (.inl (by rw [chr, hn]))))
  · exact .inr (.inr (.inr (.inr (.inl (by rw [chr, hn])))))
  · exact .inr (.inr (.inr (.inr (.inr (by rw [chr, hn])))))

/-- White space is neither an operator nor a size. -/
theorem space_plain {c : UInt8} {l : List UInt8} (h : isspaceC c = true) :
    getOp (chr c) = none ∧ eatsize (c :: l) = c :: l := by
  have hplain : getOp (chr c) = none ∧ (chr c).toLower ≠ 'u' ∧ (chr c).toLower ∉ ['l', 's', 'h', 'b', 'c'] := by
    rcases space_cases h with hc | hc | hc | hc | hc | hc
    all_goals
      rw [hc]
      decide
  obtain ⟨hop, hu, hsize⟩ := hplain
  refine ⟨hop, ?_⟩
  rw [eatsize, List.headD_cons, if_neg hu, List.headD_cons, if_neg hsize]

theorem readMask_written (check : Bool) (rest : List UInt8) {mask : Option (BitVec 8 × BitVec 64)} {k : List UInt8} (hk : MaskText m.type mask k) (hb : Blank b) :
    readMask check m (k ++ (b ++ rest)) =
      some ({ m with
          strRange := (mask.map fun mask => fileSignextend m.type (m.has flagUnsigned) mask.2).elim 0 (·.setWidth 32)
          strFlags := (mask.map fun mask => fileSignextend m.type (m.has flagUnsigned) mask.2).elim
            (if m.type = .pstring then LengthFormat.one.bit else 0) fun num => (num >>> 32).setWidth 32 },
        (mask.map (·.1)).getD 0, b ++ rest) := by
  obtain ⟨x, b', rfl⟩ := List.exists_cons_of_ne_nil hb.1
  have hx := hb.2 x List.mem_cons_self
  obtain ⟨hop, hsize⟩ := space_plain (l := b' ++ rest) hx
  cases hk with
  | none =>
    have hne : x ≠ 0x7e := by
      rintro rfl
      exact absurd hx (by decide)
    simp [readMask, eat, hne, hop]
  | @number c op n s htype hc hs =>
    have hne : c ≠ 0x7e := by
      rintro rfl
      cases hc
    have hnumber : strtoul (s ++ (x :: (b' ++ rest))) = (n.toNat, x :: (b' ++ rest)) :=
      strtoul_numeral hs n.isLt hb.ends
    simp [readMask, eat, hne, hc, htype, hnumber, hsize]
    exact ⟨rfl, rfl⟩

/-! ## The value -/

theorem written_head {c : UInt8} {t : List UInt8} (h : Written c t) : 0 ∉ t ∧ ∃ x t', t = x :: t' ∧ isspaceC x = false := by
  have hback : isspaceC backslash = false := by decide
  have hpos {d : UInt8} {j : ℕ} (hd : d.toNat = 48 + j) : d ≠ 0 := by
    rintro rfl
    have : (0 : UInt8).toNat = 0 := rfl
    omega
  cases h with
  | itself hzero hspace hbackslash =>
    exact ⟨fun h => hzero (List.mem_singleton.mp h).symm, _, _, rfl, hspace⟩
  | octal h₁ h₂ h₃ =>
    refine ⟨?_, _, _, rfl, hback⟩
    simp only [List.mem_cons, List.not_mem_nil, or_false, not_or]
    exact ⟨by decide, (hpos h₁).symm, (hpos h₂).symm, (hpos h₃).symm⟩
  | hex h₁ h₂ =>
    refine ⟨?_, _, _, rfl, hback⟩
    simp only [List.mem_cons, List.not_mem_nil, or_false, not_or]
    exact ⟨by decide, by decide, (ne_zero_of_hextoint h₁).symm, (ne_zero_of_hextoint h₂).symm⟩
  | letter h =>
    refine ⟨?_, _, _, rfl, hback⟩
    simp only [List.mem_cons, List.not_mem_nil, or_false, not_or]
    refine ⟨by decide, ?_⟩
    rintro rfl
    revert h
    simp [letterEscapes]
  | quoted h =>
    refine ⟨?_, _, _, rfl, hback⟩
    simp only [List.mem_cons, List.not_mem_nil, or_false, not_or]
    refine ⟨by decide, ?_⟩
    rintro rfl
    revert h
    decide

theorem flatten_head {bs : List UInt8} {units : List (List UInt8)} (h : List.Forall₂ Written bs units) :
    0 ∉ units.flatten ∧ ∀ c ∈ units.flatten.head?, isspaceC c = false := by
  induction h with
  | nil => exact ⟨List.not_mem_nil, fun c hc => by cases hc⟩
  | cons hb _ ih =>
    obtain ⟨hzero, x, t', rfl, hx⟩ := written_head hb
    rw [List.flatten_cons]
    refine ⟨fun hmem => ?_, fun c hc => ?_⟩
    · rcases List.mem_append.mp hmem with hmem | hmem
      · exact hzero hmem
      · exact ih.1 hmem
    · cases hc
      exact hx

theorem ConstantText.head {constant : Constant} (hs : ConstantText type constant s) : ∀ c ∈ s.head?, isspaceC c = false := by
  cases hs with
  | number htype hs =>
    obtain ⟨c, s, rfl, hc⟩ := hs.head
    intro x hx
    cases hx
    exact (digit_ne hc).1
  | string htype hbs hlen => exact (flatten_head hbs).2

theorem getvalue_number {l : List UInt8} (h : (numberWidth m.type).isSome = true) : getvalue F m l =
    some ({ m with value := putField 8 (fileSignextend m.type (m.has flagUnsigned) (BitVec.ofNat 64 (strtoul l).1)).toNat m.value },
      eatsize (strtoul l).2) := by
  unfold getvalue
  split
  case h_15 => rfl
  all_goals
    next htype =>
    rw [htype] at h
    cases h

theorem getvalue_string {l : List UInt8} (h : m.type ∈ stringTypes) : getvalue F m l =
    (getstr m.type m.strFlags m.vallen m.value (lineOf l) false).bind fun got =>
      got.ret.map fun rest => ({ m with value := got.value, vallen := got.vallen }, rest ++ l.drop (lineOf l).length) := by
  unfold getvalue
  simp only [stringTypes, List.mem_cons, List.not_mem_nil, or_false] at h
  rcases h with h | h | h | h | h | h | h | h
  all_goals
    rw [h]

theorem lineOf_append {t z : List UInt8} (ht : 0 ∉ t) :
    lineOf (t ++ 0 :: z) = t ++ [0] ∧ (t ++ 0 :: z).drop (lineOf (t ++ 0 :: z)).length = z := by
  have hline : lineOf (t ++ 0 :: z) = t ++ [0] := by
    rw [lineOf, List.takeWhile_append_of_pos]
    · simp
    · intro c hc
      simpa using ne_of_mem_of_not_mem hc ht
  refine ⟨hline, ?_⟩
  rw [hline]
  simp

theorem zero_not_mem_blank (hb : Blank b) : 0 ∉ b := by
  intro h
  exact absurd (hb.2 0 h) (by decide)

/-- A constant is read back from each of its texts, and nothing of the description is taken. -/
theorem getvalue_written {constant : Constant} {t z : List UInt8} (hs : ConstantText m.type constant s)
    (hvalue : m.value = List.replicate maxString 0) (hvallen : m.vallen = 0)
    (hflags : isString m.type = true → m.strFlags = if m.type = .pstring then LengthFormat.one.bit else 0)
    (hb : Blank b) (ht : 0 ∉ t) : ∃ rest, getvalue F m (s ++ (b ++ (t ++ 0 :: z))) =
      some ({ m with value := constant.value m.type (m.has flagUnsigned), vallen := constant.vallen m.type }, rest) ∧
        eatab rest = eatab (t ++ 0 :: z) := by
  obtain ⟨x, b, rfl⟩ := List.exists_cons_of_ne_nil hb.1
  have hx := hb.2 x List.mem_cons_self
  have hbzero := zero_not_mem_blank hb
  have heat (rest : List UInt8) : eatab (b ++ rest) = eatab rest := by
    rw [eatab, List.dropWhile_append_of_pos fun c hc => hb.2 c (List.mem_cons_of_mem _ hc)]
    rfl
  cases hs with
  | @number n s htype hs =>
    have hnumber : strtoul (s ++ (x :: (b ++ (t ++ 0 :: z)))) = (n.toNat, x :: (b ++ (t ++ 0 :: z))) :=
      strtoul_numeral hs n.isLt hb.ends
    have hsize := (space_plain (l := b ++ (t ++ 0 :: z)) hx).2
    refine ⟨x :: (b ++ (t ++ 0 :: z)), ?_, ?_⟩
    · rw [List.cons_append, getvalue_number htype, hnumber, hsize, BitVec.ofNat_toNat, BitVec.setWidth_eq, hvalue]
      rw [Constant.value, Constant.vallen, ← hvallen]
    · have hspace : eatab (x :: (b ++ (t ++ 0 :: z))) = eatab (b ++ (t ++ 0 :: z)) := by
        rw [eatab, List.dropWhile_cons_of_pos hx]
        rfl
      rw [hspace, heat]
  | @string bs units htype hbs hlen =>
    have hstring : isString m.type = true := by
      simp only [stringTypes, List.mem_cons, List.not_mem_nil, or_false] at htype
      rcases htype with h | h | h | h | h | h | h | h
      all_goals
        rw [h]
        rfl
    have hformat : m.type = .pstring → (lengthFormat m.strFlags).isSome := by
      intro h
      rw [hflags hstring, if_pos h]
      decide
    have hmax : maxString = 64 := rfl
    have hgetstr : ∃ got, getstr m.type m.strFlags m.vallen m.value (units.flatten ++ x :: (b ++ (t ++ [0]))) false = some got ∧
        got.ret = some (b ++ (t ++ [0])) ∧ got.value = bs ++ 0 :: m.value.drop (bs.length + 1) ∧
        got.vallen = bs.length + prefixSize m.type m.strFlags :=
      getstr_written hformat (by rw [hvalue, List.length_replicate]) hbs hlen (.inr hx)
    obtain ⟨got, hgot, hret, hval, hlen'⟩ := hgetstr
    have hzero : 0 ∉ units.flatten ++ x :: (b ++ t) := by
      intro h
      rcases List.mem_append.mp h with h | h
      · exact (flatten_head hbs).1 h
      · rw [← List.cons_append] at h
        rcases List.mem_append.mp h with h | h
        · exact hbzero h
        · exact ht h
    have hassoc : units.flatten ++ (x :: b ++ (t ++ 0 :: z)) = (units.flatten ++ x :: (b ++ t)) ++ 0 :: z := by simp
    obtain ⟨hline, hdrop⟩ := lineOf_append (z := z) hzero
    have hline' : lineOf ((units.flatten ++ x :: (b ++ t)) ++ 0 :: z) = units.flatten ++ x :: (b ++ (t ++ [0])) := by
      rw [hline]
      simp
    refine ⟨b ++ (t ++ 0 :: z), ?_, heat _⟩
    rw [hassoc, getvalue_string htype, hdrop, hline', hgot, Option.bind_some, hret, Option.map_some]
    have hkept : got.value = (Constant.string bs).value m.type (m.has flagUnsigned) := by
      rw [hval, hvalue, Constant.value, List.drop_replicate, ← List.replicate_succ]
      congr 2
      omega
    have hkeptlen : got.vallen = (Constant.string bs).vallen m.type := by
      rw [hlen', Constant.vallen, prefixSize, hflags hstring]
      by_cases h : m.type = .pstring
      · rw [if_pos h, if_pos h, if_pos h]
        rfl
      · rw [if_neg h, if_neg h]
    rw [hkept, hkeptlen]
    simp

/-! ## The relation and the description -/

theorem toNat_chr (c : UInt8) : (chr c).toNat = c.toNat := by
  have hlt := c.toNat_lt
  have hvalid : c.toNat.isValidChar := .inl (by omega)
  rw [chr, Char.ofNat, dif_pos hvalid]
  rfl

theorem chr_eq {c d : UInt8} (h : chr c = chr d) : c = d := by
  rw [← UInt8.toNat_inj, ← toNat_chr, h, toNat_chr]

theorem reln_not_space {c : UInt8} {reln : Reln} (hc : chr c = reln.char) : isspaceC c = false := by
  refine Bool.eq_false_iff.mpr fun h => ?_
  rcases space_cases h with h | h | h | h | h | h
  all_goals
    rw [h] at hc
    cases reln <;> cases hc

theorem RelnText.head {reln : Reln} {constant : Constant} {r : List UInt8} (hr : RelnText type reln constant r) :
    ∃ c r', r = c :: r' ∧ isspaceC c = false := by
  cases hr with
  | any => exact ⟨_, _, rfl, by decide⟩
  | given hreln hc hs hequals => exact ⟨_, _, rfl, reln_not_space hc⟩
  | equal hs hc hx => exact ⟨_, _, rfl, hs.head _ rfl⟩

/-- The relation is read back, up to the constant. -/
theorem readReln_written (check : Bool) (rest : List UInt8) {reln : Reln} {constant : Constant} {r : List UInt8}
    (hr : RelnText type reln constant r) (hb : Blank b) :
    (reln = .any ∧ constant = .none ∧ readReln check (r ++ (b ++ rest)) = some ('x', b ++ rest)) ∨
      (reln ≠ .any ∧ ∃ s, ConstantText type constant s ∧
        readReln check (r ++ (b ++ rest)) = some (reln.char, s ++ (b ++ rest))) := by
  obtain ⟨x, b, rfl⟩ := List.exists_cons_of_ne_nil hb.1
  have hx := hb.2 x List.mem_cons_self
  cases hr with
  | any =>
    refine .inl ⟨rfl, rfl, ?_⟩
    have hchr : chr 0x78 = 'x' := rfl
    simp [readReln, hchr, hx]
  | @given reln constant c s hreln hc hs hequals =>
    refine .inr ⟨hreln, s, hs, ?_⟩
    have heat : eat 0x3d (s ++ (x :: (b ++ rest))) = (false, s ++ (x :: (b ++ rest))) := by
      rw [eat, if_neg]
      cases s with
      | nil =>
        intro h
        cases h
        exact absurd hx (by decide)
      | cons y s => exact hequals
    rw [List.cons_append, List.cons_append, readReln, List.headD_cons, List.tail_cons, heat, hc]
    cases reln
    case any => exact absurd rfl hreln
    all_goals simp [Reln.char]
  | @equal constant c s hs hc hx' =>
    refine .inr ⟨by decide, c :: s, hs, ?_⟩
    have hne (d : UInt8) (hd : d ∈ relations) : chr c ≠ chr d := fun h => hc (chr_eq h ▸ hd)
    have hgt : chr c ≠ '>' := hne 62 (by decide)
    have hlt : chr c ≠ '<' := hne 60 (by decide)
    have hand : chr c ≠ '&' := hne 38 (by decide)
    have hxor : chr c ≠ '^' := hne 94 (by decide)
    have heq : chr c ≠ '=' := hne 61 (by decide)
    have hnot : chr c ≠ '!' := hne 33 (by decide)
    have hany : chr c ≠ 'x' := fun h => hx' (chr_eq (d := 0x78) h)
    simp [readReln, hgt, hlt, hand, hxor, heq, hnot, hany, Reln.char]

theorem DescText.head {noSpace : Bool} {desc d z : List UInt8} (hd : DescText noSpace desc d) :
    ∀ c ∈ (d ++ 0 :: z).head?, isspaceC c = false := by
  intro c hc
  cases hd with
  | plain hhead hescape =>
    cases desc with
    | nil => cases hc; decide
    | cons x desc => exact (hhead c hc).1
  | backspace => cases hc; decide
  | escaped => cases hc; decide

theorem DescText.zero_not_mem {noSpace : Bool} {desc d : List UInt8} (hd : DescText noSpace desc d) (h : 0 ∉ desc) : 0 ∉ d := by
  cases hd with
  | plain hhead hescape => exact h
  | backspace =>
    rw [List.mem_cons]
    rintro (h' | h')
    · cases h'
    · exact h h'
  | escaped =>
    rw [List.mem_cons, List.mem_cons]
    rintro (h' | h' | h')
    · cases h'
    · cases h'
    · exact h h'

/-- The description is read back. -/
theorem readDesc_written {noSpace : Bool} {desc d z l : List UInt8} (hd : DescText noSpace desc d) (hzero : 0 ∉ desc)
    (hlen : desc.length ≤ maxDesc - 1) (hl : eatab l = d ++ 0 :: z) :
    readDesc m l = { m with flag := if noSpace then m.flag ||| flagNoSpace else m.flag, desc := desc.map chr } := by
  have htake : ((desc ++ 0 :: z).takeWhile (· ≠ 0)).take (maxDesc - 1) = desc := by
    rw [List.takeWhile_append_of_pos]
    · simpa using hlen
    · intro c hc
      simpa using ne_of_mem_of_not_mem hc hzero
  rw [readDesc, hl]
  cases hd with
  | plain hhead hescape =>
    have hback : (desc ++ 0 :: z).headD 0 ≠ 0x08 := by
      cases desc with
      | nil => exact fun h => by cases h
      | cons x desc => exact (hhead x rfl).2
    have hslash : ¬ ((desc ++ 0 :: z).headD 0 = 0x5c ∧ (desc ++ 0 :: z).tail.headD 0 = 0x62) := by
      rintro ⟨hx, hy⟩
      cases desc with
      | nil => cases hx
      | cons x desc =>
        cases desc with
        | nil => cases hy
        | cons y desc =>
          obtain rfl : x = 0x5c := hx
          obtain rfl : y = 0x62 := hy
          exact hescape ⟨desc, rfl⟩
    simp only [htake, hback, hslash, or_self, if_false, Bool.false_eq_true]
  | backspace =>
    simp only [List.cons_append, List.headD_cons, List.tail_cons, if_true, true_or, htake]
  | escaped =>
    have hne : (0x5c : UInt8) ≠ 0x08 := by decide
    simp only [List.cons_append, List.headD_cons, List.tail_cons, if_neg hne, and_self, if_true, or_true, List.drop_succ_cons,
      List.drop_zero, htake]

/-! ## Lines -/

theorem condNames_head : ∀ t ∈ condNames, ∃ w,
    t.2.toUTF8.toList = 0x69 :: 0x66 :: w ∨ t.2.toUTF8.toList = 0x65 :: 0x6c :: w := by
  intro t ht
  simp only [condNames, List.mem_cons, List.not_mem_nil, or_false] at ht
  rcases ht with rfl | rfl | rfl
  · exact ⟨[], .inl words_bytes.1⟩
  · exact ⟨[0x69, 0x66], .inr words_bytes.2.1⟩
  · exact ⟨[0x73, 0x65], .inr words_bytes.2.2.1⟩

theorem CondText.head {cond : Cond} {c : List UInt8} (hc : CondText cond c) (hrest : ∀ x ∈ rest.head?, isspaceC x = false) :
    ∀ x ∈ (c ++ rest).head?, isspaceC x = false := by
  cases hc with
  | none => exact hrest
  | word hname hb =>
    intro x hx
    obtain ⟨w, hw | hw⟩ := condNames_head _ hname
    · rw [hw] at hx
      cases hx
      decide
    · rw [hw] at hx
      cases hx
      decide

/-- The name of a type begins no word of a condition, and no white space. -/
theorem name_head {name : String} {fmt : Fmt} (h : (type, name, fmt) ∈ typeTbl) (unsigned : Bool) :
    (∀ c ∈ ((if unsigned then [0x75] else []) ++ (name.toUTF8.toList ++ rest)).head?, isspaceC c = false) ∧
      ∀ t ∈ condNames, t.2.toUTF8.toList.isPrefixOf ((if unsigned then [0x75] else []) ++ (name.toUTF8.toList ++ rest)) = false := by
  obtain ⟨x, y, z, p, hl⟩ := (typeTbl_names.2.2 _ h).cons
  obtain ⟨-, -, -, -, x', hx, hspace, y', hy, hif, hel⟩ := typeTbl_names.2.2 _ h
  dsimp only at hl hx hy
  generalize z :: p = l at hl
  rw [hl] at hx hy
  obtain rfl : x = x' := Option.some.inj hx
  obtain rfl : y = y' := Option.some.inj hy
  rw [hl]
  cases unsigned with
  | true =>
    refine ⟨fun c hc => ?_, fun t ht => ?_⟩
    · cases hc
      decide
    · obtain ⟨w, hw | hw⟩ := condNames_head t ht
      · rw [hw]; rfl
      · rw [hw]; rfl
  | false =>
    refine ⟨fun c hc => ?_, fun t ht => ?_⟩
    · cases hc
      exact hspace
    · refine Bool.eq_false_iff.mpr fun hprefix => ?_
      have hprefix := List.isPrefixOf_iff_prefix.mp hprefix
      obtain ⟨w, hw | hw⟩ := condNames_head t ht
      all_goals
        rw [hw] at hprefix
        obtain ⟨rfl, htail⟩ := List.cons_prefix_cons.mp hprefix
        obtain ⟨rfl, -⟩ := List.cons_prefix_cons.mp htail
      · exact hif rfl
      · exact hel rfl

/-- What stands behind the name of a type does not make another one of it. -/
theorem MaskText.head {mask : Option (BitVec 8 × BitVec 64)} {k : List UInt8} (hk : MaskText type mask k) (hb : Blank b) :
    ∀ c ∈ (k ++ (b ++ rest)).head?, c ≠ 0x61 := by
  intro c hc
  obtain ⟨x, b, rfl⟩ := List.exists_cons_of_ne_nil hb.1
  cases hk with
  | none =>
    cases hc
    rintro rfl
    exact absurd (hb.2 _ List.mem_cons_self) (by decide)
  | number htype hop hs =>
    cases hc
    rintro rfl
    cases hop

theorem eatab_desc {noSpace : Bool} {desc d z : List UInt8} (hd : DescText noSpace desc d) (hb : Blank b) :
    eatab (b ++ (d ++ 0 :: z)) = d ++ 0 :: z ∧ eatab (d ++ 0 :: z) = d ++ 0 :: z := by
  refine ⟨hb.eatab hd.head, ?_⟩
  obtain ⟨y, l, hl⟩ := List.exists_cons_of_ne_nil (List.append_ne_nil_of_right_ne_nil d (List.cons_ne_nil 0 z))
  have hy := hd.head (z := z) y (by rw [hl]; rfl)
  rw [hl, eatab_of_ne hy]

/-- The relation and the constant are read back, up to the white space before the description. -/
theorem readValue_written (F : Floats) (check : Bool) {α : Type} {reln : Reln} {constant : Constant} {r d z desc : List UInt8} {noSpace : Bool}
    (hr : RelnText m.type reln constant r) (hvalue : m.value = List.replicate maxString 0) (hvallen : m.vallen = 0)
    (hflags : isString m.type = true → m.strFlags = if m.type = .pstring then LengthFormat.one.bit else 0)
    (hb : Blank b) (hd : DescText noSpace desc d) (hzero : 0 ∉ desc) : ∃ l, eatab l = d ++ 0 :: z ∧
      ∀ k : Entry × List UInt8 → Option α, ((readReln check (r ++ (b ++ (d ++ 0 :: z)))).bind fun reln =>
        (if reln.1 = 'x' then some ({ m with reln := reln.1 }, reln.2) else getvalue F { m with reln := reln.1 } reln.2).bind k) =
        k ({ m with
          reln := reln.char
          value := constant.value m.type (m.has flagUnsigned)
          vallen := constant.vallen m.type }, l) := by
  obtain ⟨hspaced, hplain⟩ := eatab_desc (z := z) hd hb
  rcases readReln_written check (d ++ 0 :: z) hr hb with ⟨rfl, rfl, hread⟩ | ⟨hne, s, hs, hread⟩
  · refine ⟨_, hspaced, fun k => ?_⟩
    rw [hread, Option.bind_some]
    dsimp only
    rw [if_pos rfl, Option.bind_some, Constant.value, Constant.vallen, ← hvalue, ← hvallen]
    rfl
  · have hchar : reln.char ≠ 'x' := by
      cases reln
      case any => exact absurd rfl hne
      all_goals decide
    obtain ⟨l, hl, heat⟩ := getvalue_written (F := F) (z := z) (m := { m with reln := reln.char }) hs hvalue hvallen hflags hb
      (hd.zero_not_mem hzero)
    refine ⟨l, heat.trans hplain, fun k => ?_⟩
    rw [hread, Option.bind_some]
    dsimp only
    rw [if_neg hchar, hl, Option.bind_some]
    rfl

theorem BodyText.head {p : Parts} {t : List UInt8} (h : BodyText p t) :
    (∀ x ∈ t.head?, isspaceC x = false) ∧ ∀ u ∈ condNames, u.2.toUTF8.toList.isPrefixOf t = false := by
  cases h with
  | body htype => exact name_head htype p.unsigned

/-- What stands behind the condition is read back. -/
theorem readBody_written {p : Parts} {t : List UInt8} (h : BodyText p t)
    (hformat : check = true → ∃ n, checkFormat p.entry.toMagic = .ok n) :
    readBody F check { zeroEntry with
        flag := if p.relative then flagOffAdd else 0
        offset := p.offset
        contLevel := p.level
        cond := p.cond } t = some (p.entry, (p.mask.map (·.1)).getD 0) := by
  cases h with
  | @body k b₂ r b₃ d z name fmt htype hinvalid hmask hb₂ hreln hb₃ hdesc hzero hlen =>
    rw [readBody, readType_written htype hinvalid (hmask.head hb₂)]
    dsimp only
    rw [if_neg hinvalid]
    -- The entry in front of the mask, with the sign that the type has.
    generalize hm : ({ zeroEntry with
      type := p.type
      contLevel := p.level
      flag := if p.unsigned = true then (if p.relative = true then flagOffAdd else 0) ||| flagUnsigned
        else if p.relative = true then flagOffAdd else 0
      cond := p.cond
      offset := p.offset } : Entry) = m
    have hty : m.type = p.type := by rw [← hm]
    have hflag : m.flag = (if p.relative then flagOffAdd else 0) ||| (if p.unsigned then flagUnsigned else 0) := by
      rw [← hm]
      cases p.unsigned <;> cases p.relative <;> rfl
    have hsign : m.has flagUnsigned = p.unsigned := by
      rw [Entry.has, hflag]
      cases p.unsigned <;> cases p.relative <;> decide
    have hread := readMask_written check (r ++ (b₃ ++ (d ++ 0 :: z))) (m := m) (hty ▸ hmask) hb₂
    rw [hsign, hty, ← Parts.num] at hread
    -- The entry behind the mask; a string has none.
    generalize hm' : ({ m with
      strRange := p.num.elim 0 (·.setWidth 32)
      strFlags := p.num.elim (if p.type = .pstring then LengthFormat.one.bit else 0) fun num => (num >>> 32).setWidth 32 } :
      Entry) = m' at hread
    obtain ⟨x, r', hr', hx⟩ := hreln.head
    have hrhead : ∀ c ∈ (r ++ (b₃ ++ (d ++ 0 :: z))).head?, isspaceC c = false := by
      rw [hr']
      intro c hc
      cases hc
      exact hx
    rw [hread, Option.bind_some, hb₂.eatab hrhead]
    have hty' : m'.type = p.type := by rw [← hm', ← hty]
    have hsign' : m'.has flagUnsigned = p.unsigned := by rw [← hm', ← hsign]; rfl
    have hvalue : m'.value = List.replicate maxString 0 := by rw [← hm', ← hm]; rfl
    have hvallen : m'.vallen = 0 := by rw [← hm', ← hm]; rfl
    have hflags (h : isString m'.type = true) : m'.strFlags = if m'.type = .pstring then LengthFormat.one.bit else 0 := by
      rw [hty'] at h ⊢
      rw [← hm', Parts.num]
      cases hmk : p.mask with
      | none => rfl
      | some mask =>
        rw [hmk] at hmask
        cases hmask with
        | number hnumber hop hs =>
          rw [hnumber] at h
          cases h
    obtain ⟨l, hl, hvalued⟩ := readValue_written F check (α := Entry × BitVec 8) (z := z) (hty'.symm ▸ hreln)
      hvalue hvallen hflags hb₃ hdesc hzero
    rw [hvalued]
    dsimp only
    rw [hty', hsign']
    have hentry : readDesc { m' with
        reln := p.reln.char
        value := p.constant.value p.type p.unsigned
        vallen := p.constant.vallen p.type } l = p.entry := by
      rw [readDesc_written hdesc hzero hlen hl, Parts.entry, ← hm', ← hm]
      cases p.noSpace <;> cases p.unsigned <;> cases p.relative <;> rfl
    have hcheck : ¬ (check = true ∧ (checkFormat p.entry.toMagic).toOption = none) := by
      rintro ⟨hc, hnone⟩
      obtain ⟨n, hn⟩ := hformat hc
      rw [hn] at hnone
      cases hnone
    rw [hentry, if_neg hcheck]
    rfl

/-- `>&4 ulelong&0xff >010 \b, from %d`. -/
def belowEight : Parts where
  level := 1
  relative := true
  offset := 4
  cond := .condNone
  unsigned := true
  type := .lelong
  mask := some (0, 0xff)
  reln := .gt
  constant := .number 8
  noSpace := true
  desc := ", from %d".toUTF8.toList

theorem belowEight_writes : Writes belowEight ">&4 ulelong&0xff >010 \x08, from %d\x00".toUTF8.toList := by
  have hdecimal : Digits 10 [0x34] := by simp [Digits, digitOf]
  have hhexadecimal : Digits 16 [0x66, 0x66] := by simp [Digits, digitOf]
  have hoctal : Digits 8 [0x31, 0x30] := by simp [Digits, digitOf]
  have hfour : Numeral 4 [0x34] := .decimal (by decide) hdecimal
  have hmask : Numeral 0xff [0x30, 0x78, 0x66, 0x66] := .hexadecimal hhexadecimal
  have height : Numeral 8 [0x30, 0x31, 0x30] := .octal hoctal
  have hblank : Blank [0x20] := ⟨List.cons_ne_nil _ _, by simp [isspaceC]⟩
  have hand : MaskText .lelong (some (0, 0xff)) [0x26, 0x30, 0x78, 0x66, 0x66] := .number (by decide) (by decide) hmask
  have hreln : RelnText .lelong .gt (.number 8) [0x3e, 0x30, 0x31, 0x30] :=
    .given (by decide) (by decide) (.number (by decide) height) (by decide)
  have hdesc : DescText true belowEight.desc (0x08 :: belowEight.desc) := .backspace
  have htype : (belowEight.type, "lelong", Fmt.num) ∈ typeTbl := by decide +kernel
  have hbody := BodyText.body (p := belowEight) (z := []) htype (by decide) hand
    hblank hreln hblank hdesc (by decide +kernel) (by decide +kernel)
  have hline := Writes.line (p := belowEight) hfour hblank .none hbody
  refine Eq.mp (congrArg (Writes belowEight) ?_) hline
  decide +kernel

end CodingExercises.File.WrittenLines
