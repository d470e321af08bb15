import CodingExercises.PeotrixNginx.Rendering

/-!
# Peotrix on nginx: runs of `ptrx_vslprintf`

- `ptrx_vslprintf` writes as much of the text as there is room for, with widths read as `unsigned int`
  (`vslprintfLoop_complete`), unless the format ends inside of a directive: then it reads on behind the `NUL`
  (`vslprintfLoop_incomplete`).
- So it is right for every room just for formats that do not end so and have no width from 2^32 on
  (`vslprintf_renders_iff`), and safe for every room just for formats that do not end so (`vslprintf_safe_iff`).
-/

namespace CodingExercises.PeotrixNginx

variable {room : ℕ} {out : List Byte}

/-! ## A turn of the loop -/

/-- A width is read as an `unsigned int`. -/
def uint (n : ℕ) : ℕ := n % (maxUint32Value + 1)

theorem widthLoop_eq (n : ℕ) (before s : List Byte) :
    ∃ before', widthLoop (uint n) before s =
      (uint ((s.takeWhile isDigit).foldl (fun n c => n * 10 + (c.toNat - 48)) n), ⟨before', s.dropWhile isDigit⟩) := by
  induction s generalizing n before with
  | nil => exact ⟨before, rfl⟩
  | cons c s ih =>
    rw [widthLoop, List.takeWhile_cons, List.dropWhile_cons]
    split
    case isTrue hc =>
      have hstep : (uint n * 10 + (c.toNat - 48)) % (maxUint32Value + 1) = uint (n * 10 + (c.toNat - 48)) := by
        rw [uint, uint, Nat.add_mod, Nat.mod_mul_mod, ← Nat.add_mod]
      rw [hstep]
      exact ih _ _
    case isFalse hc => exact ⟨before, rfl⟩

/-- A flag changes the flags and takes an argument in `flagLoop` as in `Flags.read`, or both want an argument for `*`. -/
theorem flag_cases (fl : Flags) (args : List Arg) {c : Byte} (hc : isFlag c = true) :
    (∃ fl₁ args₁, (∀ cs, Flags.read fl (c :: cs) args = Flags.read fl₁ cs args₁) ∧
      ∀ before s, flagLoop fl args before (c :: s) = flagLoop fl₁ args₁ (c :: before) s) ∨
    (∀ cs, Flags.read fl (c :: cs) args = none) ∧ ∀ before s, flagLoop fl args before (c :: s) = .error .args := by
  by_cases hu : c = ch 'u'
  · exact .inl ⟨{ fl with sign := false }, args, fun _ => if_pos hu, fun _ _ => if_pos hu⟩
  by_cases hm : c = ch 'm'
  · exact .inl ⟨{ fl with maxWidth := true }, args, fun _ => (if_neg hu).trans (if_pos hm),
      fun _ _ => (if_neg hu).trans (if_pos hm)⟩
  by_cases hX : c = ch 'X'
  · exact .inl ⟨{ fl with hex := 2, sign := false }, args, fun _ => (if_neg hu).trans ((if_neg hm).trans (if_pos hX)),
      fun _ _ => (if_neg hu).trans ((if_neg hm).trans (if_pos hX))⟩
  have hnot {α : Type} {a b e d : α} :
      (if c = ch 'u' then a else if c = ch 'm' then b else if c = ch 'X' then e else d) = d :=
    (if_neg hu).trans ((if_neg hm).trans (if_neg hX))
  by_cases hx : c = ch 'x'
  · exact .inl ⟨{ fl with hex := 1, sign := false }, args, fun _ => hnot.trans (if_pos hx),
      fun _ _ => hnot.trans (if_pos hx)⟩
  have hstar : c = ch '*' := by simpa [isFlag, hu, hm, hX, hx] using hc
  have hdot : c ≠ ch '.' := by
    rw [hstar]
    decide
  have hlast {α : Type} {a b e d : α} :
      (if c = ch 'x' then a else if c = ch '.' then b else if c = ch '*' then e else d) = e :=
    (if_neg hx).trans ((if_neg hdot).trans (if_pos hstar))
  cases args with
  | nil => exact .inr ⟨fun _ => hnot.trans (if_neg hx), fun _ _ => hnot.trans hlast⟩
  | cons arg args =>
    cases arg with
    | long slen => exact .inl ⟨_, _, fun _ => hnot.trans (if_neg hx), fun _ _ => hnot.trans hlast⟩
    | _ => exact .inr ⟨fun _ => hnot.trans (if_neg hx), fun _ _ => hnot.trans hlast⟩

/-- The flags are read up to the first character that is none. -/
theorem flagLoop_read {fl fl' : Flags} {args args' : List Arg} {s : List Byte} (before : List Byte)
    (h : Flags.read fl (s.takeWhile isFlag) args = some (fl', args')) :
    ∃ before', flagLoop fl args before s = flagLoop fl' args' before' (s.dropWhile isFlag) := by
  induction s generalizing fl args before with
  | nil =>
    cases h
    exact ⟨before, rfl⟩
  | cons c s ih =>
    rw [List.takeWhile_cons] at h
    rw [List.dropWhile_cons]
    split at h
    case isFalse hc =>
      cases h
      rw [if_neg hc]
      exact ⟨before, rfl⟩
    case isTrue hc =>
      rw [if_pos hc]
      rcases flag_cases fl args hc with ⟨fl₁, args₁, hread, hloop⟩ | ⟨hread, -⟩
      · rw [hread] at h
        rw [hloop]
        exact ih _ h
      · rw [hread] at h
        cases h

/-- Without an argument for a `*` the call goes wrong. -/
theorem flagLoop_unread {fl : Flags} {args : List Arg} {s : List Byte} (before : List Byte)
    (h : Flags.read fl (s.takeWhile isFlag) args = none) : flagLoop fl args before s = .error .args := by
  induction s generalizing fl args before with
  | nil => cases h
  | cons c s ih =>
    rw [List.takeWhile_cons] at h
    split at h
    case isFalse => cases h
    case isTrue hc =>
      rcases flag_cases fl args hc with ⟨fl₁, args₁, hread, hloop⟩ | ⟨-, hloop⟩
      · rw [hread] at h
        rw [hloop]
        exact ih _ h
      · exact hloop before s

theorem Flags.read_fracWidth {fl fl' : Flags} {cs : List Byte} {args args' : List Arg}
    (h : Flags.read fl cs args = some (fl', args')) : fl'.fracWidth = fl.fracWidth := by
  induction cs generalizing fl args with
  | nil =>
    cases h
    rfl
  | cons c cs ih =>
    unfold Flags.read at h
    split at h
    case isTrue => exact (ih h :)
    split at h
    case isTrue => exact (ih h :)
    split at h
    case isTrue => exact (ih h :)
    split at h
    case isTrue => exact (ih h :)
    split at h
    case h_1 => exact (ih h :)
    case h_2 => cases h

/-- Behind the flags: the end, a point, or the conversion. -/
theorem flagLoop_stop (fl : Flags) (args : List Arg) (before : List Byte) {c : Byte} (s : List Byte)
    (hflag : isFlag c = false) (hdot : c ≠ ch '.') :
    flagLoop fl args before (c :: s) = .ok (fl, args, ⟨before, c :: s⟩) := by
  simp only [isFlag, Bool.or_eq_false_iff, decide_eq_false_iff_not] at hflag
  obtain ⟨⟨⟨⟨hu, hm⟩, hX⟩, hx⟩, hstar⟩ := hflag
  unfold flagLoop
  rw [if_neg hu, if_neg hm, if_neg hX, if_neg hx, if_neg hdot, if_neg hstar]

theorem flagLoop_dot (fl : Flags) (args : List Arg) (before s : List Byte) :
    ∃ fracWidth before', flagLoop fl args before (ch '.' :: s) =
        .ok ({ fl with fracWidth }, args, ⟨before', if isDigit (s.headD 0) then ch '.' :: s else s⟩) ∧
      (isDigit (s.headD 0) = false → fracWidth = fl.fracWidth) := by
  have hzero : isDigit 0 = false := by decide
  unfold flagLoop
  rw [if_neg (by decide), if_neg (by decide), if_neg (by decide), if_neg (by decide), if_pos rfl, fracLoop_dot]
  cases s with
  | nil => exact ⟨fl.fracWidth, ch '.' :: before, by simp [hzero], fun _ => rfl⟩
  | cons c s =>
    cases hc : isDigit c with
    | true =>
      exact ⟨(fl.fracWidth * 10 + (c.toNat - 48)) % (maxUint32Value + 1), before, by simp [hc], by simp [hc]⟩
    | false => exact ⟨fl.fracWidth, ch '.' :: before, by simp [hc], fun _ => rfl⟩

/-- The second `switch` writes the text of the directive. -/
theorem convert_eq (cfg : Config) {d : Directive} {widths : ℕ → ℕ} (h : out.length < room) {fl : Flags} {args₀ : List Arg}
    {t : List Byte} {args args' : List Arg} (hread : Flags.start.read d.flags args₀ = some (fl, args))
    (ht : d.text cfg widths args₀ = some (t, args')) :
    convert cfg room fl d.pad (widths d.width) args out d.conv = .ok (args', (out ++ t).take room) := by
  have hfrac : fl.fracWidth = 0 := Flags.read_fracWidth hread
  have hput : ∀ c, put room out c = .ok ((out ++ [c]).take room) := by
    intro c
    rw [put_eq h, List.take_of_length_le (length_le_of_lt h c)]
  unfold Directive.text at ht
  rw [hread] at ht
  dsimp only at ht
  unfold convert
  dsimp only
  cases hconv : Conv.ofByte d.conv with
  | none =>
    rw [hconv] at ht
    cases ht
    dsimp only
    rw [hput]
  | some cv =>
    rw [hconv] at ht
    cases cv
    case Z | N | percent =>
      cases ht
      dsimp only
      rw [hput]
    all_goals
      cases args with
      | nil => cases ht
      | cons arg args =>
        obtain ⟨t', ht', heq⟩ := Option.map_eq_some_iff.mp ht
        cases heq
        dsimp only
        rw [printArg_eq cfg d widths h hfrac ht']

theorem isFlag_head {s t : List Byte} {c : Byte} (h : s.dropWhile isFlag = c :: t) : isFlag c = false := by
  have := List.head?_dropWhile_not isFlag s
  rw [h] at this
  simpa using this

/-- The flags that were read, and the character behind them. -/
theorem flagLoop_parse {s rest : List Byte} {d : Directive} (hparse : Directive.parse s = some (d, rest))
    {args args' : List Arg} {fl : Flags} (hread : Flags.start.read d.flags args = some (fl, args')) (before : List Byte) :
    ∃ fracWidth before', flagLoop .start args before (s.dropWhile isDigit) =
        .ok ({ fl with fracWidth }, args', ⟨before', d.conv :: rest⟩) ∧
      (d.conv ≠ ch '.' → fracWidth = fl.fracWidth) := by
  unfold Directive.parse at hparse
  dsimp only at hparse
  have hflags : d.flags = (s.dropWhile isDigit).takeWhile isFlag := by
    split at hparse
    case h_1 => cases hparse
    case h_2 =>
      split at hparse
      case isTrue =>
        split at hparse
        case h_1 => cases hparse
        case h_2 => split at hparse <;> cases hparse <;> rfl
      case isFalse =>
        cases hparse
        rfl
  rw [hflags] at hread
  obtain ⟨before₁, hflag⟩ := flagLoop_read before hread
  rw [hflag]
  split at hparse
  case h_1 => cases hparse
  case h_2 c t hdrop =>
    have hnot := isFlag_head hdrop
    rw [hdrop]
    split at hparse
    case isTrue hdot =>
      subst hdot
      obtain ⟨fracWidth, before₂, hloop, hfrac⟩ := flagLoop_dot fl args' before₁ t
      refine ⟨fracWidth, before₂, ?_⟩
      rw [hloop]
      split at hparse
      case h_1 => cases hparse
      case h_2 e t' =>
        split at hparse
        case isTrue he =>
          cases hparse
          refine ⟨?_, fun hne => absurd rfl hne⟩
          rw [List.headD_cons, if_pos he]
        case isFalse he =>
          cases hparse
          refine ⟨?_, fun _ => hfrac (by simpa using he)⟩
          rw [List.headD_cons, if_neg he]
    case isFalse hdot =>
      cases hparse
      exact ⟨fl.fracWidth, before₁, flagLoop_stop fl args' before₁ _ hnot hdot, fun _ => rfl⟩

theorem Directive.pad_parse {s rest : List Byte} {d : Directive} (h : parse s = some (d, rest)) :
    d.pad = (if s.headD 0 = ch '0' then ch '0' else ch ' ') ∧ d.width = decimal (s.takeWhile isDigit) := by
  unfold parse at h
  dsimp only at h
  unfold pad
  split at h
  case h_1 => cases h
  case h_2 =>
    split at h
    case isTrue =>
      split at h
      case h_1 => cases h
      case h_2 => split at h <;> cases h <;> simp
    case isFalse =>
      cases h
      simp

/-- A turn writes the text of a directive, as far as there is room. -/
theorem directive_eq (cfg : Config) (h : out.length < room) {s rest : List Byte} {d : Directive}
    (hparse : Directive.parse s = some (d, rest)) {args args' : List Arg} {t : List Byte}
    (ht : d.text cfg uint args = some (t, args')) (before : List Byte) :
    ∃ before', directive cfg room ⟨before, s⟩ args out = .ok (⟨before', rest⟩, args', (out ++ t).take room) := by
  obtain ⟨fl, args₁, hread⟩ : ∃ fl args₁, Flags.start.read d.flags args = some (fl, args₁) := by
    unfold Directive.text at ht
    split at ht
    case h_1 => cases ht
    case h_2 fl args₁ hread => exact ⟨fl, args₁, hread⟩
  obtain ⟨hpad, hwidth⟩ := Directive.pad_parse hparse
  obtain ⟨before₁, hloop⟩ := widthLoop_eq 0 before s
  obtain ⟨fracWidth, before₂, hflag, hfrac⟩ := flagLoop_parse hparse hread before₁
  have hconvert : convert cfg room { fl with fracWidth } d.pad (uint d.width) args₁ out d.conv =
      .ok (args', (out ++ t).take room) := by
    rw [← convert_eq cfg h hread ht]
    by_cases hdot : d.conv = ch '.'
    · -- the point is no conversion, and nothing is done with the flags
      have hnone : Conv.ofByte (ch '.') = none := by decide
      rw [convert, convert, hdot, hnone]
    · rw [hfrac hdot]
  have hstart : uint 0 = 0 := rfl
  rw [hstart] at hloop
  refine ⟨d.conv :: before₂, ?_⟩
  simp only [directive, hloop, hflag]
  rw [← hpad, show uint (List.foldl _ 0 _) = uint d.width by rw [hwidth]; rfl, hconvert]

/-- Where a directive does not end there is nothing behind its flags, or a point. -/
theorem Directive.dropWhile_of_parse {s : List Byte} (h : parse s = none) :
    (s.dropWhile isDigit).dropWhile isFlag = [] ∨ (s.dropWhile isDigit).dropWhile isFlag = [ch '.'] := by
  unfold parse at h
  dsimp only at h
  split at h
  case h_1 hdrop => exact .inl hdrop
  case h_2 c t hdrop =>
    split at h
    case isTrue hdot =>
      split at h
      case h_1 =>
        rw [hdrop, hdot]
        exact .inr rfl
      case h_2 => split at h <;> cases h
    case isFalse => cases h

/-- In a directive that does not end `fmt` gets behind the `NUL`, unless arguments are missing before. -/
theorem directive_end (cfg : Config) {s : List Byte} (hparse : Directive.parse s = none) (args : List Arg)
    (before : List Byte) (h : out.length < room) : ∃ e, directive cfg room ⟨before, s⟩ args out = .error e := by
  obtain ⟨before₁, hloop⟩ := widthLoop_eq 0 before s
  rw [show uint 0 = 0 from rfl] at hloop
  rw [directive]
  dsimp only
  rw [hloop]
  dsimp only
  cases hread : Flags.start.read ((s.dropWhile isDigit).takeWhile isFlag) args with
  | none =>
    rw [flagLoop_unread before₁ hread]
    exact ⟨.args, rfl⟩
  | some r =>
    obtain ⟨fl, args'⟩ := r
    obtain ⟨before₂, hflag⟩ := flagLoop_read before₁ hread
    rw [hflag]
    rcases Directive.dropWhile_of_parse hparse with hdrop | hdrop
    · rw [hdrop]
      exact ⟨.format, by simp [flagLoop, put_eq h]⟩
    · obtain ⟨fracWidth, before₃, hdot, -⟩ := flagLoop_dot fl args' before₂ []
      rw [hdrop, hdot]
      exact ⟨.format, by simp [isDigit, put_eq h]⟩

/-! ## The loop -/

theorem vslprintfLoop_full (cfg : Config) (fmt : Cursor) (args : List Arg) (h : out.length = room) :
    vslprintfLoop cfg room fmt args out = .ok out := by
  rw [vslprintfLoop]
  split
  case h_1 => rfl
  case h_2 => exact if_neg (by omega)

theorem vslprintfLoop_char (cfg : Config) (before s : List Byte) (args : List Arg) (h : out.length < room) {c : Byte}
    (hc : c ≠ ch '%') :
    vslprintfLoop cfg room ⟨before, c :: s⟩ args out = vslprintfLoop cfg room ⟨c :: before, s⟩ args (out ++ [c]) := by
  rw [vslprintfLoop]
  dsimp only
  rw [if_pos h, if_neg hc, put_eq h]

theorem vslprintfLoop_directive (cfg : Config) {before before' s rest : List Byte} {args args' : List Arg}
    {out' : List Byte} (h : out.length < room)
    (hturn : directive cfg room ⟨ch '%' :: before, s⟩ args out = .ok (⟨before', rest⟩, args', out')) :
    vslprintfLoop cfg room ⟨before, ch '%' :: s⟩ args out = vslprintfLoop cfg room ⟨before', rest⟩ args' out' := by
  rw [vslprintfLoop]
  dsimp only
  rw [if_pos h, if_pos rfl]
  split
  case h_1 heq =>
    rw [hturn] at heq
    cases heq
  case h_2 heq =>
    rw [hturn] at heq
    cases heq
    rfl

/-- A format that ends behind its last directive is written as far as there is room. -/
theorem vslprintfLoop_complete (cfg : Config) (fmt before : List Byte) (args : List Arg) {out text : List Byte}
    (hle : out.length ≤ room) (hcomplete : Complete fmt) (htext : render cfg uint (pieces fmt).1 args = some text) :
    vslprintfLoop cfg room ⟨before, fmt⟩ args out = .ok ((out ++ text).take room) := by
  rcases Nat.lt_or_ge out.length room with hlt | hge
  rotate_left
  · rw [vslprintfLoop_full cfg _ _ (Nat.le_antisymm hle hge), List.take_append, List.take_of_length_le hle,
      Nat.sub_eq_zero_of_le hge, List.take_zero, List.append_nil]
  match fmt with
  | [] =>
    rw [pieces_nil] at htext
    cases htext
    rw [vslprintfLoop, List.append_nil, List.take_of_length_le hle]
  | c :: s =>
    unfold Complete at hcomplete
    by_cases hc : c = ch '%'
    · subst hc
      cases hparse : Directive.parse s with
      | none =>
        rw [pieces_end hparse] at hcomplete
        cases hcomplete
      | some r =>
        obtain ⟨d, rest⟩ := r
        rw [pieces_directive hparse] at hcomplete htext
        simp only [render] at htext
        split at htext
        case h_1 => cases htext
        case h_2 t args' ht =>
          obtain ⟨text', htext', rfl⟩ := Option.map_eq_some_iff.mp htext
          obtain ⟨before', hturn⟩ := directive_eq cfg hlt hparse ht (ch '%' :: before)
          have hlen : ((out ++ t).take room).length ≤ room := by
            rw [List.length_take]
            exact Nat.min_le_left _ _
          have hshort := Directive.length_parse hparse
          rw [vslprintfLoop_directive cfg hlt hturn,
            vslprintfLoop_complete cfg rest before' args' hlen hcomplete htext', take_append_take, List.append_assoc]
    · rw [pieces_char hc] at hcomplete htext
      obtain ⟨text', htext', rfl⟩ := Option.map_eq_some_iff.mp htext
      rw [vslprintfLoop_char cfg before s args hlt hc,
        vslprintfLoop_complete cfg s (c :: before) args (length_le_of_lt hlt c) hcomplete htext', List.append_assoc]
      rfl
termination_by fmt.length

/-- With room for more than its text, a format that ends inside of a directive leads behind its `NUL`. -/
theorem vslprintfLoop_incomplete (cfg : Config) (fmt before : List Byte) (args : List Arg) {out text : List Byte}
    (hcomplete : ¬Complete fmt) (htext : render cfg uint (pieces fmt).1 args = some text)
    (hroom : (out ++ text).length < room) : ∃ e, vslprintfLoop cfg room ⟨before, fmt⟩ args out = .error e := by
  rw [List.length_append] at hroom
  have hlt : out.length < room := by omega
  match fmt with
  | [] => exact absurd (by rw [Complete, pieces_nil]) hcomplete
  | c :: s =>
    unfold Complete at hcomplete
    by_cases hc : c = ch '%'
    · subst hc
      cases hparse : Directive.parse s with
      | none =>
        obtain ⟨e, hend⟩ := directive_end cfg hparse args (ch '%' :: before) hlt
        refine ⟨e, ?_⟩
        rw [vslprintfLoop]
        dsimp only
        rw [if_pos hlt, if_pos rfl]
        split
        case h_1 heq =>
          rw [hend] at heq
          cases heq
          rfl
        case h_2 heq =>
          rw [hend] at heq
          cases heq
      | some r =>
        obtain ⟨d, rest⟩ := r
        rw [pieces_directive hparse] at hcomplete htext
        simp only [render] at htext
        split at htext
        case h_1 => cases htext
        case h_2 t args' ht =>
          obtain ⟨text', htext', rfl⟩ := Option.map_eq_some_iff.mp htext
          obtain ⟨before', hturn⟩ := directive_eq cfg hlt hparse ht (ch '%' :: before)
          rw [List.length_append] at hroom
          have hall : (out ++ t).take room = out ++ t :=
            List.take_of_length_le (by rw [List.length_append]; omega)
          have hshort := Directive.length_parse hparse
          rw [vslprintfLoop_directive cfg hlt hturn, hall]
          exact vslprintfLoop_incomplete cfg rest before' args' hcomplete htext'
            (by simp only [List.length_append]; omega)
    · rw [pieces_char hc] at hcomplete htext
      obtain ⟨text', htext', rfl⟩ := Option.map_eq_some_iff.mp htext
      rw [List.length_cons] at hroom
      rw [vslprintfLoop_char cfg before s args hlt hc]
      exact vslprintfLoop_incomplete cfg s (c :: before) args hcomplete htext'
        (by simp only [List.length_append, List.length_singleton]; omega)
termination_by fmt.length

/-! ## Widths -/

/-- The directive has a width that is no `unsigned int`. -/
def Directive.Wide (d : Directive) : Prop := d.usesWidth = true ∧ 4294967296 ≤ d.width

theorem uint_of_lt {n : ℕ} (h : n < 4294967296) : uint n = n := Nat.mod_eq_of_lt h

theorem uint_lt (n : ℕ) : uint n < 4294967296 := Nat.mod_lt n (Nat.succ_pos _)

theorem length_padded_uint (zero : Byte) {w : ℕ} (hw : 4294967296 ≤ w) {t : List Byte} (ht : t.length ≤ 20) :
    (padded zero (uint w) t).length < (padded zero w t).length := by
  have := uint_lt w
  simp only [padded, List.length_append, List.length_replicate]
  omega

theorem integer_bound {sign : Bool} {cv : Conv} {arg : Arg} {n : ℤ} (h : integer sign cv arg = some n) :
    n.natAbs < 2 ^ 64 := by
  obtain ⟨m, -, rfl, hm, -⟩ :=
    number_spec ⟨0, 0, by decide, by decide⟩ id ⟨false, 0, [], 0⟩ ⟨sign, 0, false, 0, 0⟩ h
  exact hm

theorem Flags.read_maxWidth {fl fl' : Flags} {cs : List Byte} {args args' : List Arg}
    (h : Flags.read fl cs args = some (fl', args')) : fl'.maxWidth = (fl.maxWidth || cs.contains (ch 'm')) := by
  induction cs generalizing fl args with
  | nil =>
    cases h
    simp
  | cons c cs ih =>
    unfold Flags.read at h
    by_cases hm : c = ch 'm'
    · have hu : c ≠ ch 'u' := by
        rw [hm]
        decide
      rw [if_neg hu, if_pos hm] at h
      rw [(ih h :), hm]
      simp
    have hcontains : (c :: cs).contains (ch 'm') = cs.contains (ch 'm') := by simp [Ne.symm hm]
    rw [hcontains]
    rw [if_neg hm] at h
    split at h
    case isTrue => exact (ih h :)
    split at h
    case isTrue => exact (ih h :)
    split at h
    case isTrue => exact (ih h :)
    split at h
    case h_1 => exact (ih h :)
    case h_2 => cases h

namespace Directive

variable {cfg : Config} {d : Directive} {fl : Flags} {cv : Conv}

/-- The width of a number is read differently just if it is wide. -/
theorem numberWidth_uint (hconv : Conv.ofByte d.conv = some cv) (hmax : fl.maxWidth = d.flags.contains (ch 'm')) {arg : Arg}
    {n : ℤ} (h : integer fl.sign cv arg = some n) :
    (¬d.Wide → d.numberWidth cfg uint fl cv = d.numberWidth cfg id fl cv) ∧
      (d.Wide → cv ≠ .p ∧ d.numberWidth cfg uint fl cv = uint d.width ∧ d.numberWidth cfg id fl cv = d.width) := by
  have hsmall : ¬4294967296 ≤ d.width → uint d.width = d.width := fun hlt => uint_of_lt (Nat.lt_of_not_le hlt)
  unfold Wide usesWidth
  rw [hconv]
  cases cv <;> simp only [integer, reduceCtorEq] at h
  case i | A => cases hm : d.flags.contains (ch 'm') <;> simp_all [numberWidth]
  case p => simp [numberWidth]
  all_goals simpa [numberWidth] using hsmall

theorem integerText_uint (hconv : Conv.ofByte d.conv = some cv) (hmax : fl.maxWidth = d.flags.contains (ch 'm')) {arg : Arg}
    {t : List Byte} (h : d.integerText cfg id fl cv arg = some t) :
    ∃ t', d.integerText cfg uint fl cv arg = some t' ∧ (¬d.Wide → t' = t) ∧ (d.Wide → t'.length < t.length) := by
  obtain ⟨n, hn, rfl⟩ := Option.map_eq_some_iff.mp h
  obtain ⟨hsame, hwide⟩ := @numberWidth_uint cfg _ _ _ hconv hmax _ _ hn
  refine ⟨_, congrArg (Option.map _) hn, ?_, ?_⟩
  · intro hd
    rw [hsame hd]
  · intro hd
    obtain ⟨hp, huint, hid⟩ := hwide hd
    dsimp only
    rw [if_neg hp, if_neg hp, huint, hid, numberText, numberText, List.length_append, List.length_append]
    exact Nat.add_lt_add_left (length_padded_uint _ hd.2 (length_numeral _ (integer_bound hn))) _

theorem argText_uint (hconv : Conv.ofByte d.conv = some cv) (hmax : fl.maxWidth = d.flags.contains (ch 'm')) {arg : Arg}
    {t : List Byte} (h : d.argText cfg id fl cv arg = some t) :
    ∃ t', d.argText cfg uint fl cv arg = some t' ∧ (¬d.Wide → t' = t) ∧ (d.Wide → t'.length < t.length) := by
  have hplain : d.usesWidth = false → d.Wide → t.length < t.length := by
    intro hfalse hd
    rw [Wide, hfalse] at hd
    cases hd.1
  have huses : ∀ {cv'}, cv = cv' → Conv.ofByte d.conv = some cv' := fun heq => heq ▸ hconv
  cases arg with
  | string str =>
    refine ⟨t, h, fun _ => rfl, hplain ?_⟩
    obtain ⟨rfl, -⟩ := Option.ite_none_right_eq_some.mp h
    rw [usesWidth, hconv]
  | value vv =>
    refine ⟨t, h, fun _ => rfl, hplain ?_⟩
    obtain ⟨rfl, -⟩ := Option.ite_none_right_eq_some.mp h
    rw [usesWidth, hconv]
  | chars p =>
    refine ⟨t, h, fun _ => rfl, hplain ?_⟩
    obtain ⟨rfl, -⟩ := Option.ite_none_right_eq_some.mp h
    rw [usesWidth, hconv]
  | double f =>
    simp only [argText, Option.ite_none_right_eq_some, Option.some.injEq] at h
    obtain ⟨rfl, rfl⟩ := h
    simp only [argText, if_true, Option.some.injEq, exists_eq_left']
    refine ⟨?_, ?_⟩
    · intro hd
      have hlt : d.width < 4294967296 := by
        by_contra hge
        exact hd ⟨by rw [usesWidth, hconv], Nat.le_of_not_lt hge⟩
      rw [uint_of_lt hlt, id]
    · intro hd
      rw [List.length_append, List.length_append]
      exact Nat.add_lt_add_left (length_padded_uint _ hd.2 (length_numeral 0 f.whole.isLt)) _
  | int n =>
    simp only [argText] at h ⊢
    split at h
    case isTrue hc =>
      refine ⟨t, by rw [if_pos hc]; exact h, fun _ => rfl, hplain ?_⟩
      rw [usesWidth, huses hc]
    case isFalse hc =>
      rw [if_neg hc]
      exact integerText_uint hconv hmax h
  | long n => exact integerText_uint hconv hmax h
  | pointer n => exact integerText_uint hconv hmax h

theorem text_uint {args args' : List Arg} {t : List Byte} (h : d.text cfg id args = some (t, args')) :
    ∃ t', d.text cfg uint args = some (t', args') ∧ (¬d.Wide → t' = t) ∧ (d.Wide → t'.length < t.length) := by
  have hplain : d.usesWidth = false → d.Wide → t.length < t.length := by
    intro hfalse hd
    rw [Wide, hfalse] at hd
    cases hd.1
  unfold text at h ⊢
  split at h
  case h_1 => cases h
  case h_2 fl args₁ hread =>
    have hmax : fl.maxWidth = d.flags.contains (ch 'm') := Flags.read_maxWidth hread
    split at h
    case h_1 hconv => exact ⟨t, h, fun _ => rfl, hplain (by rw [usesWidth, hconv])⟩
    case h_2 hconv => exact ⟨t, h, fun _ => rfl, hplain (by rw [usesWidth, hconv])⟩
    case h_3 hconv => exact ⟨t, h, fun _ => rfl, hplain (by rw [usesWidth, hconv])⟩
    case h_4 hconv => exact ⟨t, h, fun _ => rfl, hplain (by rw [usesWidth, hconv])⟩
    case h_5 cv hZ hN hpercent hconv =>
      cases args₁ with
      | nil => cases h
      | cons arg args₁ =>
        obtain ⟨t₁, ht₁, heq⟩ := Option.map_eq_some_iff.mp h
        cases heq
        obtain ⟨t', ht', hsame, hlt⟩ := argText_uint hconv hmax ht₁
        exact ⟨t', congrArg (Option.map _) ht', hsame, hlt⟩

end Directive

/-- With widths read as `unsigned int` a text is not longer, and it is shorter just if there is a wide directive. -/
theorem render_uint {cfg : Config} {ps : List Piece} {args : List Arg} {t : List Byte}
    (h : render cfg id ps args = some t) :
    ∃ t', render cfg uint ps args = some t' ∧ t'.length ≤ t.length ∧
      ((∀ d, .directive d ∈ ps → ¬d.Wide) → t' = t) ∧ ((∃ d, .directive d ∈ ps ∧ d.Wide) → t'.length < t.length) := by
  induction ps generalizing args t with
  | nil =>
    cases h
    exact ⟨[], rfl, Nat.le_refl _, fun _ => rfl, fun ⟨d, hd, _⟩ => (List.not_mem_nil hd).elim⟩
  | cons p ps ih =>
    cases p with
    | char c =>
      obtain ⟨t₁, ht₁, rfl⟩ := Option.map_eq_some_iff.mp h
      obtain ⟨t', ht', hle, hsame, hlt⟩ := ih ht₁
      refine ⟨c :: t', by rw [render, ht']; rfl, Nat.succ_le_succ hle, ?_, ?_⟩
      · intro hall
        rw [hsame fun d hd => hall d (List.mem_cons_of_mem _ hd)]
      · rintro ⟨d, hd, hwide⟩
        have hd' : .directive d ∈ ps := (List.mem_cons.mp hd).resolve_left (by simp)
        exact Nat.succ_lt_succ (hlt ⟨d, hd', hwide⟩)
    | directive d =>
      simp only [render] at h
      split at h
      case h_1 => cases h
      case h_2 t₀ args' ht₀ =>
        obtain ⟨t₁, ht₁, rfl⟩ := Option.map_eq_some_iff.mp h
        obtain ⟨t₀', ht₀', hsame₀, hlt₀⟩ := Directive.text_uint ht₀
        obtain ⟨t', ht', hle, hsame, hlt⟩ := ih ht₁
        have hle₀ : t₀'.length ≤ t₀.length := by
          by_cases hwide : d.Wide
          · exact (hlt₀ hwide).le
          · rw [hsame₀ hwide]
        refine ⟨t₀' ++ t', ?_, ?_, ?_, ?_⟩
        · simp only [render, ht₀', ht', Option.map_some]
        · simp only [List.length_append]
          omega
        · intro hall
          rw [hsame₀ (hall d List.mem_cons_self), hsame fun e he => hall e (List.mem_cons_of_mem _ he)]
        · rintro ⟨e, he, hwide⟩
          simp only [List.length_append]
          rcases List.mem_cons.mp he with heq | he
          · cases heq
            have := hlt₀ hwide
            omega
          · have := hlt ⟨e, he, hwide⟩
            omega

theorem narrow_iff {fmt : List Byte} : Narrow fmt ↔ ∀ d, .directive d ∈ (pieces fmt).1 → ¬d.Wide := by
  constructor
  · rintro h d hd ⟨huses, hge⟩
    exact absurd (h d hd huses) (Nat.not_lt.mpr hge)
  · intro h d hd huses
    by_contra hge
    exact h d hd ⟨huses, Nat.le_of_not_lt hge⟩

/-! ## The call -/

/-- Whatever the room, as much of the text is written as fits, just if the format does not end inside of a directive and
has no number with a width from 2^32 on. -/
theorem vslprintf_renders_iff (cfg : Config) {fmt : List Byte} {args : List Arg} {text : List Byte}
    (htext : render cfg id (pieces fmt).1 args = some text) :
    (∀ room, vslprintf cfg room fmt args = .ok (text.take room)) ↔ Complete fmt ∧ Narrow fmt := by
  obtain ⟨t', ht', hle, hsame, hlt⟩ := render_uint htext
  constructor
  · intro h
    have hcomplete : Complete fmt := by
      by_contra hnot
      have hroom : ([] ++ t').length < t'.length + 1 := Nat.lt_succ_self _
      obtain ⟨e, herror⟩ := vslprintfLoop_incomplete cfg fmt [] args hnot ht' hroom
      have hok := h (t'.length + 1)
      rw [vslprintf, herror] at hok
      cases hok
    refine ⟨hcomplete, narrow_iff.mpr ?_⟩
    intro d hd hwide
    have hshort := hlt ⟨d, hd, hwide⟩
    have hok := h text.length
    rw [vslprintf, vslprintfLoop_complete cfg fmt [] args (Nat.zero_le _) hcomplete ht', List.nil_append,
      List.take_of_length_le hle, List.take_of_length_le (Nat.le_refl _)] at hok
    obtain rfl := Except.ok.inj hok
    exact Nat.lt_irrefl _ hshort
  · rintro ⟨hcomplete, hnarrow⟩ room
    rw [vslprintf, vslprintfLoop_complete cfg fmt [] args (Nat.zero_le _) hcomplete ht', hsame (narrow_iff.mp hnarrow)]
    rfl

/-- `PTRX_INT_T_LEN` and `PTRX_PTR_SIZE` of a system with 64 bits. -/
def lp64 : Config := ⟨int64Len, 8, by decide, by decide⟩

/-- The format `%03d`. -/
theorem pieces_d3 : pieces [37, 48, 51, 100] = ([.directive ⟨true, 3, [], 100⟩], true) := by
  have hparse : Directive.parse [48, 51, 100] = some (⟨true, 3, [], 100⟩, []) := by decide
  have hpieces := pieces_directive hparse
  rw [pieces_nil] at hpieces
  exact hpieces

theorem render_d3 : render lp64 id [.directive ⟨true, 3, [], 100⟩] [.int (-5)] = some [45, 48, 48, 53] := by decide

/-- `%03d` for -5, and room for three characters. -/
theorem vslprintf_d3 : vslprintf lp64 3 [37, 48, 51, 100] [.int (-5)] = .ok [45, 48, 48] := by
  have hnarrow : Narrow [37, 48, 51, 100] := by
    intro d hd _
    rw [pieces_d3] at hd
    cases List.mem_singleton.mp hd
    decide
  have htext : render lp64 id (pieces [37, 48, 51, 100]).1 [.int (-5)] = some [45, 48, 48, 53] := by
    rw [pieces_d3]
    exact render_d3
  exact (vslprintf_renders_iff lp64 htext).mpr ⟨by rw [Complete, pieces_d3], hnarrow⟩ 3

theorem pieces_percent : pieces [37] = ([], false) := pieces_end (by decide)

/-- The format `%`, with room for one character. -/
theorem not_renders_percent :
    ¬∀ (cfg : Config) (fmt : List Byte) (args : List Arg) (text : List Byte),
      render cfg id (pieces fmt).1 args = some text →
      ∀ room, vslprintf cfg room fmt args = .ok (text.take room) := by
  intro h
  have hrender : ∀ widths, render lp64 widths (pieces [37]).1 [] = some [] := by
    intro widths
    rw [pieces_percent]
    rfl
  have hnot : ¬Complete [37] := by
    rw [Complete, pieces_percent]
    decide
  obtain ⟨e, herror⟩ := @vslprintfLoop_incomplete 1 lp64 [37] [] [] [] _ hnot (hrender uint) Nat.one_pos
  have hok := h lp64 [37] [] [] (hrender id) 1
  rw [vslprintf, herror] at hok
  cases hok

/-- The arguments are those that the format takes. -/
def Matching (cfg : Config) (fmt : List Byte) (args : List Arg) : Prop :=
  ∃ text, render cfg id (pieces fmt).1 args = some text

/-- Whatever the room, nothing is accessed out of bounds, just if the format does not end inside of a directive. -/
theorem vslprintf_safe_iff {cfg : Config} {fmt : List Byte} {args : List Arg} (hargs : Matching cfg fmt args) :
    (∀ room, ∃ out, vslprintf cfg room fmt args = .ok out ∧ out.length ≤ room) ↔ Complete fmt := by
  obtain ⟨text, htext⟩ := hargs
  obtain ⟨t', ht', -⟩ := render_uint htext
  constructor
  · intro h
    by_contra hnot
    have hroom : ([] ++ t').length < t'.length + 1 := Nat.lt_succ_self _
    obtain ⟨e, herror⟩ := vslprintfLoop_incomplete cfg fmt [] args hnot ht' hroom
    obtain ⟨out, hok, -⟩ := h (t'.length + 1)
    rw [vslprintf, herror] at hok
    cases hok
  · intro hcomplete room
    refine ⟨_, vslprintfLoop_complete cfg fmt [] args (Nat.zero_le _) hcomplete ht', ?_⟩
    rw [List.length_take]
    exact Nat.min_le_left _ _

/-- `%03d` and room for two characters. -/
theorem vslprintf_d3_safe : ∃ out, vslprintf lp64 2 [37, 48, 51, 100] [.int (-5)] = .ok out ∧ out.length ≤ 2 := by
  have hargs : Matching lp64 [37, 48, 51, 100] [.int (-5)] := by
    refine ⟨[45, 48, 48, 53], ?_⟩
    rw [pieces_d3]
    exact render_d3
  exact (vslprintf_safe_iff hargs).mpr (by rw [Complete, pieces_d3]) 2

/-- The format `a%`. -/
theorem not_safe_a_percent :
    ¬∀ (cfg : Config) (fmt : List Byte) (args : List Arg), Matching cfg fmt args →
      ∀ room, ∃ out, vslprintf cfg room fmt args = .ok out ∧ out.length ≤ room := by
  intro h
  have hpieces : pieces [97, 37] = ([.char 97], false) := by
    rw [pieces_char (by decide), pieces_percent]
  have hrender : ∀ widths, render lp64 widths (pieces [97, 37]).1 [] = some [97] := by
    intro widths
    rw [hpieces]
    rfl
  have hnot : ¬Complete [97, 37] := by
    rw [Complete, hpieces]
    decide
  obtain ⟨e, herror⟩ := @vslprintfLoop_incomplete 2 lp64 [97, 37] [] [] [] _ hnot (hrender uint) (by decide)
  obtain ⟨out, hok, -⟩ := h lp64 [97, 37] [] ⟨_, hrender id⟩ 2
  rw [vslprintf, herror] at hok
  cases hok

end CodingExercises.PeotrixNginx
