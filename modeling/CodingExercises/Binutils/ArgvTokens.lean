import CodingExercises.Binutils.Argv

/-!
# binutils: what `buildargv` reads

- `arguments` is the list of the strings that the loop scans; `buildargv` returns it if it has fewer than eight elements
  (`buildargv_arguments`).
- A line is written from arguments with escapes and quotes (`Writes`) and white space between them (`Line`). It is read back
  just when there are fewer than eight arguments, the line starts with blanks only, and a line without arguments is empty
  (`buildargv_reads_iff`).
-/

namespace CodingExercises.Binutils

/-- The pointers of a vector up to `NULL`. -/
def strings : List Slot → Option (List (List Byte))
  | .arg s :: v => (strings v).map (s :: ·)
  | .null :: _ => some []
  | _ => none

/-- What a caller reads in the result. -/
def Outcome.strings : Outcome → Option (List (List Byte))
  | .returned (some v) => Binutils.strings v
  | _ => none

theorem strings_args (args : List (List Byte)) (rest : List Slot) :
    strings (args.map .arg ++ .null :: rest) = some args := by
  induction args with
  | nil => rfl
  | cons a args ih => simp [strings, ih]

section

variable (ct : Ctype)

/-- The strings that the loop scans. -/
def arguments (q : Quotes) (s : List Byte) : List (List Byte) :=
  let scanned := scan ct q (s.dropWhile ct.isblank)
  let rest := scanned.2.2.dropWhile ct.isspace
  if _h : rest = [] then [scanned.1] else scanned.1 :: arguments scanned.2.1 rest
termination_by s.length
decreasing_by exact length_rest_lt ct _h

theorem arguments_last {q : Quotes} {s : List Byte}
    (h : (scan ct q (s.dropWhile ct.isblank)).2.2.dropWhile ct.isspace = []) :
    arguments ct q s = [(scan ct q (s.dropWhile ct.isblank)).1] := by
  rw [arguments]
  exact dif_pos h

theorem arguments_more {q : Quotes} {s : List Byte}
    (h : (scan ct q (s.dropWhile ct.isblank)).2.2.dropWhile ct.isspace ≠ []) :
    arguments ct q s = (scan ct q (s.dropWhile ct.isblank)).1 ::
      arguments ct (scan ct q (s.dropWhile ct.isblank)).2.1
        ((scan ct q (s.dropWhile ct.isblank)).2.2.dropWhile ct.isspace) := by
  rw [arguments]
  exact dif_neg h

theorem arguments_ne_nil (q : Quotes) (s : List Byte) : arguments ct q s ≠ [] := by
  rw [arguments]
  split <;> exact List.cons_ne_nil _ _

/-! ## The vector holds them -/

/-- The vector holds these arguments and `NULL`, or there is none yet. -/
def State.Holds (st : State) (args : List (List Byte)) : Prop :=
  (st.argv = none ∧ st.argc = 0 ∧ st.maxargc = 0 ∧ args = []) ∨
    ∃ rest, st.argv = some (args.map .arg ++ .null :: rest) ∧ (args.map Slot.arg ++ .null :: rest).length = 8 ∧
      st.maxargc = 8 ∧ st.argc = args.length

variable (mem : ℕ → Bool)

/-- The call was refused memory, and returns `NULL`. -/
def Refused (o : Outcome) : Prop := o = .returned none ∧ ∃ n, mem n = false

/-- With fewer than seven arguments the vector is there after `expand`. -/
theorem expand_holds {st : State} {args : List (List Byte)} (h : st.Holds args) (hlt : args.length < 7) :
    ((expand mem st).2 = .inl (.returned none) ∧ mem st.asked = false) ∨
      ∃ rest asked, (expand mem st).2 =
          .inr ⟨args.length, 8, some (args.map .arg ++ .null :: rest), st.quotes, asked⟩ ∧
        (args.map Slot.arg ++ .null :: rest).length = 8 := by
  obtain ⟨argc, maxargc, argv, quotes, asked⟩ := st
  obtain ⟨rfl, rfl, rfl, rfl⟩ | ⟨rest, rfl, hlen, rfl, rfl⟩ := h
  · simp only [expand, initialMaxargc]
    cases hmem : mem asked with
    | false => exact .inl ⟨rfl, rfl⟩
    | true => exact .inr ⟨List.replicate 7 .unset, _, rfl, rfl⟩
  · simp only [expand]
    rw [if_neg (by omega)]
    exact .inr ⟨rest, asked, rfl, hlen⟩

/-- In the eighth turn the store of `NULL` is out of bounds. -/
theorem expand_full {st : State} {args : List (List Byte)} (h : st.Holds args) (hfull : args.length = 7) :
    (expand mem st).2 = .inl .overrun ∨ ((expand mem st).2 = .inl (.returned none) ∧ mem st.asked = false) := by
  obtain ⟨argc, maxargc, argv, quotes, asked⟩ := st
  obtain ⟨-, -, -, rfl⟩ | ⟨rest, rfl, -, rfl, rfl⟩ := h
  · cases hfull
  · dsimp only
    simp only [expand]
    rw [if_pos (.inr (by omega))]
    cases hmem : mem asked with
    | false => exact .inr ⟨rfl, rfl⟩
    | true => exact .inl (by simp [hfull])

/-- An argument is put behind the others. -/
theorem fill_holds {size : ℕ} {args : List (List Byte)} {rest : List Slot} (asked : ℕ) (quotes : Quotes)
    {arg : List Byte} (hlen : (args.map Slot.arg ++ .null :: rest).length = 8) (hlt : args.length < 7)
    (harg : arg.length < size) :
    ((fill mem size ⟨args.length, 8, some (args.map .arg ++ .null :: rest), quotes, asked⟩ arg).2 =
        .inl (.returned none) ∧ mem asked = false) ∨
      ∃ st', (fill mem size ⟨args.length, 8, some (args.map .arg ++ .null :: rest), quotes, asked⟩ arg).2 = .inr st' ∧
        st'.Holds (args ++ [arg]) ∧ ∃ v, st'.argv = some v ∧ strings v = some (args ++ [arg]) := by
  obtain ⟨x, rest, rfl⟩ : ∃ x r, rest = x :: r := by
    cases rest with
    | nil =>
      simp only [List.length_append, List.length_map, List.length_cons, List.length_nil] at hlen
      omega
    | cons x r => exact ⟨x, r, rfl⟩
  simp only [fill]
  rw [if_pos harg, if_pos (by omega)]
  cases hmem : mem asked with
  | false => exact .inl ⟨rfl, rfl⟩
  | true =>
    simp only [if_true]
    rw [if_pos (by omega)]
    have hset : ((args.map Slot.arg ++ .null :: x :: rest).set args.length (.arg arg)).set (args.length + 1) .null =
        (args ++ [arg]).map .arg ++ .null :: rest := by
      rw [List.set_append_right _ _ (by simp), List.set_append_right _ _ (by simp)]
      simp
    refine .inr ⟨_, rfl, .inr ⟨rest, ?_, ?_, rfl, ?_⟩, _, congrArg some hset, strings_args _ _⟩
    · simp
    · simp only [List.map_append, List.length_append, List.length_map, List.length_cons, List.length_nil] at hlen ⊢
      omega
    · simp

/-! ## The call -/

/-- No quote is open. -/
def unquoted : Quotes := ⟨false, false, false⟩

variable {ct mem} in
/-- The loop returns the arguments of the vector and those it scans, if they fit, and else overruns the vector. -/
theorem buildargvLoop_arguments {size : ℕ} {st : State} {args : List (List Byte)} {input : List Byte}
    (h : st.Holds args) (hsize : input.length < size) (hle : args.length ≤ 7) :
    Refused mem (buildargvLoop ct mem size st input).2 ∨
      if args.length + (arguments ct st.quotes input).length < 8 then
        ∃ v, (buildargvLoop ct mem size st input).2 = .returned (some v) ∧ strings v = some (args ++ arguments ct st.quotes input)
      else (buildargvLoop ct mem size st input).2 = .overrun := by
  have hne := List.length_pos_of_ne_nil (arguments_ne_nil ct st.quotes input)
  rw [buildargvLoop]
  rcases Nat.lt_or_ge args.length 7 with hlt | hge
  · obtain ⟨hexp, hmem⟩ | ⟨rest, asked, hexp, hlen⟩ := expand_holds mem h hlt
    · generalize expand mem st = x at hexp ⊢
      obtain ⟨events, r⟩ := x
      dsimp only at hexp
      subst hexp
      exact .inl ⟨rfl, _, hmem⟩
    generalize expand mem st = x at hexp ⊢
    obtain ⟨events, r⟩ := x
    dsimp only at hexp
    subst hexp
    dsimp only
    have harg := length_scan ct st.quotes (input.dropWhile ct.isblank)
    have hdrop := length_dropWhile_le ct.isblank input
    have hfit : (scan ct st.quotes (input.dropWhile ct.isblank)).1.length < size := by omega
    obtain ⟨hfill, hmem⟩ | ⟨st', hfill, hst', v, hv, hstr⟩ := fill_holds mem asked st.quotes hlen hlt hfit
    · generalize fill mem size _ _ = y at hfill ⊢
      obtain ⟨events', r⟩ := y
      dsimp only at hfill
      subst hfill
      exact .inl ⟨rfl, _, hmem⟩
    generalize fill mem size _ _ = y at hfill ⊢
    obtain ⟨events', r⟩ := y
    dsimp only at hfill
    subst hfill
    dsimp only
    split
    case isTrue hrest =>
      right
      rw [arguments_last ct hrest, List.length_singleton, if_pos (by omega)]
      exact ⟨v, by rw [hv], hstr⟩
    case isFalse hrest =>
      have hlt' := length_rest_lt ct hrest
      have hst'' : State.Holds { st' with quotes := (scan ct st.quotes (input.dropWhile ct.isblank)).2.1 }
          (args ++ [(scan ct st.quotes (input.dropWhile ct.isblank)).1]) := hst'
      have hlen' : (args ++ [(scan ct st.quotes (input.dropWhile ct.isblank)).1]).length ≤ 7 := by
        rw [List.length_append, List.length_singleton]
        omega
      rcases buildargvLoop_arguments hst'' (Nat.lt_trans hlt' hsize) hlen' with hbad | hgood
      · exact .inl hbad
      · right
        rw [arguments_more ct hrest]
        simp only [List.length_append, List.length_cons, List.length_nil, List.append_assoc, List.cons_append,
          List.nil_append, Nat.zero_add] at hgood ⊢
        rwa [Nat.add_assoc, Nat.add_comm 1] at hgood
  · rw [if_neg (by omega)]
    obtain hexp | ⟨hexp, hmem⟩ := expand_full mem h (Nat.le_antisymm hle hge)
    · generalize expand mem st = x at hexp ⊢
      obtain ⟨events, r⟩ := x
      dsimp only at hexp
      subst hexp
      exact .inr rfl
    · generalize expand mem st = x at hexp ⊢
      obtain ⟨events, r⟩ := x
      dsimp only at hexp
      subst hexp
      exact .inl ⟨rfl, _, hmem⟩
termination_by input.length

theorem buildargv_outcome (s : List Byte) :
    Refused mem (buildargv ct mem (some s)).2 ∨
      if (arguments ct unquoted s).length < 8 then
        ∃ v, (buildargv ct mem (some s)).2 = .returned (some v) ∧ strings v = some (arguments ct unquoted s)
      else (buildargv ct mem (some s)).2 = .overrun := by
  have h : State.Holds ⟨0, 0, none, unquoted, 0⟩ [] := .inl ⟨rfl, rfl, rfl, rfl⟩
  have hloop := @buildargvLoop_arguments ct mem _ _ _ s h (Nat.lt_succ_self s.length) (Nat.zero_le 7)
  simp only [List.length_nil, Nat.zero_add, List.nil_append] at hloop
  exact hloop

/-- `buildargv` returns what it scans, if this is fewer than eight strings. -/
theorem buildargv_arguments (s : List Byte) :
    Refused mem (buildargv ct mem (some s)).2 ∨
      (buildargv ct mem (some s)).2.strings =
        if (arguments ct unquoted s).length < 8 then some (arguments ct unquoted s) else none := by
  refine (buildargv_outcome ct mem s).imp_right fun h => ?_
  by_cases hlt : (arguments ct unquoted s).length < 8
  · rw [if_pos hlt] at h ⊢
    obtain ⟨v, hv, hstr⟩ := h
    rw [hv, Outcome.strings, hstr]
  · rw [if_neg hlt] at h ⊢
    rw [h]
    rfl

end

/-! ## Lines -/

/-- The two kinds of quotes. -/
inductive Quote
  | single
  | double
deriving DecidableEq

def Quote.mark : Quote → Byte
  | .single => apostrophe
  | .double => doubleQuote

/-- The text inside of quotes: a backslash is put before each backslash and each closing quote. -/
def Quote.text (q : Quote) : List Byte → List Byte
  | [] => []
  | c :: s => if c = backslash ∨ c = q.mark then backslash :: c :: q.text s else c :: q.text s

/-- A locale where what quotes is no white space. -/
structure Locale extends Ctype where
  backslash_solid : isspace backslash = false
  quote_solid : ∀ q : Quote, isspace q.mark = false

/-- No white space, quote or backslash. -/
structure Locale.Plain (loc : Locale) (c : Byte) : Prop where
  solid : loc.isspace c = false
  ne_backslash : c ≠ backslash
  ne_mark : ∀ q : Quote, c ≠ q.mark

/-- A text for an argument: plain characters, characters behind a backslash, and quoted pieces. -/
inductive Writes (loc : Locale) : List Byte → List Byte → Prop
  | nil : Writes loc [] []
  | plain {c arg text} : loc.Plain c → Writes loc arg text → Writes loc (c :: arg) (c :: text)
  | escaped {c arg text} : Writes loc arg text → Writes loc (c :: arg) (backslash :: c :: text)
  | quoted (q : Quote) (s : List Byte) {arg text} : Writes loc arg text →
      Writes loc (s ++ arg) (q.mark :: (q.text s ++ q.mark :: text))

/-- White space. -/
def Locale.Space (loc : Locale) (s : List Byte) : Prop := ∀ c ∈ s, loc.isspace c = true

/-- What stands behind an argument: each further argument has white space before it. -/
inductive Further (loc : Locale) : List (List Byte) → List Byte → Prop
  | done {space} : loc.Space space → Further loc [] space
  | more {space arg text args s} : loc.Space space → space ≠ [] → Writes loc arg text → text ≠ [] →
      Further loc args s → Further loc (arg :: args) (space ++ (text ++ s))

/-- The arguments of a line, behind the white space it starts with. -/
inductive Line (loc : Locale) : List (List Byte) → List Byte → Prop
  | empty : Line loc [] []
  | arguments {arg text args s} : Writes loc arg text → text ≠ [] → Further loc args s →
      Line loc (arg :: args) (text ++ s)

/-- What `buildargv` is to return for a line: its arguments, and an empty string if there is nothing at all. -/
def expected (args : List (List Byte)) (input : List Byte) : List (List Byte) := if input = [] then [[]] else args

/-! ## A line is read back -/

section

variable {loc : Locale}

/-- Inside of quotes. -/
def Quote.opened : Quote → Quotes
  | .single => ⟨true, false, false⟩
  | .double => ⟨false, true, false⟩

theorem Quote.step_mark : ∀ q : Quote, unquoted.step q.mark = (none, q.opened) := by
  intro q
  cases q <;> rfl

theorem Quote.step_close : ∀ q : Quote, q.opened.step q.mark = (none, unquoted) := by
  intro q
  cases q <;> rfl

theorem Quote.not_closed (q : Quote) : q.opened.closed = false := by
  cases q <;> rfl

/-- A character inside of quotes that needs no backslash. -/
theorem Quote.step_inside {q : Quote} {c : Byte} (hb : c ≠ backslash) (hm : c ≠ q.mark) :
    q.opened.step c = (some c, q.opened) := by
  cases q with
  | single =>
    simp only [Quote.mark] at hm
    simp [Quotes.step, Quote.opened, hb, hm]
  | double =>
    simp only [Quote.mark] at hm
    simp [Quotes.step, Quote.opened, hb, hm]

/-- A character that is scanned. -/
theorem scan_cons {ct : Ctype} {q q' : Quotes} {c : Byte} {o : Option Byte} {s : List Byte}
    (h : (ct.isspace c && q.closed) = false) (hstep : q.step c = (o, q')) :
    scan ct q (c :: s) = (o.toList ++ (scan ct q' s).1, (scan ct q' s).2.1, (scan ct q' s).2.2) := by
  rw [scan]
  simp [h, hstep]

/-- A backslash, and the character behind it. -/
theorem scan_escape {ct : Ctype} {q : Quotes} (hq : q.bsquote = false) {c : Byte} {s : List Byte}
    (h : (ct.isspace backslash && q.closed) = false) :
    scan ct q (backslash :: c :: s) = (c :: (scan ct q s).1, (scan ct q s).2.1, (scan ct q s).2.2) := by
  obtain ⟨sq, dq, bq⟩ := q
  dsimp only at hq
  subst hq
  have hfirst : Quotes.step ⟨sq, dq, false⟩ backslash = (none, ⟨sq, dq, true⟩) := by
    simp [Quotes.step]
  have hsecond : Quotes.step ⟨sq, dq, true⟩ c = (some c, ⟨sq, dq, false⟩) := by
    simp [Quotes.step]
  rw [scan_cons h hfirst, scan_cons (by simp [Quotes.closed]) hsecond]
  simp

/-- A quoted piece is read up to its closing quote. -/
theorem scan_quoted {ct : Ctype} (q : Quote) (s rest : List Byte) :
    scan ct q.opened (q.text s ++ q.mark :: rest) =
      (s ++ (scan ct unquoted rest).1, (scan ct unquoted rest).2.1, (scan ct unquoted rest).2.2) := by
  have hopen : ∀ c, (ct.isspace c && q.opened.closed) = false := by
    intro c
    rw [q.not_closed, Bool.and_false]
  induction s with
  | nil =>
    rw [Quote.text, List.nil_append, scan_cons (hopen _) q.step_close]
    rfl
  | cons c s ih =>
    by_cases hc : c = backslash ∨ c = q.mark
    · have hbs : q.opened.bsquote = false := by cases q <;> rfl
      rw [Quote.text, if_pos hc, List.cons_append, List.cons_append, scan_escape hbs (hopen _), ih]
      rfl
    · obtain ⟨hb, hm⟩ := not_or.mp hc
      rw [Quote.text, if_neg hc, List.cons_append, scan_cons (hopen _) (Quote.step_inside hb hm), ih]
      rfl

/-- The white space, or the end, behind an argument. -/
def Locale.Stops (loc : Locale) (s : List Byte) : Prop := ∀ c t, s = c :: t → loc.isspace c = true

/-- The text of an argument is read up to its end. -/
theorem scan_writes {arg text : List Byte} (h : Writes loc arg text) {rest : List Byte} (hrest : loc.Stops rest) :
    scan loc.toCtype unquoted (text ++ rest) = (arg, unquoted, rest) := by
  induction h with
  | nil =>
    cases rest with
    | nil => rfl
    | cons c t =>
      have hsp := hrest c t rfl
      rw [List.nil_append, scan, hsp]
      rfl
  | plain hplain _ ih =>
    have hstep : ∀ {c : Byte}, loc.Plain c → unquoted.step c = (some c, unquoted) := by
      intro c hc
      have hs : c ≠ apostrophe := hc.ne_mark .single
      have hd : c ≠ doubleQuote := hc.ne_mark .double
      simp [Quotes.step, unquoted, hc.ne_backslash, hs, hd]
    rw [List.cons_append, scan_cons (by rw [hplain.solid, Bool.false_and]) (hstep hplain), ih]
    rfl
  | escaped _ ih =>
    rw [List.cons_append, List.cons_append, scan_escape rfl (by rw [loc.backslash_solid, Bool.false_and]), ih]
  | quoted q s _ ih =>
    have hmark : (loc.isspace q.mark && unquoted.closed) = false := by rw [loc.quote_solid, Bool.false_and]
    rw [List.cons_append, List.append_assoc, scan_cons hmark q.step_mark, List.cons_append, scan_quoted, ih]
    rfl

/-- The text of an argument does not start with white space. -/
theorem Writes.starts {arg text : List Byte} (h : Writes loc arg text) (hne : text ≠ []) :
    ∃ c t, text = c :: t ∧ loc.isspace c = false := by
  cases h with
  | nil => exact absurd rfl hne
  | plain hplain _ => exact ⟨_, _, rfl, hplain.solid⟩
  | escaped _ => exact ⟨_, _, rfl, loc.backslash_solid⟩
  | quoted q _ _ => exact ⟨_, _, rfl, loc.quote_solid q⟩

theorem Further.stops {args : List (List Byte)} {s : List Byte} (h : Further loc args s) : loc.Stops s := by
  intro c t hc
  cases h with
  | done hsp => exact hsp c (hc ▸ List.mem_cons_self)
  | more hsp hne _ _ _ =>
    obtain ⟨x, xs, rfl⟩ := List.exists_cons_of_ne_nil hne
    cases hc
    exact hsp _ List.mem_cons_self

theorem dropWhile_space {p : Byte → Bool} {space s : List Byte} (h : ∀ c ∈ space, p c = true) :
    (space ++ s).dropWhile p = s.dropWhile p := by
  induction space with
  | nil => rfl
  | cons c space ih =>
    rw [List.cons_append, List.dropWhile_cons_of_pos (h c List.mem_cons_self)]
    exact ih fun x hx => h x (List.mem_cons_of_mem _ hx)

/-- Neither class of white space takes anything off a text. -/
theorem Writes.dropWhile {arg text : List Byte} (h : Writes loc arg text) (hne : text ≠ []) (s : List Byte) :
    (text ++ s).dropWhile loc.isspace = text ++ s ∧ (text ++ s).dropWhile loc.isblank = text ++ s := by
  obtain ⟨c, t, rfl, hc⟩ := h.starts hne
  have hb : ¬loc.isblank c = true := by
    intro hb
    have := loc.blank_space c hb
    rw [hc] at this
    cases this
  exact ⟨List.dropWhile_cons_of_neg (by simp [hc]), List.dropWhile_cons_of_neg hb⟩

/-- An argument and those behind it are scanned. -/
theorem arguments_writes {args : List (List Byte)} {s : List Byte} (h : Further loc args s) :
    ∀ {arg text : List Byte}, Writes loc arg text → text ≠ [] →
      arguments loc.toCtype unquoted (text ++ s) = arg :: args := by
  induction h with
  | done hsp =>
    rename_i space
    intro arg text hw hne
    have hscan := scan_writes hw (Further.done hsp).stops
    have hend : space.dropWhile loc.isspace = [] := by
      simpa using dropWhile_space (s := []) hsp
    rw [arguments_last] <;> rw [(hw.dropWhile hne _).2, hscan]
    exact hend
  | more hsp hspne hw' hne' hfur ih =>
    rename_i space _ text' _ s
    intro arg text hw hne
    have hscan := scan_writes hw (Further.more hsp hspne hw' hne' hfur).stops
    have hnext : (space ++ (text' ++ s)).dropWhile loc.isspace = text' ++ s := by
      rw [dropWhile_space hsp, (hw'.dropWhile hne' s).1]
    rw [arguments_more] <;> rw [(hw.dropWhile hne _).2, hscan]
    · dsimp only
      rw [hnext, ih hw' hne']
    · dsimp only
      rw [hnext]
      exact List.append_ne_nil_of_left_ne_nil hne' s

/-- Blanks before a line make no difference. -/
theorem arguments_blanks {space s : List Byte} (h : ∀ c ∈ space, loc.isblank c = true) :
    arguments loc.toCtype unquoted (space ++ s) = arguments loc.toCtype unquoted s := by
  unfold arguments
  rw [dropWhile_space h]

/-- White space before a line that is not all blanks makes an empty argument. -/
theorem arguments_other_space {lead : List Byte} (hlead : loc.Space lead)
    (hnot : ¬∀ c ∈ lead, loc.isblank c = true) {arg text s : List Byte} (hw : Writes loc arg text) (hne : text ≠ []) :
    arguments loc.toCtype unquoted (lead ++ (text ++ s)) = [] :: arguments loc.toCtype unquoted (text ++ s) := by
  induction lead with
  | nil => exact absurd (fun c hc => (List.not_mem_nil hc).elim) hnot
  | cons c lead ih =>
    by_cases hc : loc.isblank c = true
    · have hlead' : loc.Space lead := fun x hx => hlead x (List.mem_cons_of_mem _ hx)
      have hnot' : ¬∀ x ∈ lead, loc.isblank x = true := by
        intro hall
        exact hnot (List.forall_mem_cons.mpr ⟨hc, hall⟩)
      rw [← ih hlead' hnot', List.cons_append]
      exact @arguments_blanks loc [c] _ (List.forall_mem_singleton.mpr hc)
    · have hscan : scan loc.toCtype unquoted (c :: (lead ++ (text ++ s))) =
          ([], unquoted, c :: lead ++ (text ++ s)) := by
        rw [scan, hlead c List.mem_cons_self]
        rfl
      have hdrop : (c :: lead ++ (text ++ s)).dropWhile loc.isspace = text ++ s := by
        rw [dropWhile_space hlead, (hw.dropWhile hne s).1]
      rw [arguments_more] <;> rw [List.cons_append, List.dropWhile_cons_of_neg hc, hscan]
      · dsimp only
        rw [hdrop]
      · dsimp only
        rw [hdrop]
        exact List.append_ne_nil_of_left_ne_nil hne s

end

/-! ## The law -/

/-- The call returns these strings, unless it is refused memory. -/
def Returns (ct : Ctype) (input : List Byte) (args : List (List Byte)) : Prop :=
  ∀ mem, Refused mem (buildargv ct mem (some input)).2 ∨ (buildargv ct mem (some input)).2.strings = some args

theorem returns_iff {ct : Ctype} {input : List Byte} {args : List (List Byte)} :
    Returns ct input args ↔ args.length < 8 ∧ arguments ct unquoted input = args := by
  constructor
  · intro h
    have hreturn := h fun _ => true
    obtain ⟨-, n, hn⟩ | hargs := buildargv_arguments ct (fun _ => true) input
    · cases hn
    obtain ⟨-, n, hn⟩ | hstr := hreturn
    · cases hn
    rw [hargs] at hstr
    split at hstr
    case isTrue hlt =>
      obtain rfl := Option.some.inj hstr
      exact ⟨hlt, rfl⟩
    case isFalse => cases hstr
  · rintro ⟨hlt, rfl⟩ mem
    have hargs := buildargv_arguments ct mem input
    rwa [if_pos hlt] at hargs

/-- `buildargv` reads the arguments of a line back just if there are fewer than eight of them, the line starts with blanks
only, and a line without arguments is empty. -/
theorem buildargv_reads_iff {loc : Locale} {lead body : List Byte} {args : List (List Byte)} (hlead : loc.Space lead)
    (hbody : Line loc args body) :
    Returns loc.toCtype (lead ++ body) (expected args (lead ++ body)) ↔
      args.length < 8 ∧ (∀ c ∈ lead, loc.isblank c = true) ∧ (args = [] → lead ++ body = []) := by
  rw [returns_iff]
  cases hbody with
  | empty =>
    cases lead with
    | nil =>
      have hempty : arguments loc.toCtype unquoted [] = [[]] := arguments_last _ rfl
      simp [expected, hempty]
    | cons c lead => simp [expected, arguments_ne_nil]
  | arguments hw hne hfur =>
    rename_i arg text args s
    have hinput : lead ++ (text ++ s) ≠ [] := by simp [hne]
    have hargs := arguments_writes hfur hw hne
    rw [expected, if_neg hinput]
    by_cases hblank : ∀ c ∈ lead, loc.isblank c = true
    · rw [arguments_blanks hblank, hargs]
      simpa using fun _ => hblank
    · rw [arguments_other_space hlead hblank hw hne, hargs]
      simp [hblank]

/-- The `C` locale. -/
def cCharset : Locale where
  toCtype := cLocale
  backslash_solid := by decide
  quote_solid q := by cases q <;> decide

/-- The one argument `a"b`, written with a quoted and an escaped piece between blanks and a newline. -/
theorem buildargv_reads_one :
    Returns cLocale [32, 97, 92, 34, 39, 98, 39, 10] (expected [[97, 34, 98]] [32, 97, 92, 34, 39, 98, 39, 10]) := by
  have hplain : cCharset.Plain 97 := ⟨by decide, by decide, fun q => by cases q <;> decide⟩
  have hw : Writes cCharset [97, 34, 98] [97, 92, 34, 39, 98, 39] :=
    .plain hplain (.escaped (.quoted .single [98] .nil))
  have hline : Line cCharset [[97, 34, 98]] ([97, 92, 34, 39, 98, 39] ++ [10]) :=
    .arguments hw (by decide) (.done (List.forall_mem_singleton.mpr rfl))
  have hlead : cCharset.Space [32] := List.forall_mem_singleton.mpr rfl
  exact (buildargv_reads_iff hlead hline).mpr ⟨by decide, List.forall_mem_singleton.mpr rfl, by decide⟩

/-- A newline before the argument `a`: an empty argument is returned before it. -/
theorem not_returns_newline :
    ¬∀ (loc : Locale) (lead body : List Byte) (args : List (List Byte)), loc.Space lead → Line loc args body →
      Returns loc.toCtype (lead ++ body) (expected args (lead ++ body)) := by
  intro h
  have hplain : cCharset.Plain 97 := ⟨by decide, by decide, fun q => by cases q <;> decide⟩
  have hline : Line cCharset [[97]] [97] :=
    .arguments (s := []) (.plain hplain .nil) (by decide) (.done (fun _ hc => (List.not_mem_nil hc).elim))
  have hlead : cCharset.Space [10] := List.forall_mem_singleton.mpr rfl
  obtain ⟨-, hargs⟩ := returns_iff.mp (h cCharset [10] [97] [[97]] hlead hline)
  have hlong : arguments cLocale unquoted ([10] ++ ([97] ++ [])) = [] :: arguments cLocale unquoted ([97] ++ []) :=
    @arguments_other_space cCharset _ hlead (by decide) _ _ [] (.plain hplain .nil) (by decide)
  cases hlong.symm.trans hargs

end CodingExercises.Binutils
