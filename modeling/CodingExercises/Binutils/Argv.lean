import Mathlib.Data.List.Basic

/-!
# binutils: argument vectors

`buildargv` of `libs/argv.c`, with the stores it makes: into the vector (`Event.store`), when the vector is made or
expanded (`Event.expand`), and into the working buffer (`Event.put`).

- The working buffer is never overrun, for an argument is not longer than what it is read from (`length_scan`).
- The vector has eight elements, and it is expanded to two: the stores are in bounds just when the string has fewer than
  eight arguments (`buildargv_safe_iff`).
-/

namespace CodingExercises.Binutils

abbrev Byte := UInt8

/-- The classes of `ctype.h` in the locale of the program. -/
structure Ctype where
  isblank : Byte → Bool
  isspace : Byte → Bool
  blank_space : ∀ c, isblank c → isspace c

/-- An element of the vector: never stored to, `NULL`, or the copy of an argument. -/
inductive Slot
  | unset
  | null
  | arg (s : List Byte)
deriving DecidableEq

/-- What `buildargv` does to its memory: `argv[argc] = …` where the vector has `maxargc` elements; a new vector for the old
one; and a byte of `copybuf`, which has `size` bytes. -/
inductive Event
  | store (argc maxargc : ℕ)
  | expand (old new : List Slot)
  | put (at' size : ℕ)

/-- The store is inside, or the arguments of the old vector are where they were. -/
def Event.Ok : Event → Prop
  | .store argc maxargc => argc < maxargc
  | .expand old new => ∀ (i : ℕ) (s : List Byte), old[i]? = some (.arg s) → new[i]? = some (.arg s)
  | .put at' size => at' < size

/-! ## The arguments -/

/-- `squote`, `dquote` and `bsquote`. -/
structure Quotes where
  squote : Bool
  dquote : Bool
  bsquote : Bool
deriving DecidableEq

/-- No quote is open. -/
def Quotes.closed (q : Quotes) : Bool := !q.squote && !q.dquote && !q.bsquote

def backslash : Byte := 92

def apostrophe : Byte := 39

def doubleQuote : Byte := 34

/-- A character of an argument: what it stores, and the quotes after it. -/
def Quotes.step (q : Quotes) (c : Byte) : Option Byte × Quotes :=
  if q.bsquote then (some c, { q with bsquote := false })
  else if c = backslash then (none, { q with bsquote := true })
  else if q.squote then
    if c = apostrophe then (none, { q with squote := false }) else (some c, q)
  else if q.dquote then
    if c = doubleQuote then (none, { q with dquote := false }) else (some c, q)
  else if c = apostrophe then (none, { q with squote := true })
  else if c = doubleQuote then (none, { q with dquote := true })
  else (some c, q)

section

variable (ct : Ctype)

/-- The inner loop: the argument, the quotes that are left open, and the rest of the string. -/
def scan (q : Quotes) : List Byte → List Byte × Quotes × List Byte
  | [] => ([], q, [])
  | c :: s =>
    if ct.isspace c && q.closed then ([], q, c :: s)
    else
      let (o, q') := q.step c
      let (arg, q'', rest) := scan q' s
      (o.toList ++ arg, q'', rest)

/-- The arguments that begin behind a place inside (`true`) or outside of an argument. -/
def moreArgs : Bool → Quotes → List Byte → ℕ
  | _, _, [] => 0
  | true, q, c :: s => if ct.isspace c && q.closed then moreArgs false q s else moreArgs true (q.step c).2 s
  | false, q, c :: s => if ct.isspace c then moreArgs false q s else 1 + moreArgs true (q.step c).2 s

/-- The number of arguments in a string. There is always a first one, which may be empty. -/
def argCount (q : Quotes) (s : List Byte) : ℕ := 1 + moreArgs ct true q (s.dropWhile ct.isblank)

/-! ## The vector -/

/-- `realloc`. -/
def resize (v : List Slot) (n : ℕ) : List Slot := v.take n ++ List.replicate (n - v.length) .unset

/-- How a call ends: with a store that is out of bounds, or with a result. -/
inductive Outcome
  | overrun
  | returned (argv : Option (List Slot))

/-- The variables of `buildargv`, and the number of allocations so far. -/
structure State where
  argc : ℕ
  maxargc : ℕ
  argv : Option (List Slot)
  quotes : Quotes
  asked : ℕ

variable (mem : ℕ → Bool)

/-- `INITIAL_MAXARGC`. -/
def initialMaxargc : ℕ := 8

/-- `argv` needs initialization, or expansion. -/
def expand (st : State) : List Event × (Outcome ⊕ State) :=
  if st.maxargc = 0 ∨ st.argc ≥ st.maxargc - 1 then
    let maxargc := if st.argv.isNone then initialMaxargc else 2
    if mem st.asked then
      let old := st.argv.getD []
      let nargv := resize old maxargc
      let events := [.expand old nargv, .store st.argc maxargc]
      if st.argc < maxargc then
        (events, .inr { st with maxargc, argv := some (nargv.set st.argc .null), asked := st.asked + 1 })
      else (events, .inl .overrun)
    else ([], .inl (.returned none))
  else ([], .inr st)

/-- An argument is taken from `copybuf` into the vector, and `NULL` is put behind it. -/
def fill (size : ℕ) (st : State) (arg : List Byte) : List Event × (Outcome ⊕ State) :=
  let puts := (List.range (arg.length + 1)).map (.put · size)
  let argv := st.argv.getD []
  if arg.length < size then
    let stores : List Event := [.store st.argc st.maxargc]
    if st.argc < st.maxargc then
      if mem st.asked then
        let stores := stores ++ [.store (st.argc + 1) st.maxargc]
        if st.argc + 1 < st.maxargc then
          (puts ++ stores, .inr { st with
            argc := st.argc + 1
            argv := some ((argv.set st.argc (.arg arg)).set (st.argc + 1) .null)
            asked := st.asked + 1 })
        else (puts ++ stores, .inl .overrun)
      else (puts ++ stores, .inl (.returned none))
    else (puts ++ stores, .inl .overrun)
  else (puts, .inl .overrun)

theorem length_dropWhile_le (p : Byte → Bool) (s : List Byte) : (s.dropWhile p).length ≤ s.length :=
  (List.dropWhile_sublist p).length_le

/-- What is left of a string after an argument. -/
theorem length_scan_rest : ∀ (q : Quotes) (s : List Byte), (scan ct q s).2.2.length ≤ s.length
  | _, [] => Nat.le_refl _
  | q, c :: s => by
    unfold scan
    split
    · exact Nat.le_refl _
    · exact Nat.le_succ_of_le (length_scan_rest (q.step c).2 s)

/-- A turn of the loop takes at least one character. -/
theorem length_rest_lt {q : Quotes} {s : List Byte}
    (h : (scan ct q (s.dropWhile ct.isblank)).2.2.dropWhile ct.isspace ≠ []) :
    ((scan ct q (s.dropWhile ct.isblank)).2.2.dropWhile ct.isspace).length < s.length := by
  have hle := length_dropWhile_le ct.isblank s
  generalize s.dropWhile ct.isblank = t at h hle
  cases t with
  | nil => exact absurd rfl h
  | cons c t =>
    unfold scan at h ⊢
    split
    case isTrue hc =>
      have hsp : ct.isspace c = true := (Bool.and_eq_true_iff.mp hc).1
      rw [List.dropWhile_cons_of_pos hsp]
      exact Nat.lt_of_le_of_lt (length_dropWhile_le _ t) (Nat.lt_of_succ_le hle)
    case isFalse hc =>
      have hrest := length_scan_rest ct (q.step c).2 t
      have hdrop := length_dropWhile_le ct.isspace (scan ct (q.step c).2 t).2.2
      exact Nat.lt_of_le_of_lt (Nat.le_trans hdrop hrest) (Nat.lt_of_succ_le hle)

/-- The loop of `buildargv`: what it does, and how it ends. -/
def buildargvLoop (size : ℕ) (st : State) (input : List Byte) : List Event × Outcome :=
  match expand mem st with
  | (events, .inl o) => (events, o)
  | (events, .inr st) =>
    let scanned := scan ct st.quotes (input.dropWhile ct.isblank)
    match fill mem size st scanned.1 with
    | (events', .inl o) => (events ++ events', o)
    | (events', .inr st) =>
      let st := { st with quotes := scanned.2.1 }
      let rest := scanned.2.2.dropWhile ct.isspace
      if _h : rest = [] then (events ++ events', .returned st.argv)
      else
        let (events'', o) := buildargvLoop size st rest
        (events ++ events' ++ events'', o)
termination_by input.length
decreasing_by exact length_rest_lt ct _h

/-- `buildargv`. -/
def buildargv (input : Option (List Byte)) : List Event × Outcome :=
  match input with
  | none => ([], .returned none)
  | some s => buildargvLoop ct mem (s.length + 1) ⟨0, 0, none, ⟨false, false, false⟩, 0⟩ s

/-- Everything the call does to its memory is in bounds, and no argument is lost. -/
def BuildsSafely (s : List Byte) : Prop := ∀ e ∈ (buildargv ct mem (some s)).1, e.Ok

/-! ## The arguments are counted -/

/-- An argument is not longer than what it is read from. -/
theorem length_scan : ∀ (q : Quotes) (s : List Byte), (scan ct q s).1.length ≤ s.length
  | _, [] => Nat.le_refl _
  | q, c :: s => by
    have ih := length_scan (q.step c).2 s
    have hone : (q.step c).1.toList.length ≤ 1 := by cases (q.step c).1 <;> simp
    unfold scan
    split
    · exact Nat.zero_le _
    · simp only [List.length_append, List.length_cons]
      omega

/-- The arguments behind a place in an argument are those behind its end. -/
theorem moreArgs_scan : ∀ (q : Quotes) (s : List Byte),
    moreArgs ct true q s = moreArgs ct false (scan ct q s).2.1 (scan ct q s).2.2
  | _, [] => rfl
  | q, c :: s => by
    have ih := moreArgs_scan (q.step c).2 s
    unfold scan
    split
    case isTrue hc =>
      have hsp : ct.isspace c = true := (Bool.and_eq_true_iff.mp hc).1
      rw [moreArgs, if_pos hc, moreArgs, if_pos hsp]
    case isFalse hc =>
      simp only [moreArgs, hc]
      exact ih

theorem moreArgs_outside (q : Quotes) : ∀ s : List Byte,
    moreArgs ct false q s = if s.dropWhile ct.isspace = [] then 0 else argCount ct q (s.dropWhile ct.isspace)
  | [] => rfl
  | c :: s => by
    by_cases hc : ct.isspace c = true
    · rw [List.dropWhile_cons_of_pos hc, ← moreArgs_outside q s]
      simp only [moreArgs, hc, if_true]
    · have hb : ¬ct.isblank c = true := fun hb => hc (ct.blank_space c hb)
      rw [List.dropWhile_cons_of_neg hc, if_neg (List.cons_ne_nil c s)]
      unfold argCount
      rw [List.dropWhile_cons_of_neg hb]
      simp [moreArgs, hc]

/-- One argument, and those of the rest. -/
theorem argCount_scan (q : Quotes) (s : List Byte) :
    argCount ct q s =
      1 + if (scan ct q (s.dropWhile ct.isblank)).2.2.dropWhile ct.isspace = [] then 0
        else argCount ct (scan ct q (s.dropWhile ct.isblank)).2.1
          ((scan ct q (s.dropWhile ct.isblank)).2.2.dropWhile ct.isspace) := by
  rw [argCount, moreArgs_scan, moreArgs_outside]

/-! ## The stores -/

/-- The vector holds `argc` arguments out of seven, or there is none yet. -/
def State.Ok (st : State) : Prop :=
  (st.argv = none ∧ st.argc = 0 ∧ st.maxargc = 0) ∨
    ∃ v, st.argv = some v ∧ v.length = 8 ∧ st.maxargc = 8 ∧ st.argc ≤ 7

/-- With room for an argument: the vector is there afterwards, or memory is exhausted. -/
theorem expand_fits {st : State} (h : st.Ok) (hlt : st.argc < 7) :
    (∀ e ∈ (expand mem st).1, e.Ok) ∧
      ((expand mem st).2 = .inl (.returned none) ∧ mem st.asked = false ∨
        ∃ v asked, (expand mem st).2 = .inr ⟨st.argc, 8, some v, st.quotes, asked⟩ ∧ v.length = 8) := by
  obtain ⟨argc, maxargc, argv, quotes, asked⟩ := st
  obtain ⟨rfl, rfl, rfl⟩ | ⟨v, rfl, hv, rfl, -⟩ := h
  · simp only [expand, initialMaxargc]
    cases hmem : mem asked with
    | false => exact ⟨by simp, .inl ⟨rfl, rfl⟩⟩
    | true =>
      refine ⟨?_, .inr ⟨_, _, rfl, ?_⟩⟩
      · simp [Event.Ok]
      · simp [resize]
  · simp only [expand] at hlt ⊢
    rw [if_neg (by omega)]
    exact ⟨by simp, .inr ⟨v, asked, rfl, hv⟩⟩

/-- In the eighth turn the vector is made smaller. -/
theorem expand_eighth {st : State} (h : st.Ok) (hargc : st.argc = 7) (hmem : mem st.asked = true) :
    ∃ e ∈ (expand mem st).1, ¬e.Ok := by
  obtain ⟨argc, maxargc, argv, quotes, asked⟩ := st
  obtain ⟨rfl, rfl, rfl⟩ | ⟨v, rfl, hv, rfl, -⟩ := h
  · cases hargc
  · dsimp only at hargc hmem
    subst hargc
    refine ⟨.store 7 2, ?_, by simp [Event.Ok]⟩
    simp [expand, hmem]

/-- An argument is stored. -/
theorem fill_fits {size argc : ℕ} (asked : ℕ) {v : List Slot} (quotes : Quotes) {arg : List Byte} (hv : v.length = 8)
    (hlt : argc < 7) (harg : arg.length < size) :
    (∀ e ∈ (fill mem size ⟨argc, 8, some v, quotes, asked⟩ arg).1, e.Ok) ∧
      ((fill mem size ⟨argc, 8, some v, quotes, asked⟩ arg).2 = .inl (.returned none) ∧ mem asked = false ∨
        ∃ v' asked', (fill mem size ⟨argc, 8, some v, quotes, asked⟩ arg).2 =
          .inr ⟨argc + 1, 8, some v', quotes, asked'⟩ ∧ v'.length = 8) := by
  have hputs : ∀ e ∈ (List.range (arg.length + 1)).map (Event.put · size), e.Ok := by
    intro e he
    obtain ⟨k, hk, rfl⟩ := List.mem_map.mp he
    have := List.mem_range.mp hk
    simp only [Event.Ok]
    omega
  simp only [fill]
  rw [if_pos harg, if_pos (by omega)]
  cases hmem : mem asked with
  | false =>
    refine ⟨?_, .inl ⟨rfl, rfl⟩⟩
    intro e he
    rcases List.mem_append.mp he with he | he
    · exact hputs e he
    · simp only [List.mem_singleton] at he
      subst he
      simp only [Event.Ok]
      omega
  | true =>
    simp only [if_true]
    rw [if_pos (by omega)]
    refine ⟨?_, .inr ⟨_, _, rfl, by simpa using hv⟩⟩
    intro e he
    rcases List.mem_append.mp he with he | he
    · exact hputs e he
    · simp only [List.cons_append, List.nil_append, List.mem_cons, List.not_mem_nil, or_false] at he
      rcases he with rfl | rfl
      all_goals
        simp only [Event.Ok]
        omega

theorem one_le_argCount (q : Quotes) (s : List Byte) : 1 ≤ argCount ct q s := Nat.le_add_right _ _

variable {ct mem} in
/-- A turn that stores an argument: the loop goes on with the rest, or is done. -/
theorem buildargvLoop_turn {size : ℕ} {st st' st'' : State} {input : List Byte}
    (hexp : (expand mem st).2 = .inr st')
    (hfill : (fill mem size st' (scan ct st'.quotes (input.dropWhile ct.isblank)).1).2 = .inr st'') :
    (buildargvLoop ct mem size st input).1 =
      (expand mem st).1 ++ (fill mem size st' (scan ct st'.quotes (input.dropWhile ct.isblank)).1).1 ++
        if (scan ct st'.quotes (input.dropWhile ct.isblank)).2.2.dropWhile ct.isspace = [] then []
        else (buildargvLoop ct mem size { st'' with
            quotes := (scan ct st'.quotes (input.dropWhile ct.isblank)).2.1 }
          ((scan ct st'.quotes (input.dropWhile ct.isblank)).2.2.dropWhile ct.isspace)).1 := by
  rw [buildargvLoop]
  generalize expand mem st = x at hexp ⊢
  obtain ⟨events, r⟩ := x
  dsimp only at hexp
  subst hexp
  dsimp only
  generalize fill mem size st' _ = y at hfill ⊢
  obtain ⟨events', r⟩ := y
  dsimp only at hfill
  subst hfill
  dsimp only
  split <;> simp

variable {ct mem} in
/-- Up to seven arguments are stored in bounds. -/
theorem buildargvLoop_safe {size : ℕ} {st : State} {input : List Byte} (h : st.Ok) (hsize : input.length < size)
    (hn : st.argc + argCount ct st.quotes input ≤ 7) : ∀ e ∈ (buildargvLoop ct mem size st input).1, e.Ok := by
  have hone := one_le_argCount ct st.quotes input
  obtain ⟨hev, ⟨hexp, -⟩ | ⟨v, asked, hexp, hv⟩⟩ := expand_fits mem h (by omega)
  · rw [buildargvLoop]
    generalize expand mem st = x at hev hexp
    obtain ⟨events, r⟩ := x
    dsimp only at hexp
    subst hexp
    exact hev
  have hcount := argCount_scan ct st.quotes input
  have harg := length_scan ct st.quotes (input.dropWhile ct.isblank)
  have hdrop := length_dropWhile_le ct.isblank input
  obtain ⟨hev', ⟨hfill, -⟩ | ⟨v', asked', hfill, hv'⟩⟩ := fill_fits mem asked st.quotes hv (by omega : st.argc < 7)
    (by omega : (scan ct st.quotes (input.dropWhile ct.isblank)).1.length < size)
  · rw [buildargvLoop]
    generalize expand mem st = x at hev hexp
    obtain ⟨events, r⟩ := x
    dsimp only at hexp
    subst hexp
    dsimp only
    generalize fill mem size _ _ = y at hev' hfill
    obtain ⟨events', r⟩ := y
    dsimp only at hfill
    subst hfill
    intro e he
    exact (List.mem_append.mp he).elim (hev e) (hev' e)
  rw [buildargvLoop_turn hexp hfill]
  intro e he
  rcases List.mem_append.mp he with he | he
  · exact (List.mem_append.mp he).elim (hev e) (hev' e)
  split at he
  case isTrue => cases he
  case isFalse hrest =>
    rw [if_neg hrest] at hcount
    have hlt := length_rest_lt ct hrest
    dsimp only at hlt he
    refine buildargvLoop_safe (.inr ⟨v', rfl, hv', rfl, ?_⟩) (Nat.lt_trans hlt hsize) ?_ e he
    · dsimp only
      omega
    · dsimp only
      omega
termination_by input.length

variable {ct mem} in
/-- The eighth argument is stored out of bounds, if memory lasts. -/
theorem buildargvLoop_unsafe {size : ℕ} {st : State} {input : List Byte} (hmem : ∀ n, mem n = true) (h : st.Ok)
    (hle : st.argc ≤ 7) (hsize : input.length < size) (hn : 8 ≤ st.argc + argCount ct st.quotes input) :
    ∃ e ∈ (buildargvLoop ct mem size st input).1, ¬e.Ok := by
  rcases Nat.lt_or_ge st.argc 7 with hlt | hge
  · obtain ⟨-, ⟨-, hexp⟩ | ⟨v, asked, hexp, hv⟩⟩ := expand_fits mem h hlt
    · rw [hmem] at hexp
      cases hexp
    have hcount := argCount_scan ct st.quotes input
    have harg := length_scan ct st.quotes (input.dropWhile ct.isblank)
    have hdrop := length_dropWhile_le ct.isblank input
    obtain ⟨-, ⟨-, hfill⟩ | ⟨v', asked', hfill, hv'⟩⟩ := fill_fits mem asked st.quotes hv hlt
      (by omega : (scan ct st.quotes (input.dropWhile ct.isblank)).1.length < size)
    · rw [hmem] at hfill
      cases hfill
    rw [buildargvLoop_turn hexp hfill]
    split
    case isTrue hrest =>
      rw [if_pos hrest] at hcount
      omega
    case isFalse hrest =>
      rw [if_neg hrest] at hcount
      have hlt' := length_rest_lt ct hrest
      dsimp only at hlt'
      have hok : State.Ok ⟨st.argc + 1, 8, some v', (scan ct st.quotes (input.dropWhile ct.isblank)).2.1, asked'⟩ :=
        .inr ⟨v', rfl, hv', rfl, hlt⟩
      have hsize' := Nat.lt_trans hlt' hsize
      obtain ⟨e, he, hbad⟩ := buildargvLoop_unsafe hmem hok hlt hsize' (by dsimp only; omega)
      exact ⟨e, List.mem_append_right _ he, hbad⟩
  · obtain ⟨e, he, hbad⟩ := expand_eighth mem h (Nat.le_antisymm hle hge) (hmem _)
    refine ⟨e, ?_, hbad⟩
    rw [buildargvLoop]
    generalize expand mem st = x at he
    obtain ⟨events, o | st'⟩ := x
    · exact he
    · dsimp only
      split
      · exact List.mem_append_left _ he
      · split
        · exact List.mem_append_left _ he
        · exact List.mem_append_left _ (List.mem_append_left _ he)
termination_by input.length

end

/-- With eight arguments, and enough memory, a store is out of bounds. -/
theorem not_buildsSafely {ct : Ctype} {s : List Byte} (hn : 8 ≤ argCount ct ⟨false, false, false⟩ s) :
    ¬BuildsSafely ct (fun _ => true) s := by
  intro h
  have hok : State.Ok ⟨0, 0, none, ⟨false, false, false⟩, 0⟩ := .inl ⟨rfl, rfl, rfl⟩
  have hcount : 8 ≤ 0 + argCount ct ⟨false, false, false⟩ s := by omega
  obtain ⟨e, he, hbad⟩ := buildargvLoop_unsafe (fun _ => rfl) hok (Nat.zero_le _) (Nat.lt_succ_self s.length) hcount
  exact hbad (h e he)

/-- `buildargv` stays in bounds, however memory is answered, just if the string has fewer than eight arguments. -/
theorem buildargv_safe_iff (ct : Ctype) (s : List Byte) :
    (∀ mem, BuildsSafely ct mem s) ↔ argCount ct ⟨false, false, false⟩ s < 8 := by
  have hok : State.Ok ⟨0, 0, none, ⟨false, false, false⟩, 0⟩ := .inl ⟨rfl, rfl, rfl⟩
  constructor
  · intro h
    by_contra hn
    exact not_buildsSafely (Nat.le_of_not_lt hn) (h _)
  · intro hn mem
    have hcount : 0 + argCount ct ⟨false, false, false⟩ s ≤ 7 := by omega
    exact buildargvLoop_safe hok (Nat.lt_succ_self s.length) hcount

/-- The classes of characters of the `C` locale. -/
def cLocale : Ctype where
  isblank c := c = 32 || c = 9
  isspace c := c = 32 || (9 ≤ c && c ≤ 13)
  blank_space c h := by
    simp only [Bool.or_eq_true, decide_eq_true_eq] at h
    rcases h with rfl | rfl <;> decide

/-- Eight arguments of one letter. -/
theorem buildargv_eight :
    ¬∀ mem, BuildsSafely cLocale mem [97, 32, 97, 32, 97, 32, 97, 32, 97, 32, 97, 32, 97, 32, 97] := by
  intro h
  refine not_buildsSafely ?_ (h fun _ => true)
  decide

end CodingExercises.Binutils
