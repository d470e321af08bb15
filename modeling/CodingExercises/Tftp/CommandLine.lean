import CodingExercises.Lib.Words
import CodingExercises.Tftp.Command

/-!
# TFTP: the words of a command line

A line lies in its array as a string, a null and whatever was there before. Up to the null, `gettoken` hands out the words
of the string (`gettoken_line`), so a command sees what a program sees that is fed the words (`agrees`). A call that
begins behind the null reads on, which `callsWithin` and the number of calls of a command decide (`fed_calls_le`).

- What the main loop does with each line is said in `mainloop_tokens`.
-/

namespace CodingExercises.Tftp

open Lib

/-- What is between the words of a line. -/
def isSep (c : Byte) : Bool := isBlank c || c == newline

/-- The words of a line. -/
def lineWords (s : List Byte) : List Token := words isSep s

/-- The calls of `gettoken` that begin before `lineptr` has passed the null behind a string, where `lineptr` is inside a
word or not: one ends behind each word that a separator follows and at each newline outside a word, and one at the null. -/
def callsFrom (inWord : Bool) : List Byte → ℕ
  | [] => 1
  | c :: s =>
    if inWord then if isSep c then callsFrom false s + 1 else callsFrom true s
    else if isBlank c then callsFrom false s
    else if c = newline then callsFrom false s + 1
    else callsFrom true s

/-- The calls of `gettoken` on a line that begin before `lineptr` has passed its null. -/
def callsWithin (s : List Byte) : ℕ := callsFrom false s

/-- A newline can only be the last byte. -/
def OneLine (s : List Byte) : Prop := ∀ a b, s = a ++ newline :: b → b = []

section Gettoken

variable {s w : List Byte} {c d : Byte}

theorem OneLine.suffix (h : OneLine (w ++ s)) : OneLine s := fun a b hs =>
  h (w ++ a) b (by rw [hs, List.append_assoc])

theorem OneLine.prefix (h : OneLine (s ++ w)) : OneLine s := fun a b hs => by
  have hb : b ++ w = [] := h a (b ++ w) (by rw [hs]; simp)
  exact (List.append_eq_nil_iff.1 hb).1

/-- The second loop stops behind the word. -/
theorem collect_append (hw : ∀ x ∈ w, isSep x = false) (h0 : (0 : Byte) ∉ w) (hd : isSep d = true ∨ d = 0)
    (p : List Byte) : collect (w ++ d :: p) = some (w, p) := by
  induction w with
  | nil =>
    have hend : isBlank d ∨ d = newline ∨ d = 0 := by
      simpa [isSep, or_assoc] using hd
    simp [collect, hend]
  | cons x w ih =>
    have hx : ¬ (isBlank x ∨ x = newline ∨ x = 0) := by
      have h1 := hw x (List.mem_cons_self ..)
      have h2 : x ≠ 0 := fun h => h0 (by simp [h])
      simp [isSep] at h1
      simp [h1, h2]
    have hrec := ih (fun y hy => hw y (List.mem_cons_of_mem _ hy)) fun h => h0 (List.mem_cons_of_mem _ h)
    simp [collect, hx, hrec]

theorem callsFrom_word (hw : ∀ x ∈ w, isSep x = false) : callsFrom true w = 1 := by
  induction w with
  | nil => rfl
  | cons x w ih =>
    simp [callsFrom, hw x (List.mem_cons_self ..), ih fun y hy => hw y (List.mem_cons_of_mem _ hy)]

theorem callsFrom_append (hw : ∀ x ∈ w, isSep x = false) (hd : isSep d = true) (s : List Byte) :
    callsFrom true (w ++ d :: s) = callsWithin s + 1 := by
  induction w with
  | nil => simp [callsFrom, callsWithin, hd]
  | cons x w ih =>
    simp [callsFrom, hw x (List.mem_cons_self ..), ih fun y hy => hw y (List.mem_cons_of_mem _ hy)]

/-- The byte is the first one of a word. -/
theorem isSep_eq_false (hb : ¬ isBlank c = true) (hn : c ≠ newline) : isSep c = false := by
  simp [isSep, hb, hn]

/-- **What `gettoken` does with a line.** It returns the first word or `NULL`; unless this call passes the null, the rest
of the line is left. -/
theorem gettoken_line (h0 : (0 : Byte) ∉ s) (h1 : OneLine s) (hlim : ∀ w ∈ lineWords s, w.length < maxToken)
    (stale : List Byte) : ∃ p, gettoken (s ++ 0 :: stale) = some ((lineWords s).head?, p) ∧
      (callsWithin s = 1 ∨ ∃ s', p = s' ++ 0 :: stale ∧ (0 : Byte) ∉ s' ∧ OneLine s' ∧
        lineWords s' = (lineWords s).tail ∧ callsWithin s = callsWithin s' + 1) := by
  induction s with
  | nil => exact ⟨stale, rfl, .inl rfl⟩
  | cons c s ih =>
    have h0s : (0 : Byte) ∉ s := fun h => h0 (List.mem_cons_of_mem _ h)
    have hc0 : c ≠ 0 := fun h => h0 (by simp [h])
    by_cases hb : isBlank c = true
    · have hwords : lineWords (c :: s) = lineWords s := words_cons_sep (by simp [isSep, hb]) s
      have hcalls : callsWithin (c :: s) = callsWithin s := by simp [callsWithin, callsFrom, hb]
      have hget : gettoken (c :: s ++ 0 :: stale) = gettoken (s ++ 0 :: stale) := by
        simp [gettoken, skipWhite, hb]
      rw [hwords] at hlim ⊢
      rw [hcalls, hget]
      exact ih h0s (OneLine.suffix (w := [c]) h1) hlim
    · by_cases hn : c = newline
      · obtain rfl : s = [] := h1 [] s (by rw [hn]; rfl)
        subst hn
        exact ⟨0 :: stale, rfl, .inr ⟨[], rfl, List.not_mem_nil, h1.suffix (w := [newline]), rfl, rfl⟩⟩
      · have hcalls : callsWithin (c :: s) = callsFrom true s := by simp [callsWithin, callsFrom, hb, hn]
        have hget : ∀ token p, collect (s ++ 0 :: stale) = some (token, p) → token.length + 1 < maxToken →
            gettoken (c :: s ++ 0 :: stale) = some (some (c :: token), p) := by
          intro token p hcol hlen
          simp [gettoken, skipWhite, hb, hn, hc0, hcol, hlen]
        have hsep := isSep_eq_false hb hn
        rcases exists_piece isSep s with hw | ⟨w, d, s', rfl, hw, hd⟩
        · have hwords : lineWords (c :: s) = [c :: s] :=
            words_eq_singleton (List.forall_mem_cons.2 ⟨hsep, hw⟩) (List.cons_ne_nil c s)
          rw [hwords] at hlim ⊢
          refine ⟨stale, hget s stale (collect_append hw h0s (.inr rfl) stale) ?_, .inl ?_⟩
          · exact hlim _ (List.mem_singleton.2 rfl)
          · rw [hcalls, callsFrom_word hw]
        · have hwords : lineWords (c :: (w ++ d :: s')) = (c :: w) :: lineWords s' :=
            words_append (List.forall_mem_cons.2 ⟨hsep, hw⟩) (List.cons_ne_nil c w) hd s'
          rw [hwords] at hlim ⊢
          have h0w : (0 : Byte) ∉ w := fun h => h0s (List.mem_append_left _ h)
          refine ⟨s' ++ 0 :: stale, hget w _ ?_ ?_, .inr ⟨s', rfl, ?_, ?_, rfl, ?_⟩⟩
          · rw [List.append_assoc, List.cons_append]
            exact collect_append hw h0w (.inl hd) _
          · exact hlim _ (List.mem_cons_self ..)
          · exact fun h => h0s (List.mem_append_right _ (List.mem_cons_of_mem _ h))
          · exact OneLine.suffix (w := c :: (w ++ [d])) (by simpa using h1)
          · rw [hcalls, callsFrom_append hw hd]

/-- A pointer into a line, with the words from there on, when `n` more calls begin before the null is passed. -/
def Within (n : ℕ) (lineptr : List Byte) (ws : List Token) : Prop :=
  n = 0 ∨ ∃ s stale, lineptr = s ++ 0 :: stale ∧ (0 : Byte) ∉ s ∧ OneLine s ∧ lineWords s = ws ∧ n ≤ callsWithin s ∧
    ∀ w ∈ ws, w.length < maxToken

/-- **Up to the null of a line, `gettoken` hands out its words.** -/
theorem agrees : Asking.Agrees gettoken Asking.feed Within := by
  rintro n p ws (h | ⟨s, stale, rfl, h0, h1, rfl, hn, hlim⟩)
  · cases h
  · obtain ⟨p, hget, hrest⟩ := gettoken_line h0 h1 hlim stale
    refine ⟨p, hget, ?_⟩
    rcases hrest with hone | ⟨s', rfl, h0', h1', hwords, hcalls⟩
    · exact .inl (by omega)
    · exact .inr ⟨s', stale, rfl, h0', h1', hwords, by omega, fun w hw => hlim w (List.mem_of_mem_tail hw)⟩

end Gettoken

/-! ## The array -/

section Array

variable {fp fp' line line' : List Byte}

theorem fgets_oneLine (n : Nat) (fp : List Byte) : OneLine (fgets n fp).1 := by
  induction n generalizing fp with
  | zero => intro a b h; simp [fgets] at h
  | succ n ih =>
    cases fp with
    | nil => intro a b h; simp [fgets] at h
    | cons c fp =>
      intro a b h
      by_cases hc : c = newline
      · simp only [fgets, if_pos hc] at h
        cases a with
        | nil => exact (List.cons.inj h).2.symm
        | cons x a => simp at h
      · simp only [fgets, if_neg hc] at h
        cases a with
        | nil => exact absurd (List.cons.inj h).1 hc
        | cons x a => exact ih fp a b (List.cons.inj h).2

theorem length_fgets (n : Nat) (fp : List Byte) : (fgets n fp).1.length ≤ n := by
  induction n generalizing fp with
  | zero => simp [fgets]
  | succ n ih =>
    cases fp with
    | nil => simp [fgets]
    | cons c fp =>
      by_cases hc : c = newline
      · simp [fgets, hc]
      · simpa [fgets, hc] using ih fp

/-- The string at the start of an array that holds a null. -/
theorem cstr_split (s rest : List Byte) : (0 : Byte) ∉ cstr (s ++ 0 :: rest) ∧
    (∃ w, s = cstr (s ++ 0 :: rest) ++ w) ∧ ∃ stale, s ++ 0 :: rest = cstr (s ++ 0 :: rest) ++ 0 :: stale := by
  induction s with
  | nil => exact ⟨List.not_mem_nil, ⟨[], rfl⟩, rest, rfl⟩
  | cons c s ih =>
    by_cases hc : c = 0
    · subst hc
      exact ⟨List.not_mem_nil, ⟨0 :: s, rfl⟩, s ++ 0 :: rest, rfl⟩
    · have hcons : cstr (c :: s ++ 0 :: rest) = c :: cstr (s ++ 0 :: rest) := by simp [cstr, hc]
      obtain ⟨h0, ⟨w, hw⟩, stale, hstale⟩ := ih
      rw [hcons]
      refine ⟨?_, ⟨w, congrArg (List.cons c) hw⟩, stale, congrArg (List.cons c) hstale⟩
      simp only [List.mem_cons, not_or]
      exact ⟨fun h => hc h.symm, h0⟩

/-- The array keeps its length. -/
theorem getLine_length (h : getLine fp line = some (line', fp')) (hl : line.length = maxLine) :
    line'.length = maxLine := by
  unfold getLine at h
  split at h
  · cases h
  · cases h
    have hlen := length_fgets (maxLine - 1) fp
    rw [List.length_append, List.length_cons, List.length_drop, hl]
    unfold maxLine at *
    omega

/-- A line that has been read. -/
theorem getLine_within (h : getLine fp line = some (line', fp'))
    (hlim : ∀ w ∈ lineWords (cstr line'), w.length < maxToken) :
    Within (callsWithin (cstr line')) line' (lineWords (cstr line')) := by
  unfold getLine at h
  split at h
  · cases h
  · cases h
    obtain ⟨h0, ⟨w, hw⟩, stale, hstale⟩ := cstr_split (fgets (maxLine - 1) fp).1
      (line.drop ((fgets (maxLine - 1) fp).1.length + 1))
    have hone := fgets_oneLine (maxLine - 1) fp
    rw [hw] at hone
    exact .inr ⟨_, stale, hstale, h0, hone.prefix, rfl, Nat.le_refl _, hlim⟩

end Array

/-! ## What the commands do with their words -/

section Commands

variable {returns : Bool} {v : CmdVars} {str : List Byte}

/-- A function of a command: it does not end as `checkend` does, and calls `gettoken` itself. -/
def Quiet (p : Cmd) : Prop := p.Only (· = .command) fun o => o.ended ≠ .errCmd (bytes "trailing garbage")

theorem quiet_ret (v : CmdVars) : Quiet (ret v) := nofun

theorem quiet_errCmd (h : str ≠ bytes "trailing garbage") : Quiet (errCmd str v) :=
  fun he => h (Ended.errCmd.inj he)

theorem quiet_ask {next : Option Token → Cmd} (h0 : Quiet (next none)) (h1 : ∀ w, Quiet (next (some w))) :
    Quiet (.ask .command next) := by
  refine ⟨rfl, fun a => ?_⟩
  cases a with
  | none => exact h0
  | some w => exact h1 w

theorem quiet_cmdConnect (v : CmdVars) : Quiet (cmdConnect v) := by
  apply quiet_ask (quiet_errCmd (by decide))
  intro hostname
  apply quiet_ask (quiet_ret _)
  intro temptoken
  dsimp only
  split
  · exact quiet_errCmd (by decide)
  · exact quiet_ret _

theorem quiet_checkNames (dir : Dir) (returns : Bool) (remfname locfname : Token) (v : CmdVars) :
    Quiet (checkNames dir returns remfname locfname v) := by
  unfold checkNames
  split
  · exact quiet_errCmd (by decide)
  · dsimp only
    split
    · exact quiet_errCmd (by decide)
    · cases returns <;> nofun

theorem quiet_cmdGet (returns : Bool) (v : CmdVars) : Quiet (cmdGet returns v) :=
  quiet_ask (quiet_errCmd (by decide)) fun _ => quiet_ask (quiet_errCmd (by decide)) fun _ => quiet_checkNames ..

theorem quiet_cmdPut (returns : Bool) (v : CmdVars) : Quiet (cmdPut returns v) :=
  quiet_ask (quiet_errCmd (by decide)) fun _ => quiet_ask (quiet_errCmd (by decide)) fun _ => quiet_checkNames ..

theorem quiet_cmdMode (v : CmdVars) : Quiet (cmdMode v) := by
  apply quiet_ask (quiet_errCmd (by decide))
  intro temptoken
  dsimp only
  split
  · exact quiet_ret _
  · split
    · exact quiet_ret _
    · exact quiet_errCmd (by decide)

theorem commands_quiet : ∀ c ∈ commands, ∀ (returns : Bool) (v : CmdVars), Quiet (c.2 returns v) := by
  simp only [commands, List.forall_mem_cons]
  have hexit : ∀ v, Quiet (cmdExit v) := fun _ => nofun
  exact ⟨fun _ v => quiet_ret v, fun _ _ => quiet_ret _, fun _ _ => quiet_ret _, fun _ => quiet_cmdConnect,
    fun _ => hexit, quiet_cmdGet, fun _ v => quiet_ret v, fun _ => quiet_cmdMode, quiet_cmdPut, fun _ => hexit,
    fun _ v => quiet_ret v, fun _ _ => quiet_ret _, List.forall_mem_nil _⟩

/-- A program that ends at the first `NULL`, without returning. -/
def Stops : Cmd → Prop
  | .done _ => True
  | .ask _ next => (∃ o, next none = .done o ∧ o.ended ≠ .returned) ∧ ∀ w, Stops (next (some w))

theorem stops_ask {caller : Caller} {next : Option Token → Cmd} (h0 : next none = errCmd str v)
    (h1 : ∀ w, Stops (next (some w))) : Stops (.ask caller next) :=
  ⟨⟨_, h0, nofun⟩, h1⟩

theorem stops_checkNames (dir : Dir) (returns : Bool) (remfname locfname : Token) (v : CmdVars) :
    Stops (checkNames dir returns remfname locfname v) := by
  unfold checkNames
  split
  · trivial
  · dsimp only
    split <;> trivial

theorem stops_cmdMode (v : CmdVars) : Stops (cmdMode v) := by
  apply stops_ask rfl
  intro temptoken
  dsimp only
  split
  · trivial
  · split <;> trivial

/-- All commands but `connect` treat a `NULL` as an error. -/
theorem commands_stop : ∀ c ∈ commands, c.1 ≠ bytes "connect" → ∀ (returns : Bool) (v : CmdVars),
    Stops (c.2 returns v) := by
  have hget : ∀ returns v, Stops (cmdGet returns v) := fun _ _ =>
    stops_ask rfl fun _ => stops_ask rfl fun _ => stops_checkNames ..
  have hput : ∀ returns v, Stops (cmdPut returns v) := fun _ _ =>
    stops_ask rfl fun _ => stops_ask rfl fun _ => stops_checkNames ..
  have hdone : ∀ (o : Outcome), Stops (.done o) := fun _ => trivial
  simp only [commands, List.forall_mem_cons]
  exact ⟨fun _ _ _ => hdone _, fun _ _ _ => hdone _, fun _ _ _ => hdone _, fun h => absurd rfl h, fun _ _ _ => hdone _,
    fun _ => hget, fun _ _ _ => hdone _, fun _ _ => stops_cmdMode, fun _ => hput, fun _ _ _ => hdone _,
    fun _ _ _ => hdone _, fun _ _ _ => hdone _, List.forall_mem_nil _⟩

/-- Such a program asks for no more than its words when it returns, and once more when it does not. -/
theorem Stops.fed_length {p : Cmd} (h : Stops p) {ws rest : List Token} {log : List (Caller × Option Token)}
    {o : Outcome} (hp : p.fed ws = (log, some (o, rest))) :
    log.length ≤ ws.length ∨ log.length ≤ ws.length + 1 ∧ o.ended ≠ .returned := by
  induction p generalizing ws log with
  | done o' => cases hp; exact .inl (Nat.zero_le _)
  | ask caller next ih =>
    rw [Asking.fed_ask] at hp
    obtain ⟨rfl, hr⟩ := Prod.mk.inj hp
    cases ws with
    | nil =>
      obtain ⟨⟨o', hnone, ho⟩, -⟩ := h
      rw [List.head?_nil, hnone] at hr ⊢
      cases hr
      exact .inr ⟨Nat.le_refl _, ho⟩
    | cons w ws =>
      have hlen := @ih (some w) (h.2 w) ws _ (Prod.ext rfl hr)
      simpa using hlen

theorem commands_connect : ∀ c ∈ commands, c.1 = bytes "connect" → ∀ (returns : Bool) (v : CmdVars),
    c.2 returns v = cmdConnect v := by
  simp only [commands, List.forall_mem_cons]
  refine ⟨?_, ?_, ?_, fun _ _ _ => trivial, ?_, ?_, ?_, ?_, ?_, ?_, ?_, ?_, List.forall_mem_nil _⟩ <;>
    exact fun h => absurd h (by decide)

theorem eq_of_strcmp {s t : List Byte} (h : strcmp s t = 0) : s = t := by
  induction s generalizing t with
  | nil =>
    cases t with
    | nil => rfl
    | cons b t => cases h
  | cons a s ih =>
    cases t with
    | nil => cases h
    | cons b t =>
      unfold strcmp at h
      split at h
      · rename_i hab
        rw [hab, ih h]
      · split at h <;> cases h

/-- What the binary search finds has that name. -/
theorem binaryLoop_found {word : Token} {rounds : Nat} {low high i : Int}
    (h : binaryLoop word rounds low high = i) (hi : 0 ≤ i) : (commands.map Prod.fst).getD i.toNat [] = word := by
  induction rounds generalizing low high with
  | zero => unfold binaryLoop at h; omega
  | succ rounds ih =>
    unfold binaryLoop at h
    dsimp only at h
    split at h
    · split at h
      · exact ih h
      · split at h
        · exact ih h
        · rw [← h]
          exact (eq_of_strcmp (by omega)).symm
    · omega

/-- What `docmd` does with a word: it refuses it, or calls the function of the command and comes back. -/
theorem docmd_cases (returns : Bool) (w : Token) (v : CmdVars) : docmd returns w v = errCmd w v ∨
    docmd returns w v = ret v ∨ ∃ p, docmd returns w v = p.bind comeBack ∧ Quiet p ∧
      (w ≠ bytes "connect" → Stops p) ∧ (w = bytes "connect" → p = cmdConnect v) := by
  unfold docmd
  dsimp only
  split
  · exact .inl rfl
  · rename_i hi
    split
    · exact .inr (.inl rfl)
    · rename_i name f hf
      have hname : name = w := by
        have hfound := @binaryLoop_found w _ _ _ _ rfl (Int.not_lt.1 hi)
        rw [List.getD_eq_getElem?_getD, List.getElem?_map] at hfound
        unfold binary at hf
        rw [hf] at hfound
        exact hfound
      have hmem := List.mem_of_getElem? hf
      subst hname
      exact .inr (.inr ⟨f returns v, rfl, commands_quiet _ hmem returns v, fun h => commands_stop _ hmem h returns v,
        fun h => commands_connect _ hmem h returns v⟩)

end Commands

/-! ## A line and its words -/

section Lines

variable {returns : Bool} {v : CmdVars} {ws rest : List Token} {log : List (Caller × Option Token)} {o : Outcome}

/-- The words that `mainloop` and the function of the command have got. -/
def consumed (log : List (Caller × Option Token)) : ℕ := log.countP fun c => c.1 ≠ .checkend ∧ c.2.isSome

/-- What a command's function has got is what is missing in the rest. -/
theorem consumed_add (hlog : ∀ c ∈ log, c.1 = .command) (h : log.filterMap Prod.snd ++ rest = ws) :
    consumed log + rest.length = ws.length := by
  have hcount : consumed log = (log.filterMap Prod.snd).length := by
    rw [List.length_filterMap_eq_countP]
    refine List.countP_congr fun c hc => ?_
    simp [hlog c hc]
  rw [← h, List.length_append, hcount]

/-- **When garbage is reported.** On the words of a line, `checkend` complains when it is reached and words are left. -/
theorem fed_garbage_iff (hws : ∀ w ∈ ws, w ≠ bytes "trailing garbage")
    (h : (processLine returns v).fed ws = (log, some (o, rest))) : o.ended = .errCmd (bytes "trailing garbage") ↔
      (∃ a, (Caller.checkend, a) ∈ log) ∧ consumed log < ws.length := by
  cases ws with
  | nil => cases h; simp [ret]
  | cons w ws =>
    rw [processLine, Asking.fed_ask] at h
    simp only [List.head?_cons, List.tail_cons] at h
    rcases docmd_cases returns w v with he | he | ⟨p, he, hquiet, -, -⟩
    · rw [he] at h
      cases h
      have hw := hws w (List.mem_cons_self ..)
      simp [errCmd, hw]
    · rw [he] at h
      cases h
      simp [ret]
    · obtain ⟨L, o₁, rest₁, hp⟩ := Asking.fed_ends p ws
      obtain ⟨hlog, hend⟩ := Asking.only_fed hquiet ws
      rw [hp] at hlog hend
      have hnot := hend o₁ rest₁ rfl
      have hno : ∀ a, (Caller.checkend, a) ∉ L := fun a ha => by cases hlog _ ha
      have hcons := consumed_add hlog (Asking.fed_rest p ws hp)
      rw [he, Asking.fed_bind p comeBack hp] at h
      obtain ⟨rfl, h⟩ := Prod.mk.inj h
      cases hret : o₁.ended with
      | returned =>
        have hback : comeBack o₁ = checkend o₁ := by unfold comeBack; rw [hret]
        rw [hback, checkend, Asking.fed_ask] at h ⊢
        cases rest₁ with
        | nil =>
          cases h
          simp [hret, consumed] at hcons ⊢
          omega
        | cons r rest₁ =>
          cases h
          simp [consumed] at hcons ⊢
          omega
      | errCmd str =>
        have hback : comeBack o₁ = .done o₁ := by unfold comeBack; rw [hret]
        rw [hback] at h ⊢
        cases h
        simp [hnot, hno]
      | exited =>
        have hback : comeBack o₁ = .done o₁ := by unfold comeBack; rw [hret]
        rw [hback] at h ⊢
        cases h
        simp [hnot, hno]

/-- **How often `gettoken` is called.** At most once more than there are words, unless the line is `connect` with a host
name only. -/
theorem fed_calls_le (hne : ∀ w, ws ≠ [bytes "connect", w]) (h : (processLine returns v).fed ws = (log, some (o, rest))) :
    log.length ≤ ws.length + 1 := by
  cases ws with
  | nil => cases h; exact Nat.le_refl _
  | cons w ws =>
    rw [processLine, Asking.fed_ask] at h
    simp only [List.head?_cons, List.tail_cons] at h
    obtain ⟨rfl, h⟩ := Prod.mk.inj h
    simp only [List.length_cons]
    rcases docmd_cases returns w v with he | he | ⟨p, he, -, hstop, hconnect⟩
    · rw [he]; simp [errCmd]
    · rw [he]; simp [ret]
    · obtain ⟨L, o₁, rest₁, hp⟩ := Asking.fed_ends p ws
      rw [he, Asking.fed_bind p comeBack hp, List.length_append]
      have hback : ((comeBack o₁).fed rest₁).1.length ≤ if o₁.ended = .returned then 1 else 0 := by
        cases hret : o₁.ended with
        | returned => cases rest₁ <;> simp [comeBack, hret, checkend]
        | errCmd str => simp [comeBack, hret]
        | exited => simp [comeBack, hret]
      by_cases hw : w = bytes "connect"
      · subst hw
        rw [hconnect rfl] at hp
        match ws, hp with
        | [], hp => cases hp; exact Nat.le_refl _
        | [a], _ => exact absurd rfl (hne a)
        | a :: b :: ws, hp =>
          have hL : L.length ≤ 2 := by
            rw [← congrArg (fun r => r.1.length) hp]
            simp only [cmdConnect, Asking.fed_ask, List.head?_cons, List.tail_cons]
            split <;> simp [errCmd, ret]
          simp only [List.length_cons]
          split at hback <;> omega
      · rcases (hstop hw).fed_length hp with hL | ⟨hL, hret⟩
        · split at hback <;> omega
        · rw [if_neg hret] at hback
          omega

/-- A line that ends with a newline has room for one call more than it has words. -/
theorem words_lt_callsWithin {s : List Byte} (h : s.getLast? = some newline) :
    (lineWords s).length + 1 ≤ callsWithin s := by
  induction hn : s.length using Nat.strongRecOn generalizing s with
  | ind n ih =>
    subst hn
    cases s with
    | nil => cases h
    | cons c s =>
      have hrec : s ≠ [] → (lineWords s).length + 1 ≤ callsWithin s := fun hs =>
        ih s.length (Nat.lt_succ_self _) (by rw [← h, List.getLast?_cons_of_ne_nil hs]) rfl
      have hs : c ≠ newline → s ≠ [] := fun hc hs => hc (by simpa [hs] using h)
      by_cases hb : isBlank c = true
      · have hc : c ≠ newline := fun hc => by rw [hc] at hb; cases hb
        have hwords : lineWords (c :: s) = lineWords s := words_cons_sep (by simp [isSep, hb]) s
        rw [hwords, show callsWithin (c :: s) = callsWithin s by simp [callsWithin, callsFrom, hb]]
        exact hrec (hs hc)
      · by_cases hn : c = newline
        · have hwords : lineWords (c :: s) = lineWords s := words_cons_sep (by simp [isSep, hn]) s
          rw [hwords, show callsWithin (c :: s) = callsWithin s + 1 by
            simp [callsWithin, callsFrom, hn, show isBlank newline = false from rfl]]
          by_cases hnil : s = []
          · subst hnil; decide
          · exact Nat.le_succ_of_le (hrec hnil)
        · have hmem : newline ∈ s := by
            rw [List.getLast?_cons_of_ne_nil (hs hn)] at h
            exact List.mem_of_getLast? h
          rcases exists_piece isSep s with hw | ⟨w, d, s', rfl, hw, hd⟩
          · cases hw newline hmem
          · have hwords : lineWords (c :: (w ++ d :: s')) = (c :: w) :: lineWords s' :=
              words_append (List.forall_mem_cons.2 ⟨isSep_eq_false hb hn, hw⟩) (List.cons_ne_nil c w) hd s'
            have hcalls : callsWithin (c :: (w ++ d :: s')) = callsWithin s' + 1 := by
              rw [← callsFrom_append hw hd]
              simp [callsWithin, callsFrom, hb, hn]
            rw [hwords, hcalls, List.length_cons]
            by_cases hnil : s' = []
            · subst hnil; decide
            · refine Nat.succ_le_succ (ih s'.length (by simp; omega) ?_ rfl)
              rw [← h, ← List.cons_append, List.getLast?_append_of_ne_nil _ (List.cons_ne_nil d s'),
                List.getLast?_cons_of_ne_nil hnil]

/-- A record of the main loop is that of a line it has read. -/
theorem mem_trace_mainloop {x : Client} {es : List Bool} {r : Record} (h : r ∈ mainloop.trace x es) :
    ∃ returns v fp line fp' line', getLine fp line = some (line', fp') ∧ r = record returns v line' := by
  obtain ⟨pre, e, post, -, hr⟩ := Machine.mem_trace.1 h
  simp only [mainloop] at hr
  split at hr
  · split at hr
    · cases hr
    · rename_i line' fp' hget
      exact ⟨e, _, _, _, fp', line', hget, List.mem_singleton.1 hr⟩
  · cases hr

/-- The array of the main loop keeps its length. -/
theorem mainloop_line_length {x : Client} (h : x.line.length = maxLine) (es : List Bool) :
    (mainloop.run x es).line.length = maxLine := by
  refine Machine.run_invariant (I := fun y : Client => y.line.length = maxLine) (fun y returns hy => ?_) h es
  simp only [mainloop]
  split
  · split
    · exact hy
    · rename_i line' fp' hget
      unfold Client.after
      split <;> exact getLine_length hget hy
  · exact hy

/-- **What the main loop does with a line.** The calls that begin before the null of the line is passed return its words
in order, and then `NULL`. If that are all calls, garbage is reported exactly when `checkend` is reached and words are
left. A line with a newline takes no other calls, unless it is `connect` with a host name only. -/
theorem mainloop_tokens {x : Client} {es : List Bool} {r : Record} (hr : r ∈ mainloop.trace x es)
    (hlim : ∀ w ∈ lineWords r.text, w.length < maxToken) :
    (∀ i < callsWithin r.text, ∀ c, r.calls[i]? = some c → c.2 = (lineWords r.text)[i]?) ∧
      (r.calls.length ≤ callsWithin r.text → ∀ o, r.outcome = some o →
        (o.ended = .errCmd (bytes "trailing garbage") ↔
          (∃ a, (.checkend, a) ∈ r.calls) ∧ consumed r.calls < (lineWords r.text).length)) ∧
      (r.text.getLast? = some newline → (∀ w, lineWords r.text ≠ [bytes "connect", w]) →
        r.calls.length ≤ callsWithin r.text ∧ r.outcome.isSome) := by
  obtain ⟨returns, v, fp, line, fp', line', hget, rfl⟩ := mem_trace_mainloop hr
  have hwithin := getLine_within hget hlim
  obtain ⟨log, o, rest, hfed⟩ := Asking.fed_ends (processLine returns v) (lineWords (cstr line'))
  refine ⟨?_, ?_, ?_⟩
  · intro i hi c hc
    have htake := Asking.run_take agrees (processLine returns v) hwithin
    have hfed' : ((processLine returns v).fed (lineWords (cstr line'))).1[i]? = some c := by
      rw [← hc, ← List.getElem?_take_of_lt hi]
      exact (congrArg (·[i]?) htake.symm).trans (List.getElem?_take_of_lt hi)
    exact Asking.fed_answers _ _ hfed'
  · intro hle o' ho'
    obtain ⟨⟨o₁, p⟩, hrun, rfl⟩ := Option.map_eq_some_iff.1 ho'
    obtain ⟨hlog, hend⟩ := Asking.run_eq_of_ended agrees (processLine returns v) hwithin hle hrun
    rw [show (processLine returns v).run (some ∘ Asking.feed) (lineWords (cstr line')) = _ from hfed] at hlog hend
    obtain rfl : o = o₁ := Option.some.inj hend
    have hwords : ∀ w ∈ lineWords (cstr line'), w ≠ bytes "trailing garbage" := by
      rintro w hw rfl
      cases sep_of_mem_words isSep hw 32 (by decide)
    have hiff := fed_garbage_iff hwords hfed
    rw [show log = _ from hlog.symm] at hiff
    exact hiff
  · intro hnl hne
    have hlen := fed_calls_le hne hfed
    have hroom := words_lt_callsWithin hnl
    have hle : log.length ≤ callsWithin (cstr line') := Nat.le_trans hlen hroom
    obtain ⟨hlog, hend⟩ := Asking.run_eq_of_length_le agrees (processLine returns v) hwithin
      (by rw [show (processLine returns v).run (some ∘ Asking.feed) _ = _ from hfed]; exact hle)
    rw [show (processLine returns v).run (some ∘ Asking.feed) (lineWords (cstr line')) = _ from hfed] at hlog hend
    constructor
    · show ((processLine returns v).run gettoken line').1.length ≤ _
      rw [hlog]; exact hle
    · show (((processLine returns v).run gettoken line').2.map Prod.fst).isSome = true
      rw [hend]; rfl

end Lines

/-! ## Some lines -/

/-- A client with some input. -/
def sampleCommands (fp : List Byte) : Client := ⟨fp, List.replicate maxLine 0, ⟨[], 0, .ascii, false⟩, .running⟩

/-- What it does with its first line. -/
def firstRecord (fp : List Byte) : Record := ((mainloop.trace (sampleCommands fp) [true]).head?).getD ⟨[], [], none⟩

theorem mainloop_tokens_sample :
    (firstRecord (bytes "mode binary\n")).calls.length ≤ callsWithin (bytes "mode binary\n") ∧
      (firstRecord (bytes "mode binary\n")).outcome.isSome := by
  have hr : firstRecord (bytes "mode binary\n") ∈ mainloop.trace (sampleCommands (bytes "mode binary\n")) [true] := by
    decide +kernel
  have htext : (firstRecord (bytes "mode binary\n")).text = bytes "mode binary\n" := by decide +kernel
  have hwords : lineWords (bytes "mode binary\n") = [bytes "mode", bytes "binary"] := by decide +kernel
  have h := (mainloop_tokens hr (by rw [htext, hwords]; decide)).2.2
  rw [htext, hwords] at h
  exact h (by decide +kernel) fun w hw => absurd (List.cons.inj hw).1 (by decide)

/-- A mode that does not exist is reported, and not the word behind it. -/
theorem mode_foo_bar :
    firstRecord (bytes "mode foo bar\n") ∈ mainloop.trace (sampleCommands (bytes "mode foo bar\n")) [true] ∧
      consumed (firstRecord (bytes "mode foo bar\n")).calls < (lineWords (bytes "mode foo bar\n")).length ∧
      (firstRecord (bytes "mode foo bar\n")).outcome.map Outcome.ended =
        some (.errCmd (bytes "mode must be 'ascii' or 'binary'")) := by
  decide +kernel

/-- Behind a longer line, `connect` with a host name gets to see the end of that one. -/
example : ((mainloop.trace (sampleCommands (bytes "get remotefile localfile\nconnect host\n")) [true, true]).map
    Record.calls).getLast? = some [(.mainloop, some (bytes "connect")), (.command, some (bytes "host")),
      (.command, none), (.checkend, some (bytes "localfile"))] := by
  decide +kernel

end CodingExercises.Tftp
