import CodingExercises.Tftp.CommandLine

/-!
# TFTP: host names in commands

`get` and `put` with a remote name of the form `host:file`. `striphost` gives the file to the transfer, but the host that it leaves
is the whole name (`checkNames_eq`).
-/

namespace CodingExercises.Tftp

open Lib

/-- A word of a line. -/
def IsWord (w : Token) : Prop := w ≠ [] ∧ (∀ c ∈ w, isSep c = false) ∧ (0 : Byte) ∉ w

instance (w : Token) : Decidable (IsWord w) := inferInstanceAs (Decidable (_ ∧ _ ∧ _))

/-- What `get` and `put` are to do with the name: `host:file` names the host, and any other name leaves it as it was. -/
structure Addressed (dir : Dir) (remfname locfname : Token) (v : CmdVars) (o : Outcome) : Prop where
  host : ∀ h f, (58 : Byte) ∉ h → remfname = h ++ 58 :: f → o.transfer = some (dir, f, locfname) ∧ o.vars.hostname = h
  plain : (58 : Byte) ∉ remfname → o.transfer = some (dir, remfname, locfname) ∧ o.vars.hostname = v.hostname

variable {dir : Dir} {returns : Bool} {remfname locfname w : Token} {v : CmdVars} {d : Byte} {p : List Byte}

/-! ## The names -/

theorem exists_host (h : (58 : Byte) ∈ remfname) : ∃ host file, (58 : Byte) ∉ host ∧ remfname = host ++ 58 :: file := by
  obtain ⟨host, file, heq, hhost⟩ := List.eq_append_cons_of_mem h
  exact ⟨host, file, hhost, heq⟩

theorem Addressed.transfer (o : Outcome) (h : Addressed dir remfname locfname v o) : o.transfer.isSome := by
  by_cases hmem : (58 : Byte) ∈ remfname
  · obtain ⟨host, file, hhost, heq⟩ := exists_host hmem
    rw [(h.host host file hhost heq).1]
    rfl
  · rw [(h.plain hmem).1]
    rfl

/-- The second half of `cmd_get` and `cmd_put` is right about names without a colon, when there is a host. -/
theorem checkNames_eq (dir : Dir) (returns : Bool) (remfname locfname : Token) (v : CmdVars) :
    ∃ o, checkNames dir returns remfname locfname v = .done o ∧ (Addressed dir remfname locfname v o ↔
      (58 : Byte) ∉ remfname ∧ (58 : Byte) ∉ locfname ∧ v.hostname ≠ []) := by
  unfold checkNames
  by_cases hloc : (58 : Byte) ∈ locfname
  · rw [if_pos hloc]
    refine ⟨_, rfl, fun h => ?_, fun h => absurd hloc h.2.1⟩
    cases h.transfer
  · rw [if_neg hloc]
    by_cases hrem : (58 : Byte) ∈ remfname
    · obtain ⟨host, file, hhost, heq⟩ := exists_host hrem
      have hne : remfname ≠ [] := List.ne_nil_of_mem hrem
      rw [striphost, if_pos hrem]
      dsimp only
      rw [if_neg hne]
      refine ⟨_, rfl, fun h => ?_, fun h => absurd hrem h.1⟩
      -- the host is the whole name
      have hname : remfname = host := (h.host host file hhost heq).2
      exact absurd (hname ▸ hrem) hhost
    · rw [striphost, if_neg hrem]
      dsimp only
      by_cases hhost : v.hostname = []
      · rw [if_pos hhost]
        refine ⟨_, rfl, fun h => ?_, fun h => absurd hhost h.2.2⟩
        cases h.transfer
      · rw [if_neg hhost]
        refine ⟨_, rfl, fun _ => ⟨hrem, hloc, hhost⟩, fun _ => ⟨fun h f _ heq => ?_, fun _ => ⟨rfl, rfl⟩⟩⟩
        exact absurd (by rw [heq]; simp) hrem

/-! ## The line -/

/-- `gettoken` at a word, or behind the blank before it. -/
theorem gettoken_word (hw : IsWord w) (hd : isSep d = true) (p : List Byte) :
    gettoken (w ++ d :: p) = if w.length < maxToken then some (some w, p) else none := by
  obtain ⟨hne, hsep, hnull⟩ := hw
  cases w with
  | nil => exact absurd rfl hne
  | cons c w =>
    obtain ⟨hc, hsep⟩ := List.forall_mem_cons.mp hsep
    have hblank : ¬isBlank c = true := fun h => by simp [isSep, h] at hc
    have hend : ¬(c = 0 ∨ c = newline) := by
      rintro (rfl | rfl)
      · exact hnull List.mem_cons_self
      · cases hc
    have hcollect := collect_append (p := p) hsep (fun h => hnull (List.mem_cons_of_mem _ h)) (.inl hd)
    rw [gettoken, List.cons_append, skipWhite, if_neg hblank]
    dsimp only
    rw [if_neg hend, hcollect]
    rfl

/-- The line of the command. -/
def transferLine (dir : Dir) (remfname locfname : Token) : List Byte :=
  match dir with
  | .get => bytes "get" ++ 32 :: (remfname ++ 32 :: (locfname ++ [newline]))
  | .put => bytes "put" ++ 32 :: (locfname ++ 32 :: (remfname ++ [newline]))

theorem run_ask_end {Q A R S : Type} {answer : S → Option (A × S)} {s s' : S} {a : A} (q : Q) (next : A → Asking Q A R)
    (h : answer s = some (a, s')) : ((Asking.ask q next).run answer s).2 = ((next a).run answer s').2 := by
  rw [Asking.run_ask_some q next h]

theorem run_ask_fails {Q A R S : Type} {answer : S → Option (A × S)} {s : S} (q : Q) (next : A → Asking Q A R)
    (h : answer s = none) : ((Asking.ask q next).run answer s).2 = none := by
  rw [Asking.run_ask_none q next h]

/-- At the end of the line there is nothing for `checkend`. -/
theorem comeBack_run (o : Outcome) (stale : List Byte) :
    ((comeBack o).run gettoken (0 :: stale)).2.map Prod.fst = some o := by
  obtain ⟨ended, v, transfer⟩ := o
  cases ended <;> rfl

/-- A command that takes two names, and ends. -/
theorem twoNames_run {next : Option Token → Cmd} {next' : Option Token → Cmd} {a b : Token} {o : Outcome}
    (ha : IsWord a) (hb : IsWord b) (hnext : next (some a) = .ask .command next') (hdone : next' (some b) = .done o)
    (stale : List Byte) :
    (((Asking.ask .command next).bind comeBack).run gettoken (a ++ 32 :: (b ++ newline :: 0 :: stale))).2.map Prod.fst =
      if a.length < maxToken ∧ b.length < maxToken then some o else none := by
  have hfirst := gettoken_word ha (d := 32) rfl (b ++ newline :: 0 :: stale)
  have hsecond := gettoken_word hb (d := newline) rfl (0 :: stale)
  rw [Asking.bind]
  by_cases hfits : a.length < maxToken
  · rw [if_pos hfits] at hfirst
    rw [run_ask_end _ _ hfirst, hnext, Asking.bind]
    by_cases hfits' : b.length < maxToken
    · rw [if_pos hfits'] at hsecond
      rw [run_ask_end _ _ hsecond, hdone, Asking.bind, comeBack_run, if_pos ⟨hfits, hfits'⟩]
    · rw [if_neg hfits'] at hsecond
      rw [run_ask_fails _ _ hsecond, if_neg fun h => hfits' h.2]
      rfl
  · rw [if_neg hfits] at hfirst
    rw [run_ask_fails _ _ hfirst, if_neg fun h => hfits h.1]
    rfl

/-- The command takes the names as they come, and ends with the check of them. -/
theorem record_outcome (hrem : IsWord remfname) (hloc : IsWord locfname) (stale : List Byte) {o : Outcome}
    (ho : checkNames dir returns remfname locfname v = .done o) :
    (record returns v (transferLine dir remfname locfname ++ 0 :: stale)).outcome =
      if remfname.length < maxToken ∧ locfname.length < maxToken then some o else none := by
  cases dir with
  | get =>
    have hline : transferLine .get remfname locfname ++ 0 :: stale =
        bytes "get" ++ 32 :: (remfname ++ 32 :: (locfname ++ newline :: 0 :: stale)) := by simp [transferLine]
    have hcmd := (gettoken_word (w := bytes "get") (d := 32) (by decide +kernel) rfl
      (remfname ++ 32 :: (locfname ++ newline :: 0 :: stale))).trans (if_pos (by decide))
    show ((processLine returns v).run gettoken _).2.map Prod.fst = _
    rw [hline, processLine, run_ask_end _ _ hcmd]
    exact twoNames_run hrem hloc rfl ho stale
  | put =>
    have hline : transferLine .put remfname locfname ++ 0 :: stale =
        bytes "put" ++ 32 :: (locfname ++ 32 :: (remfname ++ newline :: 0 :: stale)) := by simp [transferLine]
    have hcmd := (gettoken_word (w := bytes "put") (d := 32) (by decide +kernel) rfl
      (locfname ++ 32 :: (remfname ++ newline :: 0 :: stale))).trans (if_pos (by decide))
    show ((processLine returns v).run gettoken _).2.map Prod.fst = _
    rw [hline, processLine, run_ask_end _ _ hcmd]
    refine (twoNames_run hloc hrem rfl ho stale).trans ?_
    simp only [and_comm]

/-- The line calls `do_get` or `do_put` as it is to, and leaves the host that it is to. -/
def Transfers (dir : Dir) (returns : Bool) (remfname locfname : Token) (v : CmdVars) (stale : List Byte) : Prop :=
  ∃ o, (record returns v (transferLine dir remfname locfname ++ 0 :: stale)).outcome = some o ∧
    Addressed dir remfname locfname v o

/-- A command is right about a remote name exactly when it names no host, if there is one and the names can be taken at all. -/
theorem transfers_iff (dir : Dir) (returns : Bool) (hrem : IsWord remfname) (hloc : IsWord locfname) (v : CmdVars)
    (stale : List Byte) : Transfers dir returns remfname locfname v stale ↔
      (58 : Byte) ∉ remfname ∧ (58 : Byte) ∉ locfname ∧ v.hostname ≠ [] ∧
        remfname.length < maxToken ∧ locfname.length < maxToken := by
  obtain ⟨o, ho, hright⟩ := checkNames_eq dir returns remfname locfname v
  unfold Transfers
  rw [record_outcome hrem hloc stale ho]
  by_cases hfits : remfname.length < maxToken ∧ locfname.length < maxToken
  · rw [if_pos hfits]
    constructor
    · rintro ⟨o', heq, h⟩
      cases heq
      obtain ⟨hname, hlocal, hhost⟩ := hright.mp h
      exact ⟨hname, hlocal, hhost, hfits⟩
    · rintro ⟨hname, hlocal, hhost, -⟩
      exact ⟨o, rfl, hright.mpr ⟨hname, hlocal, hhost⟩⟩
  · rw [if_neg hfits]
    exact ⟨fun ⟨o', heq, _⟩ => (by cases heq), fun h => absurd h.2.2.2 hfits⟩

/-- `get f l`, once a host has been given. -/
theorem transfers_plain : Transfers .get true (bytes "f") (bytes "l") ⟨bytes "h", 0, .ascii, false⟩ [] :=
  (transfers_iff .get true (by decide +kernel) (by decide +kernel) ⟨bytes "h", 0, .ascii, false⟩ []).mpr (by decide)

/-- `get h:f l` leaves the host `h:f`. -/
theorem not_transfers_host : ¬Transfers .get true (bytes "h:f") (bytes "l") ⟨[], 0, .ascii, false⟩ [] := by
  rintro ⟨o, ho, h⟩
  have hout : (record true ⟨[], 0, .ascii, false⟩ (transferLine .get (bytes "h:f") (bytes "l") ++ 0 :: [])).outcome =
      some ⟨.returned, ⟨bytes "h:f", 0, .ascii, false⟩, some (.get, bytes "f", bytes "l")⟩ := by decide +kernel
  obtain rfl := Option.some.inj (hout.symm.trans ho)
  exact absurd (h.host (bytes "h") (bytes "f") (by decide) (by decide)).2 (by decide)

end CodingExercises.Tftp
