import Mathlib.Data.List.Nodup
import CodingExercises.Coreutils.ChownFiles

/-!
# chown -R: coverage

In a run without errors `change_file_owner` gets the entries of the walk (`walkedRoots`), and changes just those that
`changes` selects (`chownFiles_walk`). So each entry that passes the filter is changed once, with one exception: a symbolic
link to `/` that is not followed by fts is changed as any other file (`chownFiles_covers_iff`).
-/

namespace CodingExercises.Coreutils.ChownFiles

open Lib FtsWalk

section

variable {φ : Type} (env : System φ) (r : Request)

/-! ## What should be changed -/

/-- A directory that is not walked: the root, with `root_dev_ino`. -/
def guarded (pos : Pos) : Bool := r.chopt.recurse && r.chopt.rootDevInoCheck (env.stat pos)

mutual

/-- The entries of the walk over a tree, where what is in a directory is left out without recursion, and for the root, of
which only the first visit is passed on. -/
def treeWalk (dev : ℕ) (up : List (ℕ × ℕ)) (pos : Pos) : Tree → List Visit
  | .leaf _ i => [(pos, i)]
  | .locked name d i e =>
    if (d, i) ∈ up then [(pos, .dc)]
    else if guarded env r pos then [(pos, .d)]
    else if !r.chopt.recurse || r.xdev && (Tree.locked name d i e).elsewhere dev then [(pos, .d), (pos, .dp)]
    else [(pos, .d), (pos, .dnr)]
  | .dir name d i e ts =>
    if (d, i) ∈ up then [(pos, .dc)]
    else if guarded env r pos then [(pos, .d)]
    else if !r.chopt.recurse || r.xdev && (Tree.dir name d i e []).elsewhere dev then [(pos, .d), (pos, .dp)]
    else (pos, .d) :: treeWalkList dev ((d, i) :: up) pos 0 ts ++ [(pos, (Tree.dir name d i e []).post.1)]

/-- The entries of the walk over the entries of a directory, from the `i`th on. -/
def treeWalkList (dev : ℕ) (up : List (ℕ × ℕ)) (pos : Pos) (i : ℕ) : List Tree → List Visit
  | [] => []
  | t :: ts => treeWalk dev up (i :: pos) t ++ treeWalkList dev up pos (i + 1) ts

end

/-- The entries of the walk, from the `i`th operand on. -/
def walkedRoots : ℕ → List Tree → List Visit
  | _, [] => []
  | i, t :: ts => treeWalk env r t.ftsDev [] [i] t ++ walkedRoots (i + 1) ts

/-- The visit of a directory that acts: the second one when recursing, the first one otherwise. -/
def acts (info : Info) : Bool := if r.chopt.recurse then info ≠ .d else info ≠ .dp

/-- The file that is to be changed: what a symbolic link refers to, or the entry itself. -/
def target (pos : Pos) : Stat :=
  if r.chopt.affectSymlinkReferent && (env.stat pos).kind = .lnk then
    match env.fstatat pos with
    | .ok st => st
    | .error _ => env.stat pos
  else env.stat pos

/-- The visits at which a file is changed. -/
def changes (v : Visit) : Bool :=
  acts r v.2 && r.passes (target env r v.1) && !(isDirectory v.2 && r.chopt.rootDevInoCheck (target env r v.1))

/-- The calls that change an owner. -/
def changed (l : List Event) : List Visit :=
  l.filterMap fun
    | .lchownat visit _ _ _ _ => some visit
    | .chownat visit _ _ _ _ => some visit
    | .fchown visit _ _ => some visit
    | _ => none

/-- The entries that are passed to `change_file_owner`. -/
def passed (l : List Event) : List Visit :=
  l.filterMap fun
    | .passed visit => some visit
    | _ => none

/-- The visit of an entry without an error. -/
def Fine (v : Visit) : Prop :=
  v.2 ≠ .ns ∧ v.2 ≠ .err ∧ v.2 ≠ .dnr ∧ (v.2 = .dc → cycleWarningRequired r (v.1.length - 1) = false)

/-- No error occurs before a file is changed. -/
structure NoErrors (roots : List Tree) : Prop where
  visits : ∀ v ∈ walkedRoots env r 0 roots, Fine r v
  fstatat : ∀ pos, ∃ st, env.fstatat pos = .ok st
  openat : ∀ pos file wronly directory e, env.reply pos (.openat file wronly directory) = .error e → e = .eacces
  fstat : ∀ pos fd, env.reply pos (.fstat fd) = some (target env r pos).orig

end

/-! ## Events -/

section

variable {φ : Type} {env : System φ} {r : Request}

theorem changed_append (l l' : List Event) : changed (l ++ l') = changed l ++ changed l' := List.filterMap_append

theorem passed_append (l l' : List Event) : passed (l ++ l') = passed l ++ passed l' := List.filterMap_append

/-- Diagnostics. -/
def Silent (l : List Event) : Prop := changed l = [] ∧ passed l = []

theorem silent_nil : Silent [] := ⟨rfl, rfl⟩

theorem Silent.append {l l' : List Event} (h : Silent l) (h' : Silent l') : Silent (l ++ l') :=
  ⟨by rw [changed_append, h.1, h'.1, List.append_nil], by rw [passed_append, h.2, h'.2, List.append_nil]⟩

theorem silent_error (x : ChownOption) (diag : Diag) : Silent (x.error diag) := by
  unfold ChownOption.error
  split
  · exact silent_nil
  · exact ⟨rfl, rfl⟩

theorem silent_describe (ent : FTSENT) (st : Option Stat) (ok symlinkChanged doChown : Bool) :
    Silent (describe r ent st ok symlinkChanged doChown) := by
  unfold describe
  split
  · exact ⟨rfl, rfl⟩
  · exact silent_nil

/-- One change, and no entry of the walk. -/
def Changes (visit : Visit) (l : List Event) : Prop := changed l = [visit] ∧ passed l = []

theorem Changes.append {visit : Visit} {l l' : List Event} (h : Changes visit l) (h' : Silent l') :
    Changes visit (l ++ l') :=
  ⟨by rw [changed_append, h.1, h'.1, List.append_nil], by rw [passed_append, h.2, h'.2, List.append_nil]⟩

theorem Changes.of_silent {visit : Visit} {l l' : List Event} (h : Silent l) (h' : Changes visit l') :
    Changes visit (l ++ l') :=
  ⟨by rw [changed_append, h.1, h'.1, List.nil_append], by rw [passed_append, h.2, h'.2, List.nil_append]⟩

/-! ## One file -/

theorem changes_fchown (visit : Visit) (uid gid : ℕ) : Changes visit [.fchown visit uid gid] := ⟨rfl, rfl⟩

/-- An open file that is still the same is changed. -/
theorem restrictedChownOpen_changes {a : Chown.Args} {reply : (c : Chown.Call φ) → Chown.Reply φ c} {fd : φ}
    (hfstat : reply (.fstat fd) = some a.origSt) (hids : a.idsMatch a.origSt = true) (visit : Visit) :
    ((Chown.restrictedChownOpen a fd).answered reply).1 ∈ [Chown.RCHStatus.ok, .error] ∧
      Changes visit (fchowns visit ((Chown.restrictedChownOpen a fd).answered reply).2) := by
  have hsame : Chown.sameInode a.origSt a.origSt = true := by simp [Chown.sameInode]
  simp only [Chown.restrictedChownOpen, Prog.answered, hfstat, hsame, Bool.not_true, Bool.false_eq_true, if_false, hids,
    if_true]
  cases hfchown : reply (.fchown fd a.uid a.gid) with
  | false =>
    refine ⟨?_, ?_⟩
    · simp [Chown.closeAndReturn, Prog.answered]
    · exact changes_fchown visit a.uid a.gid
  | true =>
    refine ⟨?_, changes_fchown visit a.uid a.gid⟩
    cases hclose : reply (.close fd) <;> simp [Prog.answered, hclose]

/-- `restricted_chown` changes the file, or leaves it to `chownat`. -/
theorem restrictedChown_changes {a : Chown.Args} {reply : (c : Chown.Call φ) → Chown.Reply φ c}
    (hopenat : ∀ file wronly directory e, reply (.openat file wronly directory) = .error e → e = .eacces)
    (hfstat : ∀ fd, reply (.fstat fd) = some a.origSt) (hids : a.idsMatch a.origSt = true) (visit : Visit) :
    ((Chown.restrictedChown a).answered reply).1 ∈ [Chown.RCHStatus.ok, .error] ∧
        Changes visit (fchowns visit ((Chown.restrictedChown a).answered reply).2) ∨
      ((Chown.restrictedChown a).answered reply).1 = .doOrdinaryChown ∧
        Silent (fchowns visit ((Chown.restrictedChown a).answered reply).2) := by
  unfold Chown.restrictedChown
  split
  · exact .inr ⟨rfl, silent_nil⟩
  split
  · exact .inr ⟨rfl, silent_nil⟩
  simp only [Prog.answered]
  cases hopen : reply (.openat a.file false (decide (a.origSt.kind = .dir))) with
  | ok fd => exact .inl (restrictedChownOpen_changes (hfstat fd) hids visit)
  | error e =>
    obtain rfl := hopenat _ _ _ e hopen
    dsimp only
    split
    · simp only [Prog.answered]
      cases hopen' : reply (.openat a.file true (decide (a.origSt.kind = .dir))) with
      | ok fd => exact .inl (restrictedChownOpen_changes (hfstat fd) hids visit)
      | error e =>
        obtain rfl := hopenat _ _ _ e hopen'
        exact .inr ⟨rfl, silent_nil⟩
    · exact .inr ⟨rfl, silent_nil⟩

/-- What is sure of the answers about an entry, when no error occurs. -/
structure Answers (env : System φ) (r : Request) (pos : Pos) : Prop where
  fstatat : ∃ st, env.fstatat pos = .ok st
  openat : ∀ file wronly directory e, env.reply pos (.openat file wronly directory) = .error e → e = .eacces
  fstat : ∀ fd, env.reply pos (.fstat fd) = some (target env r pos).orig

theorem NoErrors.answers {roots : List Tree} (h : NoErrors env r roots) (pos : Pos) : Answers env r pos :=
  ⟨h.fstatat pos, h.openat pos, h.fstat pos⟩

section

variable {ent : FTSENT} (h : Answers env r ent.pos)

include h

/-- A file that passes the filter is changed once. -/
theorem changeOwner_changes (hpasses : r.passes (target env r ent.pos) = true) :
    ∃ ok symlinkChanged l, changeOwner env r ent (target env r ent.pos) = (ok, symlinkChanged, true, l) ∧
      Changes (ent.pos, ent.info) l := by
  unfold changeOwner
  split
  · dsimp only
    split
    · exact ⟨_, _, _, rfl, rfl, rfl⟩
    split
    · exact ⟨_, _, _, rfl, rfl, rfl⟩
    · exact ⟨_, _, _, rfl, rfl, rfl⟩
  · have hids : (r.args ent (target env r ent.pos)).idsMatch (r.args ent (target env r ent.pos)).origSt = true :=
      hpasses
    have hchown := restrictedChown_changes h.openat h.fstat hids (ent.pos, ent.info)
    cases hrun : (Chown.restrictedChown (r.args ent (target env r ent.pos))).answered (env.reply ent.pos) with
    | mk status calls =>
    rw [hrun] at hchown
    obtain ⟨hstatus, hl⟩ | ⟨hstatus, hl⟩ := hchown
    · simp only [List.mem_cons, List.not_mem_nil, or_false] at hstatus
      obtain rfl | rfl := hstatus
      · exact ⟨_, _, _, rfl, hl⟩
      · exact ⟨_, _, _, rfl, hl⟩
    · cases hstatus
      exact ⟨_, _, _, rfl, .of_silent hl ⟨rfl, rfl⟩⟩

/-- The file is the target, and the filter decides. -/
theorem selectFile_eq :
    selectFile env r ent true = (true, r.passes (target env r ent.pos), some (target env r ent.pos), []) := by
  obtain ⟨st, hst⟩ := h.fstatat
  unfold selectFile
  rw [if_neg (by simp)]
  split
  · next hall =>
    simp only [Bool.and_eq_true, decide_eq_true_eq, Bool.not_eq_true'] at hall
    obtain ⟨⟨⟨⟨huid, hgid⟩, -⟩, -⟩, haffect⟩ := hall
    simp [target, haffect, Request.passes, huid, hgid]
  split
  · next hlnk =>
    have htarget : target env r ent.pos = st := by rw [target, if_pos hlnk, hst]
    rw [hst, htarget]
  · next hlnk =>
    have htarget : target env r ent.pos = env.stat ent.pos := by rw [target, if_neg hlnk]
    rw [htarget]

/-- The file is changed as `changes` says, if the visit is one that acts. -/
theorem changeSelected_eq (hacts : acts r ent.info = true) (s : St) :
    ∃ ok l, changeSelected env r ent true s =
        (ok, if !r.chopt.recurse then (s.add l).ftsSkip else s.add l) ∧
      changed l = [(ent.pos, ent.info)].filter (changes env r) ∧ passed l = [] := by
  have hselect := selectFile_eq h
  unfold changeSelected
  rw [hselect]
  dsimp only
  rw [Option.any_some, Bool.true_and, List.nil_append]
  split
  · next hroot =>
    -- The root is only looked for when recursing.
    have hsome : r.chopt.rootDevIno.isSome := by
      simp only [Bool.and_eq_true, ChownOption.rootDevInoCheck, decide_eq_true_eq] at hroot
      rw [hroot.2]
      rfl
    refine ⟨false, [.error (.dangerous ent.path)], ?_, ?_, rfl⟩
    · rw [r.chopt.recurse_of_root hsome]
      rfl
    · have hnot : changes env r (ent.pos, ent.info) = false := by simp [changes, hroot]
      rw [List.filter_cons_of_neg (by simp [hnot])]
      rfl
  · next hroot =>
    have hfilter : [(ent.pos, ent.info)].filter (changes env r) =
        if r.passes (target env r ent.pos) then [(ent.pos, ent.info)] else [] := by
      simp only [changes, hacts, Bool.true_and, List.filter_cons, List.filter_nil]
      simp [hroot]
    rw [hfilter]
    cases hpasses : r.passes (target env r ent.pos) with
    | true =>
      obtain ⟨ok, symlinkChanged, l, hchange, hl⟩ := changeOwner_changes h hpasses
      simp only [changeAndReport, hchange]
      have hreport : Silent (if true && !ok then r.chopt.error (.changing (r.uid ≠ Chown.noId) ent.path) else []) := by
        split
        · exact silent_error _ _
        · exact silent_nil
      have hall := (hl.append hreport).append
        (silent_describe (r := r) ent (some (target env r ent.pos)) ok symlinkChanged true)
      exact ⟨ok, _, rfl, hall.1, hall.2⟩
    | false =>
      have hall : Silent ([] ++ describe r ent (some (target env r ent.pos)) true true false) :=
        silent_nil.append (silent_describe _ _ _ _ _)
      exact ⟨true, _, rfl, hall.1, hall.2⟩

end

/-! ## Parts of a run -/

section

variable (env r) in
/-- From `s` the loop gets to `s'` with the entries `vs`, and changes those that `changes` selects. -/
structure Goes (s : St) (vs : List Visit) (s' : St) : Prop where
  loop : ∀ n, chownLoop env r (vs.length + n) s = chownLoop env r n s'
  again : s'.again = false
  log : ∃ l, s'.log = s.log ++ l ∧ changed l = vs.filter (changes env r) ∧ passed l = vs

theorem Goes.nil {s : St} (h : s.again = false) : Goes env r s [] s :=
  ⟨fun n => by rw [List.length_nil, Nat.zero_add], h, [], by simp, rfl, rfl⟩

theorem Goes.trans {s s' s'' : St} {vs vs' : List Visit} (h : Goes env r s vs s') (h' : Goes env r s' vs' s'') :
    Goes env r s (vs ++ vs') s'' := by
  obtain ⟨l, hlog, hchanged, hpassed⟩ := h.log
  obtain ⟨l', hlog', hchanged', hpassed'⟩ := h'.log
  refine ⟨fun n => ?_, h'.again, l ++ l', ?_, ?_, ?_⟩
  · rw [List.length_append, Nat.add_assoc, h.loop, h'.loop]
  · rw [hlog', hlog, List.append_assoc]
  · rw [changed_append, hchanged, hchanged', List.filter_append]
  · rw [passed_append, hpassed, hpassed']

variable {s : St} {w : Walk} {ent : FTSENT} {up : List FTSENT}

/-- One turn of the loop. -/
theorem goes_turn (hagain : s.again = false) (hread : s.walk.read = w) (hframes : w.frames = ent :: up) {ok : Bool}
    {s' : St} {l : List Event}
    (hchange : changeFileOwner env r ent ({ s with walk := w }.add [.passed (ent.pos, ent.info)]) = (ok, s'))
    (hagain' : s'.again = false) (hlog : s'.log = s.log ++ [.passed (ent.pos, ent.info)] ++ l)
    (hchanged : changed l = [(ent.pos, ent.info)].filter (changes env r)) (hpassed : passed l = []) :
    Goes env r s [(ent.pos, ent.info)] { s' with ok := s'.ok && ok } := by
  have hfts : s.ftsRead env = { s with walk := w } := by
    rw [St.ftsRead, hagain, hread]
    rfl
  refine ⟨fun n => ?_, hagain', .passed (ent.pos, ent.info) :: l, ?_, ?_, ?_⟩
  · rw [List.length_singleton, Nat.add_comm]
    rw [chownLoop, hfts]
    simp only [hframes, hchange]
  · rw [hlog, List.append_assoc]
    rfl
  · rw [← hchanged]
    rfl
  · have hcons : passed (.passed (ent.pos, ent.info) :: l) = (ent.pos, ent.info) :: passed l := rfl
    rw [hcons, hpassed]

/-- A visit that acts. -/
theorem goes_acts (h : Answers env r ent.pos) (hagain : s.again = false) (hread : s.walk.read = w)
    (hframes : w.frames = ent :: up) (hacts : acts r ent.info = true) (hfine : Fine r (ent.pos, ent.info)) :
    ∃ s', Goes env r s [(ent.pos, ent.info)] s' ∧
      s'.walk = if !r.chopt.recurse then { w with frames := { ent with skip := true } :: up } else w := by
  obtain ⟨hns, herr, hdnr, hdc⟩ := hfine
  have hswitch : ∀ s : St, switchInfo env r ent s = (.goesOn true, s) := by
    intro s
    unfold switchInfo
    cases hinfo : ent.info <;> simp_all [acts, FTSENT.level]
  obtain ⟨ok, l, hchange, hchanged, hpassed⟩ :=
    changeSelected_eq h hacts ({ s with walk := w }.add [.passed (ent.pos, ent.info)])
  have hrun : ∀ s : St, changeFileOwner env r ent s = changeSelected env r ent true s := by
    intro s
    rw [changeFileOwner, hswitch]
  refine ⟨_, goes_turn hagain hread hframes ((hrun _).trans hchange) ?_ ?_ hchanged hpassed, ?_⟩
  · split
    · rw [St.ftsSkip]
      split
      · exact hagain
      · exact hagain
    · exact hagain
  · split
    · rw [St.ftsSkip]
      split
      · rfl
      · rfl
    · rfl
  · dsimp only
    split
    · simp [St.ftsSkip, St.add, hframes]
    · rfl

/-- A visit that does not act. -/
theorem goes_waits (hagain : s.again = false) (hread : s.walk.read = w) (hframes : w.frames = ent :: up)
    (hwaits : acts r ent.info = false) (hguard : guarded env r ent.pos = false) :
    ∃ s', Goes env r s [(ent.pos, ent.info)] s' ∧ s'.walk = w := by
  have hrun : ∀ s : St, changeFileOwner env r ent s = (true, s) := by
    intro s
    unfold changeFileOwner switchInfo
    cases hrecurse : r.chopt.recurse <;> cases hinfo : ent.info <;> simp_all [acts, guarded]
  have hchanges : changes env r (ent.pos, ent.info) = false := by simp [changes, hwaits]
  refine ⟨_, goes_turn (l := []) hagain hread hframes (hrun _) hagain ?_ ?_ rfl, rfl⟩
  · rw [List.append_nil]
    rfl
  · rw [List.filter_cons_of_neg (by simp [hchanges])]
    rfl

/-- The root, which is skipped. -/
theorem goes_guarded (hagain : s.again = false) (hread : s.walk.read = w) (hframes : w.frames = ent :: up)
    (hinfo : ent.info = .d) (hguard : guarded env r ent.pos = true) :
    ∃ s', Goes env r s [(ent.pos, ent.info)] s' ∧
      s'.walk = { w with frames := { ent with info := .dp, skip := false } :: up } := by
  simp only [guarded, Bool.and_eq_true] at hguard
  obtain ⟨hrecurse, hroot⟩ := hguard
  have hchanges : changes env r (ent.pos, ent.info) = false := by simp [changes, acts, hrecurse, hinfo]
  have hskip : ({ w with frames := { ent with skip := true } :: up } : Walk).read =
      { w with frames := { ent with info := .dp, skip := false } :: up } := by
    rw [Walk.read_skip (p := { ent with skip := true }) rfl hinfo (by simp)]
  simp only [hinfo] at hskip
  have hrun : changeFileOwner env r ent ({ s with walk := w }.add [.passed (ent.pos, ent.info)]) =
      (false, { s with
        walk := { w with frames := { ent with info := .dp, skip := false } :: up }
        log := s.log ++ [.passed (ent.pos, ent.info)] ++ [.error (.dangerous ent.path)] }) := by
    simp only [changeFileOwner, switchInfo, hinfo, hrecurse, hroot, if_true, St.ftsSkip, St.add, hframes, St.ftsRead,
      hagain, Bool.false_eq_true, if_false, hskip]
  refine ⟨_, goes_turn hagain hread hframes hrun hagain rfl ?_ rfl, rfl⟩
  rw [List.filter_cons_of_neg (by simp [hchanges])]
  rfl

/-! ## A tree -/

variable {i : ℕ}

/-- An entry that is done with: the next one follows. -/
theorem goes_done {p : FTSENT} (h : Answers env r p.pos) (hagain : s.again = false) (hread : s.walk.read = w)
    (hframes : w.frames = p :: up) (hinfo : p.info ≠ .d) (hfine : Fine r (p.pos, p.info))
    (hpos : p.pos = i :: posOf up) :
    ∃ s', Goes env r s [(p.pos, p.info)] s' ∧ s'.walk.read = w.next (i + 1) p.link up := by
  have hnext : p.nextIndex = i + 1 := by rw [FTSENT.nextIndex, hpos]; rfl
  cases hacts : acts r p.info with
  | true =>
    obtain ⟨s', hgoes, hwalk⟩ := goes_acts h hagain hread hframes hacts hfine
    refine ⟨s', hgoes, ?_⟩
    rw [hwalk]
    split
    · rw [Walk.read_next (p := { p with skip := true }) rfl hinfo, ← hnext]
      rfl
    · rw [Walk.read_next hframes hinfo, hnext]
  | false =>
    have hguard : guarded env r p.pos = false := by
      cases hrecurse : r.chopt.recurse <;> simp_all [acts, guarded]
    obtain ⟨s', hgoes, hwalk⟩ := goes_waits hagain hread hframes hacts hguard
    refine ⟨s', hgoes, ?_⟩
    rw [hwalk, Walk.read_next hframes hinfo, hnext]

/-- A directory that is returned twice in a row. -/
theorem goes_twice {s' : St} {v : Visit} {p : FTSENT} (h : Answers env r p.pos) (hgoes : Goes env r s [v] s')
    (hread : s'.walk.read = { w with frames := p :: up }) (hinfo : p.info ≠ .d) (hfine : Fine r (p.pos, p.info))
    (hpos : p.pos = i :: posOf up) :
    ∃ s'', Goes env r s [v, (p.pos, p.info)] s'' ∧ s''.walk.read = w.next (i + 1) p.link up := by
  obtain ⟨s'', hgoes', hread'⟩ := goes_done h hgoes.again hread rfl hinfo hfine hpos
  exact ⟨s'', hgoes.trans hgoes', hread'⟩

variable {t : Tree} {link : List Tree}

/-- The root: what is in it is skipped, and the second visit is dropped. -/
theorem goes_root (hagain : s.again = false) (hread : s.walk.read = w.enter up i t link)
    (hinfo : t.info (idsOf up) = .d) (hguard : guarded env r (i :: posOf up) = true) :
    ∃ s', Goes env r s [(i :: posOf up, .d)] s' ∧ s'.walk.read = (w.enter up i t link).next (i + 1) link up := by
  have hd : (arrive up i t link).info = .d := hinfo
  obtain ⟨s', hgoes, hwalk⟩ := goes_guarded hagain hread rfl hd hguard
  rw [hd] at hgoes
  refine ⟨s', hgoes, ?_⟩
  rw [hwalk, Walk.read_next (p := { arrive up i t link with info := .dp, skip := false }) rfl (by simp)]
  rfl

/-- A directory whose entries are not walked. -/
theorem goes_skip (h : Answers env r (i :: posOf up)) (hagain : s.again = false)
    (hread : s.walk.read = w.enter up i t link) (hinfo : t.info (idsOf up) = .d)
    (hguard : guarded env r (i :: posOf up) = false)
    (hskip : (!r.chopt.recurse || w.xdev && t.elsewhere (w.enter up i t link).dev) = true) :
    ∃ s', Goes env r s [(i :: posOf up, .d), (i :: posOf up, .dp)] s' ∧
      s'.walk.read = (w.enter up i t link).next (i + 1) link up := by
  have hd : (arrive up i t link).info = .d := hinfo
  have hfine : Fine r ((arrive up i t link).pos, (arrive up i t link).info) := by simp [Fine, hd]
  have htwice : ∃ s', Goes env r s [((arrive up i t link).pos, (arrive up i t link).info)] s' ∧ s'.walk.read =
      { w.enter up i t link with frames := { arrive up i t link with info := .dp, skip := false } :: up } := by
    cases hrecurse : r.chopt.recurse with
    | true =>
      rw [hrecurse, Bool.not_true, Bool.false_or] at hskip
      obtain ⟨s', hgoes, hwalk⟩ := goes_waits hagain hread rfl (by simp [acts, hrecurse, hd]) hguard
      refine ⟨s', hgoes, ?_⟩
      rw [hwalk]
      exact Walk.read_skip rfl hd hskip
    | false =>
      obtain ⟨s', hgoes, hwalk⟩ := goes_acts h hagain hread rfl (by simp [acts, hrecurse, hd]) hfine
      rw [hrecurse] at hwalk
      refine ⟨s', hgoes, ?_⟩
      rw [hwalk]
      exact Walk.read_skip (p := { arrive up i t link with skip := true }) rfl hd (by simp)
  obtain ⟨s', hgoes, hread'⟩ := htwice
  rw [hd] at hgoes
  exact goes_twice (p := { arrive up i t link with info := .dp, skip := false }) h hgoes hread' (by simp)
    (by simp [Fine]) rfl

/-- A directory without entries. -/
theorem goes_empty (h : Answers env r (i :: posOf up)) (hagain : s.again = false)
    (hread : s.walk.read = w.enter up i t link) (hinfo : t.info (idsOf up) = .d)
    (hguard : guarded env r (i :: posOf up) = false)
    (hskip : (!r.chopt.recurse || w.xdev && t.elsewhere (w.enter up i t link).dev) = false)
    (hentries : t.entries = []) (hfine : Fine r (i :: posOf up, t.post.1)) :
    ∃ s', Goes env r s [(i :: posOf up, .d), (i :: posOf up, t.post.1)] s' ∧
      s'.walk.read = (w.enter up i t link).next (i + 1) link up := by
  have hd : (arrive up i t link).info = .d := hinfo
  simp only [Bool.or_eq_false_iff, Bool.not_eq_false'] at hskip
  obtain ⟨hrecurse, helsewhere⟩ := hskip
  obtain ⟨s', hgoes, hwalk⟩ := goes_waits hagain hread rfl (by simp [acts, hrecurse, hd]) hguard
  have hread' : s'.walk.read = { w.enter up i t link with frames := (arrive up i t link).leave :: up } := by
    rw [hwalk]
    exact Walk.read_empty rfl hd (fun helse => Bool.false_ne_true (helsewhere.symm.trans helse)) hentries
  rw [hd] at hgoes
  exact goes_twice (p := (arrive up i t link).leave) h hgoes hread' t.post_ne_d hfine rfl

/-- A directory with entries, of which the first is returned next. -/
theorem goes_first (hagain : s.again = false) (hread : s.walk.read = w.enter up i t link)
    (hinfo : t.info (idsOf up) = .d) (hguard : guarded env r (i :: posOf up) = false)
    (hskip : (!r.chopt.recurse || w.xdev && t.elsewhere (w.enter up i t link).dev) = false) {t' : Tree} {ts : List Tree}
    (hentries : t.entries = t' :: ts) :
    ∃ s', Goes env r s [(i :: posOf up, .d)] s' ∧
      s'.walk.read = (w.enter up i t link).next 0 (t' :: ts) (arrive up i t link :: up) := by
  have hd : (arrive up i t link).info = .d := hinfo
  simp only [Bool.or_eq_false_iff, Bool.not_eq_false'] at hskip
  obtain ⟨hrecurse, helsewhere⟩ := hskip
  obtain ⟨s', hgoes, hwalk⟩ := goes_waits hagain hread rfl (by simp [acts, hrecurse, hd]) hguard
  rw [hd] at hgoes
  refine ⟨s', hgoes, ?_⟩
  rw [hwalk]
  exact Walk.read_first rfl hd (fun helse => Bool.false_ne_true (helsewhere.symm.trans helse)) hentries

/-- A directory that is one of those it is in. -/
theorem goes_cycle (h : Answers env r (i :: posOf up)) (hagain : s.again = false)
    (hread : s.walk.read = w.enter up i t link) (hinfo : t.info (idsOf up) = .dc)
    (hfine : Fine r (i :: posOf up, .dc)) :
    ∃ s', Goes env r s [(i :: posOf up, .dc)] s' ∧ s'.walk.read = (w.enter up i t link).next (i + 1) link up := by
  have hdc : (arrive up i t link).info = .dc := hinfo
  rw [← hdc] at hfine ⊢
  exact goes_done (p := arrive up i t link) h hagain hread rfl (by simp [hdc]) hfine rfl

end

theorem treeWalk_dir {t : Tree} {id : ℕ × ℕ} (ht : t.devIno = some id) (dev : ℕ) (up : List (ℕ × ℕ)) (pos : Pos) :
    treeWalk env r dev up pos t =
      if t.info up = .dc then [(pos, .dc)]
      else if guarded env r pos then [(pos, .d)]
      else if !r.chopt.recurse || r.xdev && t.elsewhere dev then [(pos, .d), (pos, .dp)]
      else (pos, .d) :: treeWalkList env r dev (id :: up) pos 0 t.entries ++ [(pos, t.post.1)] := by
  cases t with
  | leaf => cases ht
  | locked name d i e =>
    cases ht
    have hinfo : (Tree.locked name d i e).info up = .dc ↔ (d, i) ∈ up := by simp [Tree.info]
    simp only [treeWalk, hinfo, Tree.entries, treeWalkList, Tree.post, List.cons_append, List.nil_append]
  | dir name d i e ts =>
    cases ht
    have hinfo : (Tree.dir name d i e ts).info up = .dc ↔ (d, i) ∈ up := by simp [Tree.info]
    simp only [treeWalk, hinfo, Tree.entries]
    rfl

/-- The walk over a directory, with what it is over the entries. -/
theorem goes_dir (hall : ∀ pos, Answers env r pos) {t : Tree} {id : ℕ × ℕ} (ht : t.devIno = some id) {s : St} {w : Walk}
    {up : List FTSENT} {i : ℕ} {link : List Tree} (hagain : s.again = false) (hxdev : w.xdev = r.xdev)
    (hread : s.walk.read = w.enter up i t link)
    (hfine : ∀ v ∈ treeWalk env r (w.enter up i t link).dev (idsOf up) (i :: posOf up) t, Fine r v)
    (hlist : ∀ s₁ : St, s₁.again = false →
      s₁.walk.read = (w.enter up i t link).next 0 t.entries (arrive up i t link :: up) →
      (∀ v ∈ treeWalkList env r (w.enter up i t link).dev (id :: idsOf up) (i :: posOf up) 0 t.entries, Fine r v) →
      ∃ s₂, Goes env r s₁ (treeWalkList env r (w.enter up i t link).dev (id :: idsOf up) (i :: posOf up) 0 t.entries)
          s₂ ∧
        s₂.walk.read = (w.enter up i t link).next (0 + t.entries.length) [] (arrive up i t link :: up)) :
    ∃ s', Goes env r s (treeWalk env r (w.enter up i t link).dev (idsOf up) (i :: posOf up) t) s' ∧
      s'.walk.read = (w.enter up i t link).next (i + 1) link up := by
  have hisDir : t.info (idsOf up) = .dc ∨ t.info (idsOf up) = .d := by
    cases t with
    | leaf => cases ht
    | locked => rw [Tree.info]; split <;> simp
    | dir => rw [Tree.info]; split <;> simp
  rw [treeWalk_dir ht, ← hxdev] at hfine ⊢
  split
  · next hinfo =>
    rw [if_pos hinfo] at hfine
    exact goes_cycle (hall _) hagain hread hinfo (hfine _ List.mem_cons_self)
  next hinfo =>
  rw [if_neg hinfo] at hfine
  have hinfo := hisDir.resolve_left hinfo
  split
  · next hguard => exact goes_root hagain hread hinfo hguard
  next hguard =>
  rw [if_neg hguard] at hfine
  have hguard := Bool.eq_false_iff.mpr hguard
  split
  · next hskip => exact goes_skip (hall _) hagain hread hinfo hguard hskip
  next hskip =>
  rw [if_neg hskip] at hfine
  have hskip := Bool.eq_false_iff.mpr hskip
  have hpost : Fine r (i :: posOf up, t.post.1) := hfine _ (by simp)
  cases hentries : t.entries with
  | nil =>
    rw [treeWalkList]
    exact goes_empty (hall _) hagain hread hinfo hguard hskip hentries hpost
  | cons t' ts =>
    obtain ⟨s₁, hgoes₁, hread₁⟩ := goes_first hagain hread hinfo hguard hskip hentries
    rw [← hentries] at hread₁ ⊢
    obtain ⟨s₂, hgoes₂, hread₂⟩ := hlist s₁ hgoes₁.again hread₁
      fun v hv => hfine v (List.mem_cons_of_mem _ (List.mem_append_left _ hv))
    obtain ⟨s₃, hgoes₃, hread₃⟩ :=
      goes_done (p := (arrive up i t link).leave) (hall _) hgoes₂.again hread₂ rfl t.post_ne_d hpost rfl
    exact ⟨s₃, (hgoes₁.trans hgoes₂).trans hgoes₃, hread₃⟩

mutual

/-- The walk over a tree. -/
theorem goes_tree (hall : ∀ pos, Answers env r pos) : ∀ (t : Tree) (s : St) (w : Walk) (up : List FTSENT) (i : ℕ)
    (link : List Tree), s.again = false → w.xdev = r.xdev → s.walk.read = w.enter up i t link →
    (∀ v ∈ treeWalk env r (w.enter up i t link).dev (idsOf up) (i :: posOf up) t, Fine r v) →
    ∃ s', Goes env r s (treeWalk env r (w.enter up i t link).dev (idsOf up) (i :: posOf up) t) s' ∧
      s'.walk.read = (w.enter up i t link).next (i + 1) link up
  | .leaf name info, s, w, up, i, link, hagain, hxdev, hread, hfine => by
    rw [treeWalk] at hfine ⊢
    exact goes_done (p := arrive up i (.leaf name info) link) (hall _) hagain hread rfl (Info.ne_d_of_isLeaf info.2)
      (hfine _ List.mem_cons_self) rfl
  | .locked name d ino e, s, w, up, i, link, hagain, hxdev, hread, hfine =>
    goes_dir hall rfl hagain hxdev hread hfine fun s₁ hagain₁ hread₁ _ => ⟨s₁, .nil hagain₁, hread₁⟩
  | .dir name d ino e ts, s, w, up, i, link, hagain, hxdev, hread, hfine =>
    goes_dir hall rfl hagain hxdev hread hfine fun s₁ hagain₁ hread₁ hfine₁ =>
      goes_list hall ts s₁ (w.enter up i (.dir name d ino e ts) link) (arrive up i (.dir name d ino e ts) link) up 0 hagain₁
        hxdev hread₁ hfine₁

/-- The walk over the entries of a directory. -/
theorem goes_list (hall : ∀ pos, Answers env r pos) : ∀ (ts : List Tree) (s : St) (w : Walk) (p : FTSENT)
    (up : List FTSENT) (i : ℕ), s.again = false → w.xdev = r.xdev → s.walk.read = w.next i ts (p :: up) →
    (∀ v ∈ treeWalkList env r w.dev (idsOf (p :: up)) p.pos i ts, Fine r v) →
    ∃ s', Goes env r s (treeWalkList env r w.dev (idsOf (p :: up)) p.pos i ts) s' ∧
      s'.walk.read = w.next (i + ts.length) [] (p :: up)
  | [], s, w, p, up, i, hagain, hxdev, hread, hfine => ⟨s, .nil hagain, hread⟩
  | t :: ts, s, w, p, up, i, hagain, hxdev, hread, hfine => by
    rw [treeWalkList] at hfine ⊢
    obtain ⟨s₁, hgoes₁, hread₁⟩ := goes_tree hall t s w (p :: up) i ts hagain hxdev hread
      fun v hv => hfine v (List.mem_append_left _ hv)
    obtain ⟨s₂, hgoes₂, hread₂⟩ := goes_list hall ts s₁ (w.enter (p :: up) i t ts) p up (i + 1) hgoes₁.again hxdev
      hread₁ fun v hv => hfine v (List.mem_append_right _ hv)
    refine ⟨s₂, hgoes₁.trans hgoes₂, ?_⟩
    rw [List.length_cons, show i + (ts.length + 1) = i + 1 + ts.length by omega]
    exact hread₂

end

theorem treeWalk_ftsDev (w : Walk) (i : ℕ) (t : Tree) (ts : List Tree) :
    treeWalk env r (w.enter [] i t ts).dev [] [i] t = treeWalk env r t.ftsDev [] [i] t := by
  cases t with
  | leaf => rw [treeWalk, treeWalk]
  | locked => rfl
  | dir => rfl

/-- The walk over the operands, from the `i`th on. -/
theorem goes_roots (hall : ∀ pos, Answers env r pos) : ∀ (roots : List Tree) (s : St) (w : Walk) (i : ℕ),
    s.again = false → w.xdev = r.xdev → s.walk.read = w.next i roots [] → (∀ v ∈ walkedRoots env r i roots, Fine r v) →
    ∃ s', Goes env r s (walkedRoots env r i roots) s' ∧ s'.walk.read.frames = []
  | [], s, w, i, hagain, hxdev, hread, hfine => ⟨s, .nil hagain, by rw [hread]; rfl⟩
  | t :: ts, s, w, i, hagain, hxdev, hread, hfine => by
    rw [walkedRoots] at hfine ⊢
    rw [← treeWalk_ftsDev w i t ts] at hfine ⊢
    obtain ⟨s₁, hgoes₁, hread₁⟩ := goes_tree hall t s w [] i ts hagain hxdev hread
      fun v hv => hfine v (List.mem_append_left _ hv)
    obtain ⟨s₂, hgoes₂, hread₂⟩ := goes_roots hall ts s₁ (w.enter [] i t ts) (i + 1) hgoes₁.again hxdev hread₁
      fun v hv => hfine v (List.mem_append_right _ hv)
    exact ⟨s₂, hgoes₁.trans hgoes₂, hread₂⟩

/-- **A run without errors**: `change_file_owner` gets the entries of the walk, and changes those that `changes` selects. -/
theorem chownFiles_walk {roots : List Tree} (h : NoErrors env r roots) {n : ℕ}
    (hn : (walkedRoots env r 0 roots).length < n) :
    ∃ ok l, chownFiles env r n roots = some (ok, l) ∧ passed l = walkedRoots env r 0 roots ∧
      changed l = (walkedRoots env r 0 roots).filter (changes env r) := by
  obtain ⟨s, hgoes, hread⟩ := goes_roots h.answers roots ⟨.start r.xdev roots, false, true, []⟩ (.start r.xdev roots) 0
    rfl rfl rfl h.visits
  obtain ⟨l, hlog, hchanged, hpassed⟩ := hgoes.log
  obtain ⟨k, rfl⟩ : ∃ k, n = (walkedRoots env r 0 roots).length + (k + 1) :=
    ⟨n - ((walkedRoots env r 0 roots).length + 1), by omega⟩
  have hfts : s.ftsRead env = { s with walk := s.walk.read } := by
    rw [St.ftsRead, hgoes.again]
    rfl
  have hend : ∃ s' l', chownLoop env r (k + 1) s = some s' ∧ s'.log = l ++ l' ∧ Silent l' := by
    rw [chownLoop, hfts]
    simp only [hread]
    rw [List.nil_append] at hlog
    split
    · exact ⟨_, [], rfl, by simp [hlog], silent_nil⟩
    · next e _ => exact ⟨_, _, rfl, by rw [St.add, hlog], silent_error r.chopt (.ftsReadFailed e)⟩
  obtain ⟨s', l', hloop, hlog', hsilent⟩ := hend
  rw [chownFiles, hgoes.loop, hloop]
  dsimp only
  rw [hlog']
  cases env.ftsClose with
  | none =>
    refine ⟨_, _, rfl, ?_, ?_⟩
    · rw [passed_append, hsilent.2, hpassed, List.append_nil]
    · rw [changed_append, hsilent.1, hchanged, List.append_nil]
  | some e =>
    have hsilent' : Silent (l' ++ [.error (.ftsCloseFailed e)]) := hsilent.append ⟨rfl, rfl⟩
    refine ⟨_, _, rfl, ?_, ?_⟩
    · rw [List.append_assoc, passed_append, hsilent'.2, hpassed, List.append_nil]
    · rw [List.append_assoc, changed_append, hsilent'.1, hchanged, List.append_nil]

/-! ## Places -/

/-- The places of the visits that act. -/
def actsAt (r : Request) (l : List Visit) : List Pos := (l.filter fun v => acts r v.2).map Prod.fst

theorem actsAt_append (l l' : List Visit) : actsAt r (l ++ l') = actsAt r l ++ actsAt r l' := by
  rw [actsAt, List.filter_append, List.map_append]
  rfl

theorem mem_actsAt {l : List Visit} {pos : Pos} (h : pos ∈ actsAt r l) : ∃ info, (pos, info) ∈ l := by
  obtain ⟨v, hv, rfl⟩ := List.mem_map.mp h
  exact ⟨v.2, (List.mem_filter.mp hv).1⟩

/-- What is in different entries of a directory is different. -/
theorem ne_of_suffix {pos p p' : Pos} {i k : ℕ} (h : i :: pos <:+ p) (h' : k :: pos <:+ p') (hne : i ≠ k) : p ≠ p' := by
  rintro rfl
  have heq : i :: pos = k :: pos := (List.suffix_of_suffix_length_le h h' (by simp)).eq_of_length (by simp)
  exact hne (List.cons.inj heq).1

/-- The visits of a tree are below its place, and those that act are at different places. -/
structure Apart (r : Request) (pos : Pos) (l : List Visit) : Prop where
  suffix : ∀ v ∈ l, pos <:+ v.1
  nodup : (actsAt r l).Nodup

/-- The visits of the entries of a directory, from the `i`th on. -/
structure ApartList (r : Request) (pos : Pos) (i : ℕ) (l : List Visit) : Prop where
  suffix : ∀ v ∈ l, ∃ k, i ≤ k ∧ k :: pos <:+ v.1
  nodup : (actsAt r l).Nodup

theorem ApartList.cons {pos : Pos} {i : ℕ} {l l' : List Visit} (h : Apart r (i :: pos) l)
    (h' : ApartList r pos (i + 1) l') : ApartList r pos i (l ++ l') := by
  constructor
  · intro v hv
    rcases List.mem_append.mp hv with hv | hv
    · exact ⟨i, le_refl i, h.suffix v hv⟩
    · obtain ⟨k, hk, hsuffix⟩ := h'.suffix v hv
      exact ⟨k, by omega, hsuffix⟩
  · rw [actsAt_append]
    refine List.nodup_append.mpr ⟨h.nodup, h'.nodup, ?_⟩
    intro p hp p' hp'
    obtain ⟨info, hmem⟩ := mem_actsAt hp
    obtain ⟨info', hmem'⟩ := mem_actsAt hp'
    obtain ⟨k, hk, hsuffix⟩ := h'.suffix _ hmem'
    exact ne_of_suffix (h.suffix _ hmem) hsuffix (by omega)

theorem apart_single (v : Visit) : Apart r v.1 [v] := by
  refine ⟨fun v' hv => (List.mem_singleton.mp hv) ▸ List.suffix_refl _, ?_⟩
  rw [actsAt, List.filter_cons]
  split <;> simp

/-- A directory, with what is in it. -/
theorem apart_dir {t : Tree} {id : ℕ × ℕ} (ht : t.devIno = some id) {dev : ℕ} {up : List (ℕ × ℕ)} {pos : Pos}
    (hlist : ApartList r pos 0 (treeWalkList env r dev (id :: up) pos 0 t.entries)) :
    Apart r pos (treeWalk env r dev up pos t) := by
  rw [treeWalk_dir ht]
  split
  · exact apart_single (pos, .dc)
  split
  · exact apart_single (pos, .d)
  split
  · refine ⟨by simp, ?_⟩
    cases hrecurse : r.chopt.recurse <;> simp [actsAt, acts, hrecurse]
  · next hskip =>
    simp only [Bool.or_eq_true, Bool.not_eq_true', not_or, Bool.not_eq_false] at hskip
    constructor
    · intro v hv
      rcases List.mem_append.mp hv with hv | hv
      · rcases List.mem_cons.mp hv with rfl | hv
        · exact List.suffix_refl _
        · obtain ⟨k, -, hsuffix⟩ := hlist.suffix v hv
          exact (List.suffix_cons k pos).trans hsuffix
      · exact (List.mem_singleton.mp hv) ▸ List.suffix_refl _
    · have hfirst : ∀ l, actsAt r ((pos, .d) :: l) = actsAt r l := by
        intro l
        rw [actsAt, List.filter_cons_of_neg (by simp [acts, hskip.1])]
        rfl
      rw [List.cons_append, hfirst, actsAt_append]
      refine List.nodup_append.mpr ⟨hlist.nodup, (apart_single (pos, t.post.1)).nodup, ?_⟩
      intro p hp p' hp'
      obtain ⟨info, hmem⟩ := mem_actsAt hp
      obtain ⟨info', hmem'⟩ := mem_actsAt hp'
      obtain ⟨k, -, hsuffix⟩ := hlist.suffix _ hmem
      rw [(Prod.mk.inj (List.mem_singleton.mp hmem')).1]
      rintro rfl
      have hle : p.length + 1 ≤ p.length := hsuffix.length_le
      omega

mutual

theorem apart_tree : ∀ (t : Tree) (dev : ℕ) (up : List (ℕ × ℕ)) (pos : Pos),
    Apart r pos (treeWalk env r dev up pos t)
  | .leaf _ i, dev, up, pos => by
    rw [treeWalk]
    exact apart_single (pos, i.1)
  | .locked _ _ _ _, dev, up, pos =>
    apart_dir rfl ⟨by simp [treeWalkList, Tree.entries], by simp [treeWalkList, Tree.entries, actsAt]⟩
  | .dir _ _ _ _ ts, dev, up, pos => apart_dir rfl (apart_list ts dev _ pos 0)

theorem apart_list : ∀ (ts : List Tree) (dev : ℕ) (up : List (ℕ × ℕ)) (pos : Pos) (i : ℕ),
    ApartList r pos i (treeWalkList env r dev up pos i ts)
  | [], dev, up, pos, i => ⟨by simp [treeWalkList], by simp [treeWalkList, actsAt]⟩
  | t :: ts, dev, up, pos, i => by
    rw [treeWalkList]
    exact .cons (apart_tree t dev up (i :: pos)) (apart_list ts dev up pos (i + 1))

end

theorem apart_roots (roots : List Tree) (i : ℕ) : ApartList r [] i (walkedRoots env r i roots) := by
  induction roots generalizing i with
  | nil => exact ⟨by simp [walkedRoots], by simp [walkedRoots, actsAt]⟩
  | cons t ts ih =>
    rw [walkedRoots]
    exact .cons (apart_tree t _ _ _) (ih (i + 1))

/-- Without recursion only the operands are visited. -/
theorem walkedRoots_operands (hrecurse : r.chopt.recurse = false) {roots : List Tree} {i : ℕ} {v : Visit}
    (hv : v ∈ walkedRoots env r i roots) : v.1.length = 1 := by
  induction roots generalizing i with
  | nil => simp [walkedRoots] at hv
  | cons t ts ih =>
    rw [walkedRoots] at hv
    rcases List.mem_append.mp hv with hv | hv
    · cases ht : t.devIno with
      | none =>
        cases t with
        | leaf =>
          rw [treeWalk, List.mem_singleton] at hv
          rw [hv]
          rfl
        | locked => cases ht
        | dir => cases ht
      | some id =>
        rw [treeWalk_dir ht] at hv
        simp only [hrecurse, Bool.not_false, Bool.true_or, if_true] at hv
        split at hv
        · rw [List.mem_singleton.mp hv]
          rfl
        split at hv
        · rw [List.mem_singleton.mp hv]
          rfl
        · simp only [List.mem_cons, List.not_mem_nil, or_false] at hv
          rcases hv with rfl | rfl <;> rfl
    · exact ih hv

/-! ## Coverage -/

/-- Each entry of the walk that passes the filter is changed once, at the visit that acts; no other one is, nor is the
root; and without recursion nothing below an operand is. -/
structure Covers (env : System φ) (r : Request) (l : List Event) : Prop where
  once : ∀ v ∈ passed l, acts r v.2 → r.passes (target env r v.1) → r.chopt.rootDevInoCheck (target env r v.1) = false →
    (changed l).count v = 1
  places : ((changed l).map Prod.fst).Nodup
  only : ∀ v ∈ changed l, v ∈ passed l ∧ acts r v.2 ∧ r.passes (target env r v.1)
  notRoot : ∀ v ∈ changed l, r.chopt.rootDevInoCheck (target env r v.1) = false
  operands : r.chopt.recurse = false → ∀ v ∈ changed l, v.1.length = 1

/-- **When each file is covered**: when no entry that is no directory, such as a symbolic link that fts does not follow,
passes the filter and leads to the root. -/
theorem chownFiles_covers_iff {roots : List Tree} (h : NoErrors env r roots) {n : ℕ}
    (hn : (walkedRoots env r 0 roots).length < n) :
    ∃ ok l, chownFiles env r n roots = some (ok, l) ∧ passed l = walkedRoots env r 0 roots ∧
      (Covers env r l ↔ ∀ v ∈ walkedRoots env r 0 roots, isDirectory v.2 = false → r.passes (target env r v.1) →
        r.chopt.rootDevInoCheck (target env r v.1) = false) := by
  obtain ⟨ok, l, hrun, hpassed, hchanged⟩ := chownFiles_walk h hn
  refine ⟨ok, l, hrun, hpassed, ?_⟩
  have hplaces : ((changed l).map Prod.fst).Nodup := by
    have hapart : ApartList r [] 0 (walkedRoots env r 0 roots) := apart_roots roots 0
    rw [hchanged]
    refine hapart.nodup.sublist (List.Sublist.map _ ?_)
    apply List.monotone_filter_right
    intro v hv
    simp only [changes, Bool.and_eq_true] at hv
    exact hv.1.1
  constructor
  · intro hcovers v hv hdir hpasses
    apply hcovers.notRoot
    rw [hchanged, List.mem_filter]
    have hacts : acts r v.2 = true := by
      cases hinfo : v.2 <;> cases hrecurse : r.chopt.recurse <;> simp_all [acts, isDirectory]
    simp [hv, changes, hacts, hpasses, hdir]
  · intro hroot
    refine ⟨?_, hplaces, ?_, ?_, ?_⟩
    · intro v hv hacts hpasses hnot
      apply List.count_eq_one_of_mem (List.Nodup.of_map _ hplaces)
      rw [hpassed] at hv
      rw [hchanged, List.mem_filter]
      simp [hv, changes, hacts, hpasses, hnot]
    · intro v hv
      rw [hchanged, List.mem_filter] at hv
      simp only [changes, Bool.and_eq_true] at hv
      rw [hpassed]
      exact ⟨hv.1, hv.2.1.1, hv.2.1.2⟩
    · intro v hv
      rw [hchanged, List.mem_filter] at hv
      simp only [changes, Bool.and_eq_true, Bool.not_eq_true', Bool.and_eq_false_iff] at hv
      obtain ⟨hmem, ⟨-, hpasses⟩, hdir | hnot⟩ := hv
      · exact hroot v hmem hdir hpasses
      · exact hnot
    · intro hrecurse v hv
      rw [hchanged, List.mem_filter] at hv
      exact walkedRoots_operands hrecurse hv.1

end

/-! ## `chown -RH --preserve-root 9 d` -/

/-- A system where everything succeeds; links refer to `referent`. -/
def System.calm (stat : Pos → Stat) (referent : Stat) : System Unit where
  stat := stat
  again := fun _ => .leaf [] ⟨.ns, rfl⟩
  fstatat := fun _ => .ok referent
  lchownat := fun _ => none
  chownat := fun _ => none
  reply := fun pos c =>
    match c with
    | .openat _ _ _ => .ok ()
    | .fstat _ => some (if (stat pos).kind = .lnk then referent else stat pos).orig
    | .fchown _ _ _ => true
    | .close _ => true
  errno := none
  ftsClose := none

/-- `chown -RH --preserve-root`, where `/` is the inode 2 of the device 1. -/
def Request.preserveRoot : Request where
  physical := true
  comfollow := true
  xdev := false
  uid := 9
  gid := Chown.noId
  requiredUid := Chown.noId
  requiredGid := Chown.noId
  chopt := {
    verbosity := .off
    recurse := true
    rootDevIno := some (1, 2)
    affectSymlinkReferent := true
    forceSilent := false
    userName := none
    groupName := none
    recurse_of_root := fun _ => rfl }

/-- The directory `d`, with a symbolic link `r` in it. -/
def linkInDirectory : List Tree := [.dir [100] 1 20 none [.leaf [114] ⟨.sl, rfl⟩]]

/-- What `stat` finds of them. -/
def statLink : Pos → Stat
  | [0, 0] => ⟨.lnk, 1, 21, 5, 5⟩
  | _ => ⟨.dir, 1, 20, 5, 5⟩

theorem noErrors_calm (referent : Stat) (roots : List Tree)
    (h : ∀ v ∈ walkedRoots (System.calm statLink referent) .preserveRoot 0 roots, Fine .preserveRoot v) :
    NoErrors (System.calm statLink referent) .preserveRoot roots := by
  refine ⟨h, fun _ => ⟨_, rfl⟩, ?_, ?_⟩
  · intro pos file wronly directory e herror
    cases herror
  · intro pos fd
    have htarget : target (System.calm statLink referent) .preserveRoot pos =
        if (statLink pos).kind = .lnk then referent else statLink pos := by
      by_cases hlnk : (statLink pos).kind = .lnk <;> simp [System.calm, target, Request.preserveRoot, hlnk]
    rw [htarget]
    rfl

theorem noErrors_link (referent : Stat) :
    NoErrors (System.calm statLink referent) .preserveRoot linkInDirectory := by
  apply noErrors_calm
  intro v hv
  have hvisits : walkedRoots (System.calm statLink referent) .preserveRoot 0 linkInDirectory =
      [([0], .d), ([0, 0], .sl), ([0], .dp)] := rfl
  rw [hvisits] at hv
  simp only [List.mem_cons, List.not_mem_nil, or_false] at hv
  rcases hv with rfl | rfl | rfl <;> simp [Fine]

/-- The link refers to a file. -/
theorem chownFiles_covers_file : ∃ ok l,
    chownFiles (System.calm statLink ⟨.reg, 1, 22, 5, 5⟩) .preserveRoot 4 linkInDirectory = some (ok, l) ∧
      Covers (System.calm statLink ⟨.reg, 1, 22, 5, 5⟩) .preserveRoot l := by
  obtain ⟨ok, l, hrun, -, hcovers⟩ := chownFiles_covers_iff (noErrors_link ⟨.reg, 1, 22, 5, 5⟩) (n := 4) (by decide)
  exact ⟨ok, l, hrun, hcovers.mpr (by decide)⟩

/-- The link refers to `/`: it is changed. -/
theorem chownFiles_changes_root : NoErrors (System.calm statLink ⟨.dir, 1, 2, 0, 0⟩) .preserveRoot linkInDirectory ∧
    ∃ l, chownFiles (System.calm statLink ⟨.dir, 1, 2, 0, 0⟩) .preserveRoot 4 linkInDirectory = some (true, l) ∧
      ([0, 0], .sl) ∈ changed l ∧ ¬Covers (System.calm statLink ⟨.dir, 1, 2, 0, 0⟩) .preserveRoot l := by
  refine ⟨noErrors_link _, _, rfl, by decide, ?_⟩
  intro hcovers
  have hnot := hcovers.notRoot ([0, 0], .sl) (by decide)
  revert hnot
  decide

end CodingExercises.Coreutils.ChownFiles
