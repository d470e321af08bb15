import Mathlib.Logic.Function.Basic
import CodingExercises.Lib.Interact
import CodingExercises.Coreutils.Xalloc

/-!
# chown: changing the owner of the file that was looked at

`restricted_chown` of `lib/chown-core.c`, among other processes that rename, replace, chown or chmod files between any two
of its system calls.

- `fchown` is only called on the file of the first `stat`, with the owner and the group that are required
  (`restrictedChown_checked`).
- When the ids do not match, the status is still `RC_ok`: what is returned is right just when a file with the right inode
  has the right ids too (`restrictedChown_reports_iff`).
-/

namespace CodingExercises.Coreutils.Chown

open Lib

/-- `(uid_t) -1` and `(gid_t) -1`. -/
def noId : ℕ := 2 ^ 32 - 1

/-- The types of files that make a difference. -/
inductive Kind
  | reg
  | dir
  | other
deriving DecidableEq

/-- `errno`. -/
inductive Errno
  | eacces
  | other (n : ℕ)
deriving DecidableEq

/-- What the functions use of a `struct stat`. -/
structure Stat where
  kind : Kind
  dev : ℕ
  ino : ℕ
  uid : ℕ
  gid : ℕ
deriving DecidableEq

/-- Files: what never changes of them. -/
structure Files (φ : Type) where
  kind : φ → Kind
  dev : φ → ℕ
  ino : φ → ℕ

/-- What changes: the files that the names lead to, taken from the directory `cwd_fd`, and owners and modes. -/
structure World (φ : Type) where
  names : List Byte → Option φ
  uid : φ → ℕ
  gid : φ → ℕ
  mode : φ → ℕ

/-- `enum RCH_status`. -/
inductive RCHStatus
  | ok
  | excluded
  | inodeChanged
  | doOrdinaryChown
  | error
deriving DecidableEq

/-- The system calls. A descriptor is the file it is open on. -/
inductive Call (φ : Type)
  | openat (file : List Byte) (wronly directory : Bool)
  | fstat (fd : φ)
  | fchown (fd : φ) (uid gid : ℕ)
  | close (fd : φ)
deriving DecidableEq

/-- What they return. -/
abbrev Reply (φ : Type) : Call φ → Type
  | .openat _ _ _ => Except Errno φ
  | .fstat _ => Option Stat
  | .fchown _ _ _ => Bool
  | .close _ => Bool

/-- The arguments of `restricted_chown`. -/
structure Args where
  file : List Byte
  origSt : Stat
  uid : ℕ
  gid : ℕ
  requiredUid : ℕ
  requiredGid : ℕ

/-- `SAME_INODE`. -/
def sameInode (a b : Stat) : Bool := a.ino = b.ino && a.dev = b.dev

/-- The owner and the group of `st` are those that are required. -/
def Args.idsMatch (a : Args) (st : Stat) : Bool :=
  (a.requiredUid = noId || a.requiredUid = st.uid) && (a.requiredGid = noId || a.requiredGid = st.gid)

section

variable {φ : Type}

/-- The end of `restricted_chown`: the file is closed, and the result does not count. -/
def closeAndReturn (fd : φ) (status : RCHStatus) : Prog (Call φ) (Reply φ) RCHStatus :=
  .call (.close fd) fun _ => .ret status

/-- `restricted_chown` with the file open. -/
def restrictedChownOpen (a : Args) (fd : φ) : Prog (Call φ) (Reply φ) RCHStatus :=
  let status := RCHStatus.ok
  .call (.fstat fd) fun st? : Option Stat =>
    match st? with
    | none => closeAndReturn fd .error
    | some st =>
      if !sameInode a.origSt st then closeAndReturn fd .inodeChanged
      else if a.idsMatch st then
        .call (.fchown fd a.uid a.gid) fun done : Bool =>
          if done then
            .call (.close fd) fun closed : Bool => .ret (if closed then .ok else .error)
          else closeAndReturn fd .error
      else closeAndReturn fd status

/-- `restricted_chown`. -/
def restrictedChown (a : Args) : Prog (Call φ) (Reply φ) RCHStatus :=
  if a.requiredUid = noId ∧ a.requiredGid = noId then .ret .doOrdinaryChown
  else if a.origSt.kind = .other then .ret .doOrdinaryChown
  else
    let directory : Bool := a.origSt.kind = .dir
    let failed (e : Errno) : Prog (Call φ) (Reply φ) RCHStatus :=
      .ret (if e = .eacces then .doOrdinaryChown else .error)
    .call (.openat a.file false directory) fun r : Except Errno φ =>
      match r with
      | .ok fd => restrictedChownOpen a fd
      | .error e =>
        if e = .eacces ∧ a.origSt.kind = .reg then
          .call (.openat a.file true directory) fun r : Except Errno φ =>
            match r with
            | .ok fd => restrictedChownOpen a fd
            | .error e => failed e
        else failed e

/-! ## The other processes -/

/-- What another process can do: make a name lead elsewhere or nowhere, by renaming, replacing or removing; `chown`; and
`chmod`. -/
inductive Act (φ : Type)
  | bind (name : List Byte) (file : Option φ)
  | chown (file : φ) (uid gid : ℕ)
  | chmod (file : φ) (mode : ℕ)

/-- The world after it. -/
def Act.apply [DecidableEq φ] (w : World φ) : Act φ → World φ
  | .bind name file => { w with names := Function.update w.names name file }
  | .chown file uid gid => { w with
      uid := Function.update w.uid file uid
      gid := Function.update w.gid file gid }
  | .chmod file mode => { w with mode := Function.update w.mode file mode }

/-- What `chown` makes of an id. -/
def newId (id old : ℕ) : ℕ := if id = noId then old else id

/-- How a system call is served. Any of them can fail. -/
def Serves [DecidableEq φ] (fs : Files φ) (w : World φ) : (c : Call φ) → Reply φ c → World φ → Prop
  | .openat file _ directory, r, w' => w' = w ∧
      match (r : Except Errno φ) with
      | .ok fd => w.names file = some fd ∧ (directory → fs.kind fd = .dir)
      | .error _ => True
  | .fstat fd, r, w' => w' = w ∧
      ((r : Option Stat) = none ∨ r = some ⟨fs.kind fd, fs.dev fd, fs.ino fd, w.uid fd, w.gid fd⟩)
  | .fchown fd uid gid, r, w' =>
      match (r : Bool) with
      | true => w' = Act.apply w (.chown fd (newId uid (w.uid fd)) (newId gid (w.gid fd)))
      | false => w' = w
  | .close _, _, w' => w' = w

/-- `restricted_chown` among other processes. -/
def among [DecidableEq φ] (fs : Files φ) : Setting (World φ) (Call φ) (Reply φ) where
  serve := Serves fs
  others w w' := ∃ act : Act φ, w' = act.apply w

abbrev Log (φ : Type) := List (Served (World φ) (Call φ) (Reply φ))

/-! ## What is promised -/

/-- `fchown` was called only on files with the device and the inode of `orig_st`, after `fstat` had read from the same
descriptor an owner and a group that match. -/
def Checked (fs : Files φ) (a : Args) (log : Log φ) : Prop :=
  ∀ x ∈ log, ∀ fd uid gid, x.call = .fchown fd uid gid →
    fs.dev fd = a.origSt.dev ∧ fs.ino fd = a.origSt.ino ∧
      ∃ w st, ⟨w, .fstat fd, some st⟩ ∈ log ∧ a.idsMatch st

/-- `RC_ok` only if `fchown` and `close` were successful, and `RC_excluded` when the ids of the right file do not match. -/
def Reports (a : Args) (log : Log φ) (status : RCHStatus) : Prop :=
  (status = .ok → ∃ w w' fd uid gid, ⟨w, .fchown fd uid gid, true⟩ ∈ log ∧ ⟨w', .close fd, true⟩ ∈ log) ∧
    ∀ w fd st, ⟨w, .fstat fd, some st⟩ ∈ log → sameInode a.origSt st → a.idsMatch st = false → status = .excluded

/-- At no `fstat` that is served has the file the right inode and other ids than the required ones. -/
def NeverExcluded (fs : Files φ) (a : Args) (log : Log φ) : Prop :=
  ∀ w fd st, ⟨w, .fstat fd, some st⟩ ∈ log → fs.dev fd = a.origSt.dev → fs.ino fd = a.origSt.ino →
    (a.requiredUid = noId ∨ a.requiredUid = w.uid fd) ∧ (a.requiredGid = noId ∨ a.requiredGid = w.gid fd)

/-! ## Records -/

variable {fs : Files φ} {a : Args}

/-- The record so far is one of `openat`s. -/
def OpensOnly (log : Log φ) : Prop := ∀ x ∈ log, ∃ file wronly directory, x.call = .openat file wronly directory

theorem opensOnly_nil : OpensOnly ([] : Log φ) := by simp [OpensOnly]

theorem OpensOnly.concat {log : Log φ} (h : OpensOnly log) (w : World φ) (file : List Byte) (wronly directory : Bool)
    (r : Except Errno φ) : OpensOnly (log ++ [⟨w, .openat file wronly directory, r⟩]) := by
  intro x hx
  rcases List.mem_append.mp hx with hx | hx
  · exact h x hx
  · rw [List.mem_singleton.mp hx]
    exact ⟨file, wronly, directory, rfl⟩

theorem OpensOnly.notMem {log : Log φ} (h : OpensOnly log) {x : Served (World φ) (Call φ) (Reply φ)}
    (hx : ∀ file wronly directory, x.call ≠ .openat file wronly directory) : x ∉ log := by
  intro hm
  obtain ⟨file, wronly, directory, he⟩ := h x hm
  exact hx file wronly directory he

theorem OpensOnly.checked {log : Log φ} (h : OpensOnly log) : Checked fs a log := by
  intro x hx fd uid gid hc
  exact absurd hx (h.notMem (by simp [hc]))

/-- The one `fstat` of the record found `r`. -/
def Looked (log : Log φ) (w : World φ) (fd : φ) (r : Option Stat) : Prop :=
  ∀ w' fd' st, ⟨w', .fstat fd', some st⟩ ∈ log ↔ w' = w ∧ fd' = fd ∧ r = some st

theorem OpensOnly.looked {log : Log φ} (h : OpensOnly log) (w : World φ) (fd : φ) (r : Option Stat) :
    Looked (log ++ [⟨w, .fstat fd, r⟩]) w fd r := by
  intro w' fd' st
  constructor
  · intro hm
    rcases List.mem_append.mp hm with hm | hm
    · exact absurd hm (h.notMem (by simp))
    · cases List.mem_singleton.mp hm
      exact ⟨rfl, rfl, rfl⟩
  · rintro ⟨rfl, rfl, rfl⟩
    exact List.mem_append_right _ List.mem_cons_self

theorem Looked.concat {log : Log φ} {w : World φ} {fd : φ} {r : Option Stat} (h : Looked log w fd r)
    {x : Served (World φ) (Call φ) (Reply φ)} (hx : ∀ fd, x.call ≠ .fstat fd) : Looked (log ++ [x]) w fd r := by
  intro w' fd' st
  rw [← h w' fd' st, List.mem_append, List.mem_singleton]
  constructor
  · rintro (hm | hm)
    · exact hm
    · exact absurd (by rw [← hm]) (hx fd')
  · exact .inl

/-- What is reported, when one `fstat` has found the file as it is. -/
theorem Looked.reports_iff {log : Log φ} {w : World φ} {fd : φ} {r : Option Stat} (h : Looked log w fd r)
    (status : RCHStatus) :
    Reports a log status ↔
      (status = .ok → ∃ w w' fd uid gid, ⟨w, .fchown fd uid gid, true⟩ ∈ log ∧ ⟨w', .close fd, true⟩ ∈ log) ∧
        ∀ st, r = some st → sameInode a.origSt st → a.idsMatch st = false → status = .excluded := by
  refine and_congr Iff.rfl ⟨fun hr st hst => ?_, fun hr w' fd' st hm => ?_⟩
  · exact hr w fd st ((h w fd st).mpr ⟨rfl, rfl, hst⟩)
  · exact hr st ((h w' fd' st).mp hm).2.2

/-- The ids of a file are the required ones just if `fstat` reads ids that match. -/
theorem idsMatch_iff (st : Stat) :
    a.idsMatch st = true ↔
      (a.requiredUid = noId ∨ a.requiredUid = st.uid) ∧ (a.requiredGid = noId ∨ a.requiredGid = st.gid) := by
  simp [Args.idsMatch]

theorem sameInode_iff (x y : Stat) : sameInode x y = true ↔ y.dev = x.dev ∧ y.ino = x.ino := by
  simp only [sameInode, Bool.and_eq_true, decide_eq_true_eq]
  constructor
  · rintro ⟨h, h'⟩
    exact ⟨h'.symm, h.symm⟩
  · rintro ⟨h, h'⟩
    exact ⟨h'.symm, h.symm⟩

/-- What `fstat` finds. -/
def Files.stat (fs : Files φ) (w : World φ) (fd : φ) : Stat := ⟨fs.kind fd, fs.dev fd, fs.ino fd, w.uid fd, w.gid fd⟩

theorem Looked.neverExcluded_iff {log : Log φ} {w : World φ} {fd : φ} {r : Option Stat} (h : Looked log w fd r)
    (hr : ∀ st, r = some st → st = fs.stat w fd) :
    NeverExcluded fs a log ↔ ∀ st, r = some st → sameInode a.origSt st → a.idsMatch st := by
  constructor
  · intro hn st hst hsame
    have hm := (h w fd st).mpr ⟨rfl, rfl, hst⟩
    cases hr st hst
    obtain ⟨hdev, hino⟩ := (sameInode_iff _ _).mp hsame
    exact (idsMatch_iff _).mpr (hn w fd _ hm hdev hino)
  · intro hn w' fd' st hm hdev hino
    obtain ⟨rfl, rfl, hst⟩ := (h w' fd' st).mp hm
    cases hr st hst
    exact (idsMatch_iff _).mp (hn _ hst ((sameInode_iff _ _).mpr ⟨hdev, hino⟩))

/-- `fchown` is not called. -/
theorem checked_concat {log : Log φ} (h : Checked fs a log) {x : Served (World φ) (Call φ) (Reply φ)}
    (hx : ∀ fd uid gid, x.call ≠ .fchown fd uid gid) : Checked fs a (log ++ [x]) := by
  intro y hy fd uid gid hc
  rcases List.mem_append.mp hy with hy | hy
  · obtain ⟨hdev, hino, w, st, hm, hids⟩ := h y hy fd uid gid hc
    exact ⟨hdev, hino, w, st, List.mem_append_left _ hm, hids⟩
  · rw [List.mem_singleton.mp hy] at hc
    exact absurd hc (hx fd uid gid)

/-! ## Every interleaving -/

variable [DecidableEq φ]

/-- What is sure while `restricted_chown` runs. -/
abbrev SureIn (fs : Files φ) (a : Args) (p : Prog (Call φ) (Reply φ) RCHStatus) (log : Log φ) : Prop :=
  p.Sure (among fs) (Checked fs a) (fun log status => Reports a log status ↔ NeverExcluded fs a log) log

/-- Nothing was looked at, and the status is not `RC_ok`. -/
theorem sure_ret {log : Log φ} (h : OpensOnly log) {status : RCHStatus} (hs : status ≠ .ok) :
    SureIn fs a (.ret status) log := by
  have hmem : ∀ w fd (st : Stat), (⟨w, .fstat fd, some st⟩ : Served (World φ) (Call φ) (Reply φ)) ∉ log :=
    fun w fd st => h.notMem (by simp)
  constructor
  · intro _ w fd st hm
    exact absurd hm (hmem w fd st)
  · intro _
    exact ⟨fun hok => absurd hok hs, fun w fd st hm => absurd hm (hmem w fd st)⟩

/-- The end, where the result of `close` does not count. -/
theorem sure_closeAndReturn {log : Log φ} {w : World φ} {fd fd' : φ} {r : Option Stat} {status : RCHStatus}
    (hc : Checked fs a log) (hl : Looked log w fd r) (hr : ∀ st, r = some st → st = fs.stat w fd)
    (hok : status = .ok ↔ ∃ st, r = some st ∧ sameInode a.origSt st ∧ a.idsMatch st = false)
    (hne : status ≠ .excluded) : SureIn fs a (closeAndReturn fd' status) log := by
  intro w' closed w'' _
  have hl' : Looked (log ++ [⟨w', .close fd', closed⟩]) w fd r := hl.concat (by simp)
  refine ⟨checked_concat hc (by simp), ?_⟩
  show Reports _ _ _ ↔ NeverExcluded _ _ _
  rw [hl'.reports_iff, hl'.neverExcluded_iff hr]
  by_cases hs : status = .ok
  · obtain ⟨st, hst, hsame, hids⟩ := hok.mp hs
    constructor
    · intro h
      exact absurd (h.2 st hst hsame hids) hne
    · intro h
      rw [h st hst hsame] at hids
      cases hids
  · have hno : ∀ st, r = some st → sameInode a.origSt st → a.idsMatch st = true := by
      intro st hst hsame
      by_contra hids
      exact hs (hok.mpr ⟨st, hst, hsame, by simpa using hids⟩)
    refine ⟨fun _ => hno, fun _ => ⟨fun h => absurd h hs, fun st hst hsame hids => ?_⟩⟩
    rw [hno st hst hsame] at hids
    cases hids

/-- The file that was looked at is changed: the ids match, so the status has to be right about the changes only. -/
theorem sure_fchown {log : Log φ} {w : World φ} {fd : φ} {st : Stat} (hc : Checked fs a log)
    (hl : Looked log w fd (some st)) (hst : st = fs.stat w fd) (hsame : sameInode a.origSt st = true)
    (hids : a.idsMatch st = true) :
    SureIn fs a (.call (.fchown fd a.uid a.gid) fun done : Bool =>
      if done then .call (.close fd) fun closed : Bool => .ret (if closed then .ok else .error)
      else closeAndReturn fd .error) log := by
  have hr : ∀ st', some st = some st' → st' = fs.stat w fd := fun st' h => (Option.some.inj h) ▸ hst
  have hmatch : ∀ st', some st = some st' → a.idsMatch st' = true := fun st' h => (Option.some.inj h) ▸ hids
  intro wc done wc' _
  have hl' : Looked (log ++ [⟨wc, .fchown fd a.uid a.gid, done⟩]) w fd (some st) := hl.concat (by simp)
  have hc' : Checked fs a (log ++ [⟨wc, .fchown fd a.uid a.gid, done⟩]) := by
    intro x hx fd' uid gid hcall
    rcases List.mem_append.mp hx with hx | hx
    · obtain ⟨hdev, hino, w', st', hm, hids'⟩ := hc x hx fd' uid gid hcall
      exact ⟨hdev, hino, w', st', List.mem_append_left _ hm, hids'⟩
    · rw [List.mem_singleton.mp hx] at hcall
      cases hcall
      obtain ⟨hdev, hino⟩ := (sameInode_iff _ _).mp hsame
      rw [hst] at hdev hino
      exact ⟨hdev, hino, w, st, (hl' w fd st).mpr ⟨rfl, rfl, rfl⟩, hids⟩
  refine ⟨hc', ?_⟩
  cases done with
  | false =>
    refine sure_closeAndReturn hc' hl' hr ?_ (by simp)
    simp [hids]
  | true =>
    intro wk closed wk' _
    have hl'' : Looked (log ++ [⟨wc, .fchown fd a.uid a.gid, true⟩] ++ [⟨wk, .close fd, closed⟩]) w fd (some st) :=
      hl'.concat (by simp)
    refine ⟨checked_concat hc' (by simp), ?_⟩
    show Reports _ _ _ ↔ NeverExcluded _ _ _
    rw [hl''.reports_iff, hl''.neverExcluded_iff hr]
    refine ⟨fun _ st' h _ => hmatch st' h, fun _ => ⟨fun hok => ?_, fun st' h _ hno => ?_⟩⟩
    · cases closed with
      | false => cases hok
      | true => exact ⟨wc, wk, fd, a.uid, a.gid, by simp, by simp⟩
    · rw [hmatch st' h] at hno
      cases hno

/-- With the file open. -/
theorem sure_open {log : Log φ} (h : OpensOnly log) (fd : φ) : SureIn fs a (restrictedChownOpen a fd) log := by
  intro w r w' hserve
  obtain ⟨-, hserve⟩ := hserve
  have hl := h.looked w fd r
  have hc : Checked fs a (log ++ [⟨w, .fstat fd, r⟩]) := checked_concat h.checked (by simp)
  refine ⟨hc, ?_⟩
  cases r with
  | none => exact sure_closeAndReturn hc hl (by simp) (by simp) (by simp)
  | some st =>
    have hst : st = fs.stat w fd := by
      obtain hserve | hserve := hserve
      · cases hserve
      · exact Option.some.inj hserve
    have hr : ∀ st', some st = some st' → st' = fs.stat w fd := fun st' h => (Option.some.inj h) ▸ hst
    dsimp only
    split
    case isTrue hsame =>
      refine sure_closeAndReturn hc hl hr ⟨fun h => (nomatch h), ?_⟩ (by simp)
      rintro ⟨st', h, hsame', -⟩
      cases h
      rw [hsame'] at hsame
      cases hsame
    case isFalse hsame =>
      have hsame : sameInode a.origSt st = true := by simpa using hsame
      split
      case isTrue hids => exact sure_fchown hc hl hst hsame hids
      case isFalse hids =>
        exact sure_closeAndReturn hc hl hr ⟨fun _ => ⟨st, rfl, hsame, by simpa using hids⟩, fun _ => rfl⟩ (by simp)

theorem sure_restrictedChown : SureIn fs a (restrictedChown a) [] := by
  unfold restrictedChown
  split
  · exact sure_ret opensOnly_nil (by simp)
  split
  · exact sure_ret opensOnly_nil (by simp)
  intro w r w' _
  have h := opensOnly_nil.concat w a.file false (decide (a.origSt.kind = .dir)) r
  refine ⟨h.checked, ?_⟩
  cases r with
  | ok fd => exact sure_open h fd
  | error e =>
    dsimp only
    split
    · intro w r w' _
      have h := h.concat w a.file true (decide (a.origSt.kind = .dir)) r
      refine ⟨h.checked, ?_⟩
      cases r with
      | ok fd => exact sure_open h fd
      | error e =>
        refine sure_ret h ?_
        split <;> simp
    · refine sure_ret h ?_
      split <;> simp

/-- **`restricted_chown` among other processes.** In every interleaving `fchown` is only called on the file that was looked
at, with ids that match. What is returned is right just if the file never has the right inode and other ids. -/
theorem restrictedChown_reports_iff (fs : Files φ) (a : Args) {w₀ w : World φ} {log : Log φ}
    {p : Prog (Call φ) (Reply φ) RCHStatus} (h : (among fs).Runs ⟨w₀, restrictedChown a, []⟩ ⟨w, p, log⟩) :
    Checked fs a log ∧ ∀ status, p = .ret status → (Reports a log status ↔ NeverExcluded fs a log) := by
  obtain ⟨hc, hs⟩ := Prog.Sure.runs h opensOnly_nil.checked sure_restrictedChown
  refine ⟨hc, ?_⟩
  rintro status rfl
  exact hs

end

/-! ## A file with other ids -/

/-- One regular file, the number 7 on the device 1. -/
def oneFile : Files Unit := ⟨fun _ => .reg, fun _ => 1, fun _ => 7⟩

/-- It belongs to the user 5 and the group 5. -/
def ownedByFive : World Unit := ⟨fun _ => some (), fun _ => 5, fun _ => 5, fun _ => 0⟩

/-- `chown --from=REQUIRED 9 x`, after the file has been looked at. -/
def fromUid (required : ℕ) : Args := ⟨[120], ⟨.reg, 1, 7, 5, 5⟩, 9, noId, required, noId⟩

/-- The file is opened, looked at, changed and closed. -/
theorem runs_match : (among oneFile).Runs ⟨ownedByFive, restrictedChown (fromUid 5), []⟩
    ⟨(Act.chown () 9 5).apply ownedByFive, .ret .ok, [⟨ownedByFive, .openat [120] false false, .ok ()⟩,
      ⟨ownedByFive, .fstat (), some ⟨.reg, 1, 7, 5, 5⟩⟩, ⟨ownedByFive, .fchown () 9 noId, true⟩,
      ⟨(Act.chown () 9 5).apply ownedByFive, .close (), true⟩]⟩ := by
  refine Setting.Runs.serve (Except.ok ()) ⟨rfl, rfl, fun h => (nomatch h)⟩ ?_
  refine Setting.Runs.serve (some ⟨.reg, 1, 7, 5, 5⟩) ⟨rfl, .inr rfl⟩ ?_
  refine Setting.Runs.serve true rfl ?_
  refine Setting.Runs.serve true rfl ?_
  exact .refl

/-- The ids match: what is returned is right. -/
theorem restrictedChown_match : ∃ log : Log Unit, Reports (fromUid 5) log .ok := by
  obtain ⟨-, h⟩ := restrictedChown_reports_iff oneFile (fromUid 5) runs_match
  refine ⟨_, (h .ok rfl).mpr ?_⟩
  intro w fd st hm _ _
  simp only [List.mem_cons, Served.mk.injEq, reduceCtorEq, false_and, and_false, false_or, List.not_mem_nil,
    or_false] at hm
  rw [hm.1]
  exact ⟨.inr rfl, .inl rfl⟩

/-- The file is opened, looked at and closed again. -/
theorem runs_mismatch : (among oneFile).Runs ⟨ownedByFive, restrictedChown (fromUid 6), []⟩
    ⟨ownedByFive, .ret .ok, [⟨ownedByFive, .openat [120] false false, .ok ()⟩,
      ⟨ownedByFive, .fstat (), some ⟨.reg, 1, 7, 5, 5⟩⟩, ⟨ownedByFive, .close (), true⟩]⟩ := by
  refine Setting.Runs.serve (Except.ok ()) ⟨rfl, rfl, fun h => (nomatch h)⟩ ?_
  refine Setting.Runs.serve (some ⟨.reg, 1, 7, 5, 5⟩) ⟨rfl, .inr rfl⟩ ?_
  refine Setting.Runs.serve true rfl ?_
  exact .refl

/-- The file still belongs to the user 5, when the user 6 is required: `RC_ok` is returned. -/
theorem restrictedChown_mismatch :
    ∃ (w : World Unit) (log : Log Unit),
      (among oneFile).Runs ⟨ownedByFive, restrictedChown (fromUid 6), []⟩ ⟨w, .ret .ok, log⟩ ∧
        ¬Reports (fromUid 6) log .ok := by
  refine ⟨_, _, runs_mismatch, fun h => ?_⟩
  have hstatus := h.2 ownedByFive () ⟨.reg, 1, 7, 5, 5⟩ (by simp) (by decide) (by decide)
  cases hstatus

end CodingExercises.Coreutils.Chown
