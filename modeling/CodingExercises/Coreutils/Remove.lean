import CodingExercises.Coreutils.FtsWalk

/-!
# rm: removing files and directories

`rm_fts` and `rm` of `lib/remove.c`, over the walks of `FtsWalk`.

- Entries are named by their places; what is done is a list of events. The calls that look at the file system or wait for
  an answer are functions of the time, which is the number of events so far: every pattern of failures and answers is one
  of these.
- The test for `.` and `..` guards an empty statement, so a directory of the command line is refused whatever its name is
  (`rmFts_dir`). No entry below it is returned.
- So what is done with each root is a block of events about it (`rmFts_root`).
-/

namespace CodingExercises.Coreutils.Remove

open FtsWalk

/-- `enum rm_interactive`. -/
inductive Interactive
  | always
  | sometimes
  | never
deriving DecidableEq

/-- `struct rm_options`, without `require_restore_cwd`, which is not read. -/
structure RmOptions where
  ignoreMissingFiles : Bool
  interactive : Interactive
  oneFileSystem : Bool
  recursive : Bool
  rootDevIno : Option (ℕ × ℕ)
  stdinTty : Bool
  verbose : Bool
deriving DecidableEq

/-- `enum RM_status`, as far as it is valid. -/
inductive RmStatus
  | ok
  | userDeclined
  | error
deriving DecidableEq

/-- `UPDATE_STATUS`. -/
def RmStatus.update (s new : RmStatus) : RmStatus :=
  if new = .error ∨ new = .userDeclined ∧ s = .ok then new else s

/-- `enum Ternary`. -/
inductive Ternary
  | unknown
  | no
  | yes
deriving DecidableEq

/-- `enum Prompt_action`. -/
inductive PromptAction
  | descendIntoDir
  | removeDir
deriving DecidableEq

/-- The type of a file, as far as it matters. -/
inductive Kind
  | lnk
  | dir
  | other
deriving DecidableEq

/-- The questions of `prompt`: `descend into directory`, `descend into write_protected directory`, `remove`, and
`remove write-protected`. -/
inductive Question
  | descend (writeProtected : Bool)
  | remove (writeProtected : Bool) (kind : Kind)
deriving DecidableEq

/-- The diagnostics, with the paths that they quote. -/
inductive Diag
  /-- `cannot remove %s`. -/
  | cannotRemove (errno : Option Errno) (path : List Byte)
  /-- `cannot remove directory: %s`. -/
  | cannotRemoveDirectory (path : List Byte)
  /-- `it is dangerous to operate recursively on %s`. -/
  | dangerous (path : List Byte)
  /-- `skipping %s, since it's on a different device`. -/
  | differentDevice (path : List Byte)
  /-- The warning of `emit_cycle_warning`. -/
  | cycle (path : List Byte)
  /-- `traversal failed: %s`. -/
  | traversalFailed (errno : Option Errno) (path : List Byte)
  /-- `fts_read failed`. -/
  | ftsReadFailed (errno : Errno)
  /-- `fts_close failed`. -/
  | ftsCloseFailed (errno : Errno)
deriving DecidableEq

/-- What is done. -/
inductive Event
  /-- An entry is passed to `rm_fts`. -/
  | passed (pos : Pos) (info : Info)
  /-- `fts_skip_tree`, with what its `fts_read` returns. -/
  | skip (pos : Pos) (read : Option (Pos × Info))
  /-- `prompt` is called. -/
  | prompt (pos : Pos) (mode : PromptAction)
  /-- A question, with its answer. -/
  | asked (pos : Pos) (question : Question) (yes : Bool)
  /-- `unlinkat`, with `AT_REMOVEDIR` or without. -/
  | unlinkat (pos : Pos) (dir : Bool) (failed : Option Errno)
  /-- The line that `--verbose` prints. -/
  | removed (pos : Pos) (dir : Bool)
  /-- A diagnostic about an entry. -/
  | error (pos : Pos) (diag : Diag)
  /-- A diagnostic of `rm`. -/
  | failed (diag : Diag)
deriving DecidableEq

/-- What `rm` asks the system and the user, at a time. A call without a value, where it has one, is one that fails. -/
structure System where
  canWriteAnyFile : Bool
  openatNeedsFchdir : Bool
  faccessat : ℕ → List Byte → Bool
  euidaccess : ℕ → List Byte → Option Errno
  euidaccessStat : ℕ → List Byte → Bool
  fstatat : ℕ → List Byte → Except Errno Kind
  isEmptyDir : ℕ → List Byte → Bool
  yesno : ℕ → Bool
  unlinkat : ℕ → List Byte → Bool → Option Errno
  ftsClose : Option Errno
  errno : ℕ → Option Errno

/-- The walk, and what was done. -/
structure St where
  walk : Walk
  log : List Event

def St.add (s : St) (l : List Event) : St := { s with log := s.log ++ l }

/-- `write_protected_non_symlink`. The status that `cache_fstatat` keeps is the one of the time `t`. -/
def writeProtectedNonSymlink (env : System) (t : ℕ) (file fullName : List Byte) : Except Errno Bool :=
  if env.canWriteAnyFile then .ok false
  else match env.fstatat t file with
    | .error e => .error e
    | .ok .lnk => .ok false
    | .ok _ =>
      if !env.openatNeedsFchdir && env.faccessat t file then .ok false
      else if 4096 ≤ fullName.length then .ok (!env.euidaccessStat t file)
      else match env.euidaccess t fullName with
        | none => .ok false
        | some .eacces => .ok true
        | some e => .error e

/-- What `prompt` finds of the type: `write_protected` and `dirent_type` before the `switch`. -/
def direntType (env : System) (t : ℕ) (ent : FTSENT) (isDir : Bool) :
    Except Errno Bool → Except Errno Bool × Option Kind
  | .error e => (.error e, if isDir then some .dir else none)
  | .ok writeProtected =>
    if isDir then (.ok writeProtected, some .dir)
    else match env.fstatat t ent.accpath with
      | .ok .lnk => (.ok writeProtected, some .lnk)
      | .ok .dir => (.ok writeProtected, some .dir)
      | .ok .other => (.ok writeProtected, none)
      | .error e => (.error e, none)

/-- `prompt`, where a question may have to be asked. -/
def promptAsk (env : System) (x : RmOptions) (t : ℕ) (ent : FTSENT) (isDir : Bool) (mode : PromptAction)
    (isEmptyP : Bool) (writeProtected : Except Errno Bool) : RmStatus × Ternary × List Event :=
  let (writeProtected, type) := direntType env t ent isDir writeProtected
  if writeProtected.isOk && type = some .lnk && x.interactive ≠ .always then (.ok, .unknown, [])
  else
    let writeProtected :=
      if writeProtected.isOk && type = some .dir && !x.recursive then .error .eisdir else writeProtected
    match writeProtected with
    | .error e => (.error, .unknown, [.error ent.pos (.cannotRemove (some e) ent.path)])
    | .ok writeProtected =>
      let isEmpty := isEmptyP && env.isEmptyDir t ent.accpath
      let isEmptyDirectory := if isEmptyP then if isEmpty then Ternary.yes else .no else .unknown
      let ask (question : Question) : RmStatus × Ternary × List Event :=
        (if env.yesno t then .ok else .userDeclined, isEmptyDirectory, [.asked ent.pos question (env.yesno t)])
      if type = some .dir && mode = .descendIntoDir && !isEmpty then ask (.descend writeProtected)
      else match env.fstatat t ent.accpath with
        | .error e => (.error, isEmptyDirectory, [.error ent.pos (.cannotRemove (some e) ent.path)])
        | .ok kind => ask (.remove writeProtected kind)

/-- `write_protected` in `prompt`, where it is looked at. -/
def writeProtected (env : System) (x : RmOptions) (t : ℕ) (ent : FTSENT) : Except Errno Bool :=
  if !x.ignoreMissingFiles && (x.interactive = .always || x.stdinTty) then
    writeProtectedNonSymlink env t ent.accpath ent.path
  else .ok false

/-- `prompt`; `isEmptyP` says that there is an `is_empty_p`. -/
def prompt (env : System) (x : RmOptions) (t : ℕ) (ent : FTSENT) (isDir : Bool) (mode : PromptAction)
    (isEmptyP : Bool) : RmStatus × Ternary × List Event :=
  if ent.number then (.userDeclined, .unknown, [.prompt ent.pos mode])
  else if x.interactive = .never then (.ok, .unknown, [.prompt ent.pos mode])
  else if x.interactive ≠ .always && (writeProtected env x t ent).toOption = some false then
    (.ok, .unknown, [.prompt ent.pos mode])
  else
    let (s, isEmptyDirectory, l) := promptAsk env x t ent isDir mode isEmptyP (writeProtected env x t ent)
    (s, isEmptyDirectory, .prompt ent.pos mode :: l)

/-- `mark_ancestor_dirs`. -/
def markAncestorDirs : List FTSENT → List FTSENT
  | [] => []
  | p :: up => if p.number then p :: up else { p with number := true } :: markAncestorDirs up

def St.mark (s : St) : St :=
  match s.walk.frames with
  | [] => s
  | ent :: up => { s with walk := { s.walk with frames := ent :: markAncestorDirs up } }

/-- `nonexistent_file_errno`. -/
def nonexistentFileErrno (e : Errno) : Bool := e = .enoent || e = .enotdir

/-- `ignorable_missing`. -/
def ignorableMissing (x : RmOptions) (e : Errno) : Bool := x.ignoreMissingFiles && nonexistentFileErrno e

/-- `errno` in `excise`, where a missing file is not taken for one on a read-only file system. -/
def unlinkErrno (env : System) (t : ℕ) (ent : FTSENT) (e : Errno) : Errno :=
  if e = .erofs then
    match env.fstatat (t + 1) ent.accpath with
    | .error .enoent => .enoent
    | _ => .erofs
  else e

/-- `excise`; the last result says that the ancestors are marked. -/
def excise (env : System) (x : RmOptions) (t : ℕ) (ent : FTSENT) (isDir : Bool) : RmStatus × List Event × Bool :=
  match env.unlinkat t ent.accpath isDir with
  | none =>
    (.ok, .unlinkat ent.pos isDir none :: if x.verbose then [.removed ent.pos isDir] else [], false)
  | some e =>
    if ignorableMissing x (unlinkErrno env t ent e) then (.ok, [.unlinkat ent.pos isDir (some e)], false)
    else
      let errno := if ent.info = .dnr then ent.errno else some (unlinkErrno env t ent e)
      (.error, [.unlinkat ent.pos isDir (some e), .error ent.pos (.cannotRemove errno ent.path)], true)

/-- `excise` in a run. -/
def St.excise (env : System) (x : RmOptions) (ent : FTSENT) (isDir : Bool) (s : St) : RmStatus × St :=
  let (status, l, mark) := Remove.excise env x s.log.length ent isDir
  (status, if mark then (s.add l).mark else s.add l)

/-- `fts_skip_tree`. -/
def ftsSkipTree (s : St) : St :=
  match s.walk.frames with
  | [] => s
  | ent :: up =>
    let walk := { s.walk with frames := { ent with skip := true } :: up }.read
    { walk, log := s.log ++ [.skip ent.pos (walk.frames.head?.map fun p => (p.pos, p.info))] }

/-- `strip_trailing_slashes` of the path of an entry of the command line, which `fts_accpath` points to as well. -/
def St.strip (ent : FTSENT) (up : List FTSENT) (s : St) : St :=
  let path := (stripTrailingSlashes ent.path).2
  { s with walk := { s.walk with frames := { ent with path, accpath := path } :: up } }

/-- `rm_fts` at a directory before its entries. -/
def rmFtsDir (env : System) (x : RmOptions) (ent : FTSENT) (up : List FTSENT) (s : St) : RmStatus × St :=
  if !x.recursive then
    (.error, ftsSkipTree (s.add [.error ent.pos (.cannotRemove (some .eisdir) ent.path)]).mark)
  else if ent.level = 0 then
    -- `if(dot_or_dotdot(last_component(ent->fts_accpath)));` decides nothing: the block after it always runs, and what
    -- comes behind that, with `ROOT_DEV_INO_CHECK`, never does.
    (.error, ftsSkipTree
      ((s.strip ent up).add [.error ent.pos (.cannotRemoveDirectory (stripTrailingSlashes ent.path).2)]))
  else
    let (status, isEmptyDirectory, l) := prompt env x s.log.length ent true .descendIntoDir true
    let (status, s) :=
      if status = .ok ∧ isEmptyDirectory = .yes then
        let (status, s) := (s.add l).excise env x ent true
        (status, ftsSkipTree s)
      else (status, s.add l)
    (status, if status = .ok then s else ftsSkipTree s.mark)

/-- `rm_fts` at anything that is to be removed. -/
def rmFtsRemove (env : System) (x : RmOptions) (ent : FTSENT) (s : St) : RmStatus × St :=
  if ent.info = .dp && x.oneFileSystem && 0 < ent.level && ent.tree.elsewhere s.walk.dev then
    (.error, s.mark.add [.error ent.pos (.differentDevice ent.path)])
  else
    let isDir := ent.info = .dp || ent.info = .dnr
    let (status, _, l) := prompt env x s.log.length ent isDir .removeDir false
    if status = .ok then (s.add l).excise env x ent isDir else (status, s.add l)

/-- `rm_fts` for the entry that was read; without a value, `abort` is called. -/
def rmFts (env : System) (x : RmOptions) (s : St) : Option (RmStatus × St) :=
  match s.walk.frames with
  | [] => none
  | ent :: up =>
    match ent.info with
    | .d => some (rmFtsDir env x ent up s)
    | .f | .ns | .sl | .slnone | .dp | .dnr | .nsok | .default => some (rmFtsRemove env x ent s)
    | .dc => some (.error, ftsSkipTree (s.add [.error ent.pos (.cycle ent.path)]))
    | .err => some (.error, ftsSkipTree (s.add [.error ent.pos (.traversalFailed ent.errno ent.path)]))
    | .dot | .init | .w => none

/-- The loop of `rm`, for at most so many entries. -/
def rmLoop (env : System) (x : RmOptions) : ℕ → RmStatus → St → Option (RmStatus × St)
  | 0, _, _ => none
  | n + 1, status, s =>
    match s.walk.read.frames with
    | [] =>
      -- `fts_read` clears `errno` where it comes to the end, and leaves it when it is called after that.
      match if s.walk.frames.isEmpty then env.errno s.log.length else none with
      | none => some (status, { s with walk := s.walk.read })
      | some e => some (.error, { s with walk := s.walk.read }.add [.failed (.ftsReadFailed e)])
    | ent :: _ =>
      match rmFts env x ({ s with walk := s.walk.read }.add [.passed ent.pos ent.info]) with
      | none => none
      | some (new, s) => rmLoop env x n (status.update new) s

/-- `rm`: the status, and what is done. -/
def rm (env : System) (x : RmOptions) (roots : List Tree) : Option (RmStatus × List Event) :=
  if roots.isEmpty then some (.ok, [])
  else
    match rmLoop env x ((visitsRoots x.oneFileSystem 0 roots).length + 1) .ok ⟨.start x.oneFileSystem roots, []⟩ with
    | none => none
    | some (status, s) =>
      match env.ftsClose with
      | none => some (status, s.log)
      | some e => some (.error, s.log ++ [.failed (.ftsCloseFailed e)])

/-! ## What one call does -/

/-- Events of `prompt` and `excise` for an entry. -/
inductive About (pos : Pos) : Event → Prop
  | prompt (mode : PromptAction) : About pos (.prompt pos mode)
  | asked (question : Question) (yes : Bool) : About pos (.asked pos question yes)
  | unlinkat (dir : Bool) (failed : Option Errno) : About pos (.unlinkat pos dir failed)
  | removed (dir : Bool) : About pos (.removed pos dir)
  | error (errno : Option Errno) (path : List Byte) : About pos (.error pos (.cannotRemove errno path))

section

variable (env : System) (x : RmOptions) (t : ℕ) (ent : FTSENT) (isDir : Bool)

theorem promptAsk_about (mode : PromptAction) (isEmptyP : Bool) (writeProtected : Except Errno Bool) :
    ∀ e ∈ (promptAsk env x t ent isDir mode isEmptyP writeProtected).2.2, About ent.pos e := by
  unfold promptAsk
  intro e he
  dsimp only at he
  split at he
  · simp at he
  · split at he
    · simp only [List.mem_singleton] at he
      subst he
      exact .error _ _
    · split at he
      · simp only [List.mem_singleton] at he
        subst he
        exact .asked _ _
      · split at he
        · simp only [List.mem_singleton] at he
          subst he
          exact .error _ _
        · simp only [List.mem_singleton] at he
          subst he
          exact .asked _ _

theorem prompt_about (mode : PromptAction) (isEmptyP : Bool) :
    ∀ e ∈ (prompt env x t ent isDir mode isEmptyP).2.2, About ent.pos e := by
  have hstart : ∀ e ∈ [Event.prompt ent.pos mode], About ent.pos e := by
    intro e he
    rw [List.mem_singleton.mp he]
    exact .prompt mode
  unfold prompt
  split
  · exact hstart
  · split
    · exact hstart
    · split
      · exact hstart
      · intro e he
        rcases List.mem_cons.mp he with rfl | he
        · exact .prompt mode
        · exact promptAsk_about _ _ _ _ _ _ _ _ e he

theorem excise_about : ∀ e ∈ (excise env x t ent isDir).2.1, About ent.pos e := by
  unfold excise
  split
  · intro e he
    rcases List.mem_cons.mp he with rfl | he
    · exact .unlinkat _ _
    · split at he
      · rw [List.mem_singleton.mp he]
        exact .removed _
      · simp at he
  · split
    · intro e he
      rw [List.mem_singleton.mp he]
      exact .unlinkat _ _
    · intro e he
      simp only [List.mem_cons, List.not_mem_nil, or_false] at he
      rcases he with rfl | rfl
      · exact .unlinkat _ _
      · exact .error _ _

end

/-- The entries that are passed to `rm_fts`. -/
def passed (l : List Event) : List (Pos × Info) :=
  l.filterMap fun
    | .passed pos info => some (pos, info)
    | _ => none

/-- The entries that `unlinkat` is called for. -/
def unlinked (l : List Event) : List Pos :=
  l.filterMap fun
    | .unlinkat pos _ _ => some pos
    | _ => none

/-- The calls of `fts_skip_tree`, with what they read. -/
def skips (l : List Event) : List (Pos × Option (Pos × Info)) :=
  l.filterMap fun
    | .skip pos read => some (pos, read)
    | _ => none

/-- The entry that an event is about. -/
def Event.pos? : Event → Option Pos
  | .passed pos _ | .skip pos _ | .prompt pos _ | .asked pos _ _ | .unlinkat pos _ _ | .removed pos _ | .error pos _ =>
    some pos
  | .failed _ => none

theorem About.pos_eq {pos : Pos} {e : Event} (h : About pos e) : e.pos? = some pos := by cases h <;> rfl

theorem passed_about {pos : Pos} {l : List Event} (h : ∀ e ∈ l, About pos e) : passed l = [] := by
  apply List.filterMap_eq_nil_iff.mpr
  intro e he
  cases h e he <;> rfl

theorem skips_about {pos : Pos} {l : List Event} (h : ∀ e ∈ l, About pos e) : skips l = [] := by
  apply List.filterMap_eq_nil_iff.mpr
  intro e he
  cases h e he <;> rfl

/-- **The events of one root** at the place `pos`. -/
structure Block (env : System) (x : RmOptions) (pos : Pos) (t : Tree) (l : List Event) : Prop where
  about : ∀ e ∈ l, e.pos? = some pos
  passed_eq : passed l = [(pos, t.info [])]
  skips_eq : skips l = if t.isDir then [(pos, some (pos, .dp))] else []
  refused : x.recursive → t.isDir → ∃ path, .error pos (.cannotRemoveDirectory path) ∈ l
  notWarned : ∀ path, .error pos (.dangerous path) ∉ l
  unlinked_eq : ¬ t.isDir → x.interactive = .never → (∀ time file dir, env.unlinkat time file dir = none) →
    unlinked l = [pos]

/-- The events of the roots from the `i`th on, one block after the other. -/
inductive Blocks (env : System) (x : RmOptions) : ℕ → List Tree → List Event → Prop
  | nil (i : ℕ) : Blocks env x i [] []
  | cons {i : ℕ} {t : Tree} {ts : List Tree} {l l' : List Event} :
    Block env x [i] t l → Blocks env x (i + 1) ts l' → Blocks env x i (t :: ts) (l ++ l')

section

variable {env : System} {x : RmOptions} {i : ℕ} {t : Tree} {ts : List Tree} {s : St}

theorem Tree.info_nil (t : Tree) : t.info [] = .d ↔ t.isDir = true := by
  rcases t with ⟨_, info⟩ | _ | _
  · simp [Tree.info, Tree.isDir, Tree.devIno, Info.ne_d_of_isLeaf info.2]
  · simp [Tree.info, Tree.isDir, Tree.devIno]
  · simp [Tree.info, Tree.isDir, Tree.devIno]

/-- A directory of the command line is skipped: it is returned again, and that is what is dropped. -/
theorem ftsSkipTree_root {ent : FTSENT} (h : s.walk.frames = [ent]) (hd : ent.info = .d) :
    ∃ p, (ftsSkipTree s).walk.frames = [p] ∧ p.info = .dp ∧ p.pos = ent.pos ∧ p.link = ent.link ∧
      (ftsSkipTree s).log = s.log ++ [.skip ent.pos (some (ent.pos, .dp))] := by
  have hread := Walk.read_skip (w := { s.walk with frames := [{ ent with skip := true }] }) rfl hd (by simp)
  have hskip : ftsSkipTree s
      = { walk := { s.walk with frames := [{ ent with info := .dp, skip := false }] },
          log := s.log ++ [.skip ent.pos (some (ent.pos, .dp))] } := by
    unfold ftsSkipTree
    rw [h]
    simp only [hread, List.head?_cons, Option.map_some]
  rw [hskip]
  exact ⟨_, rfl, rfl, rfl, rfl, rfl⟩

/-- No directory is above the command line. -/
theorem mark_root {ent : FTSENT} (h : s.walk.frames = [ent]) : s.mark = s := by
  unfold St.mark
  rw [h]
  simp only [markAncestorDirs, ← h]

/-- The events of a directory of the command line. -/
theorem block_dir (ht : t.isDir) {pos : Pos} {diag : Diag}
    (hrefused : x.recursive → ∃ path, diag = .cannotRemoveDirectory path) (hnot : ∀ path, diag ≠ .dangerous path) :
    Block env x pos t [.passed pos (t.info []), .error pos diag, .skip pos (some (pos, .dp))] where
  about := by simp [Event.pos?]
  passed_eq := rfl
  skips_eq := by
    rw [if_pos ht]
    rfl
  refused := by
    intro hx _
    obtain ⟨path, rfl⟩ := hrefused hx
    exact ⟨path, by simp⟩
  notWarned := by
    intro path hmem
    simp only [List.mem_cons, reduceCtorEq, Event.error.injEq, true_and, List.not_mem_nil, or_false, false_or] at hmem
    exact hnot path hmem.symm
  unlinked_eq := fun h => absurd ht h

variable (env x) in
/-- **A directory of the command line** is refused, and skipped. -/
theorem rmFts_dir (h : s.walk.frames = [arrive [] i t ts]) (ht : t.isDir) :
    ∃ s' l p, rmFts env x s = some (.error, s') ∧ s'.walk.frames = [p] ∧ p.info = .dp ∧ p.pos = [i] ∧ p.link = ts ∧
      s'.log = s.log ++ l ∧ Block env x [i] t (.passed [i] (t.info []) :: l) := by
  have hinfo : (arrive [] i t ts).info = .d := (Tree.info_nil t).mpr ht
  have hdir : rmFts env x s = some (rmFtsDir env x (arrive [] i t ts) [] s) := by
    unfold rmFts
    rw [h]
    simp only [hinfo]
  by_cases hx : x.recursive
  · -- The name is stripped, and refused whatever it is.
    have hlevel : (arrive [] i t ts).level = 0 := rfl
    have hroot : rmFtsDir env x (arrive [] i t ts) [] s = (.error, ftsSkipTree
        ((s.strip (arrive [] i t ts) []).add [.error [i] (.cannotRemoveDirectory (stripTrailingSlashes t.name).2)])) := by
      unfold rmFtsDir
      rw [if_neg (by simp [hx]), if_pos hlevel]
      rfl
    obtain ⟨p, hframes, hp, hpos, hlink, hlog⟩ := ftsSkipTree_root
      (s := (s.strip (arrive [] i t ts) []).add [.error [i] (.cannotRemoveDirectory (stripTrailingSlashes t.name).2)])
      rfl hinfo
    have hblock : Block env x [i] t [.passed [i] (t.info []),
        .error [i] (.cannotRemoveDirectory (stripTrailingSlashes t.name).2), .skip [i] (some ([i], .dp))] :=
      block_dir ht (fun _ => ⟨_, rfl⟩) (by simp)
    rw [hdir, hroot]
    refine ⟨_, _, p, rfl, hframes, hp, hpos, hlink, ?_, hblock⟩
    rw [hlog]
    simp [St.add, St.strip, arrive, posOf]
  · have hroot : rmFtsDir env x (arrive [] i t ts) [] s
        = (.error, ftsSkipTree (s.add [.error [i] (.cannotRemove (some .eisdir) t.name)]).mark) := by
      unfold rmFtsDir
      rw [if_pos (by simp [hx])]
      rfl
    have hmark : (s.add [.error [i] (.cannotRemove (some .eisdir) t.name)]).mark
        = s.add [.error [i] (.cannotRemove (some .eisdir) t.name)] := mark_root h
    have hblock : Block env x [i] t [.passed [i] (t.info []), .error [i] (.cannotRemove (some .eisdir) t.name),
        .skip [i] (some ([i], .dp))] :=
      block_dir ht (fun hr => absurd hr hx) (by simp)
    obtain ⟨p, hframes, hp, hpos, hlink, hlog⟩ := ftsSkipTree_root
      (s := s.add [.error [i] (.cannotRemove (some .eisdir) t.name)]) h hinfo
    rw [hdir, hroot, hmark]
    refine ⟨_, _, p, rfl, hframes, hp, hpos, hlink, ?_, hblock⟩
    rw [hlog]
    simp [St.add, arrive, posOf]

variable (env x) in
/-- `excise` for an entry of the command line. -/
theorem stExcise_root {ent : FTSENT} (isDir : Bool) (h : s.walk.frames = [ent]) :
    (s.excise env x ent isDir).2 = s.add (excise env x s.log.length ent isDir).2.1 := by
  unfold St.excise
  dsimp only
  split
  · exact mark_root h
  · rfl

theorem St.add_add (s : St) (l l' : List Event) : (s.add l).add l' = s.add (l ++ l') := by
  simp [St.add]

variable (env x) in
/-- Nothing is asked with `RMI_NEVER`. -/
theorem prompt_never (ent : FTSENT) (time : ℕ) (isDir : Bool) (mode : PromptAction) (isEmptyP : Bool)
    (hnever : x.interactive = .never) (hnumber : ent.number = false) :
    prompt env x time ent isDir mode isEmptyP = (.ok, .unknown, [.prompt ent.pos mode]) := by
  simp [prompt, hnever, hnumber]

theorem unlinked_excise (ent : FTSENT) (time : ℕ) (isDir : Bool)
    (hall : ∀ time file dir, env.unlinkat time file dir = none) :
    unlinked (excise env x time ent isDir).2.1 = [ent.pos] := by
  unfold excise
  rw [hall]
  dsimp only
  split <;> rfl

variable (env x) in
/-- What is done with an entry of the command line that is to be removed. -/
theorem rmFtsRemove_root {ent : FTSENT} (h : s.walk.frames = [ent]) (hlevel : ent.level = 0) :
    ∃ status l, rmFtsRemove env x ent s = (status, s.add l) ∧ (∀ e ∈ l, About ent.pos e) ∧
      (x.interactive = .never → ent.number = false → (∀ time file dir, env.unlinkat time file dir = none) →
        unlinked l = [ent.pos]) := by
  unfold rmFtsRemove
  rw [if_neg (by simp [hlevel])]
  dsimp only
  generalize (decide (ent.info = .dp) || decide (ent.info = .dnr)) = isDir
  have hprompt := prompt_about env x s.log.length ent isDir .removeDir false
  have hnever := prompt_never env x ent s.log.length isDir .removeDir false
  generalize prompt env x s.log.length ent isDir .removeDir false = r at hprompt hnever ⊢
  obtain ⟨status, isEmptyDirectory, l⟩ := r
  dsimp only at hprompt hnever ⊢
  have hexcise := stExcise_root env x (s := s.add l) isDir h
  have habout := excise_about env x (s.add l).log.length ent isDir
  split
  · refine ⟨_, _, Prod.ext rfl (hexcise.trans (St.add_add _ _ _)), ?_, ?_⟩
    · intro e he
      rcases List.mem_append.mp he with he | he
      · exact hprompt e he
      · exact habout e he
    · intro hx hnumber hall
      obtain ⟨rfl, rfl, rfl⟩ := Prod.mk.injEq .. ▸ hnever hx hnumber
      rw [unlinked, List.filterMap_append]
      exact unlinked_excise ent _ isDir hall
  · next hno =>
    refine ⟨_, l, rfl, hprompt, ?_⟩
    intro hx hnumber _
    have := congrArg Prod.fst (hnever hx hnumber)
    exact absurd this hno

/-- A file that is no directory is to be removed. -/
theorem rmFts_isLeaf {ent : FTSENT} {up : List FTSENT} (h : s.walk.frames = ent :: up) (hinfo : ent.info.isLeaf) :
    rmFts env x s = some (rmFtsRemove env x ent s) := by
  unfold rmFts
  rw [h]
  cases hent : ent.info <;> simp_all [Info.isLeaf]

variable (env x) in
/-- What `rm_fts` does with anything else on the command line. -/
theorem rmFts_leaf (h : s.walk.frames = [arrive [] i t ts]) (ht : ¬ t.isDir) :
    ∃ status l, rmFts env x s = some (status, s.add l) ∧ Block env x [i] t (.passed [i] (t.info []) :: l) := by
  obtain ⟨status, l, hrm, habout, hnever⟩ := rmFtsRemove_root env x h rfl
  have hinfo : (arrive [] i t ts).info.isLeaf := by
    rcases t with ⟨_, info⟩ | _ | _
    · exact info.2
    · exact absurd rfl ht
    · exact absurd rfl ht
  refine ⟨status, l, ?_, ?_⟩
  · rw [rmFts_isLeaf h hinfo, hrm]
  · exact {
      about := by
        intro e he
        rcases List.mem_cons.mp he with rfl | he
        · rfl
        · exact (habout e he).pos_eq
      passed_eq := congrArg (List.cons _) (passed_about habout)
      skips_eq := by
        have hskips : skips l = [] := skips_about habout
        rw [if_neg ht]
        exact hskips
      refused := fun _ hdir => absurd hdir ht
      notWarned := by
        intro path hmem
        rcases List.mem_cons.mp hmem with hmem | hmem
        · cases hmem
        · cases habout _ hmem
      unlinked_eq := fun _ hx hall => hnever hx rfl hall }

variable (env x) in
/-- **One root** is one block of events, and it is done with then. -/
theorem rmFts_root (h : s.walk.frames = [arrive [] i t ts]) :
    ∃ status s' l p, rmFts env x s = some (status, s') ∧ s'.walk.frames = [p] ∧ p.info ≠ .d ∧ p.pos = [i] ∧
      p.link = ts ∧ s'.log = s.log ++ l ∧ Block env x [i] t (.passed [i] (t.info []) :: l) := by
  by_cases ht : t.isDir
  · obtain ⟨s', l, p, hrm, hframes, hinfo, hpos, hlink, hlog, hblock⟩ := rmFts_dir env x h ht
    exact ⟨_, s', l, p, hrm, hframes, by simp [hinfo], hpos, hlink, hlog, hblock⟩
  · obtain ⟨status, l, hrm, hblock⟩ := rmFts_leaf env x h ht
    have hinfo : t.info [] ≠ .d := fun hd => ht ((Tree.info_nil t).mp hd)
    exact ⟨status, s.add l, l, _, hrm, h, hinfo, rfl, rfl, rfl, hblock⟩

end

end CodingExercises.Coreutils.Remove
