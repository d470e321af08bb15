import CodingExercises.Coreutils.ChownCore
import CodingExercises.Coreutils.FtsWalk

/-!
# chown -R: which files are changed

`change_file_owner` and `chown_files` of `lib/chown-core.c`, over the entries that `fts_read` returns. A run is a loop of
`fts_read` and `change_file_owner`; what is done is recorded.
-/

namespace CodingExercises.Coreutils.ChownFiles

open Lib FtsWalk

/-- `EOPNOTSUPP`. -/
def eopnotsupp : Errno := .other 95

/-- The types of files that make a difference. -/
inductive Kind
  | reg
  | dir
  | lnk
  | other
deriving DecidableEq

/-- What the functions use of a `struct stat`. -/
structure Stat where
  kind : Kind
  dev : ℕ
  ino : ℕ
  uid : ℕ
  gid : ℕ
deriving DecidableEq

/-- What `restricted_chown` uses of it. -/
def Stat.orig (st : Stat) : Chown.Stat where
  kind := match st.kind with
    | .reg => .reg
    | .dir => .dir
    | .lnk | .other => .other
  dev := st.dev
  ino := st.ino
  uid := st.uid
  gid := st.gid

/-- `enum Verbosity`. -/
inductive Verbosity
  | high
  | changesOnly
  | off
deriving DecidableEq

/-- `enum Changed_status`. -/
inductive ChangedStatus
  | notApplied
  | succeeded
  | failed
  | noChangeRequested
deriving DecidableEq

/-- `struct Chown_option`. `root_dev_ino` is null without `--recursive`. -/
structure ChownOption where
  verbosity : Verbosity
  recurse : Bool
  rootDevIno : Option (ℕ × ℕ)
  affectSymlinkReferent : Bool
  forceSilent : Bool
  userName : Option (List Byte)
  groupName : Option (List Byte)
  recurse_of_root : rootDevIno.isSome → recurse

/-- The arguments of `chown_files` but the files; of `bit_flags` it is `FTS_PHYSICAL`, `FTS_COMFOLLOW` and `FTS_XDEV` that
matter. -/
structure Request where
  physical : Bool
  comfollow : Bool
  xdev : Bool
  uid : ℕ
  gid : ℕ
  requiredUid : ℕ
  requiredGid : ℕ
  chopt : ChownOption

/-- The diagnostics, with the paths that they quote. -/
inductive Diag
  /-- `cannot access %s`. -/
  | cannotAccess (errno : Option Errno) (path : List Byte)
  /-- `%s`. -/
  | traversal (errno : Option Errno) (path : List Byte)
  /-- `cannot read directory %s`. -/
  | cannotReadDirectory (errno : Option Errno) (path : List Byte)
  /-- `cannot dereference %s`. -/
  | cannotDereference (errno : Errno) (path : List Byte)
  /-- `changing ownership of %s`, or `changing group of %s`. -/
  | changing (ownership : Bool) (path : List Byte)
  /-- `ROOT_DEV_INO_WARN`. -/
  | dangerous (path : List Byte)
  /-- The warning of `emit_cycle_warning`. -/
  | cycle (path : List Byte)
  /-- `fts_read failed`. -/
  | ftsReadFailed (errno : Errno)
  /-- `fts_close failed`. -/
  | ftsCloseFailed (errno : Errno)
deriving DecidableEq

/-- A visit of an entry of the walk. -/
abbrev Visit := Pos × Info

/-- What is done. -/
inductive Event
  /-- An entry is passed to `change_file_owner`. -/
  | passed (visit : Visit)
  /-- `lchownat`, with the `errno` of a failure. -/
  | lchownat (visit : Visit) (file : List Byte) (uid gid : ℕ) (failed : Option Errno)
  /-- `chownat`. -/
  | chownat (visit : Visit) (file : List Byte) (uid gid : ℕ) (failed : Option Errno)
  /-- `fchown` of `restricted_chown`. -/
  | fchown (visit : Visit) (uid gid : ℕ)
  /-- A diagnostic. -/
  | error (diag : Diag)
  /-- `describe_change`. -/
  | described (path : List Byte) (changed : ChangedStatus) (user group : Option (List Byte))
deriving DecidableEq

/-- What `chown_files` asks the system, about an entry: what fts has found with `stat`, what it finds when it looks again,
what the call of `fstatat` finds, how calls end, and the replies to `restricted_chown`. -/
structure System (φ : Type) where
  stat : Pos → Stat
  again : Pos → Tree
  fstatat : Pos → Except Errno Stat
  lchownat : Pos → Option Errno
  chownat : Pos → Option Errno
  reply : Pos → (c : Chown.Call φ) → Chown.Reply φ c
  errno : Option Errno
  ftsClose : Option Errno

/-- The walk, with the order to look again at the current entry; the result so far; and what was done. -/
structure St where
  walk : Walk
  again : Bool
  ok : Bool
  log : List Event

def St.add (s : St) (l : List Event) : St := { s with log := s.log ++ l }

/-- `error`, unless it is to be silent. -/
def ChownOption.error (x : ChownOption) (diag : Diag) : List Event := if x.forceSilent then [] else [.error diag]

/-- `ROOT_DEV_INO_CHECK`. -/
def ChownOption.rootDevInoCheck (x : ChownOption) (st : Stat) : Bool := x.rootDevIno = some (st.dev, st.ino)

/-- `FTSENT_IS_DIRECTORY`. -/
def isDirectory : Info → Bool
  | .d | .dc | .dp | .dnr => true
  | _ => false

/-- `cycle_warning_required`. -/
def cycleWarningRequired (r : Request) (level : ℕ) : Bool :=
  r.physical && !r.comfollow || r.physical && r.comfollow && level ≠ 0

section

variable {φ : Type} (env : System φ) (r : Request)

/-- `fts_read`. -/
def St.ftsRead (s : St) : St :=
  if s.again then
    match s.walk.frames with
    | [] => { s with again := false }
    | ent :: up =>
      let t := env.again ent.pos
      { s with
        again := false
        walk := { s.walk with frames := { ent with tree := t, info := t.info (idsOf up) } :: up } }
  else { s with walk := s.walk.read }

/-- `fts_set` with `FTS_SKIP`. -/
def St.ftsSkip (s : St) : St :=
  match s.walk.frames with
  | [] => s
  | ent :: up => { s with walk := { s.walk with frames := { ent with skip := true } :: up } }

/-- `fts_set` with `FTS_AGAIN`, for an entry that gets its `fts_number`. -/
def St.ftsAgain (s : St) : St :=
  match s.walk.frames with
  | [] => s
  | ent :: up => { s with again := true, walk := { s.walk with frames := { ent with number := true } :: up } }

/-- What the `switch` of `change_file_owner` comes to: a result, or `ok`. -/
inductive Switch
  | returns (result : Bool)
  | goesOn (ok : Bool)
deriving DecidableEq

/-- The `switch` on `fts_info`. -/
def switchInfo (ent : FTSENT) (s : St) : Switch × St :=
  match ent.info with
  | .d =>
    if r.chopt.recurse then
      if r.chopt.rootDevInoCheck (env.stat ent.pos) then
        (.returns false, (s.add [.error (.dangerous ent.path)]).ftsSkip.ftsRead env)
      else (.returns true, s)
    else (.goesOn true, s)
  | .dp => if !r.chopt.recurse then (.returns true, s) else (.goesOn true, s)
  | .ns =>
    if ent.level = 0 && !ent.number then (.returns true, s.ftsAgain)
    else (.goesOn false, s.add (r.chopt.error (.cannotAccess ent.errno ent.path)))
  | .err => (.goesOn false, s.add (r.chopt.error (.traversal ent.errno ent.path)))
  | .dnr => (.goesOn false, s.add (r.chopt.error (.cannotReadDirectory ent.errno ent.path)))
  | .dc =>
    if cycleWarningRequired r ent.level then (.returns false, s.add [.error (.cycle ent.path)])
    else (.goesOn true, s)
  | _ => (.goesOn true, s)

/-- `required_uid` and `required_gid`, where they are given, are the ids of the file. -/
def Request.passes (st : Stat) : Bool :=
  (r.requiredUid = Chown.noId || r.requiredUid = st.uid) && (r.requiredGid = Chown.noId || r.requiredGid = st.gid)

/-- `ok`, `do_chown` and `file_stats`, with the diagnostics. -/
def selectFile (ent : FTSENT) (ok : Bool) : Bool × Bool × Option Stat × List Event :=
  if !ok then (ok, false, none, [])
  else if r.requiredUid = Chown.noId && r.requiredGid = Chown.noId && r.chopt.verbosity = .off &&
      r.chopt.rootDevIno.isNone && !r.chopt.affectSymlinkReferent then
    (ok, true, some (env.stat ent.pos), [])
  else if r.chopt.affectSymlinkReferent && (env.stat ent.pos).kind = .lnk then
    match env.fstatat ent.pos with
    | .error e => (false, false, none, r.chopt.error (.cannotDereference e ent.path))
    | .ok st => (ok, r.passes st, some st, [])
  else (ok, r.passes (env.stat ent.pos), some (env.stat ent.pos), [])

/-- The arguments of `restricted_chown`. -/
def Request.args (ent : FTSENT) (st : Stat) : Chown.Args where
  file := ent.accpath
  origSt := st.orig
  uid := r.uid
  gid := r.gid
  requiredUid := r.requiredUid
  requiredGid := r.requiredGid

/-- The calls of `fchown`. -/
def fchowns (visit : Visit) (calls : List (Chown.Call φ)) : List Event :=
  calls.filterMap fun
    | .fchown _ uid gid => some (.fchown visit uid gid)
    | _ => none

/-- The change of a file: `ok`, `symlink_changed` and `do_chown`. -/
def changeOwner (ent : FTSENT) (st : Stat) : Bool × Bool × Bool × List Event :=
  let visit := (ent.pos, ent.info)
  if !r.chopt.affectSymlinkReferent then
    let call := Event.lchownat visit ent.accpath r.uid r.gid (env.lchownat ent.pos)
    if (env.lchownat ent.pos).isNone then (true, true, true, [call])
    else if env.lchownat ent.pos = some eopnotsupp then (true, false, true, [call])
    else (false, true, true, [call])
  else
    let (status, calls) := (Chown.restrictedChown (r.args ent st)).answered (env.reply ent.pos)
    let l := fchowns visit calls
    match status with
    | .ok => (true, true, true, l)
    | .doOrdinaryChown =>
      ((env.chownat ent.pos).isNone, true, true, l ++ [.chownat visit ent.accpath r.uid r.gid (env.chownat ent.pos)])
    | .error => (false, true, true, l)
    | .inodeChanged | .excluded => (false, true, false, l)

/-- `changed` of `change_file_owner`. -/
def ownerChanged (st : Option Stat) (ok symlinkChanged doChown : Bool) : Bool :=
  (doChown && ok && symlinkChanged) &&
    !(st.any fun st => (r.uid = Chown.noId || r.uid = st.uid) && (r.gid = Chown.noId || r.gid = st.gid))

/-- `ch_status` of `change_file_owner`. -/
def changedStatus (ok symlinkChanged changed : Bool) : ChangedStatus :=
  if !ok then .failed else if !symlinkChanged then .notApplied else if !changed then .noChangeRequested else .succeeded

/-- `describe_change`, where it is called. -/
def describe (ent : FTSENT) (st : Option Stat) (ok symlinkChanged doChown : Bool) : List Event :=
  if r.chopt.verbosity ≠ .off && (ownerChanged r st ok symlinkChanged doChown || r.chopt.verbosity = .high) then
    [.described ent.path (changedStatus ok symlinkChanged (ownerChanged r st ok symlinkChanged doChown))
      r.chopt.userName r.chopt.groupName]
  else []

/-- The change of a file that is selected, with the diagnostic. -/
def changeAndReport (ent : FTSENT) (ok doChown : Bool) (st : Option Stat) : Bool × Bool × Bool × List Event :=
  match doChown, st with
  | true, some st =>
    match changeOwner env r ent st with
    | (ok, symlinkChanged, doChown, l) =>
      (ok, symlinkChanged, doChown,
        l ++ if doChown && !ok then r.chopt.error (.changing (r.uid ≠ Chown.noId) ent.path) else [])
  | _, _ => (ok, true, false, [])

/-- `change_file_owner` after the `switch`. -/
def changeSelected (ent : FTSENT) (ok : Bool) (s : St) : Bool × St :=
  match selectFile env r ent ok with
  | (ok, doChown, st, diags) =>
    if ok && isDirectory ent.info && st.any r.chopt.rootDevInoCheck then
      (false, s.add (diags ++ [.error (.dangerous ent.path)]))
    else
      match changeAndReport env r ent ok doChown st with
      | (ok, symlinkChanged, doChown, l) =>
        let s := s.add (diags ++ l ++ describe r ent st ok symlinkChanged doChown)
        (ok, if !r.chopt.recurse then s.ftsSkip else s)

/-- `change_file_owner`. -/
def changeFileOwner (ent : FTSENT) (s : St) : Bool × St :=
  match switchInfo env r ent s with
  | (.returns result, s) => (result, s)
  | (.goesOn ok, s) => changeSelected env r ent ok s

/-- The loop of `chown_files`, for at most so many calls of `fts_read`. -/
def chownLoop : ℕ → St → Option St
  | 0, _ => none
  | n + 1, s =>
    match (s.ftsRead env).walk.frames with
    | [] =>
      -- `fts_read` clears `errno` where it comes to the end, and leaves it when it is called after that.
      match if s.walk.frames.isEmpty then env.errno else none with
      | none => some (s.ftsRead env)
      | some e => some ({ s.ftsRead env with ok := false }.add (r.chopt.error (.ftsReadFailed e)))
    | ent :: _ =>
      match changeFileOwner env r ent ((s.ftsRead env).add [.passed (ent.pos, ent.info)]) with
      | (ok, s) => chownLoop n { s with ok := s.ok && ok }

/-- `chown_files`: the result, and what is done. -/
def chownFiles (n : ℕ) (roots : List Tree) : Option (Bool × List Event) :=
  match chownLoop env r n ⟨.start r.xdev roots, false, true, []⟩ with
  | none => none
  | some s =>
    match env.ftsClose with
    | none => some (s.ok, s.log)
    | some e => some (false, s.log ++ [.error (.ftsCloseFailed e)])

end

end CodingExercises.Coreutils.ChownFiles
