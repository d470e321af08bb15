import CodingExercises.Coreutils.Fts
import CodingExercises.Lib.Ledger

/-!
# fts: descriptors

`lib/fts.c` with all of its options and instructions, for the descriptors that a walk opens: directory streams and their
duplicates, what `diropen` gives, `fts_rfd` and `fts_symfd`.

- A system call can answer anything; the answers are those of the moment (`Os`). So paths and what they lead to are left out,
  and `lib/fts-cycle.c` is a parameter (`Cycles`).
- A descriptor is the number of its opening, so that one that has been closed is not taken for a later one.
- `fts_child` is `NULL` between the calls, since there is no call of `fts_children`.

A function has no value where it aborts.
-/

namespace CodingExercises.Coreutils.FtsDescriptors

open Lib
open Fts (Path Name Errno Kind Dirent Stat IRing iRingInit iRingPush iRingPop atFdcwd isDot)

/-! ## Entries and streams -/

/-- The options of `fts_open`, and `FTS_STOP`. -/
structure Options where
  comfollow : Bool
  logical : Bool
  nochdir : Bool
  nostat : Bool
  physical : Bool
  seedot : Bool
  xdev : Bool
  tightCycleCheck : Bool
  cwdfd : Bool
  deferStat : Bool
  stop : Bool

/-- `fts_info`. -/
inductive Info
  | d
  | dc
  | default
  | dnr
  | dot
  | dp
  | err
  | f
  | init
  | ns
  | nsok
  | sl
  | slnone
deriving DecidableEq

/-- `fts_instr`. -/
inductive Instr
  | noinstr
  | again
  | follow
  | skip
deriving DecidableEq

/-- `FTSENT`. `dontchdir` and `symfollow` are the bits of `fts_flags`. Whether `symfd` is open is not recorded in the
program. -/
structure FTSENT where
  errno : Option Errno
  level : ℤ
  info : Info
  dontchdir : Bool
  symfollow : Bool
  symfd : ℤ
  symOpen : Bool
  instr : Instr
  stat : Stat
  required : Bool
  name : Name

/-- `fts_alloc`. What it does not set is arbitrary. -/
def ftsAlloc (name : Name) : FTSENT :=
  ⟨none, 0, .init, false, false, 0, false, .noinstr, ⟨none, 0, 0⟩, false, name⟩

/-- An entry with its list of links. -/
structure Frame where
  entry : FTSENT
  link : List FTSENT

/-- The answers of the system: whether a call fails that opens, duplicates or changes to a descriptor; what a file is; the
entries of a directory; whether there is memory; and whether a file system is such that entries are to be sorted, or the
number of links says that there are no more directories. -/
structure Os where
  fails : ℕ → Option Errno
  stat : ℕ → Except Errno Stat
  readdir : ℕ → List Dirent
  memory : ℕ → Bool
  yes : ℕ → Bool

/-- `lib/fts-cycle.c`: `enter_dir` gives whether there was memory and whether `fts_info` is set to `FTS_DC`; `leave_dir` is
given the directory above, if there is one. -/
structure Cycles (κ : Type) where
  setupDir : κ → Bool × κ
  freeDir : κ → κ
  enterDir : κ → Stat → Option (Bool × Bool × κ)
  leaveDir : κ → Stat → Option Stat → Option κ

/-- What is around a walk. -/
structure Env (κ : Type) where
  os : Os
  cycles : Cycles κ
  compar : Option (FTSENT → FTSENT → ℤ)
  qsort : (FTSENT → FTSENT → ℤ) → List FTSENT → List FTSENT
  qsort_perm : ∀ c l, (qsort c l).Perm l

/-- `FTS`; the number of answers so far; and the descriptors. -/
structure FTS (κ : Type) where
  cur : List Frame
  options : Options
  cwdFd : ℤ
  ring : IRing
  rfd : ℤ
  dev : ℕ
  cycle : κ
  now : ℕ
  ledger : Ledger

/-! ## System calls -/

section

variable {κ : Type} (env : Env κ) (s : FTS κ)

def FTS.tick : FTS κ := { s with now := s.now + 1 }

/-- `SET (FTS_STOP)`. -/
def FTS.setStop : FTS κ := { s with options := { s.options with stop := true } }

/-- A call that opens a descriptor. -/
def FTS.opens : Except Errno ℤ × FTS κ :=
  match env.os.fails s.now with
  | some e => (.error e, s.tick)
  | none => (.ok s.ledger.acquire.1, { s.tick with ledger := s.ledger.acquire.2 })

/-- A descriptor is used; `AT_FDCWD` is none. -/
def FTS.uses (fd : ℤ) : FTS κ := if fd = atFdcwd then s else { s with ledger := s.ledger.use fd }

/-- `close`. -/
def FTS.closes (fd : ℤ) : FTS κ := { s with ledger := s.ledger.release fd }

/-- `fchdir`. -/
def FTS.fchdir (fd : ℤ) : Option Errno × FTS κ := (env.os.fails s.now, (s.uses fd).tick)

/-- What `fts_stat` says of a file that there is. -/
def statInfo (p : FTSENT) (sb : Stat) : Info :=
  match sb.kind with
  | some .dir => if isDot p.name ∧ p.level ≠ 0 then .dot else .d
  | some .lnk => .sl
  | some .reg => .f
  | _ => .default

/-- `fts_stat`, with the assignment to `fts_info`. -/
def ftsStat (p : FTSENT) (follow : Bool) : FTSENT × FTS κ :=
  let ns (e : Errno) : FTSENT := { p with errno := some e, stat := ⟨none, 0, 0⟩, info := .ns }
  let follow := follow ∨ p.level = 0 ∧ s.options.comfollow
  if s.options.logical ∨ follow then
    match env.os.stat s.now with
    | .ok sb => ({ p with stat := sb, info := statInfo p sb }, s.tick)
    | .error e =>
      if e = .enoent then
        match env.os.stat (s.now + 1) with
        | .ok sb => ({ p with stat := sb, info := .slnone }, s.tick.tick)
        | .error _ => (ns e, s.tick.tick)
      else (ns e, s.tick)
  else
    match env.os.stat s.now with
    | .ok sb => ({ p with stat := sb, info := statInfo p sb }, (s.uses s.cwdFd).tick)
    | .error e => (ns e, (s.uses s.cwdFd).tick)

/-- `diropen`. -/
def diropen : Except Errno ℤ × FTS κ := (if s.options.cwdfd then s.uses s.cwdFd else s).opens env

/-! ## The virtual working directory -/

/-- One turn of the loop of `fd_ring_clear`. -/
def fdRingClearOne : FTS κ :=
  match iRingPop s.ring with
  | none => s
  | some (fd, ring) => if fd ≥ 0 then { s with ring }.closes fd else { s with ring }

/-- `fd_ring_clear`. The ring is empty after four turns (`fdRingClear_empty`). -/
def fdRingClear : FTS κ := fdRingClearOne (fdRingClearOne (fdRingClearOne (fdRingClearOne s)))

/-- `cwd_advanced_fd`. -/
def cwdAdvancedFd (fd : ℤ) (chdirDownOne : Bool) : Option (FTS κ) :=
  let old := s.cwdFd
  if ¬(old ≠ fd ∨ old = atFdcwd) then none
  else
    let s :=
      if chdirDownOne then
        let (prevFdInSlot, ring) := iRingPush s.ring old
        if prevFdInSlot ≥ 0 then { s with ring }.closes prevFdInSlot else { s with ring }
      else if !s.options.nochdir then
        if old ≥ 0 then s.closes old else s
      else s
    some { s with cwdFd := fd }

/-- `FCHDIR`, with the error if it fails. -/
def ftsFchdir (fd : ℤ) : Option (Option Errno × FTS κ) :=
  if s.options.nochdir then some (none, s)
  else if s.options.cwdfd then (cwdAdvancedFd s fd true).map fun s => (none, s)
  else some (s.fchdir env fd)

/-- `RESTORE_INITIAL_CWD`. -/
def restoreInitialCwd : Option (Option Errno × FTS κ) :=
  let s := fdRingClear s
  ftsFchdir env s (if s.options.cwdfd then atFdcwd else s.rfd)

/-- `fts_safe_changedir`, with the error if it fails. -/
def ftsSafeChangedir (fd : ℤ) (dir : Option Path) : Option (Option Errno × FTS κ) :=
  let isDotdot : Bool := dir = some []
  if s.options.nochdir then some (none, if s.options.cwdfd ∧ fd ≥ 0 then s.closes fd else s)
  else do
    let (fd, s) ←
      if fd < 0 ∧ isDotdot ∧ s.options.cwdfd ∧ !s.ring.empty then do
        let (parentFd, ring) ← iRingPop s.ring
        some (if parentFd ≥ 0 then parentFd else fd, { s with ring })
      else some (fd, s)
    match if fd < 0 then diropen env s else (.ok fd, s) with
    | (.error e, s) => some (some e, s)
    | (.ok newfd, s) =>
      if s.options.cwdfd then (cwdAdvancedFd s newfd (!isDotdot)).map fun s => (none, s)
      else
        let (ret, s) := s.fchdir env newfd
        some (ret, if fd < 0 then s.closes newfd else s)

/-! ## Cycles -/

/-- `enter_dir`. -/
def enterDir (p : FTSENT) : Option (Bool × FTSENT × FTS κ) := do
  let (ok, cyclic, cycle) ← env.cycles.enterDir s.cycle p.stat
  some (ok, if cyclic then { p with info := .dc } else p, { s with cycle })

/-- `leave_dir`. -/
def leaveDir (p : FTSENT) (parent : Option FTSENT) : Option (FTS κ) := do
  let cycle ← env.cycles.leaveDir s.cycle p.stat ((parent.filter fun q => q.level ≥ 0).map FTSENT.stat)
  some { s with cycle }

/-! ## Reading a directory -/

/-- `opendir`, or `opendirat` with its `fdopendir`. -/
def opendir : Except Errno ℤ × FTS κ :=
  if !s.options.nochdir ∧ s.options.cwdfd then
    match (s.uses s.cwdFd).opens env with
    | (.error e, s) => (.error e, s)
    | (.ok newFd, s) =>
      match env.os.fails s.now with
      | some e => (.error e, s.tick.closes newFd)
      | none => (.ok newFd, s.tick)
  else s.opens env

/-- `fts_build` after the directory has been opened: what is stat'ed and entered once more. -/
def ftsBuildStat (cur : FTSENT) (parent : Option FTSENT) : Option (Bool × FTSENT × FTS κ) :=
  if s.options.tightCycleCheck then do
    let s ← leaveDir env s cur parent
    let (p, s) := ftsStat env s cur false
    enterDir env s { p with info := cur.info }
  else some (true, cur, s)

/-- `fts_build` where it changes to the directory: whether it has. -/
def ftsBuildChange (cur : FTSENT) (dirp : ℤ) : Option (Bool × FTSENT × FTS κ) :=
  -- `nlinks` is 0 only where the links are counted
  let nlinks : Bool := !(s.options.nostat ∧ s.options.physical) ∨ env.os.yes s.now
  let fail (e : Errno) : FTSENT := { cur with errno := if nlinks then some e else cur.errno, dontchdir := true }
  match if s.options.cwdfd then (s.tick.uses dirp).opens env else (.ok dirp, s.tick) with
  | (.error e, s) => some (false, fail e, s.closes dirp)
  | (.ok dirFd, s) => do
    let (err, s) ← ftsSafeChangedir env s dirFd none
    match err with
    | none => some (true, cur, s)
    | some e =>
      let s := s.closes dirp
      some (false, fail e, if s.options.cwdfd ∧ dirFd ≥ 0 then s.closes dirFd else s)

/-- The body of the loop of `fts_build`, unless there is no memory. -/
def ftsBuildEntry (level : ℤ) (dp : Dirent) : Option FTSENT × FTS κ :=
  if !env.os.memory s.now then (none, s.tick)
  else
    let p := { ftsAlloc dp.name with level, stat := ⟨none, 0, dp.ino⟩ }
    if env.compar.isNone ∨ s.options.deferStat then
      let skipStat : Bool := s.options.physical ∧ s.options.nostat ∧ dp.type ≠ none ∧ dp.type ≠ some .dir
      (some { p with info := .nsok, stat := { p.stat with kind := dp.type }, required := !skipStat }, s.tick)
    else
      let (p, s) := ftsStat env s.tick p false
      (some p, s)

/-- The loop of `fts_build`; no list if there is no memory. -/
def ftsBuildLoop (level : ℤ) (dirp : ℤ) : FTS κ → List Dirent → Option (List FTSENT) × FTS κ
  | s, [] => (some [], s.uses dirp)
  | s, dp :: dps =>
    if !s.options.seedot ∧ isDot dp.name then ftsBuildLoop level dirp (s.uses dirp) dps
    else
      match ftsBuildEntry env (s.uses dirp) level dp with
      | (none, s) => (none, s)
      | (some p, s) =>
        match ftsBuildLoop level dirp s dps with
        | (none, s) => (none, s)
        | (some head, s) => (some (p :: head), s)

/-- `BCHILD`. -/
def bchild : ℕ := 1

/-- `BREAD`. -/
def bread : ℕ := 3

/-- `fts_compare_ino`. -/
def ftsCompareIno (a b : FTSENT) : ℤ :=
  if a.stat.ino < b.stat.ino then -1
  else if b.stat.ino < a.stat.ino then 1
  else 0

/-- `fts_sort`, where there are two entries or more and a function that compares them. -/
def sortEntries (head : List FTSENT) : List FTSENT :=
  match env.compar with
  | some compar => if head.length > 1 then env.qsort compar head else head
  | none => head

/-- The end of `fts_build`: the entries are sorted. -/
def ftsBuildSort (head : List FTSENT) : List FTSENT × FTS κ :=
  let (head, s) :=
    if head.length > 10000 ∧ env.compar.isNone ∧ s.options.cwdfd then
      (if env.os.yes s.now then env.qsort ftsCompareIno head else head, (s.uses s.cwdFd).tick)
    else (head, s)
  (sortEntries env head, s)

/-- The end of `fts_build`, behind the change to the directory above: the error, if it has failed. -/
def ftsBuildEnd (cur : FTSENT) (type : ℕ) (err : Option Errno) (head : List FTSENT) : List FTSENT × FTSENT × FTS κ :=
  if err.isSome then ([], { cur with info := .err }, s.setStop)
  else if head = [] then ([], if type = bread then { cur with info := .dp } else cur, s)
  else
    let (head, s) := ftsBuildSort env s head
    (head, cur, s)

/-- The change to the directory above, if `fts_build` has descended. -/
def ftsBuildReturn (cur : FTSENT) (goesBack : Bool) : Option (Option Errno × FTS κ) :=
  if goesBack then if cur.level = 0 then restoreInitialCwd env s else ftsSafeChangedir env s (-1) (some [46, 46])
  else some (none, s)

/-- `fts_build` where it goes back, and its end. -/
def ftsBuildBack (cur : FTSENT) (descend : Bool) (head : List FTSENT) : Option (List FTSENT × FTSENT × FTS κ) := do
  -- `type = BCHILD || !nitems` is an assignment
  let type : ℕ := if descend then (if bchild ≠ 0 ∨ head = [] then 1 else 0) else bread
  let (err, s) ← ftsBuildReturn env s cur (descend && type ≠ 0)
  some (ftsBuildEnd env s cur type err head)

/-- `fts_build (sp, BREAD)`, where `fts_cur` is `cur` and has been visited in preorder: the list, `cur` and the stream. -/
def ftsBuild (cur : FTSENT) (parent : Option FTSENT) : Option (List FTSENT × FTSENT × FTS κ) :=
  match opendir env s with
  | (.error e, s) => some ([], { cur with info := .dnr, errno := some e }, s)
  | (.ok dirp, s) => do
    let dirents := env.os.readdir s.now
    let (ok, cur, s) ← ftsBuildStat env s cur parent
    if !ok then some ([], cur, s)
    else
      let (descend, cur, s) ← ftsBuildChange env s cur dirp
      if !descend then ftsBuildBack env s cur false []
      else
        match ftsBuildLoop env (cur.level + 1) dirp s dirents with
        | (none, s) =>
          some ([], { cur with info := .err }, (s.closes dirp).setStop)
        | (some head, s) => ftsBuildBack env (s.closes dirp) cur true head

/-! ## `fts_open`, `fts_read` and `fts_close` -/

/-- A symbolic link is followed. -/
def ftsFollow (p : FTSENT) : FTSENT × FTS κ :=
  let (p, s) := ftsStat env s p true
  if p.info = .d ∧ !s.options.nochdir then
    match diropen env s with
    | (.error e, s) => ({ p with symfd := -1, symOpen := false, errno := some e, info := .err }, s)
    | (.ok fd, s) => ({ p with symfd := fd, symOpen := true, symfollow := true }, s)
  else (p, s)

/-- `close (p->fts_symfd)`. -/
def closeSymfd (p : FTSENT) : FTSENT × FTS κ := ({ p with symOpen := false }, s.closes p.symfd)

/-- `link_count_optimize_ok`, where `fts_n_dirs_remaining` is 0. -/
def linkCountOptimizeOk : Bool × FTS κ :=
  if !s.options.cwdfd then (false, s) else (env.os.yes s.now, (s.uses s.cwdFd).tick)

/-- `fts_read` where it asks whether the entry has to be stat'ed. -/
def skipsStat (p : FTSENT) : Bool × FTS κ :=
  if 0 < p.level ∧ env.os.yes s.now ∧ s.options.nostat ∧ s.options.physical then linkCountOptimizeOk env s.tick
  else (false, s.tick)

/-- `fts_read` at an entry that may have to be stat'ed. -/
def statRequired (p : FTSENT) : FTSENT × FTS κ :=
  if p.info = .nsok ∧ p.required then
    match skipsStat env s p with
    | (true, s) => (p, s)
    | (false, s) => ftsStat env s p false
  else (p, s)

/-- `fts_read` from `check_for_dir` on, for the entry `p`. -/
def checkForDir (p : FTSENT) (link : List FTSENT) (above : List Frame) : Option (Option FTSENT × FTS κ) :=
  let (p, s) := statRequired env s p
  if p.info = .d then do
    let (ok, p, s) ← enterDir env { s with dev := if p.level = 0 then p.stat.dev else s.dev } p
    some (if ok then some p else none, { s with cur := ⟨p, link⟩ :: above })
  else some (some p, { s with cur := ⟨p, link⟩ :: above })

/-- `fts_read` from `name` on, for the entry `p`. -/
def ftsName (p : FTSENT) (link : List FTSENT) (above : List Frame) : Option (Option FTSENT × FTS κ) :=
  match above with
  | [] => none
  | _ :: _ => checkForDir env s p link above

/-- `fts_read` where it returns to the directory of the parent `p`, and the error, if it fails. -/
def ftsBack (p : FTSENT) : Option (Option Errno × FTSENT × FTS κ) :=
  if p.level = 0 then do
    let (err, s) ← restoreInitialCwd env s
    some (err, p, s)
  else if p.symfollow then do
    let (err, s) ← ftsFchdir env s p.symfd
    let (p, s) := if err.isSome then closeSymfd s p else (p, s)
    let (p, s) := closeSymfd s p
    some (err, p, s)
  else if !p.dontchdir then do
    let (err, s) ← ftsSafeChangedir env s (-1) (some [46, 46])
    some (err, p, s)
  else some (none, p, s)

/-- `leave_dir`, unless there was an error. -/
def leaveUnlessError (p : FTSENT) (above : List Frame) : Option (FTS κ) :=
  if p.errno.isNone then leaveDir env s p (above.head?.map Frame.entry) else some s

/-- `fts_info` of a directory in postorder, with the error of the way back to it. -/
def leftEntry (p : FTSENT) (err : Option Errno) : FTSENT :=
  let p := if err.isSome then { p with errno := err } else p
  { p with info := if p.errno.isSome then .err else .dp }

/-- The end of `fts_read` at the parent node. -/
def ftsPostorder (p : FTSENT) (link : List FTSENT) (above : List Frame) (err : Option Errno) :
    Option (Option FTSENT × FTS κ) := do
  let p := leftEntry p err
  let s ← leaveUnlessError env (if err.isSome then s.setStop else s) p above
  some (if s.options.stop then none else some p, { s with cur := ⟨p, link⟩ :: above })

/-- `fts_read` where it returns to the parent node, which is the first of the frames. -/
def ftsUp : List Frame → Option (Option FTSENT × FTS κ)
  | [] => none
  | ⟨p, link⟩ :: above =>
    if p.level = -1 then some (none, { s with cur := [] })
    else if p.info = .nsok then none
    else do
      let (err, p, s) ← ftsBack env s p
      ftsPostorder env s p link above err

/-- `fts_read` from `next` on, with the entries that are linked to the one that is left. -/
def ftsNext (above : List Frame) : List FTSENT → Option (Option FTSENT × FTS κ)
  | [] => ftsUp env s above
  | p :: link =>
    if p.level = 0 then do
      let (err, s) ← restoreInitialCwd env s
      if err.isSome then some (none, { s.setStop with cur := ⟨p, link⟩ :: above })
      else
        let (_, cycle) := env.cycles.setupDir (env.cycles.freeDir s.cycle)
        checkForDir env { s with cycle } p link above
    else if p.instr = .skip then ftsNext above link
    else if p.instr = .follow then
      let (p, s) := ftsFollow env s p
      ftsName env s { p with instr := .noinstr } link above
    else ftsName env s p link above

/-- `fts_read` at a directory in preorder that is skipped. -/
def ftsSkip (p : FTSENT) (link : List FTSENT) (above : List Frame) : Option (Option FTSENT × FTS κ) := do
  let (p, s) := if p.symfollow then closeSymfd s p else (p, s)
  let p := { p with info := .dp }
  let s ← leaveDir env s p (above.head?.map Frame.entry)
  some (some p, { s with cur := ⟨p, link⟩ :: above })

/-- `fts_read` at a directory without a list. -/
def ftsChildless (p : FTSENT) (link : List FTSENT) (above : List Frame) : Option (Option FTSENT × FTS κ) :=
  if s.options.stop then some (none, { s with cur := ⟨p, link⟩ :: above })
  else do
    let p := if p.errno.isSome ∧ p.info ≠ .dnr then { p with info := .err } else p
    let s ← leaveDir env s p (above.head?.map Frame.entry)
    some (some p, { s with cur := ⟨p, link⟩ :: above })

/-- `fts_read` at a directory that has been visited in preorder. -/
def ftsDescend (instr : Instr) (p : FTSENT) (link : List FTSENT) (above : List Frame) :
    Option (Option FTSENT × FTS κ) :=
  if instr = .skip ∨ s.options.xdev ∧ p.stat.dev ≠ s.dev then ftsSkip env s p link above
  else do
    let (child, p, s) ← ftsBuild env s p (above.head?.map Frame.entry)
    match child with
    | [] => ftsChildless env s p link above
    | q :: qs => ftsName env s q qs (⟨p, link⟩ :: above)

/-- `fts_read`. The entry it returns is the current node. -/
def ftsRead : Option (Option FTSENT × FTS κ) :=
  match s.cur with
  | [] => some (none, s)
  | ⟨p, link⟩ :: above =>
    if s.options.stop then some (none, s)
    else
      let instr := p.instr
      let p := { p with instr := .noinstr }
      if instr = .again then
        let (p, s) := ftsStat env s p false
        some (some p, { s with cur := ⟨p, link⟩ :: above })
      else if instr = .follow ∧ (p.info = .sl ∨ p.info = .slnone) then
        let (p, s) := ftsFollow env s p
        checkForDir env s p link above
      else if p.info = .d then ftsDescend env s instr p link above
      else ftsNext env s above link

/-- `fts_set`, on the current node or on one above it that `fts_read` has returned. -/
def ftsSet (k : ℕ) (instr : Instr) : FTS κ :=
  { s with cur := s.cur.modify k fun f => { f with entry := { f.entry with instr } } }

/-- The loop of `fts_close` finds the parent of the roots. -/
def freeable : List Frame → Bool
  | [] => false
  | f :: above => f.entry.level < 0 || freeable above

/-- `fts_close` where it returns to the original directory. -/
def ftsCloseCwd : FTS κ :=
  if s.options.cwdfd then if s.cwdFd ≥ 0 then s.closes s.cwdFd else s
  else if !s.options.nochdir then (s.fchdir env s.rfd).2.closes s.rfd
  else s

/-- `fts_close`. -/
def ftsClose : Option (FTS κ) :=
  if s.cur ≠ [] ∧ !freeable s.cur then none
  else
    let s := fdRingClear (ftsCloseCwd env s)
    some { s with cycle := env.cycles.freeDir s.cycle }

/-- The loop of `fts_open` that makes the roots; no list if there is no memory. -/
def ftsOpenRoots (deferStat : Bool) : FTS κ → List FTSENT → List Path → Option (List FTSENT) × FTS κ
  | s, roots, [] => (some roots, s)
  | s, roots, arg :: args =>
    if !env.os.memory s.now then (none, s.tick)
    else
      let p := ftsAlloc arg
      let (p, s) :=
        if deferStat ∧ roots ≠ [] then ({ p with info := .nsok, required := true }, s.tick)
        else ftsStat env s.tick p false
      ftsOpenRoots deferStat s (if env.compar.isSome then p :: roots else roots ++ [p]) args

/-- The options with which `fts_open` goes on: logical walks turn on `FTS_NOCHDIR`. -/
def openOptions (options : Options) : Options :=
  let options := if options.logical then { options with nochdir := true, cwdfd := false } else options
  { options with stop := false }

/-- `fts_open` where it opens the directory to which the walk returns. -/
def ftsOpenCwd : FTS κ :=
  if !s.options.nochdir ∧ !s.options.cwdfd then
    match diropen env s with
    | (.error _, s) => { s with options := { s.options with nochdir := true } }
    | (.ok rfd, s) => { s with rfd }
  else s

/-- `fts_open`, with what is in `fts_cycle` at first. It gives no stream where it returns `NULL`. The first answer about memory
is that for all but the roots. -/
def ftsOpen (options : Options) (cycle : κ) (argv : List Path) : Option (FTS κ) :=
  if options.nochdir ∧ options.cwdfd then none
  else if ¬(options.logical ∨ options.physical) then none
  else if !env.os.memory 0 then none
  else
    let s : FTS κ := ⟨[], openOptions options, atFdcwd, iRingInit, 0, 0, cycle, 1, .start⟩
    match ftsOpenRoots env (env.compar.isNone ∨ options.deferStat) s [] argv with
    | (none, _) => none
    | (some roots, s) =>
      let parent : List Frame := if argv ≠ [] then [⟨{ ftsAlloc [] with level := -1 }, []⟩] else []
      let (ok, cycle) := env.cycles.setupDir s.cycle
      if !ok then none
      else some (ftsOpenCwd env { s with cur := ⟨{ ftsAlloc [] with info := .init }, sortEntries env roots⟩ :: parent, cycle })

end

end CodingExercises.Coreutils.FtsDescriptors
