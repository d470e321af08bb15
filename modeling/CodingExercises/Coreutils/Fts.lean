import Mathlib.Data.Int.Notation
import Mathlib.Logic.Function.Basic
import Mathlib.Data.List.Perm.Basic
import CodingExercises.Coreutils.Xalloc

/-!
# fts: file hierarchies

`lib/fts.c`, with `lib/i-ring.c`, `lib/cycle-check.c` and `lib/fts-cycle.c`: physical walks, with `FTS_NOCHDIR` or with
`FTS_CWDFD`, read with `fts_read`.

- `fts_cur` and what hangs on it is a list of frames: an entry with the entries that `fts_link` leads to, under it the
  frame of its `fts_parent`, and so on. No frame is a null `fts_cur`.
- The buffer `fts_path` is its bytes, so `fts_pathlen` of the stream is their number; a write past the end has no value.
- A function has no value either where it aborts, where an assertion fails, and where it uses what the language leaves
  undefined.

The file system does not change. Sizes and the counter of `lib/cycle-check.h` are not cut to 64 bits.
-/

namespace CodingExercises.Coreutils.Fts

abbrev Name := List Byte

abbrev Path := List Byte

/-- `'/'`. -/
def slash : Byte := 47

/-- The string at the start of a buffer. -/
def cstr (b : List Byte) : Path := b.takeWhile (· ≠ 0)

/-! ## File systems -/

/-- `errno`, where it is not 0. -/
inductive Errno
  | enoent
  | eacces
  | enotdir
  | eloop
  | ebadf
  | other (n : ℕ)
deriving DecidableEq

/-- A type of files: a value of `st_mode & S_IFMT`, or of `d_type`. -/
inductive Kind
  | blk
  | chr
  | dir
  | fifo
  | lnk
  | reg
  | sock
deriving DecidableEq

/-- `struct dirent`; no type is `DT_UNKNOWN`. -/
structure Dirent where
  name : Name
  ino : ℕ
  type : Option Kind
deriving DecidableEq

/-- `struct stat`; no type is the mode 0. -/
structure Stat where
  kind : Option Kind
  dev : ℕ
  ino : ℕ
deriving DecidableEq

/-- A file system as a process sees it. `lookup d path` is the file that `path` names when it is taken relative to the
directory `d`, where a symbolic link in the last place is not followed; `follow` follows it. No file has the empty name,
and with a slash behind it a name is that of the directory the link leads to. -/
structure FileSys (ι : Type) where
  cwd : ι
  lookup : ι → Path → Except Errno ι
  follow : ι → Except Errno ι
  kind : ι → Kind
  dev : ι → ℕ
  ino : ι → ℕ
  readdir : ι → Except Errno (List Dirent)
  lookup_nil : ∀ d, lookup d [] = .error .enoent
  lookup_slash : ∀ d p i, p ≠ [] → lookup d (p ++ [47]) = .ok i → ∃ j, lookup d p = .ok j ∧ follow j = .ok i
  follow_file : ∀ i, kind i ≠ .lnk → follow i = .ok i

/-- The options of `fts_open`, besides `FTS_PHYSICAL`: `FTS_NOCHDIR` with or without `FTS_NOSTAT` and `FTS_SEEDOT`, or
`FTS_CWDFD`. -/
inductive Options
  | nochdir (nostat seedot : Bool)
  | cwdfd
deriving DecidableEq

def Options.isNochdir : Options → Bool
  | .nochdir _ _ => true
  | .cwdfd => false

def Options.nostat : Options → Bool
  | .nochdir nostat _ => nostat
  | .cwdfd => false

def Options.seedot : Options → Bool
  | .nochdir _ seedot => seedot
  | .cwdfd => false

/-! ## Entries -/

/-- `fts_info`. -/
inductive Info
  | d
  | dc
  | default
  | dnr
  | dot
  | dp
  | err
  | f
  | init
  | ns
  | nsok
  | sl
deriving DecidableEq

/-- `fts_instr`. -/
inductive Instr
  | noinstr
  | skip
deriving DecidableEq

/-- Where `fts_accpath` points: to the entry's own `fts_name`, to the buffer of the stream, or to a buffer that `realloc`
has freed. -/
inductive Accpath
  | name
  | path
  | freed
deriving DecidableEq

/-- `FTSENT`. `required` is `st_size` of `fts_statp` as `fts_set_stat_required` uses it. -/
structure FTSENT where
  accpath : Accpath
  errno : Option Errno
  pathlen : ℕ
  level : ℤ
  info : Info
  instr : Instr
  stat : Stat
  required : Bool
  name : Name
deriving DecidableEq

/-- `ISDOT`. -/
def isDot (a : Name) : Bool := a = [46] ∨ a = [46, 46]

/-- `fts_alloc`. What it does not set is arbitrary. -/
def ftsAlloc (name : Name) : FTSENT := ⟨.name, none, 0, 0, .init, .noinstr, ⟨none, 0, 0⟩, false, name⟩

/-- The entry with its list of links. -/
structure Frame where
  entry : FTSENT
  link : List FTSENT

/-- What the process has around a walk: the file system, whether the assertions are compiled in, the comparison function
and `qsort`, whether `realloc` moves a buffer when it makes it so long, what is in memory that was never written, and which
descriptor an `open` gives. -/
structure Env (ι : Type) where
  fs : FileSys ι
  options : Options
  ndebug : Bool
  compar : Option (FTSENT → FTSENT → ℤ)
  qsort : (FTSENT → FTSENT → ℤ) → List FTSENT → List FTSENT
  moves : ℕ → Bool
  junk : ℕ → Byte
  newFd : List ℤ → ℤ
  inodeSortUseful : ι → Bool
  qsort_perm : ∀ c l, (qsort c l).Perm l
  newFd_nonneg : ∀ l, 0 ≤ newFd l
  newFd_fresh : ∀ l, newFd l ∉ l

/-! ## The ring of descriptors -/

/-- `I_ring`, with -1 as `ir_default_val`. -/
structure IRing where
  data : Fin 4 → ℤ
  front : Fin 4
  back : Fin 4
  empty : Bool

/-- `i_ring_init`. -/
def iRingInit : IRing := ⟨fun _ => -1, 0, 0, true⟩

/-- `i_ring_push`: the value that was displaced, and the ring. -/
def iRingPush (ir : IRing) (val : ℤ) : ℤ × IRing :=
  let destIdx := if ir.empty then ir.front else ir.front + 1
  (ir.data destIdx,
    { data := Function.update ir.data destIdx val
      front := destIdx
      back := if destIdx = ir.back then (if ir.empty then ir.back else ir.back + 1) else ir.back
      empty := false })

/-- `i_ring_pop`. It aborts on an empty ring. -/
def iRingPop (ir : IRing) : Option (ℤ × IRing) :=
  if ir.empty then none
  else
    some (ir.data ir.front,
      { data := Function.update ir.data ir.front (-1)
        front := if ir.front = ir.back then ir.front else ir.front + 3
        back := ir.back
        empty := ir.front = ir.back })

/-- How many times `i_ring_pop` can be called. -/
def IRing.size (ir : IRing) : ℕ := if ir.empty then 0 else (ir.front - ir.back).val + 1

theorem IRing.size_le (ir : IRing) : ir.size ≤ 4 := by
  have hlt := (ir.front - ir.back).isLt
  unfold IRing.size
  split <;> omega

theorem IRing.empty_of_size {ir : IRing} (h : ir.size = 0) : ir.empty = true := by
  by_contra hfull
  rw [IRing.size, if_neg hfull] at h
  cases h

theorem IRing.size_of_pop_none {ir : IRing} (h : iRingPop ir = none) : ir.size = 0 := by
  unfold iRingPop at h
  split at h
  · exact if_pos ‹_›
  · cases h

theorem IRing.size_pop {ir ir' : IRing} {fd : ℤ} (h : iRingPop ir = some (fd, ir')) : ir'.size + 1 = ir.size := by
  have hslots : ∀ front back : Fin 4, front ≠ back → (front + 3 - back).val + 1 = (front - back).val := by decide
  unfold iRingPop at h
  split at h
  · cases h
  · rename_i hempty
    cases h
    unfold IRing.size
    by_cases heq : ir.front = ir.back
    · simp [hempty, heq]
    · simp [hempty, heq, hslots ir.front ir.back heq]

/-! ## The virtual working directory -/

/-- `AT_FDCWD`. -/
def atFdcwd : ℤ := -100

/-- `fts_cwd_fd` and `fts_fd_ring`; the descriptors the walk has open, with their directories; and a record of the
descriptors that `fts_safe_changedir` popped, each as the directory it left and the directory of the descriptor. -/
structure Vwd (ι : Type) where
  cwdFd : ℤ
  ring : IRing
  fds : List (ℤ × ι)
  popped : List (Option ι × Option ι)

section

variable {ι : Type} (env : Env ι)

/-- The directory a descriptor refers to. -/
def Vwd.dirOf (w : Vwd ι) (fd : ℤ) : Option ι :=
  if fd = atFdcwd then some env.fs.cwd else (w.fds.find? (·.1 = fd)).map (·.2)

/-- A pathname taken relative to `fts_cwd_fd`. -/
def Vwd.lookup (w : Vwd ι) (path : Path) : Except Errno ι :=
  match w.dirOf env w.cwdFd with
  | some d => env.fs.lookup d path
  | none => .error .ebadf

/-- `close`. -/
def Vwd.close (w : Vwd ι) (fd : ℤ) : Vwd ι := { w with fds := w.fds.filter (·.1 ≠ fd) }

/-- A new descriptor of the directory `i`: what `openat` and `dup` do. -/
def Vwd.newFd (w : Vwd ι) (i : ι) : ℤ × Vwd ι :=
  let fd := env.newFd (w.fds.map (·.1))
  (fd, { w with fds := (fd, i) :: w.fds })

/-- One turn of the loop of `fd_ring_clear`. -/
def fdRingClearOne (w : Vwd ι) : Vwd ι :=
  match iRingPop w.ring with
  | none => w
  | some (fd, ring) => if fd ≥ 0 then { w with ring }.close fd else { w with ring }

/-- `fd_ring_clear`. The ring is empty after four turns (`fdRingClear_empty`). -/
def fdRingClear (w : Vwd ι) : Vwd ι := fdRingClearOne (fdRingClearOne (fdRingClearOne (fdRingClearOne w)))

theorem size_fdRingClearOne (w : Vwd ι) : (fdRingClearOne w).ring.size = w.ring.size - 1 := by
  unfold fdRingClearOne
  split
  · rename_i hpop
    rw [IRing.size_of_pop_none hpop]
  · rename_i hpop
    have hsize := IRing.size_pop hpop
    split <;> simp only [Vwd.close] <;> omega

theorem fdRingClear_empty (w : Vwd ι) : (fdRingClear w).ring.empty = true := by
  have hle := w.ring.size_le
  apply IRing.empty_of_size
  simp only [fdRingClear, size_fdRingClearOne]
  omega

/-- `cwd_advanced_fd`. -/
def cwdAdvancedFd (w : Vwd ι) (fd : ℤ) (chdirDownOne : Bool) : Option (Vwd ι) :=
  let old := w.cwdFd
  if ¬(old ≠ fd ∨ old = atFdcwd) then none
  else
    let w :=
      if chdirDownOne then
        let (prevFdInSlot, ring) := iRingPush w.ring old
        if prevFdInSlot ≥ 0 then { w with ring }.close prevFdInSlot else { w with ring }
      else if !env.options.isNochdir then
        if old ≥ 0 then w.close old else w
      else w
    some { w with cwdFd := fd }

/-- `RESTORE_INITIAL_CWD`. It does not fail. -/
def restoreInitialCwd (w : Vwd ι) : Option (Vwd ι) :=
  let w := fdRingClear w
  if env.options.isNochdir then some w else cwdAdvancedFd env w atFdcwd true

/-- `diropen`. -/
def diropen (w : Vwd ι) (dir : Path) : Except Errno (ℤ × Vwd ι) :=
  match w.lookup env dir with
  | .error e => .error e
  | .ok i =>
    if env.fs.kind i ≠ .dir then .error .enotdir
    else
      match env.fs.readdir i with
      | .error e => .error e
      | .ok _ => .ok (w.newFd env i)

/-- `fts_safe_changedir`, with the error if it fails. -/
def ftsSafeChangedir (w : Vwd ι) (fd : ℤ) (dir : Option Path) : Option (Option Errno × Vwd ι) :=
  let isDotdot : Bool := dir = some []
  if env.options.isNochdir then some (none, w)
  else do
    let (fd, dir, w) ←
      if fd < 0 ∧ isDotdot ∧ !w.ring.empty then do
        let (parentFd, ring) ← iRingPop w.ring
        let w := { w with ring, popped := (w.dirOf env w.cwdFd, w.dirOf env parentFd) :: w.popped }
        if parentFd ≥ 0 then some (parentFd, none, w) else some (fd, dir, w)
      else some (fd, dir, w)
    if fd < 0 then
      match dir with
      | none => none
      | some dir =>
        match diropen env w dir with
        | .error e => some (some e, w)
        | .ok (newfd, w) => do
          let w ← cwdAdvancedFd env w newfd (!isDotdot)
          some (none, w)
    else do
      let w ← cwdAdvancedFd env w fd (!isDotdot)
      some (none, w)

/-! ## Cycles -/

/-- `struct cycle_check_state`; `dev_ino` is not set at first. -/
structure CycleCheckState where
  devIno : Option (ℕ × ℕ)
  chdirCounter : ℕ
  magic : ℕ

/-- `cycle_check_init`. -/
def cycleCheckInit : CycleCheckState := ⟨none, 0, 9827862⟩

/-- `cycle_check`. -/
def cycleCheck (state : CycleCheckState) (sb : Stat) : Option (Bool × CycleCheckState) :=
  if !env.ndebug ∧ state.magic ≠ 9828862 then none
  else if state.chdirCounter ≠ 0 ∧ some (sb.dev, sb.ino) = state.devIno then some (true, state)
  else
    let counter := state.chdirCounter + 1
    if counter &&& (counter - 1) = 0 then some (false, { state with chdirCounter := counter, devIno := some (sb.dev, sb.ino) })
    else some (false, { state with chdirCounter := counter })

/-- `enter_dir`. -/
def enterDir (state : CycleCheckState) (ent : FTSENT) : Option (FTSENT × CycleCheckState) := do
  let (cycle, state) ← cycleCheck env state ent.stat
  some (if cycle then { ent with info := .dc } else ent, state)

/-- `leave_dir`, given `fts_parent`. -/
def leaveDir (state : CycleCheckState) (ent : FTSENT) (parent : Option FTSENT) : Option CycleCheckState :=
  match parent with
  | none => some state
  | some parent =>
    if parent.level ≥ 0 then
      if state.chdirCounter = 0 then none
      else if state.devIno = some (ent.stat.dev, ent.stat.ino) then
        some { state with devIno := some (ent.stat.dev, ent.stat.ino) }
      else some state
    else some state

/-! ## The stream -/

/-- `FTS`. -/
structure FTS (ι : Type) where
  cur : List Frame
  path : List Byte
  vwd : Vwd ι
  cycle : CycleCheckState
  stop : Bool

/-- Bytes written at a place of a buffer. -/
def poke (b : List Byte) (off : ℕ) (s : List Byte) : Option (List Byte) :=
  if off + s.length ≤ b.length then some (b.take off ++ s ++ b.drop (off + s.length)) else none

/-- `fts_palloc`: the new buffer, and whether it is in another place. -/
def ftsPalloc (path : List Byte) (more : ℕ) : List Byte × Bool :=
  let newLen := path.length + more + 256
  (path ++ (List.range' path.length (more + 256)).map env.junk, env.moves newLen)

/-- `NAPPEND`. -/
def nappend (path : List Byte) (p : FTSENT) : Option ℕ :=
  if p.pathlen = 0 then none
  else if path[p.pathlen - 1]? = some slash then some (p.pathlen - 1)
  else some p.pathlen

/-- The string at `fts_accpath`. -/
def FTSENT.access (p : FTSENT) (path : List Byte) : Option Path :=
  match p.accpath with
  | .name => some p.name
  | .path => some (cstr path)
  | .freed => none

/-- `fts_stat`, of a physical walk. -/
def ftsStat (w : Vwd ι) (path : List Byte) (p : FTSENT) : Option FTSENT := do
  let accpath ← p.access path
  match w.lookup env accpath with
  | .error e => some { p with errno := some e, stat := ⟨none, 0, 0⟩, info := .ns }
  | .ok i =>
    let p := { p with stat := ⟨some (env.fs.kind i), env.fs.dev i, env.fs.ino i⟩ }
    match env.fs.kind i with
    | .dir => if isDot p.name ∧ p.level ≠ 0 then some { p with info := .dot } else some { p with info := .d }
    | .lnk => some { p with info := .sl }
    | .reg => some { p with info := .f }
    | _ => some { p with info := .default }

/-- `fts_sort`. -/
def ftsSort (compar : FTSENT → FTSENT → ℤ) (head : List FTSENT) : List FTSENT := env.qsort compar head

/-- `fts_compare_ino`. -/
def ftsCompareIno (a b : FTSENT) : ℤ :=
  if a.stat.ino < b.stat.ino then -1
  else if b.stat.ino < a.stat.ino then 1
  else 0

/-- `ADJUST` of `fts_padjust`. Every `fts_path` and `fts_accpath` is adjusted before it is used again but for the one of
the entry at hand, so only that one is ever taken as freed. -/
def FTSENT.adjust (p : FTSENT) : FTSENT := if p.accpath = .freed then { p with accpath := .path } else p

/-! ## Reading a directory -/

/-- What `opendir` or `opendirat` finds: the directory and its entries. -/
def opendir (w : Vwd ι) (file : Path) : Except Errno (ι × List Dirent) :=
  match w.lookup env file with
  | .error e => .error e
  | .ok i =>
    match env.fs.follow i with
    | .error e => .error e
    | .ok i =>
      if env.fs.kind i ≠ .dir then .error .enotdir
      else
        match env.fs.readdir i with
        | .error e => .error e
        | .ok l => .ok (i, l)

/-- The body of the loop of `fts_build`: the buffer after it, and the entry. -/
def ftsBuildEntry (w : Vwd ι) (level : ℤ) (len : ℕ) (path : List Byte) (dp : Dirent) :
    Option (List Byte × FTSENT) := do
  let p := ftsAlloc dp.name
  let (path, moved) :=
    if dp.name.length ≥ path.length - len then ftsPalloc env path (dp.name.length + len + 1) else (path, false)
  let p := { p with level, pathlen := len + dp.name.length, stat := { p.stat with ino := dp.ino } }
  let (path, p) ←
    if env.options.isNochdir then do
      let path ← poke path len (dp.name ++ [0])
      some (path, { p with accpath := if moved then .freed else .path })
    else some (path, { p with accpath := .name })
  match env.compar with
  | none =>
    let skipStat : Bool := env.options.nostat ∧ dp.type ≠ none ∧ dp.type ≠ some .dir
    some (path, { p with info := .nsok, stat := { p.stat with kind := dp.type }, required := !skipStat })
  | some _ => do
    let p ← ftsStat env w path p
    some (path, p)

/-- The loop of `fts_build`. -/
def ftsBuildLoop (w : Vwd ι) (level : ℤ) (len : ℕ) : List Byte → List Dirent → Option (List Byte × List FTSENT)
  | path, [] => some (path, [])
  | path, dp :: dps =>
    if !env.options.seedot ∧ isDot dp.name then ftsBuildLoop w level len path dps
    else do
      let (path, p) ← ftsBuildEntry env w level len path dp
      let (path, head) ← ftsBuildLoop w level len path dps
      some (path, p :: head)

/-- `BCHILD`. -/
def bchild : ℕ := 1

/-- `BREAD`. -/
def bread : ℕ := 3

/-- The end of `fts_build`: the entries are sorted. -/
def ftsBuildSort (w : Vwd ι) (head : List FTSENT) : List FTSENT :=
  let head :=
    if head.length > 10000 ∧ env.compar.isNone ∧ !env.options.isNochdir
        ∧ (w.dirOf env w.cwdFd).all env.inodeSortUseful then
      ftsSort env ftsCompareIno head
    else head
  match env.compar with
  | some compar => if head.length > 1 then ftsSort env compar head else head
  | none => head

/-- `fts_build (sp, BREAD)`, where `fts_cur` is `cur` and has been visited in preorder: the list, `cur` and the stream. The
descriptor of a directory that has been opened can be duplicated, and changing to it does not fail. -/
def ftsBuild (s : FTS ι) (cur : FTSENT) : Option (List FTSENT × FTSENT × FTS ι) := do
  let accpath ← cur.access s.path
  match opendir env s.vwd accpath with
  | .error e => some ([], { cur with info := .dnr, errno := some e }, s)
  | .ok (dir, dirents) =>
    let (dirFd, w) := if env.options.isNochdir then (0, s.vwd) else s.vwd.newFd env dir
    let (_, w) ← ftsSafeChangedir env w dirFd none
    let len ← nappend s.path cur
    let path ← if env.options.isNochdir then poke s.path len [slash] else some s.path
    let len := len + 1
    let (path, head) ← ftsBuildLoop env w (cur.level + 1) len path dirents
    let head := head.map FTSENT.adjust
    let path ←
      if env.options.isNochdir then poke path (if len = path.length ∨ head = [] then len - 1 else len) [0]
      else some path
    -- `type = BCHILD || !nitems` is an assignment
    let type : ℕ := if bchild ≠ 0 ∨ head = [] then 1 else 0
    let (err, w) ←
      if type ≠ 0 then
        if cur.level = 0 then (restoreInitialCwd env w).map fun w => (none, w)
        else ftsSafeChangedir env w (-1) (some [46, 46])
      else some (none, w)
    if err.isSome then some ([], { cur with info := .err }, { s with path, vwd := w, stop := true })
    else if head = [] then
      some ([], if type = bread then { cur with info := .dp } else cur, { s with path, vwd := w })
    else some (ftsBuildSort env w head, cur, { s with path, vwd := w })

/-! ## `fts_open` and `fts_read` -/

/-- What `fts_load` leaves in `fts_name`. -/
def lastName (name : Path) : Name :=
  if slash ∈ name ∧ name ≠ [slash] then (name.reverse.takeWhile (· ≠ slash)).reverse else name

/-- `fts_load`. -/
def ftsLoad (path : List Byte) (p : FTSENT) : Option (List Byte × FTSENT) := do
  let path ← poke path 0 (p.name ++ [0])
  some (path, { p with pathlen := p.name.length, name := lastName p.name, accpath := .path })

/-- `fts_maxarglen`. -/
def ftsMaxarglen (argv : List Path) : ℕ := (argv.map List.length).foldl max 0 + 1

/-- The list of the roots that `fts_open` makes. -/
def ftsOpenRoots (w : Vwd ι) (path : List Byte) (argv : List Path) : Option (List FTSENT) :=
  match env.compar with
  | some compar => do
    let roots ← argv.mapM fun arg => ftsStat env w path (ftsAlloc arg)
    let root := roots.reverse
    some (if root.length > 1 then ftsSort env compar root else root)
  | none =>
    match argv with
    | [] => some []
    | arg :: args => do
      let p ← ftsStat env w path (ftsAlloc arg)
      some (p :: args.map fun arg => { ftsAlloc arg with info := .nsok, required := true })

/-- `fts_open`. The first frame is a dummy; `fts_parent` of the dummy is not set, but `fts_read` finds the roots linked to it,
and their parent under it. Without roots there is nothing to be found. -/
def ftsOpen (argv : List Path) : Option (FTS ι) := do
  let (path, _) := ftsPalloc env [] (max (ftsMaxarglen argv) 1024)
  let w : Vwd ι := ⟨atFdcwd, iRingInit, [], []⟩
  let roots ← ftsOpenRoots env w path argv
  let parent : List Frame := if argv ≠ [] then [⟨{ ftsAlloc [] with level := -1 }, []⟩] else []
  some ⟨⟨{ ftsAlloc [] with info := .init }, roots⟩ :: parent, path, w, cycleCheckInit, false⟩

/-- `fts_set`, on the current node. -/
def ftsSet (s : FTS ι) (instr : Instr) : FTS ι :=
  match s.cur with
  | [] => s
  | ⟨p, link⟩ :: above => { s with cur := ⟨{ p with instr }, link⟩ :: above }

/-- `fts_read` from `check_for_dir` on, for the entry `p`. Where `fts_n_dirs_remaining` would be looked at,
`link_count_optimize_ok` says no, for there is no `FTS_CWDFD`. -/
def checkForDir (s : FTS ι) (p : FTSENT) (link : List FTSENT) (above : List Frame) :
    Option (Option FTSENT × FTS ι) := do
  let p ← if p.info = .nsok ∧ p.required then ftsStat env s.vwd s.path p else some p
  if p.info = .d then do
    let (p, cycle) ← enterDir env s.cycle p
    some (some p, { s with cur := ⟨p, link⟩ :: above, cycle })
  else some (some p, { s with cur := ⟨p, link⟩ :: above })

/-- `fts_read` from `name` on, for the entry `p`. -/
def ftsName (s : FTS ι) (p : FTSENT) (link : List FTSENT) (above : List Frame) : Option (Option FTSENT × FTS ι) :=
  match above with
  | [] => none
  | parent :: _ => do
    let t ← nappend s.path parent.entry
    let path ← poke s.path t (slash :: p.name ++ [0])
    checkForDir env { s with path } p link above

/-- `fts_read` where it returns to the parent node, which is the first of the frames. -/
def ftsUp (s : FTS ι) : List Frame → Option (Option FTSENT × FTS ι)
  | [] => none
  | ⟨p, link⟩ :: above =>
    if p.level = -1 then some (none, { s with cur := [] })
    else if p.info = .nsok then none
    else do
      let path ← poke s.path p.pathlen [0]
      let (err, w) ←
        if p.level = 0 then (restoreInitialCwd env s.vwd).map fun w => (none, w)
        else ftsSafeChangedir env s.vwd (-1) (some [46, 46])
      let p := if err.isSome then { p with errno := err } else p
      let p := { p with info := if p.errno.isSome then .err else .dp }
      let cycle ← if p.errno.isNone then leaveDir s.cycle p (above.head?.map Frame.entry) else some s.cycle
      let stop := s.stop || err.isSome
      some (if stop then none else some p, { cur := ⟨p, link⟩ :: above, path, vwd := w, cycle, stop })

/-- `fts_read` from `next` on, with the entries that are linked to the one that is left. -/
def ftsNext (s : FTS ι) (above : List Frame) : List FTSENT → Option (Option FTSENT × FTS ι)
  | [] => ftsUp env s above
  | p :: link =>
    if p.level = 0 then do
      let w ← restoreInitialCwd env s.vwd
      let (path, p) ← ftsLoad s.path p
      checkForDir env { s with path, vwd := w, cycle := cycleCheckInit } p link above
    else if p.instr = .skip then ftsNext s above link
    else ftsName env s p link above

/-- `fts_read` at a directory that has been visited in preorder. -/
def ftsDescend (s : FTS ι) (instr : Instr) (p : FTSENT) (link : List FTSENT) (above : List Frame) :
    Option (Option FTSENT × FTS ι) :=
  let parent := above.head?.map Frame.entry
  if instr = .skip then do
    let p := { p with info := .dp }
    let cycle ← leaveDir s.cycle p parent
    some (some p, { s with cur := ⟨p, link⟩ :: above, cycle })
  else do
    let (child, p, s) ← ftsBuild env s p
    match child with
    | [] =>
      if s.stop then some (none, { s with cur := ⟨p, link⟩ :: above })
      else do
        let p := if p.errno.isSome ∧ p.info ≠ .dnr then { p with info := .err } else p
        let cycle ← leaveDir s.cycle p parent
        some (some p, { s with cur := ⟨p, link⟩ :: above, cycle })
    | q :: qs => ftsName env s q qs (⟨p, link⟩ :: above)

/-- `fts_read`. The entry it returns is the current node. -/
def ftsRead (s : FTS ι) : Option (Option FTSENT × FTS ι) :=
  match s.cur with
  | [] => some (none, s)
  | ⟨p, link⟩ :: above =>
    if s.stop then some (none, s)
    else
      let instr := p.instr
      let p := { p with instr := .noinstr }
      if p.info = .d then ftsDescend env s instr p link above
      else ftsNext env s above link

end

end CodingExercises.Coreutils.Fts
