import CodingExercises.Coreutils.FileName
import CodingExercises.Coreutils.HashReads
import CodingExercises.Lib.Paths

/-!
# coreutils: canonical names

`canonicalize_filename_mode` of `lib/canonicalize.c`, with `lib/areadlink-with-size.c`, `lib/file-set.c`,
`lib/hash-triple.c` and `lib/hash-pjw.c`, in a file system that does not change.

A string is its bytes without the one at its end, and `rname` those before `dest`. The buffers for names are as large as
they have to be; whether there is memory for the rest is asked for.
-/

namespace CodingExercises.Coreutils.Canonicalize

open Lib (Segment Files lookup)

/-- A name of a file in its directory. -/
abbrev Name := List Byte

/-- `errno`, where it is not 0. -/
inductive Errno
  | einval
  | enoent
  | enotdir
  | eloop
  | enomem
  | other (n : ℕ)
deriving DecidableEq

/-! ## File systems -/

/-- The names between the slashes of a string, with an empty one for every slash. -/
def tokens : List Byte → List Name
  | [] => []
  | c :: s =>
    if c = slash then [] :: tokens s
    else
      match tokens s with
      | (d :: t) :: ts => (c :: d :: t) :: ts
      | ts => [c] :: ts

/-- What a name stands for. -/
def part (c : Name) : Segment Name :=
  if c = [] ∨ c = [dot] then .here else if c = [dot, dot] then .up else .name c

/-- A string as a file name. -/
def parts (s : List Byte) : List (Segment Name) := (tokens s).map part

/-- A name that a file can have. -/
structure Ordinary (c : Name) : Prop where
  slash : slash ∉ c
  part : part c = .name c

/-- A file. -/
inductive File
  | dir
  | file
  | link (target : List Byte)
deriving DecidableEq

/-- A file as it is followed. -/
def File.node : File → Lib.Node Name
  | .dir => .dir
  | .file => .file
  | .link target => .link (target.head? = some slash) (parts target)

/-- A file system: the files at their places, what `lstat` says of them besides, and the links for which `readlink`
fails. -/
structure Disk where
  file : List Name → Option File
  root : file [] = some .dir
  closed : ∀ p c, file (p ++ [c]) ≠ none → file p = some .dir
  ordinary : ∀ p c, file (p ++ [c]) ≠ none → Ordinary c
  dev : List Name → ℕ
  ino : List Name → ℕ
  size : List Name → ℕ
  unreadable : List Name → Option Errno

/-- The files as they are followed. -/
def Disk.files (disk : Disk) : Files Name where
  node p := (disk.file p).map File.node
  root := by
    rw [disk.root]
    rfl
  closed p c h := by
    have hne : disk.file (p ++ [c]) ≠ none := by
      rintro h'
      rw [h'] at h
      exact h rfl
    rw [disk.closed p c hne]
    rfl

/-- A link that can be read. -/
def Disk.Readable (disk : Disk) (p : List Name) : Prop := disk.unreadable p = none

/-- `st_mode & S_IFMT`. -/
inductive Kind
  | dir
  | reg
  | lnk
deriving DecidableEq

def File.kind : File → Kind
  | .dir => .dir
  | .file => .reg
  | .link _ => .lnk

/-- `struct stat`. -/
structure Stat where
  mode : Kind
  dev : ℕ
  ino : ℕ
  size : ℕ

/-- What the system says where it finds nothing. -/
def errnoOf : Lib.Trouble → Errno
  | .missing => .enoent
  | .notDir => .enotdir
  | .loop => .eloop

/-- The place of a file with an absolute name, a link in the last place not followed; the system follows 40 links at most. -/
def Disk.find (disk : Disk) (path : List Byte) : Except Errno (List Name × File) :=
  match lookup disk.files 40 [] (parts path) with
  | .error e => .error (errnoOf e)
  | .ok p =>
    match disk.file p with
    | none => .error .enoent
    | some f => .ok (p, f)

/-- `lstat`. -/
def lstat (disk : Disk) (path : List Byte) : Except Errno Stat :=
  match disk.find path with
  | .error e => .error e
  | .ok (p, f) => .ok ⟨f.kind, disk.dev p, disk.ino p, disk.size p⟩

/-- `readlink`. -/
def readlink (disk : Disk) (path : List Byte) (bufSize : ℕ) : Except Errno (List Byte) :=
  match disk.find path with
  | .error e => .error e
  | .ok (p, .link target) =>
    match disk.unreadable p with
    | some e => .error e
    | none => .ok (target.take bufSize)
  | .ok _ => .error .einval

/-! ## Seen files -/

/-- `struct F_triple`, with its address. -/
structure FTriple where
  addr : ℕ
  name : List Byte
  ino : ℕ
  dev : ℕ
deriving DecidableEq

/-- A `char` as a `size_t`. -/
def charValue (c : Byte) : ℕ := if c < 128 then c.toNat else 2 ^ 64 - 256 + c.toNat

/-- `hash_pjw`. -/
def hashPjw (x : List Byte) (tablesize : ℕ) : ℕ :=
  x.foldl (fun h c => (charValue c + ((h * 2 ^ 9) % 2 ^ 64 ||| h / 2 ^ 55)) % 2 ^ 64) 0 % tablesize

/-- `triple_hash`. -/
def tripleHash : Option FTriple → ℕ → ℕ
  | some p, tableSize => (hashPjw p.name tableSize ^^^ p.ino) % tableSize
  | none, _ => 0

/-- `triple_compare_ino_str`. -/
def tripleCompareInoStr (a : FTriple) : Option FTriple → Bool
  | some b => (a.ino = b.ino ∧ a.dev = b.dev) ∧ a.name = b.name
  | none => false

/-- The functions that `seen_triple` gives to `hash_initialize`. -/
def callbacks : Callbacks FTriple := ⟨tripleHash, tripleCompareInoStr, true⟩

/-- `seen_file`. -/
def seenFile (table : Table FTriple) (w : World FTriple) (file : List Byte) (stats : Stat) :
    Except Halt (Bool × World FTriple) :=
  match hashed (hashLookup callbacks table w ⟨0, file, stats.ino, stats.dev⟩) with
  | .error e => .error e
  | .ok (data, w) => .ok (data.isSome, w)

/-- `record_file`. -/
def recordFile (table : Table FTriple) (w : World FTriple) (file : List Byte) (stats : Stat) :
    Except Halt (Table FTriple × World FTriple) :=
  match w.malloc with
  | (false, _) => .error .die
  | (true, w) =>
    let addr := w.asked
    match w.malloc with
    | (false, _) => .error .die
    | (true, w) =>
      match hashed (hashInsert callbacks single table w ⟨addr, file, stats.ino, stats.dev⟩) with
      | .error e => .error e
      | .ok ((none, _), _) => .error .die
      | .ok ((some _, table), w) => .ok (table, w)

/-- `seen_triple`. -/
def seenTriple (ht : Option (Table FTriple)) (w : World FTriple) (filename : List Byte) (st : Stat) :
    Except Halt (Bool × Table FTriple × World FTriple) :=
  let (ht, w) :=
    match ht with
    | none => hashInitialize single w 7 none
    | some table => (some table, w)
  match ht with
  | none => .error .die
  | some table =>
    match seenFile table w filename st with
    | .error e => .error e
    | .ok (true, w) => .ok (true, table, w)
    | .ok (false, w) =>
      match recordFile table w filename st with
      | .error e => .error e
      | .ok (table, w) => .ok (false, table, w)

/-! ## Links -/

/-- `MAXSIZE`. -/
def maxsize : ℕ := 2 ^ 63 - 1

/-- The loop of `areadlink_with_size`; `fuel` bounds the number of buffers, each of which but the last is twice as large as
the one before it. -/
def areadlinkLoop (disk : Disk) (file : List Byte) : ℕ → World FTriple → ℕ → Except Errno (List Byte) × World FTriple
  | 0, w, _ => (.error .enomem, w)
  | fuel + 1, w, bufSize =>
    match w.malloc with
    | (false, w) => (.error .enomem, w)
    | (true, w) =>
      match readlink disk file bufSize with
      | .ok link =>
        if link.length < bufSize then (.ok link, w)
        else if bufSize ≤ maxsize / 2 then areadlinkLoop disk file fuel w (bufSize * 2)
        else if bufSize < maxsize then areadlinkLoop disk file fuel w maxsize
        else (.error .enomem, w)
      | .error _ =>
        -- A length of -1 is the largest `size_t`.
        if bufSize ≤ maxsize / 2 then areadlinkLoop disk file fuel w (bufSize * 2)
        else if bufSize < maxsize then areadlinkLoop disk file fuel w maxsize
        else (.error .enomem, w)

/-- `areadlink_with_size`. -/
def areadlinkWithSize (disk : Disk) (w : World FTriple) (file : List Byte) (size : ℕ) :
    Except Errno (List Byte) × World FTriple :=
  let initialLimit := 1024 + 1
  areadlinkLoop disk file 65 w (if size < initialLimit then size + 1 else initialLimit)

/-! ## Canonical names -/

/-- `canonicalize_mode_t`. -/
inductive CanMode
  | existing
  | allButLast
  | missing
deriving DecidableEq

/-- The file system, the current directory and the memory. -/
structure Env where
  disk : Disk
  cwd : Except Errno (List Name)
  cwd_dir : ∀ p, cwd = .ok p → disk.file p = some .dir
  world : World FTriple

/-- The variables of `canonicalize_filename_mode`. -/
structure State where
  rname : List Byte
  name : List Byte
  ht : Option (Table FTriple)
  world : World FTriple

/-- What becomes of a call. -/
inductive Result
  | returns (rname : List Byte)
  | fails (errno : Errno)
  | halts (halt : Halt)
deriving DecidableEq

/-- The absolute name of a place. -/
def render (p : List Name) : List Byte := if p = [] then [slash] else p.flatMap (slash :: ·)

/-- `dest` goes back to the previous component, unless at the root. -/
def backUp (rname : List Byte) : List Byte :=
  if 1 < rname.length then rname.dropLast.rdropWhile (· ≠ slash) else rname

/-- A component is put behind `rname`. -/
def extend (rname comp : List Byte) : List Byte :=
  (if rname.getLast? = some slash then rname else rname ++ [slash]) ++ comp

/-- What follows the loop. -/
def finish (rname : List Byte) : List Byte :=
  if 1 < rname.length ∧ rname.getLast? = some slash then rname.dropLast else rname

section Program

variable (disk : Disk) (mode : CanMode)

/-- A component that is a link: the result, or where to go on. -/
def symlink (s : State) (st : Stat) (rest : List Byte) : Result ⊕ State × List Byte :=
  match seenTriple s.ht s.world s.name st with
  | .error e => .inl (.halts e)
  | .ok (true, ht, w) =>
    if mode = .missing then .inr ({ s with ht := some ht, world := w }, rest) else .inl (.fails .eloop)
  | .ok (false, ht, w) =>
    match areadlinkWithSize disk w s.rname st.size with
    | (.error e, w) =>
      if mode = .existing ∧ e ≠ .enoent then .inr ({ s with ht := some ht, world := w }, rest) else .inl (.fails e)
    | (.ok buf, w) =>
      let name := buf ++ rest
      let rname := if buf.head? = some slash then [slash] else backUp s.rname
      .inr (⟨rname, name, some ht, w⟩, name)

/-- A component that has been put behind `rname`. -/
def component (s : State) (rest : List Byte) : Result ⊕ State × List Byte :=
  match lstat disk s.rname with
  | .error e =>
    match mode with
    | .existing => .inl (.fails e)
    | .allButLast => if (rest.dropWhile (· = slash)) ≠ [] ∨ e ≠ .enoent then .inl (.fails e) else .inr (s, rest)
    | .missing => .inr (s, rest)
  | .ok st =>
    if st.mode = .lnk then symlink disk mode s st rest
    else if st.mode ≠ .dir ∧ rest ≠ [] ∧ mode ≠ .missing then .inl (.fails .enotdir)
    else .inr (s, rest)

/-- The loop of `canonicalize_filename_mode` from `start` on; `fuel` bounds the number of components. -/
def canonicalizeLoop : ℕ → State → List Byte → Option Result
  | 0, _, _ => none
  | fuel + 1, s, start =>
    let start := start.dropWhile (· = slash)
    let comp := start.takeWhile (· ≠ slash)
    let rest := start.dropWhile (· ≠ slash)
    if comp = [] then some (.returns (finish s.rname))
    else if comp = [dot] then canonicalizeLoop fuel s rest
    else if comp = [dot, dot] then canonicalizeLoop fuel { s with rname := backUp s.rname } rest
    else
      match component disk mode { s with rname := extend s.rname comp } rest with
      | .inl result => some result
      | .inr (s, start) => canonicalizeLoop fuel s start

end Program

/-- `canonicalize_filename_mode`. -/
def canonicalizeFilenameMode (env : Env) (canMode : CanMode) (fuel : ℕ) (name : Option (List Byte)) : Option Result :=
  match name with
  | none => some (.fails .einval)
  | some [] => some (.fails .enoent)
  | some name =>
    if name.head? = some slash then canonicalizeLoop env.disk canMode fuel ⟨[slash], name, none, env.world⟩ name
    else
      match env.cwd with
      | .error e => some (.fails e)
      | .ok p => canonicalizeLoop env.disk canMode fuel ⟨render p, name, none, env.world⟩ name

end CodingExercises.Coreutils.Canonicalize
