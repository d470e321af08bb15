import CodingExercises.Coreutils.ChownCore
import CodingExercises.Coreutils.ModeAdjust
import CodingExercises.Coreutils.Savewd

/-!
# mkdir -p: the directory itself

`make_dir_parents` of `lib/mkdir-p.c`, after its ancestors are made, with `dirchownmod` of `lib/dirchownmod.c` and
`savewd_chdir`. The umask is zero. `DIR` is what the name leads to from the working directory; each state that it gets is
recorded.
-/

namespace CodingExercises.Coreutils.MkdirP

open SaveWd (Errno Savewd ChdirOptions Answers savewdChdir)

/-- `ENOENT`. -/
def enoent : Errno := .other 2

/-- `EEXIST`. -/
def eexist : Errno := .other 17

/-- `ENOTDIR`. -/
def enotdir : Errno := .other 20

/-- `S_IFDIR`. -/
def sIfdir : ModeT := 0o40000

/-- `S_IRUSR`. -/
def sIrusr : ModeT := 0o400

/-- `S_IXUSR`. -/
def sIxusr : ModeT := 0o100

/-- `S_IWGRP`. -/
def sIwgrp : ModeT := 0o020

/-- `S_IWOTH`. -/
def sIwoth : ModeT := 0o002

/-- `(mode_t) -1`. -/
def noMode : ModeT := 0xffffffff

/-- A file, with the bits of its mode that `chmod` changes. -/
structure File where
  isDir : Bool
  mode : ModeT
  uid : ℕ
  gid : ℕ
deriving DecidableEq

/-- What is at the name: nothing, a symbolic link to nothing, or a file, which may be behind a symbolic link. -/
inductive Situation
  | absent
  | dangling
  | file (link : Bool) (f : File)
deriving DecidableEq

/-- The working directory that `mkdir` is called in, and `DIR`. -/
inductive Place
  | here
  | dir
deriving DecidableEq

/-- `subdir`: `"."`, or the name. -/
inductive Name
  | dot
  | path
deriving DecidableEq

/-- `DIR`, with what it was after each call that changed it; the directory `mkdir` is called in; and the working
directory. -/
structure World where
  dir : Situation
  here : File
  cwd : Place
  moments : List Situation
deriving DecidableEq

/-- What `mkancesdirs` comes to: the ancestors are made, with the saved directory; an ancestor is not made; or a child is
there for the rest. -/
inductive Ancestors
  | made (wd : Savewd Place)
  | failed (errno : Errno)
  | delegated

/-- The kernel. Any call may fail; a new directory gets the bit `S_ISGID` from the one it is in; and `chown` clears some of
the bits `S_ISUID` and `S_ISGID` where the file can be executed. -/
structure Kernel where
  haveFchmod : Bool
  mkancesdirs : Ancestors
  mkdir : Option Errno
  newUid : ℕ
  newGid : ℕ
  inherits : Bool
  savewd : Answers Place
  stat : Option Errno
  chown : Option Errno
  clears : ModeT
  chmod : Option Errno
  close : Option Errno

/-- The arguments of `make_dir_parents`, but for the name. -/
structure Request where
  makeAncestor : Bool
  mode : ModeT
  modeBits : ModeT
  owner : ℕ
  group : ℕ
  preserveExisting : Bool

/-- The diagnostics. -/
inductive Diag
  /-- `cannot create directory %s`. -/
  | cannotCreate (errno : Option Errno)
  /-- `cannot change permissions of %s`, or `cannot change owner and permissions of %s`. -/
  | cannotChange (owner : Bool) (errno : Option Errno)
deriving DecidableEq

/-- What `make_dir_parents` returns, whether a child does the work, whether `ANNOUNCE` was called, and the diagnostic. -/
structure Result where
  ok : Bool
  delegated : Bool
  announced : Bool
  diag : Option Diag
deriving DecidableEq

/-- Before the call. -/
def World.start (dir : Situation) (here : File) : World := ⟨dir, here, .here, []⟩

/-! ## The kernel -/

/-- `st_mode` of a directory. -/
def File.stMode (f : File) : ModeT := sIfdir ||| (f.mode &&& chmodModeBits)

/-- `DIR` is in another state. -/
def World.setDir (w : World) (s : Situation) : World := { w with dir := s, moments := w.moments ++ [s] }

/-- The file at a place. -/
def World.get (w : World) : Place → Option File
  | .here => some w.here
  | .dir =>
    match w.dir with
    | .file _ f => some f
    | _ => none

/-- The file at a place is changed. -/
def World.put (w : World) (f : File) : Place → World
  | .here => { w with here := f }
  | .dir =>
    match w.dir with
    | .file link _ => w.setDir (.file link f)
    | _ => w

/-- The file that a call works on: the one of the descriptor, or the one that the name leads to. No value is a file that is
neither here nor `DIR`. -/
def World.target (w : World) (fd : Bool) (name : Name) (nofollow : Bool) : Option Place :=
  if fd then some .dir
  else
    match name, w.cwd with
    | .dot, p => some p
    | .path, .dir => none
    | .path, .here =>
      match w.dir with
      | .file true _ => if nofollow then none else some .dir
      | _ => some .dir

/-- `mkdir`. -/
def World.mkdir (k : Kernel) (mode : ModeT) (w : World) : Option Errno × World :=
  match w.dir, k.mkdir with
  | .absent, none =>
    let mode := (mode &&& (sIsvtx ||| sIrwxugo)) ||| if k.inherits then sIsgid else 0
    (none, w.setDir (.file false ⟨true, mode, k.newUid, k.newGid⟩))
  | .absent, some e => (some e, w)
  | _, e => (some (e.getD eexist), w)

/-- `stat` or `fstat`. -/
def World.stat (k : Kernel) (w : World) (fd : Bool) (name : Name) : Except Errno File :=
  match (w.target fd name false).bind w.get, k.stat with
  | some f, none => .ok f
  | some _, some e => .error e
  | none, e => .error (e.getD enoent)

/-- The owner and the group that `chown` gives a file. -/
def File.chown (f : File) (k : Kernel) (owner group : ℕ) : File :=
  { f with
    uid := Chown.newId owner f.uid
    gid := Chown.newId group f.gid
    mode := if f.mode &&& sIxugo ≠ 0 then f.mode &&& ~~~(k.clears &&& (sIsuid ||| sIsgid)) else f.mode }

/-- A call that changes the file it works on. -/
def World.change (answer : Option Errno) (change : File → File) (w : World) (t : Option Place) : Option Errno × World :=
  match answer with
  | some e => (some e, w)
  | none =>
    match t with
    | none => (none, w)
    | some p =>
      match w.get p with
      | none => (some enoent, w)
      | some f => (none, w.put (change f) p)

/-- `DIR` is a directory. -/
def World.isDirectory (w : World) : Bool :=
  match w.dir with
  | .file _ f => f.isDir
  | _ => false

/-- What `savewd_chdir` sees: only a directory can be opened or be the working directory, and not through a symbolic link
with `O_NOFOLLOW`. -/
def Kernel.answers (k : Kernel) (w : World) (nofollow : Bool) : Answers Place :=
  let throughLink : Bool := match w.dir with
    | .file link _ => link
    | _ => false
  { k.savewd with
    opened := if w.isDirectory && !(nofollow && throughLink) then k.savewd.opened
      else some (k.savewd.opened.getD enotdir)
    changed := match k.savewd.changed with
      | .error e => .error e
      | .ok _ => if w.isDirectory then .ok .dir else .error enotdir }

/-! ## `dirchownmod` -/

/-- The call of `fchown`, `lchown` or `chown`, and `indeterminate`. -/
def chownPart (k : Kernel) (fd : Bool) (name : Name) (mkdirMode : ModeT) (r : Request) (st : File) (w : World) :
    Option Errno × ModeT × World :=
  if r.owner ≠ Chown.noId ∧ r.owner ≠ st.uid ∨ r.group ≠ Chown.noId ∧ r.group ≠ st.gid then
    match w.change k.chown (·.chown k r.owner r.group) (w.target fd name (mkdirMode ≠ noMode)) with
    | (some e, w) => (some e, 0, w)
    | (none, w) => (none, if st.stMode &&& sIxugo ≠ 0 then st.stMode &&& (sIsuid ||| sIsgid) else 0, w)
  else (none, 0, w)

/-- The call of `fchmod`, `lchmod` or `chmod`. -/
def chmodPart (k : Kernel) (fd : Bool) (name : Name) (mkdirMode : ModeT) (r : Request) (st : File)
    (indeterminate : ModeT) (w : World) : Option Errno × World :=
  if ((st.stMode ^^^ r.mode) ||| indeterminate) &&& r.modeBits ≠ 0 then
    let chmodMode := r.mode ||| (st.stMode &&& chmodModeBits &&& ~~~r.modeBits)
    w.change k.chmod (fun f => { f with mode := chmodMode &&& chmodModeBits })
      (w.target (k.haveFchmod && fd) name (mkdirMode ≠ noMode))
  else (none, w)

/-- `dirchownmod`, with the `errno` of a failure. -/
def dirchownmod (k : Kernel) (fd : Bool) (name : Name) (mkdirMode : ModeT) (r : Request) (w : World) :
    Option Errno × World :=
  match w.stat k fd name with
  | .error e => (some e, w)
  | .ok st =>
    if !st.isDir then (some enotdir, w)
    else
      match chownPart k fd name mkdirMode r st w with
      | (some e, _, w) => (some e, w)
      | (none, indeterminate, w) =>
        match chmodPart k fd name mkdirMode r st indeterminate w with
        | (some e, w) => (some e, w)
        | (none, w) => (if fd then k.close else none, w)

/-! ## `make_dir_parents` -/

/-- `keep_owner`. -/
def Request.keepOwner (r : Request) : Bool := r.owner = Chown.noId && r.group = Chown.noId

/-- `keep_special_mode_bits`. -/
def Request.keepSpecialModeBits (r : Request) : Bool :=
  (r.modeBits &&& (sIsuid ||| sIsgid)) ||| (r.mode &&& sIsvtx) = 0

/-- `mkdir_mode`. -/
def Request.mkdirMode (r : Request) : ModeT :=
  if !r.keepOwner then r.mode &&& ~~~(sIrwxg ||| sIrwxo)
  else if !r.keepSpecialModeBits then r.mode &&& ~~~(sIwgrp ||| sIwoth)
  else r.mode

/-- The rest of `make_dir_parents` where `preserve_existing` is set. -/
def preserve (k : Kernel) (r : Request) (mkdirErrno : Option Errno) (w : World) : Result × World :=
  let isDirectory : Bool := match w.stat k false .path with
    | .ok st => st.isDir
    | .error _ => false
  match mkdirErrno with
  | none => (⟨true, false, true, none⟩, w)
  | some e =>
    if e ≠ enoent && r.makeAncestor && isDirectory then (⟨true, false, false, none⟩, w)
    else (⟨false, false, false, some (.cannotCreate (some e))⟩, w)

/-- `errno` after `savewd_chdir`. -/
def chdirErrno (o : ChdirOptions) (a : Answers Place) : Option Errno :=
  let changed := match a.changed with
    | .error e => some e
    | .ok _ => none
  match a.opened with
  | some e => if e ≠ .eacces || o.readable then some e else changed
  | none => changed

/-- The rest of `make_dir_parents` where the owner, the group or the mode is to be changed; without a value an assertion of
`savewd_chdir` fails. -/
def changeDirectory (k : Kernel) (r : Request) (wd : Savewd Place) (mkdirErrno : Option Errno) (mkdirMode : ModeT)
    (o : ChdirOptions) (w : World) : Option (Result × World) :=
  let announced := mkdirErrno.isNone
  let a := k.answers w o.nofollow
  let fd := a.opened.isNone
  match savewdChdir true o true wd w.cwd a with
  | none => none
  | some (.delegated, _, _) => some (⟨true, true, announced, none⟩, w)
  | some (result, _, cwd) =>
    let chdirOk : Bool := result = .ok
    let w := { w with cwd }
    let failedUnexpectedly := mkdirErrno.isNone &&
      ((!chdirOk && r.mode &&& sIxusr ≠ 0) || (!fd && r.mode &&& sIrusr ≠ 0))
    match if failedUnexpectedly then (none, w)
      else
        match dirchownmod k fd (if chdirOk then .dot else .path) mkdirMode r w with
        | (e, w) => (some e, w) with
    | (some none, w) => some (⟨true, false, announced, none⟩, w)
    | (failed, w) =>
      let errno := match failed with
        | some e => e
        | none => if !chdirOk && r.mode &&& sIxusr ≠ 0 then chdirErrno o a else a.opened
      let change : Bool := match mkdirErrno with
        | none => true
        | some e => e ≠ enoent && r.makeAncestor && errno ≠ some enotdir
      let diag := if change then Diag.cannotChange (!r.keepOwner) errno else .cannotCreate mkdirErrno
      some (⟨false, false, announced, some diag⟩, w)

/-- `make_dir_parents` once the ancestors are made. -/
def makeDir (k : Kernel) (r : Request) (wd : Savewd Place) (w : World) : Option (Result × World) :=
  match w.mkdir k r.mkdirMode with
  | (none, w) =>
    if r.keepOwner && r.keepSpecialModeBits then some (preserve k r none w)
    else changeDirectory k r wd none r.mkdirMode ⟨true, r.mode &&& sIrusr ≠ 0, k.haveFchmod⟩ w
  | (some e, w) =>
    if r.preserveExisting then some (preserve k r (some e) w)
    else changeDirectory k r wd (some e) noMode ⟨false, false, k.haveFchmod⟩ w

/-- `make_dir_parents`, for a name that may be absolute. -/
def makeDirParents (k : Kernel) (r : Request) (absolute : Bool) (wd : Savewd Place) (w : World) :
    Option (Result × World) :=
  let failed (e : Errno) : Option (Result × World) := some (⟨false, false, false, some (.cannotCreate (some e))⟩, w)
  match if absolute then none else wd.errno with
  | some e => failed e
  | none =>
    if r.makeAncestor then
      match k.mkancesdirs with
      | .delegated => some (⟨true, true, false, none⟩, w)
      | .failed e => failed e
      | .made wd => makeDir k r wd w
    else makeDir k r wd w

end CodingExercises.Coreutils.MkdirP
