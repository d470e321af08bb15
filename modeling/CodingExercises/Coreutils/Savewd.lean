import Mathlib.Data.Int.Notation
import Mathlib.Order.Defs.LinearOrder
import CodingExercises.Lib.Runs
import CodingExercises.Coreutils.FileName

/-!
# savewd: saving the working directory

`lib/savewd.c`: `savewd_process_files` with a function `act` that changes the directory with `savewd_chdir`, where the
directory may be saved in a descriptor, or by forking a child that does the work.

Processes take steps in any order; a process is at a point of `savewd_process_files`, or in a call of `act`. A descriptor is
the directory that it is open on. An `act` is any program (`Act`) that ends when a child has taken over, and that only
reports an error for a relative name in the error state.

`savewd_finish` forgets the error state, so the last relative file is worked on even where the directory is lost, and the
status of a child is cut to 8 bits. Where neither happens (`Sys.Fine`), what `savewd_process_files` is for holds in every
state of a run (`runs_right`).
-/

namespace CodingExercises.Coreutils.SaveWd

open Lib

/-- `errno`. -/
inductive Errno
  | eacces
  | estale
  | other (n : ℕ)
deriving DecidableEq

/-- `val.child`: negative, 0 in a child, or the process of a child. -/
inductive Child
  | none
  | self
  | pid (p : ℕ)
deriving DecidableEq

/-- `struct savewd`, with directories of type `δ`. -/
inductive Savewd (δ : Type)
  | initial
  | fd (dir : δ)
  | fdPostChdir (dir : δ)
  | forking (child : Child)
  | error (errnum : Errno)
  | final
deriving DecidableEq

/-- What `fork` returns, if it does not fail. -/
inductive Forked
  | parent (pid : ℕ)
  | child
deriving DecidableEq

/-- The options of `savewd_chdir`. -/
structure ChdirOptions where
  nofollow : Bool
  readable : Bool
  skipReadable : Bool
deriving DecidableEq

/-- The answers to the calls of one step: `open` of the directory itself, `open`, `fork`, `chdir` or `fchdir` with the
directory it leads to, the `fchdir` of `savewd_restore`, and whatever else `act` sees. -/
structure Answers (δ : Type) where
  openDot : Option Errno
  opened : Option Errno
  forked : Except Errno Forked
  changed : Except Errno δ
  restored : Option Errno
  reply : ℕ

section

variable {δ : Type}

/-- `savewd_delegating`. -/
def Savewd.delegating : Savewd δ → Bool
  | .forking (.pid _) => true
  | _ => false

/-- `savewd_errno`. -/
def Savewd.errno : Savewd δ → Option Errno
  | .error e => some e
  | _ => none

/-- `savewd_finish`; without a value an assertion fails. -/
def savewdFinish : Savewd δ → Option (Savewd δ)
  | .initial | .error _ | .fd _ | .fdPostChdir _ | .forking .none => some .final
  | .forking _ | .final => none

/-- The state `FORKING_STATE` in `savewd_save`. -/
def savewdFork (a : Answers δ) : Bool × Savewd δ :=
  match a.forked with
  | .ok (.parent pid) => (true, .forking (.pid pid))
  | .ok .child => (false, .forking .self)
  | .error e => (false, .error e)

/-- `savewd_save`. -/
def savewdSave (wd : Savewd δ) (cwd : δ) (a : Answers δ) : Bool × Savewd δ :=
  match wd with
  | .initial =>
    match a.openDot with
    | none => (false, .fd cwd)
    | some e => if e ≠ .eacces ∧ e ≠ .estale then (false, .error e) else savewdFork a
  | .forking .none => savewdFork a
  | wd => (false, wd)

/-- What `savewd_chdir` returns: 0, -1 or -2. -/
inductive ChdirResult
  | ok
  | failed
  | delegated
deriving DecidableEq

/-- `savewd_chdir`: the result, the saved directory and the working directory; without a value an assertion fails. -/
def savewdChdir (workingNofollow : Bool) (o : ChdirOptions) (openResult : Bool) (wd : Savewd δ) (cwd : δ)
    (a : Answers δ) : Option (ChdirResult × Savewd δ × δ) :=
  let opens := openResult || workingNofollow && o.nofollow
  let failed := opens && a.opened.any fun e => e ≠ .eacces || o.readable
  if failed then some (.failed, wd, cwd)
  else if opens && a.opened.isNone && o.skipReadable then some (.ok, wd, cwd)
  else
    let (delegates, wd) := savewdSave wd cwd a
    if delegates then some (.delegated, wd, cwd)
    else match a.changed with
      | .error _ => some (.failed, wd, cwd)
      | .ok dir =>
        match wd with
        | .fd d => some (.ok, .fdPostChdir d, dir)
        | .error _ | .fdPostChdir _ | .final | .forking .self => some (.ok, wd, dir)
        | .initial | .forking _ => none

/-- What `savewd_restore` does. -/
inductive Restored (δ : Type)
  | returns (r : ℤ) (wd : Savewd δ) (cwd : δ)
  | exits (status : ℤ)
  | waits (pid : ℕ)
  | aborts

/-- `savewd_restore`. -/
def savewdRestore (wd : Savewd δ) (cwd : δ) (status : ℤ) (a : Answers δ) : Restored δ :=
  match wd with
  | .initial | .fd _ => .returns 0 wd cwd
  | .fdPostChdir d =>
    match a.restored with
    | none => .returns 0 (.fd d) d
    | some e => .returns (-1) (.error e) cwd
  | .error _ => .returns (-1) wd cwd
  | .forking .self => .exits status
  | .forking (.pid pid) => .waits pid
  | .forking .none => .returns 0 wd cwd
  | .final => .aborts

end

/-! ## `act` -/

/-- A call of `act`: it ends with a status, looks at `savewd_errno`, calls `savewd_chdir`, or does something else that does
not change the directory. Where a child has taken over, it ends with `delegated` in the parent. -/
inductive Act
  | ret (status : ℤ)
  | savewdErrno (k : Option Errno → Act)
  | chdir (o : ChdirOptions) (openResult : Bool) (delegated : ℤ) (k : Bool → ℕ → Act)
  | work (k : ℕ → Act)

/-- `act`: what it does for a file, and the status it reports for a relative name where `savewd_errno` is not 0. -/
structure Client where
  acts : List Byte → Act
  reports : List Byte → Errno → ℤ

/-- `IS_RELATIVE_FILE_NAME`. -/
def isRelativeFileName (f : List Byte) : Bool := f.head? ≠ some slash

/-- A call of `act`, and whether it does more than to report. -/
def Client.call {δ : Type} (c : Client) (file : List Byte) (wd : Savewd δ) : Act × Bool :=
  match if isRelativeFileName file then wd.errno else none with
  | some e => (.ret (c.reports file e), false)
  | none => (c.acts file, true)

/-! ## `savewd_process_files` -/

/-- The file `i` has a relative name. -/
def relative (file : List (List Byte)) (i : ℕ) : Bool := file[i]?.any isRelativeFileName

/-- The loop that finds `last_relative`. -/
def lastRelativeFrom (file : List (List Byte)) : ℕ → ℤ
  | 0 => -1
  | n + 1 => if relative file n then n else lastRelativeFrom file n

/-- `last_relative`. -/
def lastRelative (file : List (List Byte)) : ℤ := lastRelativeFrom file file.length

/-- Where a process is: at the head of the first loop, in a call of `act` in the first or in the second loop, before the
`savewd_restore` of the first loop, at the head of the second loop, or at an end. -/
inductive Ctl
  | loop
  | acting (tail : Bool) (act : Act)
  | restore
  | tail
  | returned
  | exited (status : ℤ)
  | aborted

/-- A process in `savewd_process_files`. -/
structure Proc (δ : Type) where
  i : ℕ
  exitStatus : ℤ
  wd : Savewd δ
  cwd : δ
  ctl : Ctl

/-- What is seen of a run: `act` starts to work on a file, with the working directory of its process; it is done with it;
and it has returned because a child has taken over. -/
inductive Event (δ : Type)
  | works (i : ℕ) (cwd : δ)
  | handled (i : ℕ) (status : ℤ)
  | delegated (i : ℕ) (status : ℤ)
deriving DecidableEq

section

variable {δ : Type} (workingNofollow : Bool) (c : Client) (file : List (List Byte))

/-- `act` has returned `s`. -/
def Proc.after (p : Proc δ) (tail : Bool) (s : ℤ) : Proc δ :=
  if tail then { p with exitStatus := max p.exitStatus s, i := p.i + 1, ctl := .tail }
  else { p with exitStatus := max p.exitStatus s, ctl := .restore }

/-- `act` is called. -/
def Proc.start (p : Proc δ) (tail : Bool) : Option (Proc δ × List (Event δ)) :=
  match file[p.i]? with
  | none => none
  | some f =>
    let (act, works) := c.call f p.wd
    some ({ p with ctl := .acting tail act }, if works then [.works p.i p.cwd] else [])

/-- A step of `act`. -/
def Proc.act (p : Proc δ) (tail : Bool) (a : Answers δ) : Act → Proc δ × List (Event δ)
  | .ret s => (p.after tail s, [.handled p.i s])
  | .savewdErrno k => ({ p with ctl := .acting tail (k p.wd.errno) }, [])
  | .work k => ({ p with ctl := .acting tail (k a.reply) }, [])
  | .chdir o openResult delegated k =>
    match savewdChdir workingNofollow o openResult p.wd p.cwd a with
    | none => ({ p with ctl := .aborted }, [])
    | some (.delegated, wd, cwd) => ({ p with wd, cwd }.after tail delegated, [.delegated p.i delegated])
    | some (.ok, wd, cwd) => ({ p with wd, cwd, ctl := .acting tail (k true a.reply) }, [])
    | some (.failed, wd, cwd) => ({ p with wd, cwd, ctl := .acting tail (k false a.reply) }, [])

/-- The `savewd_restore` of the first loop, where `exited` gives the statuses of the children that are gone. Without a
value the process waits. -/
def Proc.restore (p : Proc δ) (a : Answers δ) (exited : ℕ → Option ℤ) : Option (Proc δ) :=
  if relative file (p.i + 1) then
    match savewdRestore p.wd p.cwd p.exitStatus a with
    | .returns r wd cwd => some { i := p.i + 1, exitStatus := max p.exitStatus r, wd, cwd, ctl := .loop }
    | .exits status => some { p with ctl := .exited (status % 256) }
    | .waits pid =>
      (exited pid).map fun r =>
        { i := p.i + 1, exitStatus := max p.exitStatus r, wd := .forking .none, cwd := p.cwd, ctl := .loop }
    | .aborts => some { p with ctl := .aborted }
  else some { p with i := p.i + 1, ctl := .loop }

/-- A step of a process. Without a value it waits, or is gone. -/
def Proc.step (a : Answers δ) (exited : ℕ → Option ℤ) (p : Proc δ) : Option (Proc δ × List (Event δ)) :=
  match p.ctl with
  | .loop =>
    if p.i < lastRelative file then
      if p.wd.delegating then some ({ p with ctl := .restore }, []) else p.start c file false
    else
      match savewdFinish p.wd with
      | some wd => some ({ p with wd, ctl := .tail }, [])
      | none => some ({ p with ctl := .aborted }, [])
  | .acting tail act => some (p.act workingNofollow tail a act)
  | .restore => (p.restore file a exited).map fun p => (p, [])
  | .tail => if p.i < file.length then p.start c file true else some ({ p with ctl := .returned }, [])
  | .returned | .exited _ | .aborted => none

/-- With these answers the process calls `fork`. -/
def Proc.forks (p : Proc δ) (a : Answers δ) : Bool :=
  match p.ctl with
  | .acting _ (.chdir o openResult _ _) =>
    match savewdChdir workingNofollow o openResult p.wd p.cwd { a with forked := .ok (.parent 0) } with
    | some (.delegated, _, _) => true
    | _ => false
  | _ => false

/-- All processes, and what was seen. A process's number is its place. -/
structure Sys (δ : Type) where
  procs : List (Proc δ)
  log : List (Event δ)

/-- The status that a process has exited with. -/
def Sys.exited (s : Sys δ) (pid : ℕ) : Option ℤ :=
  match s.procs[pid]? with
  | some { ctl := .exited status, .. } => some status
  | _ => none

/-- At the start of `savewd_process_files`. -/
def Sys.init (cwd : δ) : Sys δ where
  procs := [{ i := 0, exitStatus := 0, wd := .initial, cwd, ctl := .loop }]
  log := []

/-- One process takes a step, in which `fork` is not called or fails; or it forks. -/
inductive Step : Sys δ → Sys δ → Prop
  | one {s : Sys δ} {j : ℕ} {p p' : Proc δ} {a : Answers δ} {e : Errno} {l : List (Event δ)} :
    s.procs[j]? = some p → a.forked = .error e → p.step workingNofollow c file a s.exited = some (p', l) →
    Step s { procs := s.procs.set j p', log := s.log ++ l }
  | fork {s : Sys δ} {j : ℕ} {p p' q : Proc δ} {a : Answers δ} {l l' : List (Event δ)} :
    s.procs[j]? = some p → p.forks workingNofollow a →
    p.step workingNofollow c file { a with forked := .ok (.parent s.procs.length) } s.exited = some (p', l) →
    p.step workingNofollow c file { a with forked := .ok .child } s.exited = some (q, l') →
    Step s { procs := s.procs.set j p' ++ [q], log := s.log ++ (l ++ l') }

end

/-! ## What it is for -/

section

variable {δ : Type}

/-- The files that are done, in the order in which they are. -/
def handled (l : List (Event δ)) : List ℕ :=
  l.filterMap fun
    | .handled i _ => some i
    | _ => none

/-- The statuses that `act` returned. -/
def statuses (l : List (Event δ)) : List ℤ :=
  l.filterMap fun
    | .handled _ s | .delegated _ s => some s
    | _ => none

/-- What `savewd_process_files` is for: relative files are worked on in the initial directory, each file is handled by one
process, and the status at the end is not below that of any call of `act`. -/
structure Right (home : δ) (file : List (List Byte)) (s : Sys δ) : Prop where
  atHome : ∀ i d, .works i d ∈ s.log → relative file i → d = home
  notTwice : (handled s.log).Nodup
  once : ∀ p, s.procs[0]? = some p → p.ctl matches .returned → ∀ i < file.length, (handled s.log).count i = 1
  status : ∀ p, s.procs[0]? = some p → p.ctl matches .returned → ∀ r ∈ statuses s.log, r ≠ 0 → r ≤ p.exitStatus

/-- A state before a step in which neither `savewd_finish` is called in the error state away from the initial directory, nor
does a child exit with a status of more than 8 bits. -/
def Sys.Fine (home : δ) (file : List (List Byte)) (s : Sys δ) : Prop :=
  ∀ p ∈ s.procs,
    (p.ctl matches .loop → ¬ (p.i : ℤ) < lastRelative file → p.wd.errno.isSome → p.cwd = home) ∧
      (p.ctl matches .restore → p.wd matches .forking .self → relative file (p.i + 1) → p.exitStatus < 256)

end

end CodingExercises.Coreutils.SaveWd
