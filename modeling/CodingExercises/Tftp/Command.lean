import CodingExercises.Lib.Asking
import CodingExercises.Tftp.Transfer

/-!
# TFTP: commands

`client/cmdsubr.c`, `client/cmd.c` and `mainloop` of `client/mainclient.c`. A command asks `gettoken` for its arguments,
one after another, so its function is an `Asking` program: each call is a question, with the function that makes it. A
pointer into the line is the rest of the array from there; the array keeps what earlier, longer lines have left in it.

- `cmd_help` and `cmd_status` only print, and what is printed is left out;
- `do_get` and `do_put` are the subject of `GetPut`; here they are called, and return or leave the process.
-/

namespace CodingExercises.Tftp

open Lib

/-- Command line length. -/
def maxLine : Nat := 512

/-- Length of the arrays for tokens, and also `MAXHOSTNAME` and `MAXFILENAME`. -/
def maxToken : Nat := 128

/-- A string that `gettoken` has stored. -/
abbrev Token := List Byte

def newline : Byte := 10

/-- What is between two words. -/
def isBlank (c : Byte) : Bool := c = 32 ∨ c = 9

/-! ## Reading a line -/

/-- `fgets`: at most `n` bytes, up to a newline, and the rest of the stream. -/
def fgets : Nat → List Byte → List Byte × List Byte
  | 0, fp => ([], fp)
  | _ + 1, [] => ([], [])
  | n + 1, c :: fp => if c = newline then ([c], fp) else (c :: (fgets n fp).1, (fgets n fp).2)

/-- `get_line`: the array `line` and the rest of the stream; none at the end of the stream. -/
def getLine (fp line : List Byte) : Option (List Byte × List Byte) :=
  match fp with
  | [] => none
  | _ => some ((fgets (maxLine - 1) fp).1 ++ 0 :: line.drop ((fgets (maxLine - 1) fp).1.length + 1),
      (fgets (maxLine - 1) fp).2)

/-- The first loop of `gettoken`: the byte that ends it, and `lineptr`. -/
def skipWhite : List Byte → Option (Byte × List Byte)
  | [] => none
  | c :: p => if isBlank c then skipWhite p else some (c, p)

/-- The second loop of `gettoken`: the bytes it stores, and `lineptr`. -/
def collect : List Byte → Option (Token × List Byte)
  | [] => none
  | c :: p => if isBlank c ∨ c = newline ∨ c = 0 then some ([], p) else (collect p).map fun r => (c :: r.1, r.2)

/-- `gettoken`: the token or `NULL`, and `lineptr`. None when it runs past the end of `line`, or of the array for the
token. -/
def gettoken (lineptr : List Byte) : Option (Option Token × List Byte) :=
  match skipWhite lineptr with
  | none => none
  | some (c, p) =>
    if c = 0 ∨ c = newline then some (none, p)
    else
      match collect p with
      | none => none
      | some (token, p) => if token.length + 1 < maxToken then some (some (c :: token), p) else none

/-! ## Programs that ask for tokens -/

/-- The caller of `gettoken`: `mainloop`, the function of a command, or `checkend`. -/
inductive Caller
  | mainloop
  | command
  | checkend
deriving DecidableEq, Repr

/-- The variables of the commands. -/
structure CmdVars where
  hostname : Token
  port : Int
  modetype : Mode
  verboseflag : Bool
deriving DecidableEq, Repr

/-- How a function ends: it returns, `err_cmd` jumps back to the main loop, or the process exits. -/
inductive Ended
  | returned
  | errCmd (str : List Byte)
  | exited
deriving DecidableEq, Repr

/-- The end of a function, with the variables, and the arguments of `do_get` or `do_put` when it has called them. -/
structure Outcome where
  ended : Ended
  vars : CmdVars
  transfer : Option (Dir × Token × Token)
deriving DecidableEq, Repr

/-- A function that calls `gettoken`. -/
abbrev Cmd := Asking Caller (Option Token) Outcome

/-- `return`. -/
def ret (v : CmdVars) : Cmd := .done ⟨.returned, v, none⟩

/-- `err_cmd`. -/
def errCmd (str : List Byte) (v : CmdVars) : Cmd := .done ⟨.errCmd str, v, none⟩

/-! ## The commands -/

/-- `strcmp`. -/
def strcmp : List Byte → List Byte → Int
  | [], [] => 0
  | [], _ :: _ => -1
  | _ :: _, [] => 1
  | a :: s, b :: t => if a = b then strcmp s t else if a < b then -1 else 1

/-- The digits at the start of a string, as a number that goes on from `n`. -/
def digits (n : Nat) : List Byte → Nat
  | [] => n
  | c :: s => if 48 ≤ c ∧ c ≤ 57 then digits (n * 10 + (c.toNat - 48)) s else n

/-- `atoi`: `strtol` with base 10, which stays within a `long`, cut to an `int`. -/
def atoi (s : Token) : Int :=
  let s := s.dropWhile fun c => c = 32 ∨ 9 ≤ c ∧ c ≤ 13
  let val : Int :=
    match s with
    | 45 :: s => max (-2 ^ 63) (-(digits 0 s : Int))
    | 43 :: s => min (2 ^ 63 - 1) (digits 0 s)
    | s => min (2 ^ 63 - 1) (digits 0 s)
  val.bmod (2 ^ 32)

def cmdAscii (v : CmdVars) : Cmd := ret { v with modetype := .ascii }

def cmdBinary (v : CmdVars) : Cmd := ret { v with modetype := .binary }

def cmdConnect (v : CmdVars) : Cmd :=
  .ask .command fun
    | none => errCmd (bytes "missing hostname") v
    | some hostname =>
      let v := { v with hostname := hostname }
      .ask .command fun
        | none => ret v
        | some temptoken =>
          let val := atoi temptoken
          if val < 0 then errCmd (bytes "invalid port number") v else ret { v with port := val }

def cmdExit (v : CmdVars) : Cmd := .done ⟨.exited, v, none⟩

/-- `striphost`: `fname` and `hname`. The host name is not cut at the colon, since the null goes to the pointer. -/
def striphost (fname hname : Token) : Token × Token :=
  if 58 ∈ fname then ((fname.dropWhile (· ≠ 58)).tail, fname) else (fname, hname)

/-- The second half of `cmd_get` and `cmd_put`: check the names and transfer the file. -/
def checkNames (dir : Dir) (returns : Bool) (remfname locfname : Token) (v : CmdVars) : Cmd :=
  if 58 ∈ locfname then errCmd (bytes "cannot have 'host:' in local filename") v
  else
    let r := striphost remfname v.hostname
    let v := { v with hostname := r.2 }
    if v.hostname = [] then errCmd (bytes "no host has been specified") v
    else .done ⟨if returns then .returned else .exited, v, some (dir, r.1, locfname)⟩

def cmdGet (returns : Bool) (v : CmdVars) : Cmd :=
  .ask .command fun
    | none => errCmd (bytes "the remote filename must be specified") v
    | some remfname =>
      .ask .command fun
        | none => errCmd (bytes "the local filename must be specified") v
        | some locfname => checkNames .get returns remfname locfname v

def cmdHelp (v : CmdVars) : Cmd := ret v

def cmdMode (v : CmdVars) : Cmd :=
  .ask .command fun
    | none => errCmd (bytes "a mode type must be specified") v
    | some temptoken =>
      if strcmp temptoken (bytes "ascii") = 0 then ret { v with modetype := .ascii }
      else if strcmp temptoken (bytes "binary") = 0 then ret { v with modetype := .binary }
      else errCmd (bytes "mode must be 'ascii' or 'binary'") v

def cmdPut (returns : Bool) (v : CmdVars) : Cmd :=
  .ask .command fun
    | none => errCmd (bytes "the local filename must be specified") v
    | some locfname =>
      .ask .command fun
        | none => errCmd (bytes "the remote filename must be specified") v
        | some remfname => checkNames .put returns remfname locfname v

def cmdStatus (v : CmdVars) : Cmd := ret v

def cmdVerbose (v : CmdVars) : Cmd := ret { v with verboseflag := !v.verboseflag }

/-- `commands`, in alphabetical order; whether `do_get` and `do_put` return is up to the network. -/
def commands : List (List Byte × (Bool → CmdVars → Cmd)) :=
  [(bytes "?", fun _ => cmdHelp), (bytes "ascii", fun _ => cmdAscii), (bytes "binary", fun _ => cmdBinary),
   (bytes "connect", fun _ => cmdConnect), (bytes "exit", fun _ => cmdExit), (bytes "get", cmdGet),
   (bytes "help", fun _ => cmdHelp), (bytes "mode", fun _ => cmdMode), (bytes "put", cmdPut),
   (bytes "quit", fun _ => cmdExit), (bytes "status", fun _ => cmdStatus), (bytes "verbose", fun _ => cmdVerbose)]

/-- The loop of `binary`, with enough rounds for an interval of that length. -/
def binaryLoop (word : Token) : Nat → Int → Int → Int
  | 0, _, _ => -1
  | rounds + 1, low, high =>
    if low ≤ high then
      let mid := (low + high) / 2
      let cond := strcmp word ((commands.map Prod.fst).getD mid.toNat [])
      if cond < 0 then binaryLoop word rounds low (mid - 1)
      else if 0 < cond then binaryLoop word rounds (mid + 1) high
      else mid
    else -1

/-- `binary`: the index of a command, or -1. -/
def binary (word : Token) (n : Nat) : Int := binaryLoop word n 0 (n - 1)

/-- `checkend`, behind a function that has returned. -/
def checkend (o : Outcome) : Cmd :=
  .ask .checkend fun
    | none => .done o
    | some _ => .done { o with ended := .errCmd (bytes "trailing garbage") }

/-- What `docmd` does behind the function of a command, when that one comes back. -/
def comeBack (o : Outcome) : Cmd :=
  match o.ended with
  | .returned => checkend o
  | _ => .done o

/-- `docmd`. -/
def docmd (returns : Bool) (cmdptr : Token) (v : CmdVars) : Cmd :=
  let i := binary cmdptr commands.length
  if i < 0 then errCmd cmdptr v
  else
    match commands[i.toNat]? with
    | none => ret v
    | some (_, cmdFunc) => (cmdFunc returns v).bind comeBack

/-! ## The main loop -/

/-- The body of the loop of `mainloop`, once a line has been read. -/
def processLine (returns : Bool) (v : CmdVars) : Cmd :=
  .ask .mainloop fun
    | none => ret v
    | some command => docmd returns command v

/-- Whether the loop goes on; `overrun` when the program has left one of its arrays. -/
inductive LoopStatus
  | running
  | ended
  | exited
  | overrun
deriving DecidableEq, Repr

/-- The client between two lines. -/
structure Client where
  fp : List Byte
  line : List Byte
  vars : CmdVars
  status : LoopStatus

/-- What happens on a line: the string in `line`, the calls of `gettoken` with what they return, and the end. -/
structure Record where
  text : List Byte
  calls : List (Caller × Option Token)
  outcome : Option Outcome
deriving DecidableEq, Repr

/-- The processing of a line that has been read into the array. -/
def record (returns : Bool) (v : CmdVars) (line : List Byte) : Record :=
  let r := (processLine returns v).run gettoken line
  ⟨cstr line, r.1, r.2.map Prod.fst⟩

/-- The client behind that line. -/
def Client.after (x : Client) (line fp : List Byte) (outcome : Option Outcome) : Client :=
  match outcome with
  | none => { x with fp := fp, line := line, status := .overrun }
  | some o => ⟨fp, line, o.vars, if o.ended = .exited then .exited else .running⟩

/-- `mainloop`; an event is a line, with whether `do_get` or `do_put` return to it. -/
def mainloop : Machine Client Bool Record where
  step x returns :=
    if x.status = .running then
      match getLine x.fp x.line with
      | none => { x with status := .ended }
      | some (line, fp) => x.after line fp (record returns x.vars line).outcome
    else x
  emit x returns :=
    if x.status = .running then
      match getLine x.fp x.line with
      | none => []
      | some (line, _) => [record returns x.vars line]
    else []

end CodingExercises.Tftp
