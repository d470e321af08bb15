import CodingExercises.Tftp.Defs

/-!
# TFTP: the state of a process

The external and file-level static variables of one process (`initvars.c`, `initvars_cli.c`, `file.c`, `fsm.c`,
`net_udp.c` and their client counterparts), and the file system it sees.

- `LocalFile` is the stream `localfp` with the statics of `file.c`;
- `RttStruct` is `struct rtt_struct`, with the `float` estimators as rationals and the `short` fields as integers that
  `toShort` wraps;
- `Globals` is everything a handler reads or writes, with the datagrams handed to `sendto` in `outbox`;
- `Proc` is a process in `fsm_loop`: waiting in `net_recv`, returned, or gone.
-/

namespace CodingExercises.Tftp

/-- `localfp` and the two statics of `file.c`: the bytes not read yet, the bytes written so far, whether the last byte
written was a carriage return, and the byte `file_read` still owes (`-1` for none). -/
structure LocalFile where
  unread : List Byte
  written : List Byte
  lastcr : Bool
  nextchar : Int
deriving DecidableEq, Repr

/-- `fopen` modes. -/
inductive OpenMode
  | r
  | w
deriving DecidableEq, Repr

/-- The file system: `st_mode` of a path (`none` when `stat` fails), the bytes a stream opened on a path delivers (`none`
when `fopen` returns `NULL`), and what reading `stdout` delivers. -/
structure FileSys where
  stat : List Byte → Option Nat
  fopen : List Byte → OpenMode → Option (List Byte)
  stdout : List Byte

/-- A value stored in a `short`. -/
def toShort (v : Int) : Int := v.bmod 65536

/-- `struct rtt_struct`; the two times are readings of the clock in microseconds. -/
structure RttStruct where
  rtt : ℚ
  srtt : ℚ
  rttdev : ℚ
  nrexmt : Int
  currto : Int
  nxtrto : Int
  timeStart : Int
  timeStop : Int
deriving DecidableEq, Repr

/-- What the clock shows when a pass of `fsm_loop` stops the timer and when the next pass starts it. -/
structure Readings where
  stop : Int
  start : Int
deriving DecidableEq, Repr

/-- The variables of a process. `peer` is `udp_cli_addr` in the server and `udp_srv_addr` in the client; `sendbuff`
holds the first `sendlen` bytes of the buffer; `alarm` is the last argument of `alarm()`; `stderr` holds the error
packets `recv_RQERR` has printed. -/
structure Globals where
  nextblknum : Int
  lastsend : Nat
  totnbytes : Nat
  modetype : Mode
  opSent : Nat
  opRecv : Nat
  recvbuff : List Byte
  sendbuff : List Byte
  localfp : LocalFile
  peer : SockAddr
  recvFirst : Bool
  rttinfo : RttStruct
  rttfirst : Bool
  alarm : Int
  stderr : List (Nat × List Byte)
  outbox : List Datagram
deriving DecidableEq, Repr

/-- `initvars.c`, `initvars_cli.c` and the initial values of the statics: a process that has not done anything. -/
def initvars : Globals where
  nextblknum := 0
  lastsend := 0
  totnbytes := 0
  modetype := .ascii
  opSent := 0
  opRecv := 0
  recvbuff := List.replicate maxBuff 0
  sendbuff := []
  localfp := ⟨[], [], false, 0⟩
  peer := ⟨0, 0⟩
  recvFirst := false
  rttinfo := ⟨0, 0, 0, 0, 0, 0, 0, 0⟩
  rttfirst := true
  alarm := 0
  stderr := []
  outbox := []

/-- Where a process is: waiting in `net_recv`, returned from `fsm_loop`, or gone. -/
inductive Status
  | waiting
  | returned (ret : Int)
  | exited (why : Exit)
deriving DecidableEq, Repr

/-- A process and its variables; those of a process that has exited are as they were when it did. -/
structure Proc where
  status : Status
  g : Globals
deriving DecidableEq, Repr

/-- What a function that may leave the process returns. -/
abbrev Result (α : Type) := Except (Exit × Globals) α

/-- A sequence of two functions returns when both do. -/
theorem bind_eq_ok {α β ε : Type} {r : Except ε α} {f : α → Except ε β} {b : β} (h : (r >>= f) = .ok b) :
    ∃ a, r = .ok a ∧ f a = .ok b := by
  cases r with
  | error e => cases h
  | ok a => exact ⟨a, rfl, h⟩

end CodingExercises.Tftp
