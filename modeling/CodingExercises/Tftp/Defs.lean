import Mathlib.Algebra.Group.Nat.Defs
import Mathlib.Algebra.Group.Int.Defs
import Mathlib.Data.Rat.Defs
import Mathlib.Data.List.Basic

/-!
# TFTP: definitions

The constants, the two-byte header macros and the data the server and the client share
(`server/defs.h`, `client/defs_cli.h`).

- `Side` tells the two programs apart; their sources agree function by function, and where they differ the
  model of the function matches on it;
- `ldshort` and `stshort` are the macros for two bytes in network order (`ldshort_stshort`);
- `Exit` lists the ways either program leaves with `exit` or `err_quit`.
-/

namespace CodingExercises.Tftp

/-- The program a process runs: `server/` or `client/`. -/
inductive Side
  | server
  | client
deriving DecidableEq, Repr

/-- A `char` of a buffer. -/
abbrev Byte := UInt8

/-- The bytes of a C string literal, without its null. -/
def bytes (s : String) : List Byte := s.toList.map fun c => UInt8.ofNat c.toNat

/-- The bytes before the first null: what `strcpy` and `strcmp` see at an address. -/
def cstr (p : List Byte) : List Byte := p.takeWhile (· ≠ 0)

/-- Transmit and receive buffer length. -/
def maxBuff : Nat := 2048

/-- Most data in one DATA packet. -/
def maxData : Nat := 512

/-- Length of the file name buffers. -/
def maxFilename : Nat := 128

/-- A C string that fits into one of the arrays of `MAXFILENAME` bytes. -/
structure FileName where
  chars : List Byte
  noNull : (0 : Byte) ∉ chars
  fits : chars.length < maxFilename

/-- `modetype`: `MODE_ASCII` (netascii) or `MODE_BINARY` (octet). -/
inductive Mode
  | ascii
  | binary
deriving DecidableEq, Repr

/-! ## Opcodes and error codes -/

def opRrq : Nat := 1
def opWrq : Nat := 2
def opData : Nat := 3
def opAck : Nat := 4
def opError : Nat := 5
def opMin : Nat := 1
def opMax : Nat := 5

def errNofile : Nat := 1
def errAccess : Nat := 2
def errBadop : Nat := 4

/-! ## Two-byte integers -/

/-- `ldshort`: the two bytes at an address as an unsigned number, high byte first. -/
def ldshort (addr : List Byte) : Nat := (addr.getD 0 0).toNat * 256 + (addr.getD 1 0).toNat

/-- `stshort`: the two bytes stored for a value, which `htons` first cuts to 16 bits. -/
def stshort (sval : Int) : List Byte :=
  [UInt8.ofNat ((sval % 65536).toNat / 256), UInt8.ofNat ((sval % 65536).toNat % 256)]

@[simp] theorem length_stshort (v : Int) : (stshort v).length = 2 := rfl

@[simp] theorem drop_stshort (v : Int) (rest : List Byte) : (stshort v ++ rest).drop 2 = rest := rfl

/-- Reading a stored value back gives its lowest 16 bits. -/
theorem ldshort_stshort (v : Int) (rest : List Byte) : ldshort (stshort v ++ rest) = (v % 65536).toNat := by
  have h : (v % 65536).toNat < 65536 := by omega
  simp only [ldshort, stshort, List.cons_append, List.getD_cons_zero, List.getD_cons_succ, UInt8.toNat_ofNat']
  generalize (v % 65536).toNat = n at h ⊢
  omega

/-- A number below `2 ^ 16` comes back unchanged. -/
theorem ldshort_stshort_nat (n : Nat) (rest : List Byte) : ldshort (stshort n ++ rest) = n % 65536 := by
  rw [ldshort_stshort]; omega

/-! ## Addresses -/

/-- `struct sockaddr_in`: the IP address and the UDP port. -/
structure SockAddr where
  sinAddr : Nat
  sinPort : Nat
deriving DecidableEq, Repr

/-- A datagram handed to `sendto`. -/
structure Datagram where
  dst : SockAddr
  buff : List Byte
deriving DecidableEq, Repr

/-! ## Abnormal exits -/

/-- The ways a process calls `exit` or `err_quit` while a transfer runs, by the message printed there.
`overrun` is not a call: the C program has stored past the end of an array. -/
inductive Exit
  | fsmInvalid
  | fsmError
  | recvLength (nbytes : Nat)
  | invalidOpcode (op : Nat)
  | wrongPort (got expected : Nat)
  | firstPort (got : Nat)
  | dataLength (nbytes : Nat)
  | dataBehind
  | dataAhead
  | ackLength (nbytes : Nat)
  | ackBehind
  | ackAhead
  | crFollowedBy (c : Byte)
  | closeLastcr
  | closeNextchar
  | rqFilename
  | rqMode
  | rqOpcode
  | sentError (ecode : Nat) (errstring : String)
  | overrun
deriving DecidableEq, Repr

/-- The exits of `recv_DATA` and `recv_ACK` for a block number that does not fit. -/
def Exit.OfNumber (e : Exit) : Prop := e ∈ [.dataBehind, .dataAhead, .ackBehind, .ackAhead]

/-- The exits of `file_write` and `file_close`. -/
def Exit.OfFile (e : Exit) : Prop := (∃ c, e = .crFollowedBy c) ∨ e = .closeLastcr ∨ e = .closeNextchar

end CodingExercises.Tftp
