import CodingExercises.Lib.Stream
import CodingExercises.Tftp.State

/-!
# TFTP: the local file

`server/file.c` and `client/file_cli.c`. In netascii a newline travels as CR LF and a carriage return as CR NUL, and
either pair may be cut between two calls; `nextchar` and `lastcr` carry the other half.

- `fileRead` delivers the bytes `pending` in a stream, in order and as many as are asked for (`fileRead_fst`,
  `pending_fileRead`), so it is a `Source` (`fileSource`);
- `fileWrite` in pieces is `fileWrite` of their concatenation (`fileWrite_append`), so it is a `Sink` (`fileSink`);
- writing the netascii form of some bytes puts exactly those bytes (`fileWrite_netascii`).
-/

namespace CodingExercises.Tftp

open Lib

def lf : Byte := 10
def cr : Byte := 13

/-- The netascii form of a byte: what `file_read` makes of it. -/
def netasciiByte (c : Byte) : List Byte := if c = lf then [cr, lf] else if c = cr then [cr, 0] else [c]

/-- The netascii form of a file. -/
def netascii (file : List Byte) : List Byte := file.flatMap netasciiByte

/-! ## file_open and file_close -/

/-- A freshly opened stream that owes nothing. -/
def opened (content : List Byte) : LocalFile := ⟨content, [], false, -1⟩

/-- A freshly opened stream beside the statics an earlier one left. -/
def reopened (content : List Byte) (old : LocalFile) : LocalFile := ⟨content, [], old.lastcr, old.nextchar⟩

/-- `file_open`, up to `nextblknum`: only the server's resets the statics. The name `-` is `stdout`. -/
def fileOpen (side : Side) (fs : FileSys) (filename : List Byte) (mode : OpenMode) (old : LocalFile) :
    Option LocalFile :=
  match if filename = bytes "-" then some fs.stdout else fs.fopen filename mode with
  | none => none
  | some content =>
    match side with
    | .server => some (opened content)
    | .client => some (reopened content old)

/-- `file_close`: the server exits when half a pair is left over, the client only prints. -/
def fileClose (side : Side) (fp : LocalFile) : Except Exit Unit :=
  match side with
  | .server => if fp.lastcr then .error .closeLastcr else if 0 ≤ fp.nextchar then .error .closeNextchar else .ok ()
  | .client => .ok ()

/-! ## file_read -/

/-- The loop of `file_read` in netascii, with `n` places left in the buffer. -/
def readAscii : Nat → LocalFile → List Byte × LocalFile
  | 0, fp => ([], fp)
  | n + 1, fp =>
    if 0 ≤ fp.nextchar then
      let r := readAscii n { fp with nextchar := -1 }
      (UInt8.ofNat fp.nextchar.toNat :: r.1, r.2)
    else
      match fp.unread with
      | [] => ([], fp)
      | c :: rest =>
        if c = lf then
          let r := readAscii n { fp with unread := rest, nextchar := 10 }
          (cr :: r.1, r.2)
        else if c = cr then
          let r := readAscii n { fp with unread := rest, nextchar := 0 }
          (c :: r.1, r.2)
        else
          let r := readAscii n { fp with unread := rest, nextchar := -1 }
          (c :: r.1, r.2)

/-- `file_read`: the bytes stored at `ptr`, and the stream after them. -/
def fileRead (fp : LocalFile) (maxnbytes : Nat) (mode : Mode) : List Byte × LocalFile :=
  match mode with
  | .binary => (fp.unread.take maxnbytes, { fp with unread := fp.unread.drop maxnbytes })
  | .ascii => readAscii maxnbytes fp

/-- The bytes `file_read` still has to deliver. -/
def pending (mode : Mode) (fp : LocalFile) : List Byte :=
  match mode with
  | .binary => fp.unread
  | .ascii => (if 0 ≤ fp.nextchar then [UInt8.ofNat fp.nextchar.toNat] else []) ++ netascii fp.unread

/-- A byte owed comes first. -/
theorem pending_owed {fp : LocalFile} (h : 0 ≤ fp.nextchar) :
    pending .ascii fp = UInt8.ofNat fp.nextchar.toNat :: pending .ascii { fp with nextchar := -1 } := by
  simp [pending, h]

/-- When nothing is owed the next byte of the file comes, and may leave a byte owed. -/
theorem pending_cons {fp : LocalFile} {c : Byte} {rest : List Byte} (h : ¬ 0 ≤ fp.nextchar)
    (hu : fp.unread = c :: rest) : pending .ascii fp =
      (if c = lf then cr :: pending .ascii { fp with unread := rest, nextchar := 10 }
       else if c = cr then c :: pending .ascii { fp with unread := rest, nextchar := 0 }
       else c :: pending .ascii { fp with unread := rest, nextchar := -1 }) := by
  simp only [pending, h, hu, netascii, List.flatMap_cons, netasciiByte, if_false, List.nil_append]
  split
  · simp [lf]
  · split
    · rename_i hc; simp [hc]
    · simp

theorem readAscii_spec (n : Nat) (fp : LocalFile) :
    (readAscii n fp).1 = (pending .ascii fp).take n ∧
      pending .ascii (readAscii n fp).2 = (pending .ascii fp).drop n := by
  induction n generalizing fp with
  | zero => simp [readAscii]
  | succ n ih =>
    unfold readAscii
    split
    · rename_i h
      obtain ⟨h1, h2⟩ := ih { fp with nextchar := -1 }
      rw [pending_owed h]
      exact ⟨by rw [List.take_succ_cons, ← h1], h2⟩
    · rename_i h
      split
      · rename_i he
        simp [pending, netascii, h, he]
      · rename_i c rest he
        rw [pending_cons h he]
        split
        · obtain ⟨h1, h2⟩ := ih { fp with unread := rest, nextchar := 10 }
          exact ⟨by rw [List.take_succ_cons, ← h1], h2⟩
        · split
          · obtain ⟨h1, h2⟩ := ih { fp with unread := rest, nextchar := 0 }
            exact ⟨by rw [List.take_succ_cons, ← h1], h2⟩
          · obtain ⟨h1, h2⟩ := ih { fp with unread := rest, nextchar := -1 }
            exact ⟨by rw [List.take_succ_cons, ← h1], h2⟩

/-- `file_read` delivers the next pending bytes, -/
theorem fileRead_fst (mode : Mode) (n : Nat) (fp : LocalFile) :
    (fileRead fp n mode).1 = (pending mode fp).take n := by
  cases mode with
  | binary => rfl
  | ascii => exact (readAscii_spec n fp).1

/-- and leaves the others pending. -/
theorem pending_fileRead (mode : Mode) (n : Nat) (fp : LocalFile) :
    pending mode (fileRead fp n mode).2 = (pending mode fp).drop n := by
  cases mode with
  | binary => rfl
  | ascii => exact (readAscii_spec n fp).2

/-- A stream read by `file_read`. -/
def fileSource (mode : Mode) : Source LocalFile Byte where
  read n fp := fileRead fp n mode
  pending := pending mode
  read_fst := fileRead_fst mode
  pending_read := pending_fileRead mode

/-! ## file_write -/

/-- The loop of `file_write` in netascii. -/
def writeAscii : List Byte → LocalFile → Except (Exit × LocalFile) LocalFile
  | [], fp => .ok fp
  | c :: cs, fp =>
    if fp.lastcr then
      if c = lf then writeAscii cs { fp with written := fp.written ++ [lf], lastcr := false }
      else if c = 0 then writeAscii cs { fp with written := fp.written ++ [cr], lastcr := false }
      else .error (.crFollowedBy c, fp)
    else if c = cr then writeAscii cs { fp with lastcr := true }
    else writeAscii cs { fp with written := fp.written ++ [c] }

/-- `file_write`. -/
def fileWrite (fp : LocalFile) (data : List Byte) (mode : Mode) : Except (Exit × LocalFile) LocalFile :=
  match mode with
  | .binary => .ok { fp with written := fp.written ++ data }
  | .ascii => writeAscii data fp

theorem writeAscii_append (as bs : List Byte) (fp : LocalFile) :
    writeAscii (as ++ bs) fp = (writeAscii as fp).bind (writeAscii bs) := by
  induction as generalizing fp with
  | nil => rfl
  | cons a as ih =>
    simp only [List.cons_append, writeAscii]
    split
    · split
      · exact ih _
      · split
        · exact ih _
        · rfl
    · split
      · exact ih _
      · exact ih _

theorem fileWrite_append (mode : Mode) (as bs : List Byte) (fp : LocalFile) :
    fileWrite fp (as ++ bs) mode = (fileWrite fp as mode).bind fun fp' => fileWrite fp' bs mode := by
  cases mode with
  | binary => simp [fileWrite, Except.bind]
  | ascii => exact writeAscii_append as bs fp

theorem writeAscii_error {cs : List Byte} {fp fp' : LocalFile} {e : Exit} (h : writeAscii cs fp = .error (e, fp')) :
    e.OfFile := by
  induction cs generalizing fp with
  | nil => cases h
  | cons c cs ih =>
    unfold writeAscii at h
    split at h
    · split at h
      · exact ih h
      · split at h
        · exact ih h
        · cases h; exact .inl ⟨c, rfl⟩
    · split at h
      · exact ih h
      · exact ih h

/-- Only a carriage return in netascii makes `file_write` exit. -/
theorem fileWrite_error {mode : Mode} {data : List Byte} {fp fp' : LocalFile} {e : Exit}
    (h : fileWrite fp data mode = .error (e, fp')) : mode = .ascii ∧ e.OfFile := by
  cases mode with
  | binary => cases h
  | ascii => exact ⟨rfl, writeAscii_error h⟩

theorem fileClose_error {side : Side} {fp : LocalFile} {e : Exit} (h : fileClose side fp = .error e) :
    e.OfFile ∧ (fp.lastcr = true ∨ 0 ≤ fp.nextchar) := by
  cases side with
  | client => cases h
  | server =>
    simp only [fileClose] at h
    split at h
    · rename_i hc; cases h; exact ⟨.inr (.inl rfl), .inl hc⟩
    · split at h
      · rename_i hc; cases h; exact ⟨.inr (.inr rfl), .inr hc⟩
      · cases h

/-- A stream written by `file_write`. -/
def fileSink (mode : Mode) : Sink LocalFile Byte (Exit × LocalFile) where
  write data fp := fileWrite fp data mode
  write_nil fp := by
    cases mode with
    | binary => simp [fileWrite]
    | ascii => rfl
  write_append as bs fp := fileWrite_append mode as bs fp

/-- Writing the netascii form of a byte puts the byte. -/
theorem writeAscii_netasciiByte (c : Byte) (fp : LocalFile) (h : fp.lastcr = false) :
    writeAscii (netasciiByte c) fp = .ok { fp with written := fp.written ++ [c] } := by
  unfold netasciiByte
  split
  · rename_i hc
    subst hc
    simp [writeAscii, h, cr, lf]
  · split
    · rename_i hc
      subst hc
      simp [writeAscii, h, cr, lf]
    · rename_i hcr
      simp [writeAscii, h, hcr]

/-- Writing the netascii form of a file puts the file. -/
theorem fileWrite_netascii (file : List Byte) (fp : LocalFile) (h : fp.lastcr = false) :
    fileWrite fp (netascii file) .ascii = .ok { fp with written := fp.written ++ file } := by
  induction file generalizing fp with
  | nil => simp [netascii, fileWrite, writeAscii]
  | cons c file ih =>
    have hih := ih { fp with written := fp.written ++ [c] } h
    rw [show netascii (c :: file) = netasciiByte c ++ netascii file from rfl, fileWrite_append]
    simp only [fileWrite, writeAscii_netasciiByte c fp h] at hih ⊢
    simpa [Except.bind] using hih

end CodingExercises.Tftp
