import CodingExercises.Lib.Blocks
import CodingExercises.Tftp.Fsm

/-!
# TFTP: the blocks of a file that is sent

A sender cuts what its file delivers into blocks of `maxData` bytes, one `file_read` each; the last block is the first
that is shorter. `Reading` is its part of the variables, and `recv_ACK` takes it from one block to the next
(`Reading.next`, `Reading.nextPkt`) until the last is sent (`Reading.read_done`).
-/

namespace CodingExercises.Tftp

open Lib

/-- The packet of a block of the bytes that a sender delivers. -/
def blockPacket (stream : List Byte) (k : ℕ) : List Byte := dataPacket k (block maxData stream k)

theorem ldshort_blockPacket (stream : List Byte) (k : ℕ) : ldshort (blockPacket stream k) = opData := by
  rw [blockPacket, dataPacket, List.append_assoc, ldshort_stshort_nat]; rfl

/-- The file of a sender that has sent `n` blocks of the bytes it delivers. -/
structure Reading (mode : Mode) (stream : List Byte) (n : ℕ) (g : Globals) : Prop where
  nextblknum : g.nextblknum = n
  modetype : g.modetype = mode
  left : pending mode g.localfp = stream.drop (maxData * n)
  lastsend : g.lastsend = if n = 0 then maxData else (block maxData stream n).length

namespace Reading

variable {mode : Mode} {stream : List Byte} {n : ℕ} {g : Globals}

theorem heard (h : Reading mode stream n g) (fromAddr : SockAddr) (buff : List Byte) (op : Nat) (t : Readings) :
    Reading mode stream n (Tftp.heard fromAddr buff op t g) :=
  ⟨h.nextblknum, h.modetype, h.left, h.lastsend⟩

/-- `file_read` delivers the next block. -/
theorem read (h : Reading mode stream n g) :
    (fileRead g.localfp maxData g.modetype).1 = block maxData stream (n + 1) := by
  rw [fileRead_fst, h.modetype, h.left, block_succ]

/-- There is nothing more to send after the last block, and only then. -/
theorem read_done (h : Reading mode stream n g) (hle : n ≤ lastBlock maxData stream) :
    (fileRead g.localfp maxData g.modetype).1.length = 0 ∧ g.lastsend < maxData ↔ n = lastBlock maxData stream := by
  rw [h.read, h.lastsend]
  constructor
  · rintro ⟨-, hl⟩
    by_cases hn : n = 0
    · rw [if_pos hn] at hl; exact absurd hl (Nat.lt_irrefl _)
    · rw [if_neg hn] at hl
      exact (length_block_lt_iff (by decide) (by omega) hle).1 hl
  · intro hn
    have hpos : 0 < lastBlock maxData stream := Nat.succ_pos _
    constructor
    · rw [block_succ, hn, drop_lastBlock (by decide)]
      rfl
    · rw [if_neg (by omega)]
      exact (length_block_lt_iff (by decide) (by omega) hle).2 hn

/-- Reading the next block. -/
theorem next (h : Reading mode stream n g) : Reading mode stream (n + 1) (readNext g) := by
  refine ⟨?_, h.modetype, ?_, ?_⟩
  · show g.nextblknum + 1 = _
    rw [h.nextblknum]; push_cast; rfl
  · show pending mode (fileRead g.localfp maxData g.modetype).2 = _
    rw [h.modetype, pending_fileRead, h.left, List.drop_drop, Nat.mul_succ]
  · show (fileRead g.localfp maxData g.modetype).1.length = _
    rw [h.read, if_neg (Nat.succ_ne_zero n)]

/-- The packet sent once it has been read. -/
theorem nextPkt (h : Reading mode stream n g) :
    dataPacket (g.nextblknum + 1) (fileRead g.localfp maxData g.modetype).1 = blockPacket stream (n + 1) := by
  rw [show g.nextblknum + 1 = ((n + 1 : Nat) : Int) from h.next.nextblknum, h.read]; rfl

/-- The variables once the first block has been read, -/
theorem first {fp : LocalFile} (hnum : g.nextblknum = 1) (hmode : g.modetype = mode)
    (hlocal : g.localfp = (fileRead fp maxData mode).2) (hlast : g.lastsend = (fileRead fp maxData mode).1.length) :
    Reading mode (pending mode fp) 1 g := by
  refine ⟨hnum, hmode, ?_, ?_⟩
  · rw [hlocal, pending_fileRead, Nat.mul_one]
  · rw [hlast, fileRead_fst]; rfl

/-- and its packet. -/
theorem firstPkt (mode : Mode) (fp : LocalFile) :
    dataPacket 1 (fileRead fp maxData mode).1 = blockPacket (pending mode fp) 1 := by
  rw [fileRead_fst]; rfl

end Reading

end CodingExercises.Tftp
