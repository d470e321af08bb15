import Mathlib.Data.Nat.Digits.Defs
import CodingExercises.Coreutils.Xalloc
import CodingExercises.Lib.Crc

/-!
# cksum: the POSIX checksum

`cksum` of `src/cksum.c`. The register is a `uint_fast32_t`, of 32 bits or more; `k` says how many more.

- A step with the table is eight steps of the bitwise register (`crcStep_eq_feed`), whatever the width;
- the number that is printed is the POSIX checksum of the file (`cksum_posix`), and its complement the remainder of the
  division of polynomials that POSIX describes (`posixCrc_remainder`).
-/

namespace CodingExercises.Coreutils

open Lib

/-- `crctab`. -/
def crctab : List ℕ :=
  [0x00000000,
   0x04c11db7, 0x09823b6e, 0x0d4326d9, 0x130476dc, 0x17c56b6b,
   0x1a864db2, 0x1e475005, 0x2608edb8, 0x22c9f00f, 0x2f8ad6d6,
   0x2b4bcb61, 0x350c9b64, 0x31cd86d3, 0x3c8ea00a, 0x384fbdbd,
   0x4c11db70, 0x48d0c6c7, 0x4593e01e, 0x4152fda9, 0x5f15adac,
   0x5bd4b01b, 0x569796c2, 0x52568b75, 0x6a1936c8, 0x6ed82b7f,
   0x639b0da6, 0x675a1011, 0x791d4014, 0x7ddc5da3, 0x709f7b7a,
   0x745e66cd, 0x9823b6e0, 0x9ce2ab57, 0x91a18d8e, 0x95609039,
   0x8b27c03c, 0x8fe6dd8b, 0x82a5fb52, 0x8664e6e5, 0xbe2b5b58,
   0xbaea46ef, 0xb7a96036, 0xb3687d81, 0xad2f2d84, 0xa9ee3033,
   0xa4ad16ea, 0xa06c0b5d, 0xd4326d90, 0xd0f37027, 0xddb056fe,
   0xd9714b49, 0xc7361b4c, 0xc3f706fb, 0xceb42022, 0xca753d95,
   0xf23a8028, 0xf6fb9d9f, 0xfbb8bb46, 0xff79a6f1, 0xe13ef6f4,
   0xe5ffeb43, 0xe8bccd9a, 0xec7dd02d, 0x34867077, 0x30476dc0,
   0x3d044b19, 0x39c556ae, 0x278206ab, 0x23431b1c, 0x2e003dc5,
   0x2ac12072, 0x128e9dcf, 0x164f8078, 0x1b0ca6a1, 0x1fcdbb16,
   0x018aeb13, 0x054bf6a4, 0x0808d07d, 0x0cc9cdca, 0x7897ab07,
   0x7c56b6b0, 0x71159069, 0x75d48dde, 0x6b93dddb, 0x6f52c06c,
   0x6211e6b5, 0x66d0fb02, 0x5e9f46bf, 0x5a5e5b08, 0x571d7dd1,
   0x53dc6066, 0x4d9b3063, 0x495a2dd4, 0x44190b0d, 0x40d816ba,
   0xaca5c697, 0xa864db20, 0xa527fdf9, 0xa1e6e04e, 0xbfa1b04b,
   0xbb60adfc, 0xb6238b25, 0xb2e29692, 0x8aad2b2f, 0x8e6c3698,
   0x832f1041, 0x87ee0df6, 0x99a95df3, 0x9d684044, 0x902b669d,
   0x94ea7b2a, 0xe0b41de7, 0xe4750050, 0xe9362689, 0xedf73b3e,
   0xf3b06b3b, 0xf771768c, 0xfa325055, 0xfef34de2, 0xc6bcf05f,
   0xc27dede8, 0xcf3ecb31, 0xcbffd686, 0xd5b88683, 0xd1799b34,
   0xdc3abded, 0xd8fba05a, 0x690ce0ee, 0x6dcdfd59, 0x608edb80,
   0x644fc637, 0x7a089632, 0x7ec98b85, 0x738aad5c, 0x774bb0eb,
   0x4f040d56, 0x4bc510e1, 0x46863638, 0x42472b8f, 0x5c007b8a,
   0x58c1663d, 0x558240e4, 0x51435d53, 0x251d3b9e, 0x21dc2629,
   0x2c9f00f0, 0x285e1d47, 0x36194d42, 0x32d850f5, 0x3f9b762c,
   0x3b5a6b9b, 0x0315d626, 0x07d4cb91, 0x0a97ed48, 0x0e56f0ff,
   0x1011a0fa, 0x14d0bd4d, 0x19939b94, 0x1d528623, 0xf12f560e,
   0xf5ee4bb9, 0xf8ad6d60, 0xfc6c70d7, 0xe22b20d2, 0xe6ea3d65,
   0xeba91bbc, 0xef68060b, 0xd727bbb6, 0xd3e6a601, 0xdea580d8,
   0xda649d6f, 0xc423cd6a, 0xc0e2d0dd, 0xcda1f604, 0xc960ebb3,
   0xbd3e8d7e, 0xb9ff90c9, 0xb4bcb610, 0xb07daba7, 0xae3afba2,
   0xaafbe615, 0xa7b8c0cc, 0xa379dd7b, 0x9b3660c6, 0x9ff77d71,
   0x92b45ba8, 0x9675461f, 0x8832161a, 0x8cf30bad, 0x81b02d74,
   0x857130c3, 0x5d8a9099, 0x594b8d2e, 0x5408abf7, 0x50c9b640,
   0x4e8ee645, 0x4a4ffbf2, 0x470cdd2b, 0x43cdc09c, 0x7b827d21,
   0x7f436096, 0x7200464f, 0x76c15bf8, 0x68860bfd, 0x6c47164a,
   0x61043093, 0x65c52d24, 0x119b4be9, 0x155a565e, 0x18197087,
   0x1cd86d30, 0x029f3d35, 0x065e2082, 0x0b1d065b, 0x0fdc1bec,
   0x3793a651, 0x3352bbe6, 0x3e119d3f, 0x3ad08088, 0x2497d08d,
   0x2056cd3a, 0x2d15ebe3, 0x29d4f654, 0xc5a92679, 0xc1683bce,
   0xcc2b1d17, 0xc8ea00a0, 0xd6ad50a5, 0xd26c4d12, 0xdf2f6bcb,
   0xdbee767c, 0xe3a1cbc1, 0xe760d676, 0xea23f0af, 0xeee2ed18,
   0xf0a5bd1d, 0xf464a0aa, 0xf9278673, 0xfde69bc4, 0x89b8fd09,
   0x8d79e0be, 0x803ac667, 0x84fbdbd0, 0x9abc8bd5, 0x9e7d9662,
   0x933eb0bb, 0x97ffad0c, 0xafb010b1, 0xab710d06, 0xa6322bdf,
   0xa2f33668, 0xbcb4666d, 0xb8757bda, 0xb5365d03, 0xb1f740b4]

/-- `BUFLEN`: number of bytes to read at once. -/
def buflen : ℕ := 65536

/-- What a call of `fread` delivers, and whether the end of the file has been seen then. -/
structure Fread where
  bytes : List Byte
  eof : Bool
  bounded : bytes.length ≤ buflen

/-- A stream: whether it can be opened and closed, what is read from it, and whether there was an error. -/
structure Stream where
  opens : Bool
  reads : List Fread
  error : Bool
  closes : Bool

section Program

variable {k : ℕ}

/-- One byte, or the length, goes into the register. -/
def crcStep (crc : BitVec (32 + k)) (value : ℕ) : BitVec (32 + k) :=
  (crc <<< 8) ^^^ BitVec.ofNat (32 + k) (crctab.getD (((crc >>> 24).toNat ^^^ value) &&& 0xFF) 0)

/-- The loop that reads the file. Without a value the file is too long. -/
def cksumLoop (crc : BitVec (32 + k)) (length : ℕ) : List Fread → Option (BitVec (32 + k) × ℕ)
  | [] => some (crc, length)
  | r :: reads =>
    if r.bytes = [] then some (crc, length)
    else if (length + r.bytes.length) % 2 ^ 64 < length then none
    else
      let crc := r.bytes.foldl (fun crc c => crcStep crc c.toNat) crc
      let length := (length + r.bytes.length) % 2 ^ 64
      if r.eof then some (crc, length) else cksumLoop crc length reads

/-- The loop over the bytes of the length. -/
def lengthLoop (crc : BitVec (32 + k)) (length : ℕ) : BitVec (32 + k) :=
  if length = 0 then crc else lengthLoop (crcStep crc length) (length >>> 8)
termination_by length
decreasing_by rw [Nat.shiftRight_eq_div_pow]; omega

end Program

/-- How a call of `cksum` ends: with a checksum and a length that are printed, with an error message, or with the exit
of the program. -/
inductive Checked
  | printed (crc length : ℕ)
  | failed
  | exited
deriving DecidableEq

/-- `cksum`. The standard input is neither opened nor closed. -/
def cksum (k : ℕ) (stdin : Bool) (fp : Stream) : Checked :=
  if !stdin && !fp.opens then .failed
  else
    match cksumLoop (0#(32 + k)) 0 fp.reads with
    | none => .exited
    | some (crc, length) =>
      if fp.error then .failed
      else if !stdin && !fp.closes then .failed
      else .printed ((~~~lengthLoop crc length) &&& 0xFFFFFFFF#(32 + k)).toNat length

/-! ## The POSIX checksum -/

/-- The polynomial, without its leading term. -/
def generator : BitVec 32 := 0x04C11DB7

/-- The bits of some bytes, most significant bit first. -/
def bits (bytes : List Byte) : List Bool := bytes.flatMap fun c => Crc.top c.toBitVec 8

/-- The bytes of a length, least significant first, without leading zeros. -/
def lengthBytes (n : ℕ) : List Byte := (Nat.digits 256 n).map UInt8.ofNat

/-- The message that POSIX divides. -/
def posixMessage (file : List Byte) : List Bool := bits (file ++ lengthBytes file.length)

/-- The POSIX checksum: the complement of the remainder, computed bit by bit. -/
def posixCrc (file : List Byte) : ℕ := (~~~Crc.feed generator 0#32 (posixMessage file)).toNat

/-! ## A step of the register -/

section Step

variable {k : ℕ}

/-- The entries of the table, bit by bit. -/
theorem crctab_eq_feed : ∀ i < 256, BitVec.ofNat 32 (crctab.getD i 0) =
    Crc.feed generator 0#32 (Crc.top (BitVec.ofNat 8 i) 8) := by
  decide +kernel

/-- The index into the table. -/
def index (crc : BitVec (32 + k)) (value : ℕ) : ℕ := ((crc >>> 24).toNat ^^^ value) &&& 0xFF

theorem index_eq (crc : BitVec (32 + k)) (value : ℕ) :
    index crc value = ((crc >>> 24).toNat % 2 ^ 8) ^^^ (value % 2 ^ 8) := by
  rw [index, show (0xFF : ℕ) = 2 ^ 8 - 1 from rfl, Nat.and_two_pow_sub_one_eq_mod, Nat.xor_mod_two_pow]

theorem index_lt (crc : BitVec (32 + k)) (value : ℕ) : index crc value < 256 :=
  Nat.lt_of_le_of_lt Nat.and_le_right (by decide)

/-- The index consists of the bits that leave the register, xored with those of the byte. -/
theorem top_index (crc : BitVec (32 + k)) (value : ℕ) :
    Crc.top (BitVec.ofNat 8 (index crc value)) 8 =
      List.zipWith xor (Crc.top (crc.setWidth 32) 8) (Crc.top (BitVec.ofNat 8 value) 8) := by
  have hbit : ∀ i < 8, (BitVec.ofNat 8 (index crc value)).getMsbD i =
      ((crc.setWidth 32).getMsbD i ^^ (BitVec.ofNat 8 value).getMsbD i) := by
    intro i hi
    have hj : 8 - 1 - i < 8 := by omega
    rw [BitVec.getMsbD_eq_getLsbD, BitVec.getMsbD_eq_getLsbD, BitVec.getMsbD_eq_getLsbD, index_eq]
    simp only [BitVec.getLsbD_ofNat, BitVec.getLsbD_setWidth, Nat.testBit_xor, Nat.testBit_mod_two_pow, hi, hj,
      show i < 32 by omega, show 32 - 1 - i < 32 by omega, decide_true, Bool.true_and]
    congr 1
    rw [BitVec.testBit_toNat, BitVec.getLsbD_ushiftRight]
    congr 1
    omega
  unfold Crc.top
  rw [List.zipWith_map_left, List.zipWith_map_right, List.zipWith_self]
  refine List.map_congr_left fun i hi => ?_
  exact hbit i (List.mem_range.1 hi)

/-- **The table agrees with the bits**, for every byte and every state of the register. -/
theorem crcStep_eq_feed (crc : BitVec (32 + k)) (value : ℕ) :
    (crcStep crc value).setWidth 32 = Crc.feed generator (crc.setWidth 32) (Crc.top (BitVec.ofNat 8 value) 8) := by
  have hshift : (crc <<< 8).setWidth 32 = crc.setWidth 32 <<< 8 := BitVec.setWidth_shiftLeft_of_le (by omega)
  have hentry : (BitVec.ofNat (32 + k) (crctab.getD (index crc value) 0)).setWidth 32 =
      BitVec.ofNat 32 (crctab.getD (index crc value) 0) := BitVec.setWidth_ofNat_of_le (by omega) _
  rw [Crc.feed_eq_table, Crc.length_top, ← top_index, ← crctab_eq_feed _ (index_lt crc value), ← hentry, ← hshift]
  exact BitVec.setWidth_xor

/-- Only the lowest byte of a value goes into the register. -/
theorem crcStep_mod (crc : BitVec (32 + k)) (value : ℕ) : crcStep crc (value % 256) = crcStep crc value := by
  have hindex : index crc (value % 256) = index crc value := by
    rw [index_eq, index_eq, Nat.mod_mod_of_dvd value (by decide)]
  exact congrArg (fun i => (crc <<< 8) ^^^ BitVec.ofNat (32 + k) (crctab.getD i 0)) hindex

theorem ofNat_toNat (c : Byte) : BitVec.ofNat 8 c.toNat = c.toBitVec := by simp [← UInt8.toNat_toBitVec]

theorem foldl_crcStep (crc : BitVec (32 + k)) (bytes : List Byte) :
    (bytes.foldl (fun crc c => crcStep crc c.toNat) crc).setWidth 32 =
      Crc.feed generator (crc.setWidth 32) (bits bytes) := by
  induction bytes generalizing crc with
  | nil => rfl
  | cons c bytes ih =>
    rw [List.foldl_cons, ih, crcStep_eq_feed, ← Crc.feed_append, ofNat_toNat]
    rfl

/-- The number that is printed has the complement of the lowest 32 bits of the register. -/
theorem mask_toNat (crc : BitVec (32 + k)) :
    ((~~~crc) &&& 0xFFFFFFFF#(32 + k)).toNat = (~~~crc.setWidth 32).toNat := by
  have hpow : 2 ^ 32 ≤ 2 ^ (32 + k) := Nat.pow_le_pow_right (by decide) (by omega)
  have hmask : (0xFFFFFFFF#(32 + k)).toNat = 2 ^ 32 - 1 := by
    rw [BitVec.toNat_ofNat]
    exact Nat.mod_eq_of_lt (by omega)
  rw [BitVec.toNat_and, hmask, Nat.and_two_pow_sub_one_eq_mod, ← BitVec.toNat_setWidth, BitVec.setWidth_not (by omega)]

/-- The loop over the length feeds its bytes. -/
theorem lengthLoop_eq (crc : BitVec (32 + k)) (length : ℕ) :
    lengthLoop crc length = (lengthBytes length).foldl (fun crc c => crcStep crc c.toNat) crc := by
  induction length using Nat.strong_induction_on generalizing crc with
  | _ length ih =>
    rw [lengthLoop]
    by_cases h0 : length = 0
    · rw [if_pos h0, h0]; rfl
    · have hlt : length >>> 8 < length := by
        rw [Nat.shiftRight_eq_div_pow]
        exact Nat.div_lt_self (Nat.pos_of_ne_zero h0) (by decide)
      have hbyte : (UInt8.ofNat (length % 256)).toNat = length % 256 := by simp
      have hbytes : lengthBytes length = UInt8.ofNat (length % 256) :: lengthBytes (length >>> 8) := by
        rw [lengthBytes, Nat.digits_def' (by decide) (Nat.pos_of_ne_zero h0), Nat.shiftRight_eq_div_pow]
        rfl
      rw [if_neg h0, ih _ hlt, hbytes, List.foldl_cons, hbyte, crcStep_mod]

end Step

/-! ## The whole file -/

/-- The bytes that the loop takes from the stream. -/
def delivered : List Fread → List Byte
  | [] => []
  | r :: reads => if r.bytes = [] then [] else r.bytes ++ if r.eof then [] else delivered reads

theorem readLoop_eq {k : ℕ} (crc : BitVec (32 + k)) {length : ℕ} (hlen : length < 2 ^ 64) (reads : List Fread) :
    cksumLoop crc length reads =
      if length + (delivered reads).length < 2 ^ 64 then
        some ((delivered reads).foldl (fun crc c => crcStep crc c.toNat) crc, length + (delivered reads).length)
      else none := by
  induction reads generalizing crc length with
  | nil => exact (if_pos hlen).symm
  | cons r reads ih =>
    have hb := r.bounded
    unfold buflen at hb
    by_cases h0 : r.bytes = []
    · simp only [cksumLoop, delivered, h0, if_true]
      exact (if_pos hlen).symm
    · simp only [cksumLoop, delivered, h0, if_false, List.length_append, List.foldl_append]
      by_cases hover : length + r.bytes.length < 2 ^ 64
      · -- The length has not wrapped, so the loop goes on with it.
        rw [Nat.mod_eq_of_lt hover, if_neg (Nat.not_lt.2 (Nat.le_add_right ..)), ih _ hover]
        cases he : r.eof with
        | true => exact (if_pos hover).symm
        | false =>
          simp only [Bool.false_eq_true, if_false, Nat.add_assoc]
      · have hwrap : (length + r.bytes.length) % 2 ^ 64 < length := by omega
        rw [if_pos hwrap, if_neg (by omega)]

theorem posixMessage_feed (r : BitVec 32) (file : List Byte) :
    Crc.feed generator r (posixMessage file) =
      Crc.feed generator (Crc.feed generator r (bits file)) (bits (lengthBytes file.length)) := by
  rw [posixMessage, bits, List.flatMap_append, Crc.feed_append]; rfl

/-- **`cksum` prints the POSIX checksum.** However the file is split, and whatever the width of the register, the number
printed for a file that can be read and whose length fits in 64 bits is its POSIX checksum; a step with the table is a
byte fed bit by bit. -/
theorem cksum_posix (k : ℕ) :
    (∀ (crc : BitVec (32 + k)) (c : Byte),
      (crcStep crc c.toNat).setWidth 32 = Crc.feed generator (crc.setWidth 32) (Crc.top c.toBitVec 8)) ∧
    ∀ (stdin : Bool) (fp : Stream), cksum k stdin fp =
      if !stdin && !fp.opens then .failed
      else if 2 ^ 64 ≤ (delivered fp.reads).length then .exited
      else if fp.error || !stdin && !fp.closes then .failed
      else .printed (posixCrc (delivered fp.reads)) (delivered fp.reads).length := by
  refine ⟨?_, ?_⟩
  · intro crc c
    rw [crcStep_eq_feed, ofNat_toNat]
  · intro stdin fp
    have hprint : ∀ file : List Byte,
        ((~~~lengthLoop (file.foldl (fun crc c => crcStep crc c.toNat) (0#(32 + k))) file.length) &&&
          0xFFFFFFFF#(32 + k)).toNat = posixCrc file := by
      intro file
      rw [mask_toNat, lengthLoop_eq, foldl_crcStep, foldl_crcStep, BitVec.setWidth_zero, posixCrc, posixMessage_feed]
    unfold cksum
    rw [readLoop_eq _ (by decide)]
    split
    · rfl
    · rw [Nat.zero_add]
      by_cases hlen : (delivered fp.reads).length < 2 ^ 64
      · rw [if_pos hlen, if_neg (Nat.not_le.2 hlen)]
        dsimp only
        rw [hprint]
        cases fp.error <;> rfl
      · rw [if_neg hlen, if_pos (Nat.not_lt.1 hlen)]

/-- **The checksum is a remainder.** The complement of the checksum, as a polynomial over the field of two elements, is
the remainder of the message, times `X ^ 32`, by the polynomial of the checksum. -/
theorem posixCrc_remainder (file : List Byte) :
    Crc.toPoly (~~~BitVec.ofNat 32 (posixCrc file)) =
      Crc.message (posixMessage file) * Polynomial.X ^ 32 %ₘ Crc.divisor generator := by
  rw [posixCrc, BitVec.ofNat_toNat, BitVec.setWidth_eq, BitVec.not_not, Crc.toPoly_feed]

end CodingExercises.Coreutils
