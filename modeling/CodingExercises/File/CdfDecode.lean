import CodingExercises.File.Cdf
import CodingExercises.Lib.ByteOrder

/-!
# file: the header and the entries of a compound document

`cdf_unpack_header`, `cdf_swap_header`, `cdf_unpack_dir` and `cdf_swap_dir` of `cdf.c`, on a host of either byte order. Whatever
the host is, they give what stands in the file, the lowest byte first, but for the first sector of the master sector allocation
table: `cdf_swap_header` puts the number of these sectors there (`cdfReadHeader_eq`, `cdfReadDir_eq`).
-/

namespace CodingExercises.File.Cdf

open CodingExercises.Lib (ByteOrder)

/-- `cdf_header_t`. -/
structure HeaderFields where
  magic : ℕ
  uuid : List ℕ
  revision : ℕ
  version : ℕ
  byteOrder : ℕ
  secSizeP2 : ℕ
  shortSecSizeP2 : ℕ
  unused0 : List UInt8
  numSectorsInSat : ℕ
  secidFirstDirectory : ℕ
  unused1 : List UInt8
  minSizeStandardStream : ℕ
  secidFirstSectorInShortSat : ℤ
  numSectorsInShortSat : ℕ
  secidFirstSectorInMasterSat : ℤ
  numSectorsInMasterSat : ℕ
  masterSat : List ℤ
deriving DecidableEq

/-! ## Unpacking -/

/-- `CDF_UNPACK`: the number that the next bytes are on the host. The state is `len`. -/
def cdfUnpack (host : ByteOrder) (buf : List UInt8) (size : ℕ) : StateM ℕ ℕ :=
  fun len => (host.decode (slice buf len size), len + size)

/-- `CDF_UNPACK` for each element of an array. -/
def cdfUnpackEach (host : ByteOrder) (buf : List UInt8) (size : ℕ) : ℕ → StateM ℕ (List ℕ)
  | 0 => pure []
  | n + 1 => do
    let x ← cdfUnpack host buf size
    let xs ← cdfUnpackEach host buf size n
    return x :: xs

/-- `CDF_UNPACKA` for bytes. -/
def cdfUnpacka (buf : List UInt8) (size : ℕ) : StateM ℕ (List UInt8) := fun len => (slice buf len size, len + size)

/-- `cdf_unpack_header`. -/
def cdfUnpackHeader (host : ByteOrder) (buf : List UInt8) : StateM ℕ HeaderFields := do
  let magic ← cdfUnpack host buf 8
  let uuid ← cdfUnpackEach host buf 8 2
  let revision ← cdfUnpack host buf 2
  let version ← cdfUnpack host buf 2
  let byteOrder ← cdfUnpack host buf 2
  let secSizeP2 ← cdfUnpack host buf 2
  let shortSecSizeP2 ← cdfUnpack host buf 2
  let unused0 ← cdfUnpacka buf 10
  let numSectorsInSat ← cdfUnpack host buf 4
  let secidFirstDirectory ← cdfUnpack host buf 4
  let unused1 ← cdfUnpacka buf 4
  let minSizeStandardStream ← cdfUnpack host buf 4
  let secidFirstSectorInShortSat ← int32 <$> cdfUnpack host buf 4
  let numSectorsInShortSat ← cdfUnpack host buf 4
  let secidFirstSectorInMasterSat ← int32 <$> cdfUnpack host buf 4
  let numSectorsInMasterSat ← cdfUnpack host buf 4
  let masterSat ← List.map int32 <$> cdfUnpackEach host buf 4 masterSatCount
  return {
    magic, uuid, revision, version, byteOrder, secSizeP2, shortSecSizeP2, unused0, numSectorsInSat, secidFirstDirectory,
    unused1, minSizeStandardStream, secidFirstSectorInShortSat, numSectorsInShortSat, secidFirstSectorInMasterSat,
    numSectorsInMasterSat, masterSat }

/-- `cdf_unpack_dir`. -/
def cdfUnpackDirOn (host : ByteOrder) (buf : List UInt8) : StateM ℕ Directory := do
  let name ← cdfUnpackEach host buf 2 32
  let namelen ← cdfUnpack host buf 2
  let type ← cdfUnpack host buf 1
  let color ← cdfUnpack host buf 1
  let leftChild ← cdfUnpack host buf 4
  let rightChild ← cdfUnpack host buf 4
  let storage ← cdfUnpack host buf 4
  let storageUuid ← cdfUnpackEach host buf 8 2
  let flags ← cdfUnpack host buf 4
  let created ← cdfUnpack host buf 8
  let modified ← cdfUnpack host buf 8
  let streamFirstSector ← int32 <$> cdfUnpack host buf 4
  let size ← cdfUnpack host buf 4
  let unused0 ← cdfUnpack host buf 4
  return {
    name, namelen, type, color, leftChild, rightChild, storage, storageUuid, flags, created, modified, streamFirstSector, size,
    unused0 }

/-! ## Swapping -/

/-- `_cdf_tole2`, `_cdf_tole4` and `_cdf_tole8`: the bytes of the number turned around in memory. -/
def swapBytes (host : ByteOrder) (size sv : ℕ) : ℕ := host.decode (host.encode size sv).reverse

/-- `NEED_SWAP`, with what `cdf_read_header` has put into `cdf_bo.s`. -/
def needSwap (host : ByteOrder) : Bool := host.decode [1, 2, 3, 4] = 0x01020304

def cdfTole (host : ByteOrder) (size x : ℕ) : ℕ := if needSwap host then swapBytes host size x else x

/-- `CDF_TOLE8` and so on. -/
def cdfTole8 (host : ByteOrder) (x : ℕ) : ℕ := cdfTole host 8 x
def cdfTole4 (host : ByteOrder) (x : ℕ) : ℕ := cdfTole host 4 x
def cdfTole2 (host : ByteOrder) (x : ℕ) : ℕ := cdfTole host 2 x

/-- `(uint32_t)`. -/
def uint32 (z : ℤ) : ℕ := (z % 2 ^ 32).toNat

/-- `cdf_swap_header`. -/
def cdfSwapHeader (host : ByteOrder) (h : HeaderFields) : HeaderFields :=
  let h := { h with magic := cdfTole8 host h.magic }
  let h := { h with uuid := h.uuid.map (cdfTole8 host) }
  let h := { h with revision := cdfTole2 host h.revision }
  let h := { h with version := cdfTole2 host h.version }
  let h := { h with byteOrder := cdfTole2 host h.byteOrder }
  let h := { h with secSizeP2 := cdfTole2 host h.secSizeP2 }
  let h := { h with shortSecSizeP2 := cdfTole2 host h.shortSecSizeP2 }
  let h := { h with numSectorsInSat := cdfTole4 host h.numSectorsInSat }
  let h := { h with secidFirstDirectory := cdfTole4 host h.secidFirstDirectory }
  let h := { h with minSizeStandardStream := cdfTole4 host h.minSizeStandardStream }
  let h := { h with secidFirstSectorInShortSat := int32 (cdfTole4 host (uint32 h.secidFirstSectorInShortSat)) }
  let h := { h with numSectorsInShortSat := cdfTole4 host h.numSectorsInShortSat }
  -- The source has the number of sectors here, not the first one.
  let h := { h with secidFirstSectorInMasterSat := int32 (cdfTole4 host h.numSectorsInMasterSat) }
  let h := { h with numSectorsInMasterSat := cdfTole4 host h.numSectorsInMasterSat }
  { h with masterSat := h.masterSat.map fun sid => int32 (cdfTole4 host (uint32 sid)) }

/-- `cdf_swap_dir`. -/
def cdfSwapDir (host : ByteOrder) (d : Directory) : Directory :=
  { d with
    namelen := cdfTole2 host d.namelen
    leftChild := cdfTole4 host d.leftChild
    rightChild := cdfTole4 host d.rightChild
    storage := cdfTole4 host d.storage
    storageUuid := d.storageUuid.map (cdfTole8 host)
    flags := cdfTole4 host d.flags
    created := cdfTole8 host d.created
    modified := cdfTole8 host d.modified
    streamFirstSector := int32 (cdfTole4 host (uint32 d.streamFirstSector))
    size := cdfTole4 host d.size }

/-- The header that `cdf_read_header` makes of a block. -/
def cdfReadHeader (host : ByteOrder) (buf : List UInt8) : HeaderFields :=
  cdfSwapHeader host ((cdfUnpackHeader host buf).run 0).1

/-- The entry that `cdf_read_dir` makes of the bytes of one. -/
def cdfReadEntry (host : ByteOrder) (buf : List UInt8) : Directory :=
  let d := ((cdfUnpackDirOn host buf).run 0).1
  if needSwap host then cdfSwapDir host d else d

/-! ## What stands in the file -/

/-- The fields of a header at their places, as numbers that are read in some way. -/
def headerWith (read : List UInt8 → ℕ) (b : List UInt8) : HeaderFields where
  magic := read (slice b 0 8)
  uuid := [read (slice b 8 8), read (slice b 16 8)]
  revision := read (slice b 24 2)
  version := read (slice b 26 2)
  byteOrder := read (slice b 28 2)
  secSizeP2 := read (slice b 30 2)
  shortSecSizeP2 := read (slice b 32 2)
  unused0 := slice b 34 10
  numSectorsInSat := read (slice b 44 4)
  secidFirstDirectory := read (slice b 48 4)
  unused1 := slice b 52 4
  minSizeStandardStream := read (slice b 56 4)
  secidFirstSectorInShortSat := int32 (read (slice b 60 4))
  numSectorsInShortSat := read (slice b 64 4)
  secidFirstSectorInMasterSat := int32 (read (slice b 68 4))
  numSectorsInMasterSat := read (slice b 72 4)
  masterSat := (List.range masterSatCount).map fun i => int32 (read (slice b (76 + 4 * i) 4))

/-- The fields of an entry at their places. -/
def entryWith (read : List UInt8 → ℕ) (b : List UInt8) : Directory where
  name := (List.range 32).map fun i => read (slice b (2 * i) 2)
  namelen := read (slice b 64 2)
  type := read (slice b 66 1)
  color := read (slice b 67 1)
  leftChild := read (slice b 68 4)
  rightChild := read (slice b 72 4)
  storage := read (slice b 76 4)
  storageUuid := [read (slice b 80 8), read (slice b 88 8)]
  flags := read (slice b 96 4)
  created := read (slice b 100 8)
  modified := read (slice b 108 8)
  streamFirstSector := int32 (read (slice b 116 4))
  size := read (slice b 120 4)
  unused0 := read (slice b 124 4)

/-- The header in the file. -/
def headerAt (b : List UInt8) : HeaderFields := headerWith le b

/-- The entry in the file. Its name is left as the bytes are, and so is what is not used. -/
def entryAt (host : ByteOrder) (b : List UInt8) : Directory :=
  { entryWith le b with
    name := (entryWith host.decode b).name
    unused0 := (entryWith host.decode b).unused0 }

/-! ## What is unpacked -/

variable {host : ByteOrder} {b : List UInt8} {len size n x : ℕ}

theorem run_cdfUnpack : (cdfUnpack host b size).run len = pure (host.decode (slice b len size), len + size) := rfl

theorem run_cdfUnpacka : (cdfUnpacka b size).run len = pure (slice b len size, len + size) := rfl

theorem run_cdfUnpackEach : (cdfUnpackEach host b size n).run len =
    pure ((List.range n).map fun i => host.decode (slice b (len + size * i) size), len + size * n) := by
  induction n generalizing len with
  | zero => rfl
  | succ n ih =>
    have hnext (i : ℕ) : len + size + size * i = len + size * (i + 1) := by ring
    simp only [cdfUnpackEach, StateT.run_bind, run_cdfUnpack, pure_bind, ih, StateT.run_pure, hnext, List.range_succ_eq_map,
      List.map_cons, List.map_map, Function.comp_def, Nat.mul_zero, Nat.add_zero]

theorem run_cdfUnpackHeader : ((cdfUnpackHeader host b).run 0).1 = headerWith host.decode b := by
  simp only [cdfUnpackHeader, StateT.run_bind, StateT.run_map, StateT.run_pure, run_cdfUnpack, run_cdfUnpackEach, run_cdfUnpacka,
    pure_bind, map_pure, List.map_map]
  rfl

theorem run_cdfUnpackDirOn : ((cdfUnpackDirOn host b).run 0).1 = entryWith host.decode b := by
  simp only [cdfUnpackDirOn, StateT.run_bind, StateT.run_map, StateT.run_pure, run_cdfUnpack, run_cdfUnpackEach, pure_bind,
    map_pure, Nat.zero_add]
  rfl

/-- On a little-endian host it is the entry that the chains are read from. -/
theorem run_cdfUnpackDirOn_little : ((cdfUnpackDirOn .little b).run 0).1 = cdfUnpackDir b := run_cdfUnpackDirOn

/-! ## What is swapped -/

theorem le_eq (b : List UInt8) : le b = ByteOrder.little.decode b := rfl

theorem decode_lt_two_pow (host : ByteOrder) (h : b.length = 4) : host.decode b < 2 ^ 32 := host.decode_lt h

/-- A number of the host becomes the one with the lowest byte first. -/
theorem cdfTole_decode (host : ByteOrder) (h : b.length = size) : cdfTole host size (host.decode b) = le b := by
  cases host with
  | little =>
    have hswap : needSwap .little = false := by decide
    rw [cdfTole, hswap, if_neg Bool.false_ne_true, le_eq]
  | big =>
    have hswap : needSwap .big = true := by decide
    rw [cdfTole, hswap, if_pos rfl, swapBytes, ByteOrder.encode_decode _ h, ByteOrder.decode_reverse, le_eq, ByteOrder.other]

theorem uint32_int32 (h : x < 2 ^ 32) : uint32 (int32 x) = x := by
  rw [int32, Nat.mod_eq_of_lt h, uint32]
  split <;> omega

theorem length_slice_of_le (h : len + size ≤ b.length) : (slice b len size).length = size := by
  rw [slice, List.length_take, List.length_drop]
  omega

theorem cdfTole_slice (host : ByteOrder) (h : len + size ≤ b.length) :
    cdfTole host size (host.decode (slice b len size)) = le (slice b len size) :=
  cdfTole_decode host (length_slice_of_le h)

theorem cdfTole_int32 (host : ByteOrder) (h : len + 4 ≤ b.length) :
    cdfTole host 4 (uint32 (int32 (host.decode (slice b len 4)))) = le (slice b len 4) := by
  rw [uint32_int32 (decode_lt_two_pow host (length_slice_of_le h)), cdfTole_slice host h]

/-- On every host the header is that of the file, but for the first sector of the master table. -/
theorem cdfReadHeader_eq (host : ByteOrder) (h : b.length = 512) :
    cdfReadHeader host b = { headerAt b with secidFirstSectorInMasterSat := int32 (le (slice b 72 4)) } := by
  have hsids : (List.range masterSatCount).map (fun i =>
        int32 (cdfTole host 4 (uint32 (int32 (host.decode (slice b (76 + 4 * i) 4)))))) =
      (List.range masterSatCount).map fun i => int32 (le (slice b (76 + 4 * i) 4)) := by
    refine List.map_congr_left fun i hi => ?_
    have hlt : i < 109 := List.mem_range.mp hi
    rw [cdfTole_int32 host (by omega)]
  rw [cdfReadHeader, run_cdfUnpackHeader]
  simp (disch := omega) only [cdfSwapHeader, cdfTole8, cdfTole4, cdfTole2, headerWith, headerAt, List.map_cons, List.map_nil,
    List.map_map, Function.comp_def, cdfTole_slice, cdfTole_int32, hsids]

theorem cdfReadEntry_eq (host : ByteOrder) (h : b.length = 128) : cdfReadEntry host b = entryAt host b := by
  rw [cdfReadEntry, run_cdfUnpackDirOn]
  cases host with
  | little => rfl
  | big =>
    have hswap : needSwap .big = true := by decide
    -- A single byte is the same in both orders.
    have hbyte (len : ℕ) (hle : len + 1 ≤ b.length) : ByteOrder.big.decode (slice b len 1) = le (slice b len 1) := by
      obtain ⟨c, hc⟩ := List.length_eq_one_iff.mp (length_slice_of_le hle)
      rw [hc]
      rfl
    simp (disch := omega) only [hswap, if_true, cdfSwapDir, cdfTole8, cdfTole4, cdfTole2, entryWith, entryAt, List.map_cons,
      List.map_nil, cdfTole_slice, cdfTole_int32, hbyte]

theorem le_inj {c : List UInt8} (hb : b.length = 4) (hc : c.length = 4) (h : int32 (le b) = int32 (le c)) : b = c := by
  have hltb : le b < 2 ^ 32 := decode_lt_two_pow .little hb
  have hltc : le c < 2 ^ 32 := decode_lt_two_pow .little hc
  have hle : le b = le c := by
    rw [← uint32_int32 hltb, ← uint32_int32 hltc]
    exact congrArg uint32 h
  rw [← ByteOrder.digits_number hb, ← ByteOrder.digits_number hc]
  exact congrArg (ByteOrder.digits 4) hle

/-- The header and the entry are those of the file, on hosts of either byte order. -/
def Decoded (b d : List UInt8) : Prop :=
  (∀ host, cdfReadHeader host b = headerAt b) ∧ ∀ host, cdfReadEntry host d = entryAt host d

/-- They are just if the file has the number of sectors of the master table where its first sector is; and whatever the file
has, both hosts read the same header. -/
theorem decoded_iff {b d : List UInt8} (hb : b.length = 512) (hd : d.length = 128) :
    (Decoded b d ↔ slice b 68 4 = slice b 72 4) ∧ cdfReadHeader .little b = cdfReadHeader .big b ∧
      ∀ host, cdfReadEntry host d = entryAt host d := by
  have hentry (host : ByteOrder) : cdfReadEntry host d = entryAt host d := cdfReadEntry_eq host hd
  refine ⟨⟨?_, ?_⟩, ?_, hentry⟩
  · rintro ⟨hheader, -⟩
    have hfield := congrArg HeaderFields.secidFirstSectorInMasterSat ((cdfReadHeader_eq .little hb).symm.trans (hheader .little))
    exact (le_inj (length_slice_of_le (by omega)) (length_slice_of_le (by omega)) hfield).symm
  · intro hsame
    refine ⟨fun host => ?_, hentry⟩
    rw [cdfReadHeader_eq host hb, ← hsame]
    rfl
  · rw [cdfReadHeader_eq .little hb, cdfReadHeader_eq .big hb]

theorem decoded_zeros : ∃ b d, Decoded b d :=
  ⟨List.replicate 512 0, List.replicate 128 0,
    (decoded_iff (List.length_replicate) (List.length_replicate)).1.mpr (by decide +kernel)⟩

/-- A document without sectors of the master table. -/
def withoutMaster : List UInt8 := List.replicate 68 0 ++ [0xfe, 0xff, 0xff, 0xff] ++ List.replicate 440 0

theorem not_decoded_withoutMaster : ¬ ∀ b d : List UInt8, b.length = 512 → d.length = 128 → Decoded b d := by
  intro h
  have hlength : withoutMaster.length = 512 := by decide +kernel
  have hheader := (h withoutMaster (List.replicate 128 0) hlength List.length_replicate).1 .little
  have hfield := congrArg HeaderFields.secidFirstSectorInMasterSat ((cdfReadHeader_eq .little hlength).symm.trans hheader)
  have hzero : int32 (le (slice withoutMaster 72 4)) = 0 := by decide +kernel
  have hend : (headerAt withoutMaster).secidFirstSectorInMasterSat = -2 := by decide +kernel
  rw [hend] at hfield
  exact absurd (hzero.symm.trans hfield) (by decide)

end CodingExercises.File.Cdf
