import Mathlib.Algebra.Group.Nat.Defs
import Mathlib.Algebra.Group.Int.Defs
import Mathlib.Data.Int.Notation
import Mathlib.Data.Nat.Notation

/-!
# file: compound documents

The chains of `cdf.c`: `cdf_read_sat`, `cdf_count_chain`, the readers of long and of short sectors, `cdf_read_ssat`,
`cdf_read_dir` and `cdf_read_short_stream`.

- A block of memory is its bytes. A read or a store that is not inside of its block is `Bad.fault`, as is a negative index.
- A loop over a chain may look at its condition `CDF_LOOP_LIMIT + 1` times; one that goes on then is `Bad.endless`.
- `Bad.failed` is the return value -1.

The host is little-endian, and memory is never exhausted.
-/

namespace CodingExercises.File.Cdf

/-! ## Numbers -/

/-- The number with these bytes, the lowest first. -/
def le (b : List UInt8) : ℕ := b.foldr (fun c n => c.toNat + 256 * n) 0

/-- A number as `int32_t`. -/
def int32 (n : ℕ) : ℤ := if n % 2 ^ 32 < 2 ^ 31 then ((n % 2 ^ 32 : ℕ) : ℤ) else ((n % 2 ^ 32 : ℕ) : ℤ) - 2 ^ 32

/-- A number as `size_t`. -/
def sizeT (z : ℤ) : ℕ := (z % 2 ^ 64).toNat

/-- Some bytes of a block. -/
def slice (b : List UInt8) (off len : ℕ) : List UInt8 := (b.drop off).take len

/-! ## Blocks -/

/-- What a function does instead of returning 0. -/
inductive Bad
  | failed
  | fault
  | endless
deriving DecidableEq

/-- Bytes are stored in a block. -/
def store (b : List UInt8) (off : ℕ) (s : List UInt8) : Except Bad (List UInt8) :=
  if off + s.length ≤ b.length then .ok (b.take off ++ s ++ b.drop (off + s.length)) else .error .fault

/-- The entry of an allocation table. -/
def entry (tab : List UInt8) (sid : ℤ) : Except Bad ℤ :=
  if 0 ≤ sid ∧ 4 * sid.toNat + 4 ≤ tab.length then .ok (int32 (le (slice tab (4 * sid.toNat) 4))) else .error .fault

/-! ## Files -/

/-- `cdf_info_t`: what is in memory, and the bytes of the file that is open. -/
structure Info where
  buf : Option (List UInt8)
  fd : Option (List UInt8)

/-- `CDF_LOOP_LIMIT`. -/
def cdfLoopLimit : ℕ := 10000

/-- `CDF_SECID_FREE`. -/
def cdfSecidFree : ℤ := -1

/-- The number of elements of `h_master_sat`. -/
def masterSatCount : ℕ := 109

/-- The fields of `cdf_header_t` that are read here, of a header that `cdf_read_header` accepts. -/
structure Header where
  secSizeP2 : ℕ
  shortSecSizeP2 : ℕ
  secidFirstDirectory : ℤ
  minSizeStandardStream : ℕ
  secidFirstSectorInShortSat : ℤ
  secidFirstSectorInMasterSat : ℤ
  numSectorsInMasterSat : ℕ
  masterSat : List ℤ
  secSizeP2_le : secSizeP2 ≤ 20
  shortSecSizeP2_le : shortSecSizeP2 ≤ 20
  length_masterSat : masterSat.length = masterSatCount

/-- `CDF_SEC_SIZE`. -/
def Header.secSize (h : Header) : ℕ := 2 ^ h.secSizeP2

/-- `CDF_SEC_POS`. -/
def Header.secPos (h : Header) (secid : ℤ) : ℕ := sizeT (h.secSize + secid * h.secSize)

/-- `CDF_SHORT_SEC_SIZE`. -/
def Header.shortSecSize (h : Header) : ℕ := 2 ^ h.shortSecSizeP2

/-- `CDF_SHORT_SEC_POS`. -/
def Header.shortSecPos (h : Header) (secid : ℤ) : ℕ := sizeT (secid * h.shortSecSize)

/-- `pread` of an open file, where it reads as many bytes as it is asked for. -/
def pread (fd : Option (List UInt8)) (off len : ℕ) : Option (List UInt8) :=
  match fd with
  | some f => if off + len ≤ f.length then some (slice f off len) else none
  | none => none

/-- `cdf_read`. The values that it returns are -1 and `len`. -/
def cdfRead (info : Info) (off len : ℕ) : Option (List UInt8) :=
  match info.buf with
  | some buf => if off + len ≤ buf.length then some (slice buf off len) else pread info.fd off len
  | none => pread info.fd off len

/-- `cdf_read_sector`, where the length is that of a sector. `pread` may store a part of a sector that it does not read as a
whole, so that there must be room for it all the same. -/
def cdfReadSector (info : Info) (buf : List UInt8) (offs : ℕ) (h : Header) (id : ℤ) : Except Bad (List UInt8) :=
  if offs + h.secSize ≤ buf.length then
    match cdfRead info (h.secPos id) h.secSize with
    | some s => store buf offs s
    | none => .error .failed
  else .error .fault

/-- `calloc`. -/
def calloc (n size : ℕ) : List UInt8 := List.replicate (n * size) 0

/-! ## The sector allocation table -/

/-- `cdf_sat_t`. -/
structure Sat where
  tab : List UInt8
  len : ℕ

/-- `nsatpersec`. -/
def Header.nsatpersec (h : Header) : ℕ := sizeT ((h.secSize / 4 : ℕ) - 1)

/-- `CDF_SEC_LIMIT`. -/
def Header.secLimit (h : Header) : ℕ := (2 ^ 32 - 1) / (4 * h.secSize)

/-- The loop of `cdf_read_sat` over `h_master_sat`. -/
def headerLoop (info : Info) (h : Header) : List ℤ → ℕ → List UInt8 → Except Bad (ℕ × List UInt8)
  | [], i, tab => .ok (i, tab)
  | sid :: sids, i, tab =>
    if sid < 0 then .ok (i, tab)
    else do
      let tab ← cdfReadSector info tab (h.secSize * i) h sid
      headerLoop info h sids (i + 1) tab

/-- The loop over the entries of a sector of the master table, from `k` on, of which there are still so many; and whether it
ends with `goto out`. -/
def msaLoop (info : Info) (h : Header) (satLen : ℕ) (msa : List UInt8) :
    ℕ → ℕ → ℕ → List UInt8 → Except Bad (Bool × ℕ × List UInt8)
  | 0, _, i, tab => .ok (false, i, tab)
  | n + 1, k, i, tab => do
    let sec ← entry msa k
    if sec < 0 then .ok (true, i, tab)
    else if i ≥ satLen then .error .failed
    else do
      let tab ← cdfReadSector info tab (h.secSize * i) h sec
      msaLoop info h satLen msa n (k + 1) (i + 1) tab

/-- The loop over the sectors of the master table. -/
def masterLoop (info : Info) (h : Header) (satLen : ℕ) :
    ℕ → ℕ → ℤ → ℕ → List UInt8 → List UInt8 → Except Bad (ℕ × List UInt8)
  | 0, _, _, _, _, _ => .error .endless
  | fuel + 1, j, mid, i, msa, tab =>
    if ¬ j < h.numSectorsInMasterSat then .ok (i, tab)
    else if mid < 0 then .ok (i, tab)
    else if j ≥ cdfLoopLimit then .error .failed
    else do
      let msa ← cdfReadSector info msa 0 h mid
      let (out, i, tab) ← msaLoop info h satLen msa h.nsatpersec 0 i tab
      if out then .ok (i, tab)
      else do
        let mid ← entry msa h.nsatpersec
        masterLoop info h satLen fuel (j + 1) mid i msa tab

/-- `cdf_read_sat`. -/
def cdfReadSat (info : Info) (h : Header) : Except Bad Sat :=
  let i := (h.masterSat.takeWhile (· ≠ cdfSecidFree)).length
  if (h.nsatpersec > 0 ∧ h.numSectorsInMasterSat > h.secLimit / h.nsatpersec) ∨ i > h.secLimit then .error .failed
  else do
    let satLen := h.numSectorsInMasterSat * h.nsatpersec + i
    let tab := calloc satLen h.secSize
    let (i, tab) ← headerLoop info h h.masterSat 0 tab
    let (i, tab) ← masterLoop info h satLen (cdfLoopLimit + 1) 0 h.secidFirstSectorInMasterSat i (calloc 1 h.secSize) tab
    .ok ⟨tab, i⟩

/-! ## Chains -/

/-- `maxsector`. -/
def maxsector (sat : Sat) (size : ℕ) : ℤ := int32 (sat.len * size)

/-- The loop of `cdf_count_chain`, where `i` and `j` are the same. -/
def countLoop (sat : Sat) (size : ℕ) : ℕ → ℕ → ℤ → Except Bad ℕ
  | 0, _, _ => .error .endless
  | fuel + 1, i, sid =>
    if sid < 0 then .ok i
    else if i ≥ cdfLoopLimit then .error .failed
    else if sid > maxsector sat size then .error .failed
    else do
      let sid ← entry sat.tab sid
      countLoop sat size fuel (i + 1) sid

/-- `cdf_count_chain`. -/
def cdfCountChain (sat : Sat) (sid : ℤ) (size : ℕ) : Except Bad ℕ := countLoop sat size (cdfLoopLimit + 1) 0 sid

/-- The loop that reads the `n` sectors of a chain, where `i` and `j` are the same; `read` reads the sector for the `i`th
place. -/
def readLoop (sat : Sat) (read : List UInt8 → ℕ → ℤ → Except Bad (List UInt8)) (n : ℕ) :
    ℕ → ℕ → ℤ → List UInt8 → Except Bad (List UInt8)
  | 0, _, _, _ => .error .endless
  | fuel + 1, i, sid, tab =>
    if sid < 0 then .ok tab
    else if i ≥ cdfLoopLimit then .error .failed
    else if i ≥ n then .error .failed
    else do
      let tab ← read tab i sid
      let sid ← entry sat.tab sid
      readLoop sat read n fuel (i + 1) sid tab

/-- `cdf_stream_t`; no table is `NULL`. -/
structure Stream where
  tab : Option (List UInt8)
  len : ℕ
  dirlen : ℕ

/-- `cdf_read_long_sector_chain`. A sector is read as a whole or not at all, so that no truncated one is taken. -/
def cdfReadLongSectorChain (info : Info) (h : Header) (sat : Sat) (sid : ℤ) (len : ℕ) : Except Bad Stream := do
  let n ← cdfCountChain sat sid h.secSize
  let tab ← readLoop sat (fun tab i sid => cdfReadSector info tab (i * h.secSize) h sid) n (cdfLoopLimit + 1) 0 sid
    (calloc n h.secSize)
  .ok ⟨some tab, n, len⟩

/-- `cdf_read_ssat`. -/
def cdfReadSsat (info : Info) (h : Header) (sat : Sat) : Except Bad Sat := do
  let sid := h.secidFirstSectorInShortSat
  let n ← cdfCountChain sat sid h.secSize
  let tab ← readLoop sat (fun tab i sid => cdfReadSector info tab (i * h.secSize) h sid) n (cdfLoopLimit + 1) 0 sid
    (calloc n h.secSize)
  .ok ⟨tab, n⟩

/-- `cdf_read_short_sector`, where the length is that of a short sector. -/
def cdfReadShortSector (h : Header) (sst : Stream) (root : List UInt8) (buf : List UInt8) (offs : ℕ) (id : ℤ) :
    Except Bad (List UInt8) :=
  let pos := h.shortSecPos id
  if pos > h.secSize * sst.len then .error .failed
  else if pos + h.shortSecSize ≤ root.length then store buf offs (slice root pos h.shortSecSize)
  else .error .fault

/-- `cdf_read_short_sector_chain`. -/
def cdfReadShortSectorChain (h : Header) (ssat : Sat) (sst : Stream) (sid : ℤ) (len : ℕ) : Except Bad Stream := do
  let n ← cdfCountChain ssat sid h.secSize
  match sst.tab with
  | none => .error .failed
  | some root => do
    let tab ← readLoop ssat (fun tab i sid => cdfReadShortSector h sst root tab (i * h.shortSecSize) sid) n
      (cdfLoopLimit + 1) 0 sid (calloc n h.shortSecSize)
    .ok ⟨some tab, n, len⟩

/-- `cdf_read_sector_chain`. -/
def cdfReadSectorChain (info : Info) (h : Header) (sat ssat : Sat) (sst : Stream) (sid : ℤ) (len : ℕ) :
    Except Bad Stream :=
  if len < h.minSizeStandardStream ∧ sst.tab.isSome then cdfReadShortSectorChain h ssat sst sid len
  else cdfReadLongSectorChain info h sat sid len

/-! ## The directory -/

/-- `cdf_directory_t`. -/
structure Directory where
  name : List ℕ
  namelen : ℕ
  type : ℕ
  color : ℕ
  leftChild : ℕ
  rightChild : ℕ
  storage : ℕ
  storageUuid : List ℕ
  flags : ℕ
  created : ℕ
  modified : ℕ
  streamFirstSector : ℤ
  size : ℕ
  unused0 : ℕ
deriving DecidableEq

/-- `CDF_DIRECTORY_SIZE`. -/
def cdfDirectorySize : ℕ := 128

/-- `CDF_DIR_TYPE_ROOT_STORAGE`. -/
def rootStorage : ℕ := 5

/-- `cdf_unpack_dir`. -/
def cdfUnpackDir (b : List UInt8) : Directory where
  name := (List.range 32).map fun k => le (slice b (2 * k) 2)
  namelen := le (slice b 64 2)
  type := le (slice b 66 1)
  color := le (slice b 67 1)
  leftChild := le (slice b 68 4)
  rightChild := le (slice b 72 4)
  storage := le (slice b 76 4)
  storageUuid := [le (slice b 80 8), le (slice b 88 8)]
  flags := le (slice b 96 4)
  created := le (slice b 100 8)
  modified := le (slice b 108 8)
  streamFirstSector := int32 (le (slice b 116 4))
  size := le (slice b 120 4)
  unused0 := le (slice b 124 4)

/-- The loop over the entries of a sector, from `j` on, of which there are still so many: they go to `base + j`. -/
def unpackLoop (buf : List UInt8) (base : ℕ) : ℕ → ℕ → List Directory → Except Bad (List Directory)
  | 0, _, dirTab => .ok dirTab
  | n + 1, j, dirTab =>
    if j * cdfDirectorySize + cdfDirectorySize ≤ buf.length ∧ base + j < dirTab.length then
      unpackLoop buf base n (j + 1)
        (dirTab.set (base + j) (cdfUnpackDir (slice buf (j * cdfDirectorySize) cdfDirectorySize)))
    else .error .fault

/-- The loop of `cdf_read_dir` over the sectors. The loop over the entries is one with `j`, too. -/
def dirLoop (info : Info) (h : Header) (sat : Sat) (ns nd : ℕ) :
    ℕ → ℕ → ℕ → ℤ → List UInt8 → List Directory → Except Bad (List Directory)
  | 0, _, _, _, _, _ => .error .endless
  | fuel + 1, i, j, sid, buf, dirTab =>
    if ¬ i < ns then .ok dirTab
    else if j ≥ cdfLoopLimit then .error .failed
    else do
      let buf ← cdfReadSector info buf 0 h sid
      let dirTab ← unpackLoop buf (i * nd) nd 0 dirTab
      let sid ← entry sat.tab sid
      dirLoop info h sat ns nd fuel (i + 1) (nd + 1) sid buf dirTab

/-- `cdf_read_dir`. -/
def cdfReadDir (info : Info) (h : Header) (sat : Sat) : Except Bad (List Directory) := do
  let sid := h.secidFirstDirectory
  let ns ← cdfCountChain sat sid h.secSize
  let nd := h.secSize / cdfDirectorySize
  dirLoop info h sat ns nd (cdfLoopLimit + 1) 0 0 sid (calloc 1 h.secSize)
    (List.replicate (ns * nd) (cdfUnpackDir (calloc 1 cdfDirectorySize)))

/-- `cdf_read_short_stream`. -/
def cdfReadShortStream (info : Info) (h : Header) (sat : Sat) (dir : List Directory) : Except Bad Stream :=
  match dir.find? (·.type = rootStorage) with
  | none => .ok ⟨none, 0, 0⟩
  | some d =>
    if d.streamFirstSector < 0 then .ok ⟨none, 0, 0⟩
    else cdfReadLongSectorChain info h sat d.streamFirstSector d.size

end CodingExercises.File.Cdf
