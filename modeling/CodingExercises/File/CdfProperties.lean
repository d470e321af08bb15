import CodingExercises.File.Cdf

/-!
# file: properties of compound documents

`cdf_unpack_summary_info` and `cdf_read_property_info` of `cdf.c`, which read the properties in a stream. A pointer into the
stream is the number of bytes before it, and `NULL` as `*info` is an array without entries.

- The array has `*maxcount` entries, and an entry in which nothing was stored holds nothing.
- A string that is not inside of the stream is `Bad.fault`, as is an entry that is not in the array.
- The loop over the properties of a section may look at its condition so many times as there is fuel; one that goes on then is
  `Bad.endless`.
-/

namespace CodingExercises.File.Cdf

/-! ## Properties -/

/-- A number of so many bits, with a sign. -/
def signed (bits n : ℕ) : ℤ := if n < 2 ^ (bits - 1) then n else n - 2 ^ bits

/-- `pi_val`. A string is its length and where it begins, and a floating-point number is its bits. -/
inductive Value
  | s16 (n : ℤ)
  | s32 (n : ℤ)
  | u32 (n : ℕ)
  | s64 (n : ℤ)
  | u64 (n : ℕ)
  | f (bits : ℕ)
  | d (bits : ℕ)
  | tp (n : ℕ)
  | str (len buf : ℕ)
deriving DecidableEq

/-- `cdf_property_info_t`: what has been stored. -/
structure PropertyInfo where
  id : Option ℕ
  type : Option ℕ
  val : Option Value
deriving DecidableEq

/-- Something has been stored. -/
def PropertyInfo.filled (inp : PropertyInfo) : Bool := inp.id.isSome || inp.type.isSome || inp.val.isSome

/-- `*info`, `*count` and `*maxcount`. -/
structure Infos where
  info : List PropertyInfo
  count : ℕ
  maxcount : ℕ
deriving DecidableEq

/-- Entries as `malloc` and `realloc` leave them. -/
def uninitialized (n : ℕ) : List PropertyInfo := List.replicate n ⟨none, none, none⟩

/-- An entry is changed. -/
def Infos.store (st : Infos) (j : ℕ) (f : PropertyInfo → PropertyInfo) : Except Bad Infos :=
  match st.info[j]? with
  | some inp => .ok { st with info := st.info.set j (f inp) }
  | none => .error .fault

/-! ## Reading -/

/-- Some bytes are read as a number. -/
def load (tab : List UInt8) (off len : ℕ) : Except Bad ℕ :=
  if off + len ≤ tab.length then .ok (le (slice tab off len)) else .error .fault

/-- `cdf_getuint32`. -/
def cdfGetuint32 (tab : List UInt8) (p offs : ℕ) : Except Bad ℕ := load tab (p + 4 * offs) 4

/-- `cdf_check_stream_offset`. -/
def cdfCheckStreamOffset (sst : Stream) (h : Header) (p tail : ℕ) : Bool := p + tail ≤ h.secSize * sst.len

/-- `CDF_VECTOR`. -/
def cdfVector : ℕ := 0x1000

/-- `CDF_ARRAY | CDF_BYREF | CDF_RESERVED`. -/
def cdfIndirect : ℕ := 0x2000 ||| 0x4000 ||| 0x8000

/-- `CDF_TYPEMASK`. -/
def cdfTypemask : ℕ := 0x0fff

/-- `CDF_PROP_LIMIT`. -/
def cdfPropLimit : ℕ := (2 ^ 32 - 1) / (4 * 24)

/-- `CDF_SHLEN_LIMIT`. -/
def cdfShlenLimit : ℕ := (2 ^ 32 - 1) / 8

/-- The types with one value: the number of its bytes, and what is stored. -/
def scalar : ℕ → Option (ℕ × (ℕ → Value))
  | 0x02 => some (2, fun n => .s16 (signed 16 n))
  | 0x03 => some (4, fun n => .s32 (signed 32 n))
  | 0x0b => some (4, .u32)
  | 0x13 => some (4, .u32)
  | 0x14 => some (8, fun n => .s64 (signed 64 n))
  | 0x15 => some (8, .u64)
  | 0x04 => some (4, .f)
  | 0x05 => some (8, .d)
  | 0x40 => some (8, .tp)
  | _ => none

/-- `CDF_LENGTH32_STRING` and `CDF_LENGTH32_WSTRING`. -/
def isString (type : ℕ) : Bool := type = 0x1e || type = 0x1f

/-- How far `o` goes on behind a string of the length `l`, which is a `uint32_t`. -/
def stride (l : ℕ) : ℕ := (if l % 2 = 1 then (l + 1) % 2 ^ 32 else l) / 2

/-- The loop over the strings of a property, of which there are still so many. -/
def stringLoop (tab : List UInt8) (e q base : ℕ) : ℕ → ℕ → ℕ → Infos → Except Bad (ℕ × Infos)
  | 0, _, i, st => .ok (i, st)
  | n + 1, o, i, st => do
    let l ← cdfGetuint32 tab q o
    if q + 4 * o + 4 + l ≤ tab.length then do
      let st ← st.store (base + i) fun inp => { inp with val := some (.str l (q + 4 * o + 4)) }
      if q + (o + stride l) ≥ e then .error .failed
      else stringLoop tab e q base n (o + stride l) (i + 1) st
    else .error .fault

/-- The `switch` for the property `i`, and the next one. -/
def propertyValue (tab : List UInt8) (e q type nelements o base i : ℕ) (st : Infos) : Except Bad (ℕ × Infos) :=
  if type &&& cdfIndirect ≠ 0 then .ok (i + 1, st)
  else if isString (type &&& cdfTypemask) then
    if nelements > 1 then
      if st.maxcount > cdfPropLimit ∨ nelements > cdfPropLimit then .error .failed
      else stringLoop tab e q base nelements o i
        { st with maxcount := st.maxcount + nelements, info := st.info ++ uninitialized nelements }
    else stringLoop tab e q base nelements o i st
  else
    match scalar (type &&& cdfTypemask) with
    | some (size, value) =>
      if type &&& cdfVector ≠ 0 then .ok (i + 1, st)
      else do
        let n ← load tab (q + 4 * o) size
        let st ← st.store (base + i) fun inp => { inp with val := some (value n) }
        .ok (i + 1, st)
    | none => .ok (i + 1, st)

/-- The body of the loop over the properties. -/
def property (tab : List UInt8) (e p base i : ℕ) (st : Infos) : Except Bad (ℕ × Infos) := do
  let ofs ← cdfGetuint32 tab p (2 * i + 1)
  let q := p + ofs - 8
  if q > e then .error .failed
  else do
    let id ← cdfGetuint32 tab p (2 * i)
    let st ← st.store (base + i) fun inp => { inp with id := some id }
    let type ← cdfGetuint32 tab q 0
    let st ← st.store (base + i) fun inp => { inp with type := some type }
    if type &&& cdfVector ≠ 0 then do
      let nelements ← cdfGetuint32 tab q 1
      propertyValue tab e q type nelements 2 base i st
    else propertyValue tab e q type 1 1 base i st

/-- The loop over the properties of a section. -/
def propertyLoop (tab : List UInt8) (e p props base : ℕ) : ℕ → ℕ → Infos → Except Bad Infos
  | 0, _, _ => .error .endless
  | fuel + 1, i, st =>
    if ¬ i < props then .ok st
    else do
      let (i, st) ← property tab e p base i st
      propertyLoop tab e p props base fuel i st

/-- The array for the properties of one more section. -/
def Infos.grow (st : Infos) (props : ℕ) : Infos :=
  if st.maxcount ≠ 0 then
    { st with info := st.info ++ uninitialized props, maxcount := st.maxcount + props, count := st.count + props }
  else { st with info := uninitialized props, maxcount := props, count := st.count + props }

/-- `cdf_read_property_info`. -/
def cdfReadPropertyInfo (fuel : ℕ) (sst : Stream) (h : Header) (offs : ℕ) (st : Infos) : Except Bad Infos :=
  let tab := sst.tab.getD []
  if offs > (2 ^ 32 - 1) / 4 then .error .failed
  else if cdfCheckStreamOffset sst h offs 8 = false then .error .failed
  else do
    let len ← load tab offs 4
    if len > cdfShlenLimit then .error .failed
    else do
      let props ← load tab (offs + 4) 4
      if props > cdfPropLimit then .error .failed
      else if st.maxcount ≠ 0 ∧ st.maxcount > cdfPropLimit then .error .failed
      else if cdfCheckStreamOffset sst h (offs + len) 0 = false then .error .failed
      else propertyLoop tab (offs + len) (offs + 8) props st.count fuel 0 (st.grow props)

/-! ## Summary information -/

/-- `cdf_summary_info_header_t`, less `si_zero`, which is not set. -/
structure SummaryInfo where
  byteOrder : ℕ
  osVersion : ℕ
  os : ℕ
  cls : List UInt8
  count : ℕ
deriving DecidableEq

/-- `CDF_SECTION_DECLARATION_OFFSET`. -/
def cdfSectionDeclarationOffset : ℕ := 0x1c

/-- The loop over the sections, of which there are still so many. All of them are read with the declaration of the first. -/
def sectionLoop (fuel : ℕ) (sst : Stream) (h : Header) : ℕ → ℕ → Infos → Except Bad Infos
  | 0, _, st => .ok st
  | n + 1, i, st =>
    if i ≥ cdfLoopLimit then .error .failed
    else do
      let offs ← load (sst.tab.getD []) (cdfSectionDeclarationOffset + 16) 4
      let st ← cdfReadPropertyInfo fuel sst h offs st
      sectionLoop fuel sst h n (i + 1) st

/-- `cdf_unpack_summary_info`. -/
def cdfUnpackSummaryInfo (fuel : ℕ) (sst : Stream) (h : Header) : Except Bad (SummaryInfo × Infos) :=
  let tab := sst.tab.getD []
  if cdfCheckStreamOffset sst h 0 28 = false ∨ cdfCheckStreamOffset sst h cdfSectionDeclarationOffset 20 = false then
    .error .failed
  else do
    let byteOrder ← load tab 0 2
    let osVersion ← load tab 4 2
    let os ← load tab 6 2
    let _ ← load tab 8 16
    let count ← load tab 24 4
    let st ← sectionLoop fuel sst h count 0 ⟨[], 0, 0⟩
    .ok (⟨byteOrder, osVersion, os, slice tab 8 16, count % 2 ^ 16⟩, st)

end CodingExercises.File.Cdf
