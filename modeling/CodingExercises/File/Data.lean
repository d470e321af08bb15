import CodingExercises.File.Accesses

/-!
# file: the data of a file

`mcopy`, the indirect offsets of `mget`, `file_strncmp`, and `FILE_SEARCH` and `FILE_REGEX` of `magiccheck`, with the bytes of
the file that they read. The memory is whole (`Outside.mem`): nothing keeps a read within the file but the code. What works on
the value that was copied, and what prints, is a parameter.

Words of the host are little-endian, and `regexec` has `REG_STARTEND`.
-/

namespace CodingExercises.File

/-- `MAXstring`, which is also the size of `union VALUETYPE`. -/
def maxString : ℕ := 64

/-- A number as `size_t`. -/
def sizeT (z : ℤ) : ℕ := (z % 2 ^ 64).toNat

/-- `ms->search`. -/
structure Search where
  s : ℤ
  sLen : ℕ
  offset : ℕ
  rmLen : ℕ

/-- What is worked on: `ms->ms_value`, `ms->search`, what else there is, and what was noted. -/
structure Work (R : Type) where
  value : List UInt8
  search : Search
  rest : R
  log : List Event

/-- `regexec`: the start of the match. -/
inductive Regexec
  | found (so : ℕ)
  | nomatch
  | failed

/-- The memory, and what does not read the file. `relate` is `magiccheck` behind its first `switch`, and `compare` all of it for
the other types. -/
structure Outside (R : Type) where
  flags : Flags
  mem : ℤ → UInt8
  isspace : UInt8 → Bool
  islower : UInt8 → Bool
  isupper : UInt8 → Bool
  tolower : UInt8 → UInt8
  toupper : UInt8 → UInt8
  regcomp : Entry → Bool
  regexec : Entry → ℤ → ℕ → Regexec
  relate : Entry → BitVec 64 → R → Option Bool × R
  compare : Entry → List UInt8 → R → Option Bool × R
  mconvert : Entry → Bool → List UInt8 → R → Bool × List UInt8 × R
  mprint : Entry → BitVec 32 → List UInt8 → Search → R → Bool × List UInt8 × R
  moffset : Entry → BitVec 32 → List UInt8 → Search → BitVec 32 × List UInt8
  magerror : R → R
  printf : List Char → R → Bool × R
  openOut : R → R
  dropOut : R → R
  keepOut : Entry → BitVec 32 → R → Bool × R
  realloc : ℕ → R → Bool

variable {R : Type}

def Work.note (e : Event) (w : Work R) : Work R := { w with log := e :: w.log }

/-- The bytes from an address on. -/
def bytesAt (mem : ℤ → UInt8) : ℤ → ℕ → List UInt8
  | _, 0 => []
  | b, k + 1 => mem b :: bytesAt mem (b + 1) k

/-! ## Copying -/

/-- What `memcpy` makes of the value: the bytes from the offset on, and zeros behind them. -/
def copied (mem : ℤ → UInt8) (s offset nbytes : ℕ) : List UInt8 :=
  bytesAt mem (s + offset) (min (nbytes - offset) maxString) ++ List.replicate (maxString - (nbytes - offset)) 0

/-- `memchr` in the memory. -/
def findByte (mem : ℤ → UInt8) (c : UInt8) : ℕ → ℤ → Option ℕ
  | 0, _ => none
  | n + 1, b => if mem b = c then some 0 else (findByte mem c n (b + 1)).map (· + 1)

/-- `memchr`, with what it reads: up to the byte, or all. -/
def memchr (x : Outside R) (b : ℤ) (c : UInt8) (n : ℕ) (w : Work R) : Option ℕ × Work R :=
  let r := findByte x.mem c n b
  (r, w.note (.bytes b (r.elim n (· + 1))))

/-- A newline or, if there is none, a carriage return. -/
def lineEnd (x : Outside R) (b : ℤ) (k : ℕ) (w : Work R) : Option ℕ × Work R :=
  let r := memchr x b 10 k w
  if r.1.isNone then memchr x b 13 k r.2 else r

/-- The loop of `mcopy` over lines, with `k` bytes from `b` to the end: the last end of a line, and how many lines are left. -/
def lineLoop (x : Outside R) : ℕ → ℤ → ℕ → ℤ → Work R → (ℤ × ℕ) × Work R
  | 0, _, _, last, w => ((last, 0), w)
  | lines + 1, b, k, last, w =>
    if k = 0 then ((last, lines + 1), w)
    else
      let r := lineEnd x b k w
      match r.1 with
      | none => ((last, lines + 1), r.2)
      | some i =>
        let w := r.2.note (.bytes (b + i) 1)
        if x.mem (b + i) = 13 then
          let w := w.note (.bytes (b + i + 1) 1)
          let i' := if x.mem (b + i + 1) = 10 then i + 2 else i + 1
          lineLoop x lines (b + i') (k - i') (b + i) w
        else lineLoop x lines (b + i + 1) (k - (i + 1)) (b + i) w

/-- The loop of `mcopy` over characters of 16 bits, for `room` characters. -/
def string16Loop (x : Outside R) (be : Bool) (esrc : ℤ) : ℕ → ℤ → Work R → List UInt8 × Work R
  | 0, _, w => ([], w)
  | room + 1, src, w =>
    if esrc ≤ src then ([], w)
    else
      let w := w.note (.bytes src 1)
      if x.mem src = 0 then
        let other := if be then src - 1 else src + 1
        let r := string16Loop x be esrc room (src + 2) (w.note (.bytes other 1))
        ((if x.mem other ≠ 0 then 32 else 0) :: r.1, r.2)
      else
        let r := string16Loop x be esrc room (src + 2) w
        (x.mem src :: r.1, r.2)

/-- `FILE_REGEX` in `mcopy`. -/
def copyRegex (x : Outside R) (s offset nbytes lines : ℕ) (w : Work R) : Work R :=
  let last := (s + nbytes : ℤ)
  let r := lineLoop x lines (s + offset) (nbytes - offset) last w
  let last := if r.1.2 ≠ 0 then last else r.1.1
  { r.2 with search := ⟨s + offset, sizeT (last - (s + offset)), offset, 0⟩ }

/-- `FILE_BESTRING16` and `FILE_LESTRING16` in `mcopy`. -/
def copyString16 (x : Outside R) (be : Bool) (s offset nbytes : ℕ) (w : Work R) : Bool × Work R :=
  if nbytes ≤ offset then (false, { w with rest := x.magerror w.rest })
  else
    let r := string16Loop x be (s + nbytes) (maxString - 1) (s + offset + if be then 1 else 0) w
    (true, { r.2 with value := (r.1 ++ w.value.drop r.1.length).set (maxString - 1) 0 })

/-- `memset` and `memcpy` in `mcopy`. -/
def copyValue (x : Outside R) (s offset nbytes : ℕ) (w : Work R) : Work R :=
  let w' := { w with value := copied x.mem s offset nbytes }
  if nbytes ≤ offset then w' else w'.note (.bytes (s + offset) (min (nbytes - offset) maxString))

/-- `mcopy`. -/
def mcopy (x : Outside R) (type : FileType) (indir : Bool) (s : ℕ) (offset : BitVec 32) (nbytes : ℕ) (linecnt : BitVec 32)
    (w : Work R) : Bool × Work R :=
  let offset := offset.toNat
  if indir then (true, copyValue x s offset nbytes w)
  else
    match type with
    | .search => (true, { w with search := ⟨s + offset, sizeT (nbytes - offset), offset, w.search.rmLen⟩ })
    | .regex => (true, copyRegex x s offset nbytes linecnt.toNat w)
    | .bestring16 => copyString16 x true s offset nbytes w
    | .lestring16 => copyString16 x false s offset nbytes w
    | _ => (true, copyValue x s offset nbytes w)

/-! ## Indirect offsets -/

/-- `FILE_OPINVERSE` and `FILE_OPINDIRECT`. -/
def opInverse : BitVec 8 := 0x40
def opIndirect : BitVec 8 := 0x80

/-- `m->in_op & bit`. -/
def Entry.inHas (m : Entry) (bit : BitVec 8) : Bool := m.inOp &&& bit ≠ 0

/-- `cvt_flip`. -/
def cvtFlip (type : FileType) (flip : Bool) : FileType :=
  if !flip then type
  else
    match type with
    | .beshort => .leshort
    | .belong => .lelong
    | .bedate => .ledate
    | .beldate => .leldate
    | .bequad => .lequad
    | .beqdate => .leqdate
    | .beqldate => .leqldate
    | .beqwdate => .leqwdate
    | .leshort => .beshort
    | .lelong => .belong
    | .ledate => .bedate
    | .leldate => .beldate
    | .lequad => .bequad
    | .leqdate => .beqdate
    | .leqldate => .beqldate
    | .leqwdate => .beqwdate
    | .befloat => .lefloat
    | .lefloat => .befloat
    | .bedouble => .ledouble
    | .ledouble => .bedouble
    | t => t

/-- How many bytes a type of indirection takes. -/
def inWidth : FileType → Option ℕ
  | .byte => some 1
  | .short | .beshort | .leshort => some 2
  | .long | .belong | .beid3 | .lelong | .leid3 | .melong => some 4
  | _ => none

/-- Bytes of the value, the most significant first. -/
def word (v : List UInt8) (is : List ℕ) : ℕ := is.foldl (fun n i => n * 256 + (v.getD i 0).toNat) 0

/-- The number in the value, as an `int`. -/
def operand (v : List UInt8) : FileType → BitVec 32
  | .byte => .ofNat 32 (word v [0])
  | .short => .ofNat 32 (word v [1, 0])
  | .beshort => (BitVec.ofNat 16 (word v [0, 1])).signExtend 32
  | .leshort => (BitVec.ofNat 16 (word v [1, 0])).signExtend 32
  | .belong | .beid3 => .ofNat 32 (word v [0, 1, 2, 3])
  | .melong => .ofNat 32 (word v [1, 0, 3, 2])
  | _ => .ofNat 32 (word v [3, 2, 1, 0])

/-- The number as it is taken where there is nothing to do with it: for `lelong` with another last byte. -/
def plainOperand (v : List UInt8) : FileType → BitVec 32
  | .lelong | .leid3 => .ofNat 32 (word v [3, 2, 1, 2])
  | t => operand v t

/-- `m->in_op & FILE_OPS_MASK`. The operands of a division are unsigned for `long`. -/
def operate (op : BitVec 8) (type : FileType) (d off : BitVec 32) : BitVec 32 :=
  match (op &&& 7).toNat with
  | 0 => d &&& off
  | 1 => d ||| off
  | 2 => d ^^^ off
  | 3 => d + off
  | 4 => d - off
  | 5 => d * off
  | 6 => if type = .long then d / off else d.sdiv off
  | _ => if type = .long then d % off else d.srem off

/-- The offset of an ID3 tag. -/
def id3 (offset : BitVec 32) : BitVec 32 :=
  ((offset &&& 0x7f) ||| ((offset >>> 8 &&& 0x7f) <<< 7) ||| ((offset >>> 16 &&& 0x7f) <<< 14) |||
    ((offset >>> 24 &&& 0x7f) <<< 21)) + 10

/-- The offset that the value says, or `none` where `mget` returns 0. -/
def indirectOf (m : Entry) (type : FileType) (v : List UInt8) (off : BitVec 32) (nbytes : ℕ) (offset : BitVec 32) :
    Option (BitVec 32) :=
  match inWidth type with
  | none => some offset
  | some width =>
    if short nbytes offset width then none
    else
      let d := if off ≠ 0 then operate m.inOp type (operand v type) off else plainOperand v type
      let d := if m.inHas opInverse then ~~~d else d
      some (if type = .leid3 || type = .beid3 then id3 d else d)

/-- The address of the operand in `mget`, for `FILE_OPINDIRECT`. -/
def operandAddr (m : Entry) (s : ℕ) (offset : BitVec 32) : ℤ := s + offset.toNat + m.inOffset.toInt

/-- `off` in `mget`: the number of the entry, or that in the file for `FILE_OPINDIRECT`. -/
def indirectOff (mem : ℤ → UInt8) (m : Entry) (type : FileType) (s : ℕ) (offset : BitVec 32) : BitVec 32 :=
  if m.inHas opIndirect && (inWidth type).isSome then
    operand (bytesAt mem (operandAddr m s offset) ((inWidth type).getD 0)) type
  else m.inOffset

/-- The indirect offsets of `mget`. -/
def indirect (x : Outside R) (m : Entry) (flip : Bool) (s nbytes : ℕ) (offset : BitVec 32) (w : Work R) :
    Option (BitVec 32) × Work R :=
  let type := cvtFlip m.inType flip
  let w :=
    match inWidth type with
    | none => w
    | some width => if m.inHas opIndirect then w.note (.bytes (operandAddr m s offset) width) else w
  (indirectOf m type w.value (indirectOff x.mem m type s offset) nbytes offset, w)

/-! ## Comparing -/

/-- `STRING_COMPACT_WHITESPACE` and so on. -/
def stringCompact : BitVec 32 := 0x1
def stringOptional : BitVec 32 := 0x2
def stringLower : BitVec 32 := 0x4
def stringUpper : BitVec 32 := 0x8

/-- `while(isspace(*b)) b++`; there are no more addresses. -/
def blanks (x : Outside R) : ℕ → ℤ → ℕ
  | 0, _ => 0
  | n + 1, b => if x.isspace (x.mem b) then blanks x n (b + 1) + 1 else 0

def addresses : ℕ := 2 ^ 64

/-- `*b - *a`, as `uint64_t`. -/
def diff (b a : UInt8) : BitVec 64 := .ofInt 64 (b.toNat - a.toNat)

/-- One turn of the loop of `file_strncmp`, `j` bytes behind the address: the difference, where the loop goes on, and up to where
it has read. Without flags it is the last branch. -/
def strncmpStep (x : Outside R) (flags : BitVec 32) (a : List UInt8) (b : ℤ) (j : ℕ) : BitVec 64 × ℕ × ℕ :=
  let c := x.mem (b + j)
  let a₀ := a.headD 0
  if flags &&& stringLower ≠ 0 && x.islower a₀ then (diff (x.tolower c) a₀, j + 1, j + 1)
  else if flags &&& stringUpper ≠ 0 && x.isupper a₀ then (diff (x.toupper c) a₀, j + 1, j + 1)
  else if flags &&& stringCompact ≠ 0 && x.isspace a₀ then
    if x.isspace c then
      if x.isspace (a.tail.headD 0) then (0, j + 1, j + 1)
      else
        let k := blanks x addresses (b + j + 1)
        (0, j + 1 + k, j + 1 + k + 1)
    else (1, j + 1, j + 1)
  else if flags &&& stringOptional ≠ 0 && x.isspace a₀ then
    let k := blanks x addresses (b + j)
    (0, j + k, j + k + 1)
  else (diff c a₀, j + 1, j + 1)

/-- `file_strncmp` in the memory: the difference, and how many bytes it has read. -/
def strncmp (x : Outside R) (flags : BitVec 32) (b : ℤ) : ℕ → List UInt8 → ℕ → ℕ → BitVec 64 × ℕ
  | 0, _, _, reach => (0, reach)
  | len + 1, a, j, reach =>
    let r := strncmpStep x flags a b j
    if r.1 ≠ 0 then (r.1, max reach r.2.2) else strncmp x flags b len a.tail r.2.1 (max reach r.2.2)

/-- The value of an entry against the file, `idx` bytes behind the start. -/
def compareAt (x : Outside R) (m : Entry) (start : ℤ) (idx : ℕ) : BitVec 64 × ℕ :=
  strncmp x m.strFlags (start + idx) (min m.vallen maxString) m.value 0 0

/-- The loop of `FILE_SEARCH`. -/
def searchLoop (x : Outside R) (m : Entry) : ℕ → ℕ → BitVec 64 → Work R → BitVec 64 × Work R
  | 0, _, v, w => (v, w)
  | n + 1, idx, v, w =>
    if w.search.sLen < min m.vallen maxString + idx then (v, w)
    else
      let r := compareAt x m w.search.s idx
      let w := w.note (.bytes (w.search.s + idx) r.2)
      if r.1 = 0 then (0, { w with search := { w.search with offset := w.search.offset + idx } })
      else searchLoop x m n (idx + 1) r.1 w

/-- `magiccheck`. -/
def magiccheck (x : Outside R) (m : Entry) (w : Work R) : Option Bool × Work R :=
  match m.type with
  | .search =>
    let range := m.strRange.toNat
    let r := searchLoop x m (if range = 0 then w.search.sLen + 1 else range) 0 0 w
    let v := x.relate m r.1 r.2.rest
    (v.1, { r.2 with rest := v.2 })
  | .regex =>
    if !x.regcomp m then (none, { w with rest := x.magerror w.rest })
    else
      let w := w.note (.bytes w.search.s w.search.sLen)
      match x.regexec m w.search.s w.search.sLen with
      | .found so =>
        let v := x.relate m 0 w.rest
        (v.1, { w with search := ⟨w.search.s + so, w.search.sLen, w.search.offset + so, 0⟩, rest := v.2 })
      | .nomatch =>
        let v := x.relate m 1 w.rest
        (v.1, { w with rest := v.2 })
      | .failed => (none, { w with rest := x.magerror w.rest })
  | .indirect | .use | .name => (some true, w)
  | _ =>
    let v := x.compare m w.value w.rest
    (v.1, { w with rest := v.2 })

/-- What `match` and `mget` call. -/
def leaves (x : Outside R) : Leaves (Work R) where
  flags := x.flags
  mcopy := mcopy x
  indirect := indirect x
  mconvert := fun m flip w =>
    let r := x.mconvert m flip w.value w.rest
    (r.1, { w with value := r.2.1, rest := r.2.2 })
  openOut := fun w => { w with rest := x.openOut w.rest }
  dropOut := fun w => { w with rest := x.dropOut w.rest }
  keepOut := fun m offset w =>
    let r := x.keepOut m offset w.rest
    (r.1, { w with rest := r.2 })
  magiccheck := fun m _ w => magiccheck x m w
  mprint := fun m offset w =>
    let r := x.mprint m offset w.value w.search w.rest
    (r.1, { w with value := r.2.1, rest := r.2.2 })
  moffset := fun m offset w =>
    let r := x.moffset m offset w.value w.search
    (r.1, { w with value := r.2 })
  printf := fun s w =>
    let r := x.printf s w.rest
    (r.1, { w with rest := r.2 })
  realloc := fun len w => x.realloc len w.rest

end CodingExercises.File
