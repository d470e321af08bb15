import Mathlib.Algebra.Group.Int.Defs
import Mathlib.Algebra.Group.Nat.Defs
import Mathlib.Data.List.DropRight
import CodingExercises.File.IsTar
import CodingExercises.File.Numeric
import CodingExercises.Lib.ByteOrder

/-!
# file: ELF files

`file_tryelf` of `readelf.c`, with `donote`, `dophn_core`, `dophn_exec` and `doshn`. What `pread` gives of the file, what
`malloc` finds, whether a text can be printed, and what stands in memory that is not set are parameters (`Source`).
-/

namespace CodingExercises.File.Readelf

open CodingExercises.Lib IsTar

/-! ## The file and what is printed -/

/-- What a conversion of `file_printf` prints. -/
inductive Arg
  | num (n : ℕ)
  | str (s : List UInt8)
deriving DecidableEq

/-- A call of `file_printf`. -/
structure Printed where
  fmt : String
  args : List Arg
deriving DecidableEq

/-- What the calls of the C library give: `none` of `pread` is -1, and `malloc` gives the memory from the new block on, of an
address space of fewer than 62 bits. `printf` says if a text can be printed behind others, and `stale` stands in a local array
at first. -/
structure Source where
  fsize : ℤ
  pread : ℤ → ℕ → Option (List UInt8)
  pread_le : ∀ off n b, pread off n = some b → b.length ≤ n
  malloc : ℕ → Option (List UInt8)
  malloc_lt : ∀ n b, malloc n = some b → n < 2 ^ 62
  printf : List Printed → Printed → Bool
  stale : String → List UInt8

/-- `FLAGS_DID_CORE` and so on. -/
structure ElfFlags where
  didCore : Bool
  didNote : Bool
  didBuildId : Bool
  didCoreStyle : Bool
  isCore : Bool
deriving DecidableEq

structure State where
  flags : ElfFlags
  printed : List Printed

/-- `clazz`, if it is not `ELFCLASS32`, and `swap`, on a machine with the lowest byte first. -/
structure Form where
  wide : Bool
  swap : Bool

variable (S : Source) (F : Form)

/-- `file_printf`. -/
def printf (p : Printed) (s : State) : Bool × State :=
  if S.printf s.printed p then (true, { s with printed := s.printed ++ [p] }) else (false, s)

/-- Texts one after the other, up to the first one that cannot be printed. -/
def printAll : List Printed → State → Bool × State
  | [], s => (true, s)
  | p :: ps, s =>
    let r := printf S p s
    if r.1 then printAll ps r.2 else r

/-- `elf_getu16`, `elf_getu32` and `elf_getu64`, by their number of bytes. -/
def Form.getu (bytes value : ℕ) : ℕ := if F.swap then ByteOrder.big.decode (ByteOrder.little.encode bytes value) else value

/-- The value of a field of a structure, by its offset and width. -/
def raw (b : List UInt8) (offset width : ℕ) : ℕ := ByteOrder.little.decode ((b.drop offset).take width)

/-- A field by its offsets and widths in the structures of 32 and 64 bits; in `readelf.h` an `Elf64_Word` has 16 bits. -/
def Form.field (b : List UInt8) (narrow wide : ℕ × ℕ) : ℕ :=
  if F.wide then F.getu (max 4 wide.2) (raw b wide.1 wide.2) else F.getu 4 (raw b narrow.1 narrow.2)

/-- An `off_t`. -/
def offT (n : ℤ) : ℤ := n.bmod (2 ^ 64)

/-- What was read stands over what was in memory before. -/
def readOver (new old : List UInt8) : List UInt8 := new ++ old.drop new.length

/-! ## Notes -/

/-- `ELF_ALIGN`, of a `size_t`. -/
def elfAlign (align a : ℕ) : ℕ := (a + align - 1) % 2 ^ 64 / align * align

/-- The bytes at an offset are a C string. -/
def isStr (nbuf : List UInt8) (offset : ℕ) (name : String) : Bool :=
  (nbuf.drop offset).take (name.length + 1) = name.toUTF8.toList ++ [0]

/-- The bytes at an offset begin like a string. -/
def isPrefix (nbuf : List UInt8) (offset : ℕ) (name : String) : Bool :=
  (nbuf.drop offset).take name.length = name.toUTF8.toList

/-- What `donote` knows of a note: the memory, the sizes, and where name and description begin. -/
structure Note where
  nbuf : List UInt8
  size : ℕ
  namesz : ℕ
  descsz : ℕ
  type : ℕ
  noff : ℕ
  doff : ℕ

variable (n : Note)

/-- `namesz == size && strcmp(&nbuf[noff], name) == 0`. -/
def Note.named (namesz : ℕ) (name : String) : Bool := n.namesz = namesz && isStr n.nbuf n.noff name

/-- `nbuf[n]`. -/
def Note.byte (offset : ℕ) : UInt8 := (n.nbuf.drop offset).headD 0

/-- `desc[i]`, of 32 bits. -/
def Form.desc (i : ℕ) : ℕ := F.getu 4 (raw n.nbuf (n.doff + 4 * i) 4)

/-- What is printed of a note, the flag that is set once it is printed, and if `donote` returns then. -/
structure Announce where
  texts : List Printed
  did : ElfFlags → ElfFlags
  returns : Bool

/-- A branch of `donote`: where a text cannot be printed, `donote` returns before the flag is set; `true` if it goes on. -/
def announce (a : Announce) (s : State) : Bool × State :=
  let r := printAll S a.texts s
  if r.1 then (!a.returns, { r.2 with flags := a.did r.2.flags }) else (false, r.2)

def announceAll : List Announce → State → Bool × State
  | [], s => (true, s)
  | a :: as, s =>
    let r := announce S a s
    if r.1 then announceAll as r.2 else r

def didNote (flags : ElfFlags) : ElfFlags := { flags with didNote := true }

/-- The names of `GNU_OS_LINUX` and so on. -/
def gnuOs : ℕ → String
  | 0 => "Linux"
  | 1 => "Hurd"
  | 2 => "Solaris"
  | 3 => "kFreeBSD"
  | 4 => "kNetBSD"
  | _ => "<unknown>"

/-- `NT_GNU_VERSION`. -/
def gnuVersion : List Announce :=
  if n.named 4 "GNU" && n.type = 1 && n.descsz = 16 then
    [⟨[⟨", for GNU/", []⟩, ⟨gnuOs (F.desc n 0), []⟩,
      ⟨" %d.%d.%d", [.num (F.desc n 1), .num (F.desc n 2), .num (F.desc n 3)]⟩], didNote, true⟩]
  else []

/-- `NT_GNU_BUILD_ID`. -/
def gnuBuildId : List Announce :=
  if n.named 4 "GNU" && n.type = 3 && (n.descsz = 16 || n.descsz = 20) then
    [⟨⟨", BuildID[%s]=", [.str (if n.descsz = 16 then "md5/uuid" else "sha1").toUTF8.toList]⟩ ::
      ((n.nbuf.drop n.doff).take n.descsz).map (fun b => ⟨"%02x", [.num b.toNat]⟩),
      fun flags => { flags with didBuildId := true }, false⟩]
  else []

/-- `NT_NETBSD_VERSION`, with the letters of a release: `while (ver_rel > 26)` prints a `Z` each. -/
def netbsdVersion : List Announce :=
  if n.named 7 "NetBSD" && n.type = 1 && n.descsz = 4 then
    let desc := F.desc n 0
    let verPatch := desc / 100 % 100
    let verRel := desc / 10000 % 100
    let zs := (verRel - 1) / 26
    [⟨⟨", for NetBSD", []⟩ ::
      if 100000000 < desc then
        ⟨" %u.%u", [.num (desc / 100000000), .num (desc / 1000000 % 100)]⟩ ::
          if verRel = 0 ∧ verPatch ≠ 0 then [⟨".%u", [.num verPatch]⟩]
          else if verRel ≠ 0 then List.replicate zs ⟨"Z", []⟩ ++ [⟨"%c", [.num (0x41 + (verRel - 26 * zs) - 1)]⟩]
          else []
      else [], didNote, true⟩]
  else []

/-- `NT_FREEBSD_VERSION`. -/
def freebsdVersion : List Announce :=
  if n.named 8 "FreeBSD" && n.type = 1 && n.descsz = 4 then
    let desc := F.desc n 0
    let whole : Printed := ⟨" (%d)", [.num desc]⟩
    [⟨⟨", for FreeBSD", []⟩ ::
      if desc = 460002 then [⟨" 4.6.2", []⟩]
      else if desc < 460100 then
        ⟨" %d.%d", [.num (desc / 100000), .num (desc / 10000 % 10)]⟩ ::
          ((if 0 < desc / 1000 % 10 then [⟨".%d", [.num (desc / 1000 % 10)]⟩] else []) ++
            if 0 < desc % 1000 ∨ desc % 100000 = 0 then [whole] else [])
      else if desc < 500000 then
        ⟨" %d.%d", [.num (desc / 100000), .num (desc / 10000 % 10 + desc / 1000 % 10)]⟩ ::
          if 0 < desc / 100 % 10 then [whole]
          else if 0 < desc / 10 % 10 then [⟨".%d", [.num (desc / 10 % 10)]⟩] else []
      else
        ⟨" %d.%d", [.num (desc / 100000), .num (desc / 1000 % 100)]⟩ ::
          if 0 < desc / 100 % 10 ∨ desc % 100000 / 100 = 0 then [whole]
          else if 0 < desc / 10 % 10 then [⟨".%d", [.num (desc / 10 % 10)]⟩] else [], didNote, true⟩]
  else []

/-- `NT_OPENBSD_VERSION`. -/
def openbsdVersion : List Announce :=
  if n.named 8 "OpenBSD" && n.type = 1 && n.descsz = 4 then [⟨[⟨", for OpenBSD", []⟩], didNote, true⟩] else []

/-- `NT_DRAGONFLY_VERSION`. -/
def dragonflyVersion : List Announce :=
  if n.named 10 "DragonFly" && n.type = 1 && n.descsz = 4 then
    let desc := F.desc n 0
    [⟨[⟨", for DragonFly", []⟩, ⟨" %d.%d.%d", [.num (desc / 100000), .num (desc / 10000 % 10), .num (desc / 10000)]⟩],
      didNote, true⟩]
  else []

/-- The note of SuSE: it is not looked whether the text could be printed. -/
def suse (s : State) : State :=
  if n.namesz = 5 && isStr n.nbuf n.noff "SuSE" && n.type = 1 && n.descsz = 2 then
    (printf S ⟨", for SuSE %d.%d", [.num (n.byte n.doff).toNat, .num (n.byte (n.doff + 1)).toNat]⟩ s).2
  else s

/-- `OS_STYLE_SVR4` and so on. -/
inductive OsStyle
  | svr4
  | freebsd
  | netbsd
deriving DecidableEq

/-- `os_style_names`. -/
def OsStyle.name : OsStyle → String
  | svr4 => "SVR4"
  | freebsd => "FreeBSD"
  | netbsd => "NetBSD"

/-- `os_style`: the last test that holds. -/
def osStyle : Option OsStyle :=
  if 11 ≤ n.namesz && isPrefix n.nbuf n.noff "NetBSD-CORE" then some .netbsd
  else if n.named 8 "FreeBSD" then some .freebsd
  else if n.namesz = 4 && isPrefix n.nbuf n.noff "CORE" || n.named 5 "CORE" then some .svr4
  else none

/-- `isprint` of the C locale. -/
def isprint (c : UInt8) : Bool := 0x20 ≤ c ∧ c ≤ 0x7e

/-- `isquote`. -/
def isquote (c : UInt8) : Bool := c = 0x27 ∨ c = 0x22

/-- `prpsoffsets32` and `prpsoffsets64`. -/
def Form.prpsoffsets : List ℕ := if F.wide then [136, 120, 56, 40, 16] else [100, 84, 44, 28, 8]

/-- The loop over the characters of a name, where this many are left of 16. -/
def nameLoop : ℕ → ℕ → ℕ → Bool
  | 0, _, _ => true
  | k + 1, noffset, reloffset =>
    if n.size ≤ noffset then false
    else if n.descsz ≤ reloffset then false
    else
      let c := n.byte noffset
      if c = 0 then k ≠ 15
      else if !isprint c || isquote c then false
      else nameLoop k (noffset + 1) (reloffset + 1)

/-- A lower offset is taken where only printable characters stand between. -/
def adjust (offset : ℕ) (lower : List ℕ) : ℕ :=
  lower.foldl (fun cur k =>
    if cur ≤ k then cur
    else if ((n.nbuf.drop (n.doff + k)).take (cur - k)).all isprint then k
    else cur) offset

/-- The offset of the name of the program in the description. -/
def findName : List ℕ → Option ℕ
  | [] => none
  | offset :: lower => if nameLoop n 16 (n.doff + offset) offset then some (adjust n offset lower) else findName lower

/-- The name at an offset, up to the first character that is not printable, without the blanks at its end. -/
def cname (offset : ℕ) : List UInt8 := ((n.nbuf.drop (n.doff + offset)).takeWhile isprint).rdropWhile isspaceC

/-- The style of a core file, if none was printed. -/
def styleText (flags : ElfFlags) : List Announce :=
  match osStyle n with
  | none => []
  | some style =>
    if flags.didCoreStyle then []
    else [⟨[⟨", %s-style", [.str style.name.toUTF8.toList]⟩], fun flags => { flags with didCoreStyle := true }, false⟩]

def didCore (flags : ElfFlags) : ElfFlags := { flags with didCore := true }

/-- The name of the program that dumped core. -/
def fromText (flags : ElfFlags) : List Announce :=
  if osStyle n = some .netbsd then
    if n.type = 1 then
      [⟨[⟨", from '%.31s'", [.str (((n.nbuf.drop (n.doff + 0x7c)).takeWhile (· ≠ 0)).take 31)]⟩,
        ⟨" (signal %u)", [.num (F.getu 4 (raw n.nbuf (n.doff + 8) 4))]⟩], didCore, true⟩]
    else []
  else if n.type = 3 && flags.isCore then
    match findName n F.prpsoffsets with
    | none => []
    | some offset => [⟨[⟨", from '%.*s'", [.str (cname n offset)]⟩], didCore, true⟩]
  else []

/-- The part of `donote` that looks at a note which is inside of the buffer: `false` where `size` is returned. -/
def noteText (n : Note) (s : State) : Bool × State :=
  let s := if s.flags.didNote && s.flags.didBuildId then (true, s)
    else announceAll S (gnuVersion F n ++ gnuBuildId n ++ netbsdVersion F n ++ freebsdVersion F n ++ openbsdVersion n ++
      dragonflyVersion F n) (suse S n s)
  if !s.1 then s
  else if s.2.flags.didCore then (false, s.2)
  else announceAll S (styleText n s.2.flags ++ fromText F n s.2.flags) s.2

/-- `xnh_sizeof`. -/
def Form.nhSizeof : ℕ := if F.wide then 6 else 12

/-- `donote`. -/
def donote (nbuf : List UInt8) (offset size align : ℕ) (s : State) : ℕ × State :=
  let nh := nbuf.drop offset
  let namesz := F.field nh (0, 4) (0, 2)
  let descsz := F.field nh (4, 4) (2, 2)
  let offset := offset + F.nhSizeof
  if namesz = 0 ∧ descsz = 0 then (if size ≤ offset then offset else size, s)
  else if 2 ^ 31 ≤ namesz then (offset, (printf S ⟨", bad note name size 0x%lx", [.num namesz]⟩ s).2)
  else if 2 ^ 31 ≤ descsz then (offset, (printf S ⟨", bad note description size 0x%lx", [.num descsz]⟩ s).2)
  else
    let doff := elfAlign align (offset + namesz)
    if size < offset + namesz then (doff, s)
    else
      let next := elfAlign align ((doff + descsz) % 2 ^ 64)
      if size < (doff + descsz) % 2 ^ 64 then (if size ≤ next then next else size, s)
      else
        let r := noteText S F ⟨nbuf, size, namesz, descsz, F.field nh (8, 4) (4, 2), offset, doff⟩ s
        (if r.1 then next else size, r.2)

/-- The loop over the notes of a section; without a value where it has not ended after `fuel` notes. -/
def noteLoop (nbuf : List UInt8) (size align : ℕ) : ℕ → ℕ → State → Option State
  | 0, offset, s => if size ≤ offset then some s else none
  | fuel + 1, offset, s =>
    if size ≤ offset then some s
    else
      let r := donote S F nbuf offset size align s
      if r.1 = 0 then some r.2 else noteLoop nbuf size align fuel r.1 r.2

/-! ## Program headers -/

/-- `xph_sizeof`, `xph_type`, `xph_offset`, `xph_filesz` and `xph_align`. -/
def Form.phSizeof : ℕ := if F.wide then 56 else 32

def Form.phType (ph : List UInt8) : ℕ := F.field ph (0, 4) (0, 2)

def Form.phOffset (ph : List UInt8) : ℤ := offT (F.field ph (4, 4) (8, 8))

def Form.phFilesz (ph : List UInt8) : ℕ := F.field ph (16, 4) (32, 8)

def Form.phAlign (ph : List UInt8) : ℕ :=
  if (if F.wide then raw ph 48 8 else raw ph 28 4) = 0 then 4 else F.field ph (28, 4) (48, 8)

/-- `BUFSIZ`. -/
def bufsiz : ℕ := 8192

/-- What a step of a loop over headers comes to: -1 is returned, or the buffers and the state for the next header. A value is
missing where a loop over notes has not ended. -/
abbrev Stepped := Option (Except State (List UInt8 × List UInt8 × State))

/-- The notes of a section: `pread` into the buffer, and `donote` as long as there are notes. -/
def sectionNotes (off : ℤ) (filesz align : ℕ) (ph nbuf : List UInt8) (s : State) : Stepped :=
  match S.pread off (min filesz bufsiz) with
  | none => some (.error s)
  | some b => (noteLoop S F (readOver b nbuf) b.length align (b.length + 1) 0 s).map fun s => .ok (ph, readOver b nbuf, s)

/-- A program header of a core file. -/
def coreHeader (off : ℤ) (ph nbuf : List UInt8) (s : State) : Stepped :=
  match S.pread off F.phSizeof with
  | none => some (.error s)
  | some b =>
    let ph := readOver b ph
    if S.fsize < F.phOffset ph then some (.ok (ph, nbuf, s))
    else if F.phType ph ≠ 4 then some (.ok (ph, nbuf, s))
    else sectionNotes S F (F.phOffset ph) (F.phFilesz ph) 4 ph nbuf s

/-- The loop of `dophn_core`. -/
def coreLoop (size : ℕ) : ℕ → ℤ → List UInt8 → List UInt8 → State → Option (Bool × State)
  | 0, _, _, _, s => some (true, s)
  | num + 1, off, ph, nbuf, s =>
    match coreHeader S F off ph nbuf s with
    | none => none
    | some (.error s) => some (false, s)
    | some (.ok (ph, nbuf, s)) => coreLoop size num (offT (off + size)) ph nbuf s

/-- `dophn_core`: `false` where it returns -1. -/
def dophnCore (off : ℤ) (num size : ℕ) (s : State) : Option (Bool × State) :=
  if size ≠ F.phSizeof then some (printf S ⟨", corrputed program header size", []⟩ s)
  else coreLoop S F size num off (S.stale "ph") (S.stale "nbuf") s

/-- `linking_style` and `shared_libraries`. -/
structure Linking where
  dynamic : Bool
  shared : Bool
deriving DecidableEq

/-- The first `switch` of `dophn_exec`. -/
def Linking.see (L : Linking) (type : ℕ) : Linking :=
  if type = 2 then { L with dynamic := true } else if type = 3 then { L with shared := true } else L

/-- The alignment of a note section is too large for 31 bits. -/
def alignText (ph : List UInt8) (s : State) : Bool × State :=
  if (F.phAlign ph).testBit 31 then printf S ⟨", invalid note alignment 0x%lx", [.num (F.phAlign ph)]⟩ s else (true, s)

/-- A program header of an executable, behind its first `switch`. -/
def execHeader (shNum : ℕ) (ph nbuf : List UInt8) (s : State) : Stepped :=
  if F.phType ph ≠ 2 ∧ F.phType ph ≠ 3 ∧ S.fsize < F.phOffset ph then some (.ok (ph, nbuf, s))
  else if F.phType ph ≠ 4 then some (.ok (ph, nbuf, s))
  else
    let r := alignText S F ph s
    if !r.1 then some (.error r.2)
    else if shNum ≠ 0 then some (.ok (ph, nbuf, r.2))
    else
      sectionNotes S F (F.phOffset ph) (F.phFilesz ph) (if (F.phAlign ph).testBit 31 then 4 else F.phAlign ph) ph nbuf r.2

/-- The loop of `dophn_exec`, with `linking_style` and `shared_libraries`. -/
def execLoop (size shNum : ℕ) : ℕ → ℤ → List UInt8 → List UInt8 → Linking → State → Option (Option Linking × State)
  | 0, _, _, _, L, s => some (some L, s)
  | num + 1, off, ph, nbuf, L, s =>
    match S.pread off F.phSizeof with
    | none => some (none, s)
    | some b =>
      let ph := readOver b ph
      match execHeader S F shNum ph nbuf s with
      | none => none
      | some (.error s) => some (none, s)
      | some (.ok (ph, nbuf, s)) => execLoop size shNum num (offT (off + size)) ph nbuf (L.see (F.phType ph)) s

/-- What is printed of them. -/
def Linking.text (L : Linking) : Printed :=
  ⟨", %s linked%s", [.str (if L.dynamic then "dynamically" else "statically").toUTF8.toList,
    .str (if L.shared then " (uses shared libs)" else "").toUTF8.toList]⟩

/-- `dophn_exec`. -/
def dophnExec (off : ℤ) (num size shNum : ℕ) (s : State) : Option (Bool × State) :=
  if size ≠ F.phSizeof then some (printf S ⟨", corrupted program header size", []⟩ s)
  else
    (execLoop S F size shNum num off (S.stale "ph") (S.stale "nbuf") ⟨false, false⟩ s).map fun r =>
      match r.1 with
      | none => (false, r.2)
      | some L => printf S L.text r.2

/-! ## Section headers -/

/-- `xsh_sizeof`, `xsh_name`, `xsh_type`, `xsh_offset` and `xsh_size`. -/
def Form.shSizeof : ℕ := if F.wide then 64 else 40

def Form.shName (sh : List UInt8) : ℕ := F.field sh (0, 4) (0, 2)

def Form.shType (sh : List UInt8) : ℕ := F.field sh (4, 4) (2, 2)

def Form.shOffset (sh : List UInt8) : ℕ := F.field sh (16, 4) (24, 8)

def Form.shSize (sh : List UInt8) : ℕ := F.field sh (20, 4) (32, 8)

/-- `xcap_sizeof`, `xcap_tag` and `xcap_val`. -/
def Form.capSizeof : ℕ := if F.wide then 16 else 8

def Form.capTag (cap : List UInt8) : ℕ := F.field cap (0, 4) (0, 8)

def Form.capVal (cap : List UInt8) : ℕ := F.field cap (4, 4) (8, 8)

/-- How many capabilities fit into a section. -/
def Form.capCount (sh : List UInt8) : ℕ := (offT (F.shSize sh)).toNat / F.capSizeof

/-- `cap_hw1` and `cap_sf1`. -/
structure Caps where
  hw1 : ℕ
  sf1 : ℕ
deriving DecidableEq

/-- The loop over this many capabilities, from an offset on. -/
def capLoop : ℕ → ℤ → Caps → State → Option Caps × State
  | 0, _, caps, s => (some caps, s)
  | k + 1, off, caps, s =>
    match S.pread off F.capSizeof with
    | none => (none, s)
    | some b =>
      if b.length ≠ F.capSizeof then (none, s)
      else
        let tag := F.capTag b
        let val := F.capVal b
        if tag = 0 then capLoop k (off + F.capSizeof) caps s
        else if tag = 1 then capLoop k (off + F.capSizeof) { caps with hw1 := caps.hw1 ||| val } s
        else if tag = 2 then capLoop k (off + F.capSizeof) { caps with sf1 := caps.sf1 ||| val } s
        else
          let r := printf S ⟨", with unknown capability 0x%llx = 0x%llx", [.num tag, .num val]⟩ s
          if r.1 then capLoop k (off + F.capSizeof) caps r.2 else (none, r.2)

/-- `stripped`, the section header and the capabilities. -/
structure Sections where
  sh : List UInt8
  stripped : Bool
  caps : Caps

/-- `stripped = 0`, if something is seen that says so. -/
def Sections.see (x : Sections) (kept : Bool) : Sections := { x with stripped := x.stripped && !kept }

/-- `name`, of 50 characters, is `.debug_info`. -/
def isDebugInfo (name : List UInt8) : Bool := (name.take 49 ++ [0]).takeWhile (· ≠ 0) = ".debug_info".toUTF8.toList

/-- The capabilities of the machines for which they are read. -/
def capMachine (mach : ℕ) : Bool := mach = 2 || mach = 43 || mach = 50 || mach = 3 || mach = 62

/-- A section of notes. -/
def noteSection (x : Sections) (s : State) : Option (Option Sections × State) :=
  match S.malloc (F.shSize x.sh) with
  | none => some (none, s)
  | some block =>
    match S.pread (offT (F.shOffset x.sh)) (F.shSize x.sh) with
    | none => some (none, s)
    | some b => (noteLoop S F (readOver b block) (F.shSize x.sh) 4 (F.shSize x.sh + 1) 0 s).map fun s => (some x, s)

/-- A section of capabilities; `lseek` fails where the offset is negative. -/
def capSection (x : Sections) (s : State) : Option Sections × State :=
  if offT (F.shOffset x.sh) < 0 then (none, s)
  else
    (capLoop S F (F.capCount x.sh) (offT (F.shOffset x.sh)) x.caps s).map (Option.map fun caps => { x with caps := caps }) id

/-- The second `switch` of `doshn`. -/
def sectionBody (mach : ℕ) (x : Sections) (s : State) : Option (Option Sections × State) :=
  if F.shType x.sh = 7 then noteSection S F x s
  else if F.shType x.sh = 0x6ffffff5 ∧ capMachine mach then some (capSection S F x s)
  else some (some x, s)

/-- A section, once its header is read. -/
def sectionHeader (mach : ℕ) (x : Sections) (s : State) : Option (Option Sections × State) :=
  if F.shType x.sh ≠ 2 ∧ S.fsize.toNat < F.shOffset x.sh then some (some x, s)
  else sectionBody S F mach (x.see (F.shType x.sh = 2)) s

/-- The loop of `doshn`: the name of a section is read by the header that was read before its own. -/
def sectionLoop (mach : ℕ) (nameOff : ℤ) (size : ℕ) :
    ℕ → ℤ → List UInt8 → Sections → State → Option (Option Sections × State)
  | 0, _, _, x, s => some (some x, s)
  | num + 1, off, name, x, s =>
    match S.pread (offT (nameOff + F.shName x.sh)) 50 with
    | none => some (none, s)
    | some b =>
      let name := readOver b name
      match S.pread off F.shSizeof with
      | none => some (none, s)
      | some b =>
        match sectionHeader S F mach { x.see (isDebugInfo name) with sh := readOver b x.sh } s with
        | none => none
        | some (none, s) => some (none, s)
        | some (some x, s) => sectionLoop mach nameOff size num (offT (off + size)) name x s

/-- `cap_desc_sparc`. -/
def capDescSparc : List (ℕ × String) :=
  [(0x0001, "MUL32"), (0x0002, "DIV32"), (0x0004, "FSMULD"), (0x0008, "V8PLUS"), (0x0010, "POPC"), (0x0020, "VIS"),
    (0x0040, "VIS2"), (0x0080, "ASI_BLK_INIT"), (0x0100, "FMAF"), (0x0400, "FJFMAU"), (0x0800, "IMA")]

/-- `cap_desc_386`. -/
def capDesc386 : List (ℕ × String) :=
  [(0x00000001, "FPU"), (0x00000002, "TSC"), (0x00000004, "CX8"), (0x00000008, "SEP"), (0x00000010, "AMD_SYSC"),
    (0x00000020, "CMOV"), (0x00000040, "MMX"), (0x00000080, "AMD_MMX"), (0x00000100, "AMD_3DNow"),
    (0x00000200, "AMD_3DNowx"), (0x00000400, "FXSR"), (0x00000800, "SSE"), (0x00001000, "SSE2"), (0x00002000, "PAUSE"),
    (0x00004000, "SSE3"), (0x00008000, "MON"), (0x00010000, "CX16"), (0x00020000, "AHF"), (0x00040000, "TSCP"),
    (0x00080000, "AMD_SSE4A"), (0x00100000, "POPCNT"), (0x00200000, "AMD_LZCNT"), (0x00400000, "SSSE3"),
    (0x00800000, "SSE4.1"), (0x01000000, "SSE4.2")]

/-- The table of a machine. -/
def capDesc (mach : ℕ) : Option (List (ℕ × String)) :=
  if mach = 2 ∨ mach = 18 ∨ mach = 43 then some capDescSparc
  else if mach = 3 ∨ mach = 50 ∨ mach = 62 then some capDesc386
  else none

/-- What is printed of the capabilities of the hardware; two of the formats have a conversion more than arguments, or a wrong
one. -/
def hwTexts (mach hw1 : ℕ) : List Printed :=
  if hw1 = 0 then []
  else
    ⟨", uses", []⟩ ::
      match capDesc mach with
      | none => [⟨" hardware capability %xllx", [.num hw1]⟩]
      | some table =>
        let known := table.filter fun d => hw1 &&& d.1 ≠ 0
        let rest := known.foldl (fun hw1 d => hw1 ^^^ (hw1 &&& d.1)) hw1
        known.map (fun d => ⟨" %s", [.str d.2.toUTF8.toList]⟩) ++
          if rest = 0 then [] else [⟨" unknown hardware capability %x%llx", [.num rest]⟩]

/-- What is printed of the capabilities of the software. -/
def sfTexts (sf1 : ℕ) : List Printed :=
  if sf1 = 0 then []
  else
    (if sf1.testBit 1 then
      [⟨if sf1.testBit 0 then ", uses frame pointer" else ", not known to use frame pointer", []⟩]
    else []) ++
      if sf1 / 4 = 0 then [] else [⟨", with unknown software capability %xllx", [.num (sf1 / 4 * 4)]⟩]

/-- `doshn`. -/
def doshn (off : ℤ) (num size mach strtab : ℕ) (s : State) : Option (Bool × State) :=
  if size ≠ F.shSizeof then some (printf S ⟨", corrupted section header size", []⟩ s)
  else
    match S.pread (offT (off + size * strtab)) F.shSizeof with
    | none => some (false, s)
    | some b =>
      let sh := readOver b (S.stale "sh")
      (sectionLoop S F mach (offT (F.shOffset sh)) size num off (S.stale "name") ⟨sh, true, ⟨0, 0⟩⟩ s).map fun r =>
        match r.1 with
        | none => (false, r.2)
        | some x =>
          printAll S (⟨", %sstripped", [.str (if x.stripped then "" else "not ").toUTF8.toList]⟩ ::
            (hwTexts mach x.caps.hw1 ++ sfTexts x.caps.sf1)) r.2

/-! ## A file -/

/-- `e_type` and so on, by their offsets in `Elf32_Ehdr` and `Elf64_Ehdr`; in `readelf.h` an `Elf32_Char` has 32 bits, so that
`e_ident` takes 64 bytes of an `Elf32_Ehdr`. -/
def Form.half (buf : List UInt8) (narrow wide : ℕ) : ℕ := F.getu 2 (raw buf (if F.wide then wide else narrow) 2)

/-- What is read of an `Elf32_Ehdr` or an `Elf64_Ehdr`. -/
structure Ehdr where
  type : ℕ
  machine : ℕ
  phoff : ℤ
  shoff : ℤ
  phentsize : ℕ
  phnum : ℕ
  shentsize : ℕ
  shnum : ℕ
  shstrndx : ℕ

def Form.ehdr (buf : List UInt8) : Ehdr where
  type := F.half buf 64 16
  machine := F.half buf 66 18
  phoff := offT (F.field buf (76, 4) (32, 8))
  shoff := offT (F.field buf (80, 4) (40, 8))
  phentsize := F.half buf 90 52
  phnum := F.half buf 92 54
  shentsize := F.half buf 94 56
  shnum := F.half buf 96 58
  shstrndx := F.half buf 98 60

/-- What `elfclass.h` returns: 1, or -1 where a call returns it. -/
def returned (r : Bool × State) : ℤ × State := (if r.1 then 1 else -1, r.2)

/-- The `switch` of `elfclass.h`. -/
def elfType (e : Ehdr) (s : State) : Option (ℤ × State) :=
  if e.type = 4 then
    (dophnCore S F e.phoff e.phnum e.phentsize { s with flags := { s.flags with isCore := true } }).map returned
  else if e.type = 2 ∨ e.type = 3 then
    (dophnExec S F e.phoff e.phnum e.phentsize e.shnum s).bind fun r =>
      if r.1 then (doshn S F e.shoff e.shnum e.shentsize e.machine e.shstrndx r.2).map returned else some (-1, r.2)
  else if e.type = 1 then (doshn S F e.shoff e.shnum e.shentsize e.machine e.shstrndx s).map returned
  else some (1, s)

/-- `swap`, by `EI_DATA` of `e_ident`. -/
def formOf (buf : List UInt8) (wide : Bool) : Form := ⟨wide, if wide then raw buf 5 1 ≠ 1 else raw buf 20 4 ≠ 1⟩

/-- `sizeof(elfhdr)`. -/
def ehdrSizeof (wide : Bool) : ℕ := if wide then 64 else 100

/-- `elfclass.h`, once for each class. -/
def elfClass (buf : List UInt8) (nbytes : ℕ) (wide : Bool) (s : State) : Option (ℤ × State) :=
  if nbytes ≤ ehdrSizeof wide then some (0, s)
  else elfType S (formOf buf wide) ((formOf buf wide).ehdr buf) s

/-- `buf` begins with the four bytes of an ELF file, or of one with `O` for `E`. -/
def isElf (buf : List UInt8) : Bool :=
  buf.take 4 = [0x7f, 0x45, 0x4c, 0x46] || buf.take 4 = [0x7f, 0x4f, 0x4c, 0x46]

/-- `file_tryelf`, where no MIME type is asked for and `fstat` succeeds. -/
def fileTryelf (buf : List UInt8) (nbytes : ℕ) (printed : List Printed) : Option (ℤ × State) :=
  let s : State := ⟨⟨false, false, false, false, false⟩, printed⟩
  if !isElf buf then some (0, s)
  else
    let clazz := raw buf 4 1
    if clazz = 1 then elfClass S buf nbytes false s
    else if clazz = 2 then elfClass S buf nbytes true s
    else
      let r := printf S ⟨", unknown class %d", [.num clazz]⟩ s
      some (if r.1 then 0 else -1, r.2)

end CodingExercises.File.Readelf
