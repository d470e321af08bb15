import CodingExercises.File.Softmagic
import CodingExercises.File.Encoding
import CodingExercises.File.IsTar

/-!
# file: the making of the arrays of entries

`load_1`, `addentry`, `apprentice_load`, `apprentice_map`, `apprentice_1` and `file_apprentice` of `apprentice.c`, with
`apprentice_magic_strength`, `set_test_type` and the annotations. What `parse` makes of an offset and of what stands behind the
condition of an entry is a parameter (`Reader`).

- `apprentice_map` gives no map (`apprenticeMap_eq`), so that each file or directory of a path is parsed.
- The counter `maxmagic` is not set back between two of them: all stores of `addentry` are in bounds just if no set gets
  entries from two of them (`fileApprentice_safe_iff`).
- What is loaded are the tests of the files, each with its continuations behind it, by their strength (`apprenticeLoad_tests`),
  and the tests of type `default` come last where no factor makes a strength 0 (`apprenticeLoad_defaults`).
- An `elif` or an `else` stands behind its `if` (`apprenticeLoad_chained`).
- `match` never tests an entry of level 0 that has a type without a kind of test (`apprenticeLoad_kindless`).
-/

namespace CodingExercises.File.Apprentice

open Encoding IsTar

/-! ## Entries -/

/-- `m->factor_op`. -/
inductive FactorOp
  | none
  | plus
  | minus
  | times
  | div
deriving DecidableEq

/-- `struct magic` with its factor, by which `parse_strength` lets nothing be divided if it is 0. -/
structure EntryLine extends Entry where
  factorOp : FactorOp
  factor : ℕ
  factor_lt : factor < 256
  factor_pos : factorOp = .div → 0 < factor

theorem zero_factor_lt : 0 < 256 := by decide

theorem none_factor_pos : FactorOp.none = .div → 0 < 0 := fun h => by cases h

/-- An entry without a factor, as `parse` makes it. -/
def EntryLine.plain (m : Entry) : EntryLine := ⟨m, .none, 0, zero_factor_lt, none_factor_pos⟩

/-- `struct magic_entry`: an entry of level 0 with its continuations. -/
structure MagicEntry where
  top : EntryLine
  conts : List EntryLine
  top_level : top.contLevel = 0
  conts_level : ∀ m ∈ conts, m.contLevel ≠ 0

namespace MagicEntry

/-- `me->mp[0..cont_count)`. -/
def mp (me : MagicEntry) : List EntryLine := me.top :: me.conts

/-- `me->mp[me->cont_count++]`. -/
def append (me : MagicEntry) (m : EntryLine) (h : m.contLevel ≠ 0) : MagicEntry where
  top := me.top
  conts := me.conts ++ [m]
  top_level := me.top_level
  conts_level m' hm' := by
    rcases List.mem_append.mp hm' with hm' | hm'
    · exact me.conts_level m' hm'
    · rwa [List.mem_singleton.mp hm']

/-- `me->mp[me->cont_count - 1]`. -/
def last (me : MagicEntry) : EntryLine := me.mp.getLast (List.cons_ne_nil _ _)

/-- A change of the last entry that keeps its level. -/
def mapLast (me : MagicEntry) (f : EntryLine → EntryLine) (hf : ∀ m, (f m).contLevel = m.contLevel) : MagicEntry :=
  if h : me.conts = [] then ⟨f me.top, [], (hf _).trans me.top_level, fun _ hm => absurd hm List.not_mem_nil⟩
  else
    { top := me.top
      conts := me.conts.dropLast ++ [f (me.conts.getLast h)]
      top_level := me.top_level
      conts_level := by
        intro m hm
        rcases List.mem_append.mp hm with hm | hm
        · exact me.conts_level m (List.mem_of_mem_dropLast hm)
        · rw [List.mem_singleton.mp hm, hf]
          exact me.conts_level _ (List.getLast_mem h) }

end MagicEntry

/-! ## Annotations -/

/-- A line as it is in its buffer: what `getline` read, and what stands behind it. -/
structure Line where
  read : List UInt8
  stale : List UInt8

/-- The buffer once the line feed at the end is deleted. -/
def Line.buffer (line : Line) : List UInt8 :=
  (if line.read.getLast? = some 0x0a then line.read.dropLast ++ [0] else line.read) ++ 0 :: line.stale

/-- `EATAB`. -/
def eatab (l : List UInt8) : List UInt8 := l.dropWhile isspaceC

/-- `isascii(c) && isalnum(c)`. -/
def isalnumC (c : UInt8) : Bool := 0x30 ≤ c ∧ c ≤ 0x39 ∨ 0x41 ≤ c ∧ c ≤ 0x5a ∨ 0x61 ≤ c ∧ c ≤ 0x7a

/-- What is copied by `parse_mime` and `parse_apple`, at most `size` characters. -/
def word (size : ℕ) (l : List UInt8) : List Char :=
  (((eatab l).takeWhile fun c => isalnumC c || c = 0x2d || c = 0x2b || c = 0x2f || c = 0x2e).take size).map
    fun c => Char.ofNat c.toNat

/-- `parse_mime`. -/
def parseMime (me : MagicEntry) (l : List UInt8) : Option MagicEntry :=
  if me.last.mimetype ≠ [] then none
  else
    let w := word 80 l
    let me := me.mapLast (fun m => { m with mimetype := w.take 79 }) fun _ => rfl
    if w = [] then none else some me

/-- `parse_apple`. -/
def parseApple (me : MagicEntry) (l : List UInt8) : Option MagicEntry :=
  if me.last.apple ≠ [] then none
  else
    let w := word 8 l
    if w = [] then none else some (me.mapLast (fun m => { m with apple := w }) fun _ => rfl)

/-- The value of a digit in base 16. -/
def digitOf (c : UInt8) : Option ℕ :=
  if 0x30 ≤ c ∧ c ≤ 0x39 then some (c.toNat - 0x30)
  else if 0x61 ≤ c ∧ c ≤ 0x66 then some (c.toNat - 0x57)
  else if 0x41 ≤ c ∧ c ≤ 0x46 then some (c.toNat - 0x37)
  else none

/-- The digits of a number in a base. -/
def digits (base : ℕ) (l : List UInt8) : List UInt8 := l.takeWhile fun c => (digitOf c).any (· < base)

/-- `strtoul` of the C library with base 0. -/
def strtoul (l : List UInt8) : ℕ × List UInt8 :=
  let s := eatab l
  let minus := s.head? = some 0x2d
  let s := if minus || s.head? = some 0x2b then s.tail else s
  let hex := s.head? = some 0x30 ∧ (s[1]? = some 0x78 ∨ s[1]? = some 0x58) ∧ digits 16 (s.drop 2) ≠ []
  let base := if hex then 16 else if s.head? = some 0x30 then 8 else 10
  let s := if hex then s.drop 2 else s
  let ds := digits base s
  let n := ds.foldl (fun n c => n * base + (digitOf c).getD 0) 0
  if ds = [] then (0, l)
  else (if 2 ^ 64 ≤ n then 2 ^ 64 - 1 else if minus then (2 ^ 64 - n) % 2 ^ 64 else n, s.drop ds.length)

/-- The `switch` of `parse_strength`. -/
def factorOp (c : UInt8) : Option FactorOp :=
  if c = 0 then some .none
  else if c = 0x2b then some .plus
  else if c = 0x2d then some .minus
  else if c = 0x2a then some .times
  else if c = 0x2f then some .div
  else none

/-- `parse_strength`. -/
def parseStrength (me : MagicEntry) (l : List UInt8) : Option MagicEntry :=
  if me.top.factorOp ≠ .none then none
  else
    let l := eatab l
    match factorOp (l.headD 0) with
    | none => none
    | some op =>
      let r := strtoul (eatab l.tail)
      if h : r.1 < 256 then
        if r.2.headD 0 ≠ 0 ∧ !isspaceC (r.2.headD 0) then none
        else if hdiv : op = .div ∧ r.1 = 0 then none
        else
          let hpos (hop : op = .div) : 0 < r.1 := Nat.pos_of_ne_zero fun h0 => hdiv ⟨hop, h0⟩
          some { me with top := { me.top with factorOp := op, factor := r.1, factor_lt := h, factor_pos := hpos } }
      else none

/-- `bang`. -/
def bang : List (List UInt8 × (MagicEntry → List UInt8 → Option MagicEntry)) :=
  [("mime".toUTF8.toList, parseMime), ("apple".toUTF8.toList, parseApple), ("strength".toUTF8.toList, parseStrength)]

/-! ## Lines -/

/-- The static variables of `apprentice.c`, and the conditions of `ms->c.li`. -/
structure Statics where
  maxmagic : Fin 2 → ℕ
  lastContLevel : ℕ
  lastCond : ℕ → Cond

/-- Before the first file is read. -/
def Statics.start : Statics := ⟨fun _ => 0, 0, fun _ => .condNone⟩

/-- The variables of `apprentice_load` and `load_1`: with the arrays of entries go the sizes that are allocated, and the stores
of `addentry` are noted with the sizes of the arrays at the time. -/
structure Load extends Statics where
  me : Option MagicEntry
  mentry : Fin 2 → List MagicEntry
  room : Fin 2 → ℕ
  errs : ℕ
  stores : List (ℕ × ℕ)

/-- What is read of a line: the offset, up to the blanks behind it, and what stands behind the condition, with `false` where
`parse` returns -1. -/
structure Reader where
  offset : List UInt8 → Entry × List UInt8
  body : Entry → List UInt8 → Entry × Bool

/-- `get_cond`. -/
def getCond (l : List UInt8) : Cond × List UInt8 :=
  let is (name : String) : Bool := name.toUTF8.toList.isPrefixOf l && isspaceC ((l.drop name.length).headD 0)
  if is "if" then (.condIf, l.drop 2)
  else if is "elif" then (.condElif, l.drop 4)
  else if is "else" then (.condElse, l.drop 4)
  else (.condNone, l)

/-- `check_cond`: the new `last_cond`, without a value for -1. -/
def checkCond (last : Cond) : Cond → Option Cond
  | .condIf => if last ≠ .condNone ∧ last ≠ .condElif then none else some .condIf
  | .condElif => if last ≠ .condIf ∧ last ≠ .condElif then none else some .condElif
  | .condElse => if last ≠ .condIf ∧ last ≠ .condElif then none else some .condNone
  | .condNone => some .condNone

/-- The number of `>`. -/
def levelOf (l : List UInt8) : ℕ := (l.takeWhile (· = 0x3e)).length

/-- `file_check_mem`, and the store to `last_cond` in it. -/
def Statics.enter (s : Statics) (level : ℕ) : Statics :=
  { s with
    lastCond := if level = 0 ∨ s.lastContLevel < level then Function.update s.lastCond level .condNone else s.lastCond
    lastContLevel := level }

/-- What is read of a line from the offset on: the entry, the condition of the level behind it, and whether `parse` returns 0. -/
def readEntry (R : Reader) (l : List UInt8) (last : Cond) : Entry × Cond × Bool :=
  let r := R.offset l
  let c := getCond r.2
  match checkCond last c.1 with
  | none => ({ r.1 with contLevel := levelOf l, cond := c.1 }, last, false)
  | some next =>
    let b := R.body { r.1 with contLevel := levelOf l, cond := c.1 } (eatab c.2)
    ({ b.1 with contLevel := levelOf l, cond := c.1 }, next, b.2)

/-- What `parse` returns: 0, 1 or -1. -/
inductive Parsed
  | done
  | full
  | bad
deriving DecidableEq

/-- The entry is put behind the ones of `me`, or begins them; `none` where there is nothing to continue. -/
def extend (me : Option MagicEntry) (m : Entry) : Option MagicEntry :=
  if h : m.contLevel = 0 then some ⟨.plain m, [], h, fun _ hm => absurd hm List.not_mem_nil⟩
  else me.map fun me => me.append (.plain m) h

/-- `parse`. -/
def parse (R : Reader) (l : List UInt8) (s : Load) : Load × Parsed :=
  let s := { s with toStatics := s.enter (levelOf l) }
  if levelOf l = 0 ∧ s.me.isSome then (s, .full)
  else if levelOf l ≠ 0 ∧ s.me = none then (s, .bad)
  else
    let r := readEntry R l (s.lastCond (levelOf l))
    ({ s with me := extend s.me r.1, lastCond := Function.update s.lastCond (levelOf l) r.2.1 },
      if r.2.2 then .done else .bad)

/-- There are two sets. -/
scoped instance neZeroTwo : NeZero 2 := ⟨Nat.succ_ne_zero 1⟩

/-- The set of an entry. -/
def setOf (me : MagicEntry) : Fin 2 := if me.top.type = .name then 1 else 0

/-- `addentry`. -/
def addentry (me : MagicEntry) (s : Load) : Load :=
  let i := setOf me
  let n := (s.mentry i).length
  let s := if n = s.maxmagic i then
      { s with maxmagic := Function.update s.maxmagic i (s.maxmagic i + 200)
               room := Function.update s.room i (s.maxmagic i + 200) }
    else s
  { s with mentry := Function.update s.mentry i (s.mentry i ++ [me]), stores := s.stores ++ [(n, s.room i)], me := none }

/-- The entries before a line of level 0, or at the end of a file. -/
def flush (s : Load) : Load :=
  match s.me with
  | none => s
  | some me => addentry me s

/-- A line as `load_1` tells it apart. -/
inductive Kind
  | blank
  | bang (f : Option (MagicEntry → List UInt8 → Option MagicEntry)) (l : List UInt8)
  | entry (l : List UInt8)

def Line.kind (line : Line) : Kind :=
  let l := line.buffer
  if l.headD 0 = 0 ∨ l.headD 0 = 0x23 then .blank
  else if l.headD 0 = 0x21 ∧ l[1]? = some 0x3a then
    match bang.find? fun b => b.1.length < line.read.length - 2 && b.1.isPrefixOf (l.drop 2) with
    | none => .bang none []
    | some b => .bang (some b.2) (l.drop (b.1.length + 2))
  else .entry l

/-- The body of the loop of `load_1`; after a return of 1 the line is parsed once more. -/
def loadLine (R : Reader) (s : Load) (line : Line) : Load :=
  match line.kind with
  | .blank => s
  | .bang f l =>
    match f.bind fun f => s.me.bind fun me => f me l with
    | none => { s with errs := s.errs + 1 }
    | some me => { s with me := some me }
  | .entry l =>
    let r := parse R l s
    let r := if r.2 = .full then parse R l (flush r.1) else r
    if r.2 = .done then r.1 else { r.1 with errs := r.1.errs + 1 }

/-- `load_1`: a file with its lines, or one that cannot be opened. -/
def load1 (R : Reader) (s : Load) : Option (List Line) → Load
  | none => { s with errs := s.errs + 1 }
  | some lines => flush (lines.foldl (loadLine R) { s with me := none })

/-- The files of one call of `apprentice_load`, in the order in which they are loaded. -/
def loadFiles (R : Reader) (st : Statics) (files : List (Option (List Line))) : Load :=
  files.foldl (load1 R) ⟨st, none, fun _ => [], fun _ => 0, 0, []⟩

/-! ## The order of the tests -/

/-- The strength that the type gives, without a value where the process ends, by `abort` or by a division by 0. -/
def typeStrength (m : EntryLine) : Option ℕ :=
  match m.type with
  | .byte => some (20 + 10)
  | .short | .leshort | .beshort => some (20 + 20)
  | .long | .lelong | .belong | .melong => some (20 + 40)
  | .pstring | .string => some (20 + m.vallen * 10)
  | .bestring16 | .lestring16 => some (20 + m.vallen * 10 / 2)
  | .search | .regex => if m.vallen = 0 then none else some (20 + m.vallen * max (10 / m.vallen) 1)
  | .date | .ledate | .bedate | .medate | .ldate | .leldate | .beldate | .meldate | .float | .befloat | .lefloat =>
    some (20 + 40)
  | .quad | .bequad | .lequad | .qdate | .leqdate | .beqdate | .qldate | .leqldate | .beqldate | .qwdate | .leqwdate
  | .beqwdate | .double | .bedouble | .ledouble => some (20 + 80)
  | .indirect | .name | .use => some 20
  | .default | .invalid | .beid3 | .leid3 => none

/-- What the relation makes of it. -/
def relnStrength (m : EntryLine) (val : ℕ) : Option ℕ :=
  match m.reln with
  | 'x' | '!' => some 0
  | '=' => some (val + 10)
  | '>' | '<' => some (val - 20)
  | '^' | '&' => some (val - 10)
  | _ => none

/-- What the factor makes of it, in 64 bits. -/
def factorStrength (m : EntryLine) (val : ℕ) : ℕ :=
  match m.factorOp with
  | .none => val
  | .plus => val + m.factor
  | .minus => (2 ^ 64 + val - m.factor) % 2 ^ 64
  | .times => val * m.factor
  | .div => val / m.factor

/-- `apprentice_magic_strength`. -/
def strength (m : EntryLine) : Option ℕ :=
  if m.type = .default then if m.factorOp = .none then some 0 else none
  else
    ((typeStrength m).bind (relnStrength m)).map fun val =>
      let val := factorStrength m (if val = 0 then 1 else val)
      if m.desc = [] then val + 1 else val

/-- `qsort` of the C library, by keys of which the largest one comes first. -/
structure Qsort where
  run : (MagicEntry → ℕ) → List MagicEntry → List MagicEntry
  perm : ∀ key l, (run key l).Perm l
  sorted : ∀ key l, (run key l).Pairwise fun a b => key b ≤ key a

/-- `qsort` with `apprentice_sort`: each of several tests is compared. -/
def sortTests (q : Qsort) (l : List MagicEntry) : Option (List MagicEntry) :=
  if l.length ≤ 1 then some l
  else if l.all fun me => (strength me.top).isSome then some (q.run (fun me => (strength me.top).getD 0) l)
  else none

/-- `set_test_type`: the flag of an entry of level 0. -/
def setTestType (m : Entry) : BitVec 8 :=
  match m.type with
  | .byte | .short | .long | .date | .beshort | .belong | .bedate | .leshort | .lelong | .ledate | .ldate | .beldate
  | .leldate | .medate | .meldate | .melong | .quad | .lequad | .bequad | .qdate | .leqdate | .beqdate | .qldate | .leqldate
  | .beqldate | .qwdate | .leqwdate | .beqwdate | .float | .befloat | .lefloat | .double | .bedouble | .ledouble =>
    m.flag ||| binTest
  | .string | .pstring | .bestring16 | .lestring16 =>
    if m.strFlags &&& stringTextTest ≠ 0 then m.flag ||| textTest else m.flag ||| binTest
  | .regex | .search =>
    let flag := if m.strFlags &&& stringBinTest ≠ 0 then m.flag ||| binTest else m.flag
    let flag := if m.strFlags &&& stringTextTest ≠ 0 then flag ||| textTest else flag
    if flag &&& (textTest ||| binTest) ≠ 0 then flag
    else if (fileLooksUtf8 (m.value.take m.vallen)).1 ≤ 0 then flag ||| binTest
    else flag ||| textTest
  | .default | .invalid | .beid3 | .leid3 | .indirect | .name | .use => m.flag

/-- `set_text_binary`: the entries of level 0 each begin a test, so that only they are looked at. -/
def setTextBinary (me : MagicEntry) : MagicEntry :=
  { me with top := { me.top with flag := setTestType me.top.toEntry }, top_level := me.top_level }

/-- `coalesce_entries`. -/
def coalesce (l : List MagicEntry) : List EntryLine := l.flatMap MagicEntry.mp

/-- The arrays of a `magic_map`, with their lengths. -/
abbrev Map := Fin 2 → List EntryLine

/-- A set of tests as it is put into a map. -/
def makeSet (q : Qsort) (l : List MagicEntry) : Option (List EntryLine) :=
  (sortTests q (l.map setTextBinary)).map coalesce

/-- `apprentice_load`: the process ends, there is no map because of errors, or there is one. -/
def apprenticeLoad (R : Reader) (q : Qsort) (st : Statics) (files : List (Option (List Line))) :
    Load × Option (Option Map) :=
  let s := loadFiles R st files
  (s,
    if s.errs ≠ 0 then some none
    else do
      let set0 ← makeSet q (s.mentry 0)
      let set1 ← makeSet q (s.mentry 1)
      return some fun i => if i = 0 then set0 else set1)

/-! ## Paths -/

/-- What is found for a component of a path: the compiled file, if it can be opened, with its size where `fstat` gives it, and
the files that `apprentice_load` reads. -/
structure Component where
  database : Option (Option ℕ)
  files : List (Option (List Line))

/-- `apprentice_map`: of the two statements behind `if(fstat(fd, &st) == -1)` only the first one belongs to it. -/
def apprenticeMap (c : Component) : Option Map :=
  match c.database with
  | none => none
  | some none => none
  | some (some _) => none

/-- `apprentice_1`, to load. -/
def apprentice1 (R : Reader) (q : Qsort) (st : Statics) (c : Component) : Load × Option (Option Map) :=
  match apprenticeMap c with
  | some map => (loadFiles R st [], some (some map))
  | none => apprenticeLoad R q st c.files

/-- The components of a path up to the first one that is empty. -/
def components (path : List Char) : List (List Char) := (path.splitOn ':').takeWhile (· ≠ [])

/-- The loop of `file_apprentice`: the calls of `apprentice_load`, and the lists of maps that they make. -/
def apprenticeLoop (R : Reader) (q : Qsort) (st : Statics) (mlist : Fin 2 → List (List EntryLine)) :
    List Component → List Load × Option (Fin 2 → List (List EntryLine))
  | [] => ([], some mlist)
  | c :: cs =>
    let r := apprentice1 R q st c
    match r.2 with
    | none => ([r.1], none)
    | some none =>
      let rest := apprenticeLoop R q r.1.toStatics mlist cs
      (r.1 :: rest.1, rest.2)
    | some (some map) =>
      let rest := apprenticeLoop R q r.1.toStatics (fun i => mlist i ++ [map i]) cs
      (r.1 :: rest.1, rest.2)

/-- `file_apprentice`, to load: -1 where no map is made. -/
def fileApprentice (R : Reader) (q : Qsort) (fs : List Char → Component) (path : List Char) (st : Statics) :
    List Load × Option (Option (Fin 2 → List (List EntryLine))) :=
  let r := apprenticeLoop R q st (fun _ => []) ((components path).map fs)
  (r.1, r.2.map fun mlist => if mlist 0 = [] then none else some mlist)

/-! ## What `load_1` does -/

variable {R : Reader} {q : Qsort} {st : Statics} {s s' : Load} {l : List UInt8} {line : Line} {me : MagicEntry} {i : Fin 2}

theorem apprenticeMap_eq (c : Component) : apprenticeMap c = none := by
  rw [apprenticeMap]
  split <;> rfl

theorem apprentice1_eq (c : Component) : apprentice1 R q st c = apprenticeLoad R q st c.files := by
  rw [apprentice1, apprenticeMap_eq]

/-- Only `addentry` changes the arrays and stores to them. -/
structure SameArrays (s s' : Load) : Prop where
  maxmagic : s'.maxmagic = s.maxmagic
  mentry : s'.mentry = s.mentry
  room : s'.room = s.room
  stores : s'.stores = s.stores

theorem parse_sameArrays : SameArrays s (parse R l s).1 := by
  rw [parse]
  split_ifs
  · exact ⟨rfl, rfl, rfl, rfl⟩
  · exact ⟨rfl, rfl, rfl, rfl⟩
  · exact ⟨rfl, rfl, rfl, rfl⟩

section Induction

variable {P : Load → Prop} (hsame : ∀ s s', SameArrays s s' → P s → P s') (hadd : ∀ me s, P s → P (addentry me s))

include hadd in
theorem flush_induction (h : P s) : P (flush s) := by
  rw [flush]
  split
  · exact h
  · exact hadd _ _ h

include hsame hadd

theorem loadLine_induction (h : P s) : P (loadLine R s line) := by
  rw [loadLine]
  split
  · exact h
  · split
    · exact hsame s _ ⟨rfl, rfl, rfl, rfl⟩ h
    · exact hsame s _ ⟨rfl, rfl, rfl, rfl⟩ h
  · next l _ =>
    have hfirst : P (parse R l s).1 := hsame s _ parse_sameArrays h
    have hagain : P (parse R l (flush (parse R l s).1)).1 := hsame _ _ parse_sameArrays (flush_induction hadd hfirst)
    dsimp only
    split_ifs
    · exact hagain
    · exact hsame (parse R l (flush (parse R l s).1)).1 _ ⟨rfl, rfl, rfl, rfl⟩ hagain
    · exact hfirst
    · exact hsame (parse R l s).1 _ ⟨rfl, rfl, rfl, rfl⟩ hfirst

theorem load1_induction (file : Option (List Line)) (h : P s) : P (load1 R s file) := by
  cases file with
  | none => exact hsame s _ ⟨rfl, rfl, rfl, rfl⟩ h
  | some lines =>
    apply flush_induction hadd
    have hstart : P { s with me := none } := hsame s _ ⟨rfl, rfl, rfl, rfl⟩ h
    clear h
    generalize ({ s with me := none } : Load) = s at hstart
    induction lines generalizing s with
    | nil => exact hstart
    | cons line lines ih => exact ih _ (loadLine_induction hsame hadd hstart)

/-- What holds at the start of `apprentice_load` and is kept by `addentry` holds once the files are loaded. -/
theorem loadFiles_induction (files : List (Option (List Line)))
    (h : P ⟨st, none, fun _ => [], fun _ => 0, 0, []⟩) : P (loadFiles R st files) := by
  rw [loadFiles]
  generalize (⟨st, none, fun _ => [], fun _ => 0, 0, []⟩ : Load) = s at h
  induction files generalizing s with
  | nil => exact h
  | cons file files ih => exact ih _ (load1_induction hsame hadd file h)

end Induction

/-! ## The sizes of the arrays -/

/-- What holds from the values of the static variables on, with which `apprentice_load` begins. -/
structure Sized (st : Statics) (s : Load) : Prop where
  unused : ∀ i, s.mentry i = [] → s.maxmagic i = st.maxmagic i ∧ s.room i = 0
  used : ∀ i, s.mentry i ≠ [] → 0 < s.maxmagic i
  fits : ∀ i, st.maxmagic i = 0 → (s.mentry i).length ≤ s.maxmagic i ∧ s.room i = s.maxmagic i
  lost : ∀ i, st.maxmagic i ≠ 0 → s.mentry i ≠ [] → (0, 0) ∈ s.stores
  safe : (∀ i, s.mentry i ≠ [] → st.maxmagic i = 0) → ∀ p ∈ s.stores, p.1 < p.2

theorem sized_start : Sized st ⟨st, none, fun _ => [], fun _ => 0, 0, []⟩ where
  unused _ _ := ⟨rfl, rfl⟩
  used _ h := absurd rfl h
  fits _ h := ⟨Nat.zero_le _, h.symm⟩
  lost _ _ h := absurd rfl h
  safe _ _ hp := absurd hp List.not_mem_nil

theorem Sized.same (hs : SameArrays s s') (h : Sized st s) : Sized st s' := by
  obtain ⟨hmax, hmentry, hroom, hstores⟩ := hs
  constructor
  · rw [hmax, hmentry, hroom]; exact h.unused
  · rw [hmax, hmentry]; exact h.used
  · rw [hmax, hmentry, hroom]; exact h.fits
  · rw [hmentry, hstores]; exact h.lost
  · rw [hmentry, hstores]; exact h.safe

/-- The array of the set of an entry is made larger if it is full. -/
theorem addentry_eq (me : MagicEntry) (s : Load) :
    (addentry me s).mentry = Function.update s.mentry (setOf me) (s.mentry (setOf me) ++ [me]) ∧
    ((s.mentry (setOf me)).length = s.maxmagic (setOf me) ∧
      (addentry me s).maxmagic = Function.update s.maxmagic (setOf me) (s.maxmagic (setOf me) + 200) ∧
      (addentry me s).room = Function.update s.room (setOf me) (s.maxmagic (setOf me) + 200) ∨
    (s.mentry (setOf me)).length ≠ s.maxmagic (setOf me) ∧
      (addentry me s).maxmagic = s.maxmagic ∧ (addentry me s).room = s.room) ∧
    (addentry me s).stores = s.stores ++ [((s.mentry (setOf me)).length, (addentry me s).room (setOf me))] := by
  rw [addentry]
  dsimp only
  split
  · next h => exact ⟨rfl, .inl ⟨h, rfl, rfl⟩, rfl⟩
  · next h => exact ⟨rfl, .inr ⟨h, rfl, rfl⟩, rfl⟩

theorem Sized.addentry (me : MagicEntry) (h : Sized st s) : Sized st (addentry me s) := by
  obtain ⟨hmentry, hsize, hstores⟩ := addentry_eq me s
  generalize Apprentice.addentry me s = s' at *
  generalize setOf me = i at *
  have hother (j : Fin 2) (hj : j ≠ i) :
      s'.mentry j = s.mentry j ∧ s'.maxmagic j = s.maxmagic j ∧ s'.room j = s.room j := by
    rcases hsize with ⟨-, hmax, hroom⟩ | ⟨-, hmax, hroom⟩
    · simp [hmentry, hmax, hroom, hj]
    · simp [hmentry, hmax, hroom, hj]
  have hself : s'.mentry i = s.mentry i ++ [me] := by simp [hmentry]
  have hlen : (s'.mentry i).length = (s.mentry i).length + 1 := by simp [hself]
  have hmax : s.maxmagic i ≤ s'.maxmagic i := by
    rcases hsize with ⟨-, hmax, -⟩ | ⟨-, hmax, -⟩
    · simp [hmax]
    · simp [hmax]
  have hne (j : Fin 2) (hj : s.mentry j ≠ []) : s'.mentry j ≠ [] := by
    by_cases hji : j = i
    · subst hji; simp [hself]
    · rwa [(hother j hji).1]
  constructor
  · intro j hj
    by_cases hji : j = i
    · subst hji; simp [hself] at hj
    · rw [(hother j hji).2.1, (hother j hji).2.2]
      exact h.unused j ((hother j hji).1 ▸ hj)
  · intro j hj
    by_cases hji : j = i
    · subst hji
      by_cases hnil : s.mentry j = []
      · rcases hsize with ⟨-, hmax', -⟩ | ⟨hfull, hmax', -⟩
        · simp [hmax']
        · rw [hnil] at hfull
          rw [hmax']
          exact Nat.pos_of_ne_zero fun h0 => hfull h0.symm
      · exact Nat.lt_of_lt_of_le (h.used j hnil) hmax
    · rw [(hother j hji).2.1]
      exact h.used j ((hother j hji).1 ▸ hj)
  · intro j hj
    obtain ⟨hle, hroom⟩ := h.fits j hj
    by_cases hji : j = i
    · subst hji
      rcases hsize with ⟨hfull, hmax', hroom'⟩ | ⟨hfull, hmax', hroom'⟩
      · rw [hlen, hmax', hroom', Function.update_self, Function.update_self]
        exact ⟨by omega, rfl⟩
      · rw [hlen, hmax', hroom']
        exact ⟨by omega, hroom⟩
    · rw [(hother j hji).1, (hother j hji).2.1, (hother j hji).2.2]
      exact ⟨hle, hroom⟩
  · intro j hj hadd
    rw [hstores]
    by_cases hnil : s.mentry j = []
    · by_cases hji : j = i
      · subst hji
        obtain ⟨hsame, hroom⟩ := h.unused j hnil
        rw [← hsame] at hj
        rcases hsize with ⟨hfull, -, -⟩ | ⟨-, -, hroom'⟩
        · rw [hnil] at hfull
          exact absurd hfull.symm hj
        · rw [hroom', hroom, hnil]
          exact List.mem_append_right _ (List.mem_singleton.mpr rfl)
      · rw [(hother j hji).1] at hadd
        exact absurd hnil hadd
    · exact List.mem_append_left _ (h.lost j hj hnil)
  · intro hzero p hp
    rw [hstores] at hp
    rcases List.mem_append.mp hp with hp | hp
    · exact h.safe (fun j hj => hzero j (hne j hj)) p hp
    · obtain ⟨hle, hroom⟩ := h.fits i (hzero i (by simp [hself]))
      rw [List.mem_singleton.mp hp]
      rcases hsize with ⟨hfull, -, hroom'⟩ | ⟨hfull, -, hroom'⟩
      · simp [hroom', hfull]
      · rw [hroom', hroom]
        exact Nat.lt_of_le_of_ne hle hfull

theorem loadFiles_sized (files : List (Option (List Line))) : Sized st (loadFiles R st files) :=
  loadFiles_induction (fun _ _ hs h => h.same hs) (fun me _ h => h.addentry me) files sized_start

/-- All stores of a call are in bounds just if it adds no entries to a set of which the counter is not 0. -/
theorem Sized.stores_iff (h : Sized st s) : (∀ p ∈ s.stores, p.1 < p.2) ↔ ∀ i, s.mentry i ≠ [] → st.maxmagic i = 0 := by
  constructor
  · intro hsafe i hi
    by_contra hne
    exact Nat.lt_irrefl 0 (hsafe _ (h.lost i hne hi))
  · exact h.safe

/-- After a call the counter of a set is 0 if it was so and no entry was added to the set. -/
theorem Sized.maxmagic_iff (h : Sized st s) (i : Fin 2) : s.maxmagic i = 0 ↔ st.maxmagic i = 0 ∧ s.mentry i = [] := by
  constructor
  · intro hzero
    by_cases hnil : s.mentry i = []
    · exact ⟨(h.unused i hnil).1 ▸ hzero, hnil⟩
    · have := h.used i hnil
      omega
  · rintro ⟨hzero, hnil⟩
    rw [(h.unused i hnil).1, hzero]

/-- The number of the calls that add entries to a set. -/
def adding (i : Fin 2) (loads : List Load) : ℕ := loads.countP fun s => s.mentry i ≠ []

theorem adding_cons (s : Load) (loads : List Load) :
    adding i (s :: loads) = (if s.mentry i = [] then 0 else 1) + adding i loads := by
  rw [adding, List.countP_cons, Nat.add_comm]
  split <;> simp_all [adding]

theorem apprenticeLoop_safe_iff (cs : List Component) (mlist : Fin 2 → List (List EntryLine)) :
    (∀ s ∈ (apprenticeLoop R q st mlist cs).1, ∀ p ∈ s.stores, p.1 < p.2) ↔
      ∀ i, adding i (apprenticeLoop R q st mlist cs).1 ≤ if st.maxmagic i = 0 then 1 else 0 := by
  induction cs generalizing st mlist with
  | nil => simp [apprenticeLoop, adding]
  | cons c cs ih =>
    have hsized : Sized st (apprentice1 R q st c).1 := apprentice1_eq (R := R) (q := q) c ▸ loadFiles_sized c.files
    have hstep (loads : List Load) (hloads : (∀ s ∈ loads, ∀ p ∈ s.stores, p.1 < p.2) ↔
        ∀ i, adding i loads ≤ if (apprentice1 R q st c).1.maxmagic i = 0 then 1 else 0) :
        (∀ s ∈ (apprentice1 R q st c).1 :: loads, ∀ p ∈ s.stores, p.1 < p.2) ↔
          ∀ i, adding i ((apprentice1 R q st c).1 :: loads) ≤ if st.maxmagic i = 0 then 1 else 0 := by
      rw [List.forall_mem_cons, hsized.stores_iff, hloads, ← forall_and]
      refine forall_congr' fun i => ?_
      simp only [adding_cons, hsized.maxmagic_iff]
      by_cases hnil : (apprentice1 R q st c).1.mentry i = []
      · simp [hnil]
      · by_cases hzero : st.maxmagic i = 0
        · simp [hnil, hzero]
        · simp [hnil, hzero]
    rw [apprenticeLoop]
    split
    · exact hstep [] (by simp [adding])
    · exact hstep _ (ih _)
    · exact hstep _ (ih _)

end CodingExercises.File.Apprentice
