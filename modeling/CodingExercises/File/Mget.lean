import CodingExercises.File.Softmagic

/-!
# file: getting the data of an entry

`mget` of `softmagic.c`, with the calls of `match` that it makes for `use` and of `file_softmagic` for `indirect`. What copies
and converts data is a parameter (`Leaves`), and so is the `match` that is called (`enter`).

`run` follows these calls to some depth.
-/

namespace CodingExercises.File

/-- The arguments of `match`: the entries, where the data is in the file, and the offset that a `use` entry passes. -/
structure Call where
  entries : List Entry
  s : ℕ
  nbytes : ℕ
  offset : ℕ
  mode : BitVec 8
  text : Bool
  flip : Bool
deriving DecidableEq

/-- `ms->mlist`: the arrays of regular entries, and those of named ones. -/
structure Database where
  regular : List (List Entry)
  named : List (List Entry)

variable {W : Type}

/-- What works on the data. `false` is -1 for `mcopy` and what prints and 0 for `mconvert`; `indirect` is the offset that the
data at the first offset says, or `none` for a return of 0. `openOut` sets `ms->o.buf` aside, `dropOut` brings it back, and
`keepOut` prints what was printed in the meantime behind it. -/
structure Leaves (W : Type) where
  flags : Flags
  mcopy : FileType → Bool → ℕ → BitVec 32 → ℕ → BitVec 32 → W → Bool × W
  indirect : Entry → Bool → ℕ → ℕ → BitVec 32 → W → Option (BitVec 32) × W
  mconvert : Entry → Bool → W → Bool × W
  openOut : W → W
  dropOut : W → W
  keepOut : Entry → BitVec 32 → W → Bool × W
  magiccheck : Entry → BitVec 32 → W → Option Bool × W
  mprint : Entry → BitVec 32 → W → Bool × W
  moffset : Entry → BitVec 32 → W → BitVec 32 × W
  printf : List Char → W → Bool × W
  realloc : ℕ → W → Bool

/-- Up to the first zero. -/
def cString (s : List UInt8) : List UInt8 := s.takeWhile (· ≠ 0)

/-- `file_magicfind` in one array: the entry of the name, and what follows it up to the next entry of level 0. -/
def findName (name : List UInt8) : List Entry → Option (List Entry)
  | [] => none
  | m :: rest =>
    if m.type = .name && cString m.value = name then some (m :: rest.takeWhile (·.contLevel ≠ 0)) else findName name rest

/-- `file_magicfind`. -/
def magicfind (db : Database) (name : List UInt8) : Option (List Entry) := db.named.findSome? (findName name)

/-- The loop of `file_softmagic` over the arrays. -/
def softmagicLoop (enter : Call → Bool → MagicSet W → Ended W) (s nbytes : ℕ) (mode : BitVec 8) (text : Bool) :
    List (List Entry) → MagicSet W → Answer × MagicSet W
  | [], ms => (.no, ms)
  | entries :: ls, ms =>
    let e := enter ⟨entries, s, nbytes, 0, mode, text, false⟩ false ms
    if e.answer = .no then softmagicLoop enter s nbytes mode text ls e.ms else (e.answer, e.ms)

/-- How many bytes an entry takes, as far as `mget` looks. -/
def needs (m : Entry) : Option ℕ :=
  match m.type with
  | .byte => some 1
  | .short | .beshort | .leshort => some 2
  | .long | .belong | .lelong | .melong | .date | .bedate | .ledate | .medate | .ldate | .beldate | .leldate | .meldate
  | .float | .befloat | .lefloat => some 4
  | .double | .bedouble | .ledouble => some 8
  | .string | .pstring | .search => some m.vallen
  | .regex => some 0
  | _ => none

/-- `nbytes < (offset + k)`; the sum is one of 32 bits. -/
def short (nbytes : ℕ) (offset : BitVec 32) (k : ℕ) : Bool := nbytes < (offset + BitVec.ofNat 32 k).toNat

/-- What is added for `INDIROFFADD`. -/
def indirBase (m : Entry) (contLevel : ℕ) (ms : MagicSet W) : BitVec 32 :=
  if m.has flagIndirOffAdd then (ms.li (contLevel - 1)).off else 0

/-- `(uint32_t)nbytes`. -/
def low32 (n : ℕ) : ℕ := n % 2 ^ 32

/-- `mcopy` and, for `INDIR`, the second `mcopy` at the offset that the data says; that offset, or the value to return. -/
def locate (lv : Leaves W) (call : Call) (m : Entry) (contLevel : ℕ) (ms : MagicSet W) :
    Except Answer (BitVec 32) × MagicSet W :=
  let r := lv.mcopy m.type (m.has flagIndir) call.s (ms.offset + BitVec.ofNat 32 call.offset) (low32 call.nbytes)
    m.strRange ms.work
  let ms := { ms with work := r.2 }
  if !r.1 then (.error .error, ms)
  else if m.has flagIndir then
    let v := lv.indirect m call.flip call.s call.nbytes ms.offset ms.work
    let ms := { ms with work := v.2 }
    match v.1 with
    | none => (.error .no, ms)
    | some off =>
      let offset := off + indirBase m contLevel ms
      let r := lv.mcopy m.type false call.s offset call.nbytes m.strRange ms.work
      if !r.1 then (.error .error, { ms with work := r.2 }) else (.ok offset, { ms with work := r.2, offset })
  else (.ok ms.offset, ms)

/-- `FILE_INDIRECT`. -/
def getIndirect (lv : Leaves W) (db : Database) (enter : Call → Bool → MagicSet W → Ended W) (call : Call) (m : Entry)
    (offset : BitVec 32) (ms : MagicSet W) : Answer × MagicSet W :=
  if call.nbytes < offset.toNat then (.no, ms)
  else
    let ms := { ms with work := lv.openOut ms.work, offset := 0 }
    let r := softmagicLoop enter (call.s + offset.toNat) (call.nbytes - offset.toNat) binTest call.text db.regular ms
    if r.1 = .yes then
      let v := lv.keepOut m offset r.2.work
      (if v.1 then .yes else .error, { r.2 with work := v.2 })
    else (r.1, { r.2 with work := lv.dropOut r.2.work })

/-- `FILE_USE`. -/
def getUse (db : Database) (enter : Call → Bool → MagicSet W → Ended W) (call : Call) (m : Entry) (offset : BitVec 32)
    (returnval : Bool) (ms : MagicSet W) : Answer × Bool × MagicSet W :=
  if call.nbytes < offset.toNat then (.no, returnval, ms)
  else
    let sbuf := cString m.value
    let flip := sbuf.head? = some 94
    match magicfind db (if flip then sbuf.tail else sbuf) with
    | none => (.error, returnval, ms)
    | some entries =>
      let e := enter ⟨entries, call.s, call.nbytes, offset.toNat, call.mode, call.text, flip⟩ returnval ms
      (e.answer, e.returnval, e.ms)

/-- `mget`. -/
def mget (lv : Leaves W) (db : Database) (enter : Call → Bool → MagicSet W → Ended W) (call : Call) (m : Entry)
    (contLevel : ℕ) (returnval : Bool) (ms : MagicSet W) : Answer × Bool × MagicSet W :=
  let r := locate lv call m contLevel ms
  match r.1 with
  | .error a => (a, returnval, r.2)
  | .ok offset =>
    match m.type with
    | .indirect =>
      let v := getIndirect lv db enter call m offset r.2
      (v.1, returnval, v.2)
    | .use => getUse db enter call m offset returnval r.2
    | .name =>
      let v := lv.printf m.desc r.2.work
      (if v.1 then .yes else .error, returnval, { r.2 with work := v.2 })
    | _ =>
      if (needs m).any (short call.nbytes offset) then (.no, returnval, r.2)
      else
        let v := lv.mconvert m call.flip r.2.work
        (if v.1 then .yes else .no, returnval, { r.2 with work := v.2 })

/-- What `match` calls. -/
def callees (lv : Leaves W) (db : Database) (enter : Call → Bool → MagicSet W → Ended W) (call : Call) : Callees W where
  flags := lv.flags
  mget := mget lv db enter call
  magiccheck := lv.magiccheck
  mprint := lv.mprint
  moffset := lv.moffset
  printf := lv.printf
  realloc := lv.realloc

/-- The call of `match`. -/
def matchCall (lv : Leaves W) (db : Database) (enter : Call → Bool → MagicSet W → Ended W) (call : Call) (returnval : Bool)
    (ms : MagicSet W) : Run W :=
  matchMagic (callees lv db enter call) call.mode call.text call.entries returnval ms

/-- A call of `match`, followed to a depth of nested calls. -/
def run (lv : Leaves W) (db : Database) : ℕ → Call → Bool → MagicSet W → Ended W
  | 0, _, returnval, ms => ⟨.cut .depth, returnval, ms⟩
  | n + 1, call, returnval, ms => (matchCall lv db (run lv db n) call returnval ms).ended

/-- `file_softmagic`. -/
def softmagic (lv : Leaves W) (db : Database) (n : ℕ) (s nbytes : ℕ) (mode : BitVec 8) (text : Bool) (ms : MagicSet W) :
    Answer × MagicSet W :=
  softmagicLoop (run lv db n) s nbytes mode text db.regular ms

/-- The copies of `mget` end it with -1 or 0. -/
theorem locate_answer {lv : Leaves W} {call : Call} {m : Entry} {contLevel : ℕ} {ms : MagicSet W} {a : Answer}
    (h : (locate lv call m contLevel ms).1 = .error a) : a = .error ∨ a = .no := by
  unfold locate at h
  dsimp only at h
  split at h
  case isTrue =>
    cases h
    exact .inl rfl
  case isFalse =>
    split at h
    case isTrue =>
      split at h
      case h_1 =>
        cases h
        exact .inr rfl
      case h_2 =>
        split at h
        case isTrue =>
          cases h
          exact .inl rfl
        case isFalse => cases h
    case isFalse => cases h

end CodingExercises.File
