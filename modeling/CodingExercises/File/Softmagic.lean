import Mathlib.Algebra.Group.Nat.Defs
import Mathlib.Algebra.Group.Int.Defs
import Mathlib.Logic.Function.Basic
import CodingExercises.File.Formats

/-!
# file: going through the entries

`match` of `softmagic.c` and `file_check_mem` of `funcs.c`. What `match` calls is a parameter (`Callees`), and what it does is
also written down step by step: `Run.groups` has an entry of level 0 and the continuations behind it that were passed, with
what came of each.

The array of levels `ms->c.li` is a part of the state `MagicSet` that is shared by all that is called, while the counter
`cont_level` belongs to the call of `match`.
-/

namespace CodingExercises.File

/-! ## Entries -/

/-- `m->cond`. -/
inductive Cond
  | condNone
  | condIf
  | condElif
  | condElse
deriving DecidableEq

/-- `struct magic`, as far as `match` and `mget` read it. -/
structure Entry extends Magic where
  contLevel : ℕ
  flag : BitVec 8
  reln : Char
  vallen : ℕ
  inType : FileType
  inOp : BitVec 8
  cond : Cond
  offset : BitVec 32
  inOffset : BitVec 32
  strRange : BitVec 32
  strFlags : BitVec 32
  value : List UInt8
  mimetype : List Char
  apple : List Char
deriving DecidableEq

/-- `INDIR` and so on. -/
def flagIndir : BitVec 8 := 0x01
def flagOffAdd : BitVec 8 := 0x02
def flagIndirOffAdd : BitVec 8 := 0x04
def flagNoSpace : BitVec 8 := 0x10
def binTest : BitVec 8 := 0x20
def textTest : BitVec 8 := 0x40

/-- `STRING_TEXTTEST` and `STRING_BINTEST`. -/
def stringTextTest : BitVec 32 := 0x20
def stringBinTest : BitVec 32 := 0x40

/-- `m->flag & bit`. -/
def Entry.has (m : Entry) (bit : BitVec 8) : Bool := m.flag &&& bit ≠ 0

/-- `IS_STRING`. -/
def isString (t : FileType) : Bool :=
  t = .string || t = .pstring || t = .bestring16 || t = .lestring16 || t = .regex || t = .search || t = .name || t = .use ||
    t = .default

/-- The array as the loops go through it: an entry, and the continuations up to the next entry of level 0. -/
def groups : List Entry → List (Entry × List Entry)
  | [] => []
  | m :: rest =>
    match rest with
    | [] => [(m, [])]
    | n :: _ =>
      if n.contLevel = 0 then (m, []) :: groups rest
      else
        match groups rest with
        | (n', conts) :: gs => (m, n' :: conts) :: gs
        | [] => [(m, [])]

/-! ## The state -/

/-- `struct level_info`. -/
structure LevelInfo where
  off : BitVec 32
  gotMatch : Bool
  lastMatch : Bool
deriving DecidableEq

/-- `struct magic_set`: the levels, the offset, and what else is worked on. -/
structure MagicSet (W : Type) where
  li : ℕ → LevelInfo
  len : ℕ
  offset : BitVec 32
  work : W

/-- The bits of `ms->flags` that `match` looks at. -/
structure Flags where
  mimeType : Bool
  mimeEncoding : Bool
  apple : Bool
  magicContinue : Bool
deriving DecidableEq

/-- `(ms->flags & MAGIC_MIME) != 0`. -/
def Flags.mime (f : Flags) : Bool := f.mimeType || f.mimeEncoding

/-- `int print`. -/
def Flags.print (f : Flags) : Bool := !(f.mime || f.apple)

/-- Why a run is not followed further: its calls are too deep, or one is made again while it is in progress. -/
inductive Cut
  | depth
  | again
deriving DecidableEq

/-- What `mget` and `match` return: -1, 0 or 1; `cut` where a run is not followed further. -/
inductive Answer
  | cut (why : Cut)
  | error
  | no
  | yes
deriving DecidableEq

def Answer.ofBool (b : Bool) : Answer := if b then .yes else .no

variable {W : Type}

/-- What `match` calls. With `mget` goes `*returnval`; `none` is -1 for `magiccheck`, and `false` for what prints. -/
structure Callees (W : Type) where
  flags : Flags
  mget : Entry → ℕ → Bool → MagicSet W → Answer × Bool × MagicSet W
  magiccheck : Entry → BitVec 32 → W → Option Bool × W
  mprint : Entry → BitVec 32 → W → Bool × W
  moffset : Entry → BitVec 32 → W → BitVec 32 × W
  printf : List Char → W → Bool × W
  realloc : ℕ → W → Bool

/-- The level with something changed. -/
def MagicSet.setLevel (ms : MagicSet W) (k : ℕ) (f : LevelInfo → LevelInfo) : MagicSet W :=
  { ms with li := Function.update ms.li k (f (ms.li k)) }

/-- `file_check_mem`: `false` for -1. -/
def fileCheckMem (c : Callees W) (level : ℕ) (ms : MagicSet W) : Bool × MagicSet W :=
  let clear := fun i : LevelInfo => { i with gotMatch := false, lastMatch := false }
  if ms.len ≤ level then
    let ms := { ms with len := ms.len + 20 }
    if c.realloc ms.len ms.work then (true, ms.setLevel level clear) else (false, ms)
  else (true, ms.setLevel level clear)

/-- The variables of `match`. -/
structure Loop (W : Type) where
  ms : MagicSet W
  contLevel : ℕ
  needSeparator : Bool
  firstline : Bool
  printedSomething : Bool
  returnval : Bool

/-- The end of a call of `match`. -/
structure Ended (W : Type) where
  answer : Answer
  returnval : Bool
  ms : MagicSet W

def Loop.ended (L : Loop W) (a : Answer) : Ended W := ⟨a, L.returnval, L.ms⟩

/-- Something is printed, or `match` returns -1. -/
def output (f : W → Bool × W) (L : Loop W) : Except (Ended W) (Loop W) :=
  let r := f L.ms.work
  let L := { L with ms := { L.ms with work := r.2 } }
  if r.1 then .ok L else .error (L.ended .error)

/-! ## One entry -/

/-- What `mget` and `magiccheck` say of an entry: `match` returns, `mget` gives 0, `magiccheck` gives 0, or it matches. -/
inductive Tested
  | ended (a : Answer)
  | short
  | failed
  | matched

/-- The call of `mget`, and that of `magiccheck`; without enough data an entry with `!` matches. -/
def test (c : Callees W) (m : Entry) (L : Loop W) : Tested × Loop W :=
  let r := c.mget m L.contLevel L.returnval L.ms
  let L := { L with ms := r.2.2, returnval := r.2.1 }
  match r.1 with
  | .cut why => (.ended (.cut why), L)
  | .error => (.ended .error, L)
  | .no => (if m.reln = '!' then .matched else .short, L)
  | .yes =>
    let L := if m.type = .indirect then { L with returnval := true } else L
    let v := c.magiccheck m L.ms.offset L.ms.work
    let L := { L with ms := { L.ms with work := v.2 } }
    match v.1 with
    | none => (.ended .error, L)
    | some false => (.failed, L)
    | some true => (.matched, L)

/-- `handle_annotation`, with the `return` behind it. -/
def handleAnnotation (c : Callees W) (m : Entry) (L : Loop W) : Except (Ended W) (Loop W) :=
  if c.flags.apple then
    (output (c.printf (m.apple.take 8)) { L with returnval := true }).bind fun L => .error (L.ended .yes)
  else if c.flags.mimeType && m.mimetype ≠ [] then
    (output (c.printf m.mimetype) { L with returnval := true }).bind fun L => .error (L.ended .yes)
  else .ok L

/-- `print_sep`. -/
def printSep (c : Callees W) (L : Loop W) : Except (Ended W) (Loop W) :=
  if c.flags.mime || L.firstline then .ok L else output (c.printf ['\n', '-', ' ']) L

/-- `if(print && mprint(ms, m) == -1) return -1`. -/
def printEntry (c : Callees W) (m : Entry) (L : Loop W) : Except (Ended W) (Loop W) :=
  if c.flags.print then output (c.mprint m L.ms.offset) L else .ok L

/-- What came of an entry that the loops passed: it was not tested; `match` returned in the middle; it did not match; it is a
default that does not take effect; or it matched, and `moffset` gave the offset behind it. -/
inductive Outcome
  | skipped
  | ended
  | miss
  | suppressed
  | hit (off : BitVec 32)
deriving DecidableEq

/-- `ms->c.li[cont_level].off = moffset(ms, m)`, and `file_check_mem(ms, ++cont_level)`. -/
def store (c : Callees W) (m : Entry) (L : Loop W) : Except (Ended W) (Outcome × Loop W) :=
  let r := c.moffset m L.ms.offset L.ms.work
  let ms := { L.ms with work := r.2 }.setLevel L.contLevel fun i => { i with off := r.1 }
  let v := fileCheckMem c (L.contLevel + 1) ms
  let L := { L with ms := v.2, contLevel := L.contLevel + 1, needSeparator := m.desc ≠ [] || L.needSeparator }
  if v.1 then .ok (.hit r.1, L) else .error (L.ended .error)

/-- Before an entry of level 0 is printed. -/
def topSep (c : Callees W) (m : Entry) (L : Loop W) : Except (Ended W) (Loop W) :=
  if m.desc ≠ [] then printSep c { L with needSeparator := true, printedSomething := true } else .ok L

/-- An entry of level 0 that matched. -/
def topMatched (c : Callees W) (m : Entry) (L : Loop W) : Except (Ended W) (Outcome × Loop W) := do
  let L ← handleAnnotation c m L
  let L ← topSep c m L
  let L ← printEntry c m L
  store c m L

/-- An entry of level 0 as it is tested. -/
def Loop.topEntered (m : Entry) (L : Loop W) : Loop W := { L with ms := { L.ms with offset := m.offset } }

/-- What follows the test of an entry of level 0. -/
def topTested (c : Callees W) (m : Entry) (r : Tested × Loop W) : Except (Ended W) (Outcome × Loop W) :=
  match r.1 with
  | .ended a => .error (r.2.ended a)
  | .short | .failed => .ok (.miss, r.2)
  | .matched => topMatched c m r.2

/-- The body of the loop over the entries of level 0, up to the continuations. -/
def topStep (c : Callees W) (m : Entry) (L : Loop W) : Except (Ended W) (Outcome × Loop W) :=
  topTested c m (test c m (L.topEntered m))

/-- Before a continuation is printed: the separator if it is the first that is printed. -/
def contSep (c : Callees W) (m : Entry) (L : Loop W) : Except (Ended W) (Loop W) :=
  if m.desc ≠ [] && !L.printedSomething then printSep c { L with printedSomething := true } else .ok L

/-- And the blank, if the previous one that was printed asks for it. -/
def contSpace (c : Callees W) (m : Entry) (L : Loop W) : Except (Ended W) (Loop W) :=
  if L.needSeparator && !m.has flagNoSpace && m.desc ≠ [] then
    let L' := { L with needSeparator := false }
    if c.flags.print then output (c.printf [' ']) L' else .ok L'
  else .ok L

/-- A continuation that matched and is no default that another match suppresses. -/
def contMatched (c : Callees W) (m : Entry) (L : Loop W) : Except (Ended W) (Outcome × Loop W) := do
  let L ← handleAnnotation c m L
  let L ← contSep c m L
  let L ← contSpace c m L
  let L ← printEntry c m L
  store c m L

/-- `ms->offset` for a continuation. -/
def contOffset (m : Entry) (contLevel : ℕ) (ms : MagicSet W) : BitVec 32 :=
  if m.has flagOffAdd then m.offset + (ms.li (contLevel - 1)).off else m.offset

/-- What follows the test of a continuation. -/
def contTested (c : Callees W) (m : Entry) (r : Tested × Loop W) : Except (Ended W) (Outcome × Loop W) :=
  let k := m.contLevel
  match r.1 with
  | .ended a => .error (r.2.ended a)
  | .short => .ok (.miss, r.2)
  | .failed => .ok (.miss, { r.2 with ms := r.2.ms.setLevel k fun i => { i with lastMatch := false } })
  | .matched =>
    let ms := r.2.ms.setLevel k fun i => { i with lastMatch := true }
    if m.type ≠ .default then
      contMatched c m { r.2 with ms := ms.setLevel k fun i => { i with gotMatch := true } }
    else if (ms.li k).gotMatch then
      .ok (.suppressed, { r.2 with ms := ms.setLevel k fun i => { i with gotMatch := false } })
    else contMatched c m { r.2 with ms }

/-- A continuation that is not above the counter: the counter and the offset are set. -/
def Loop.entered (m : Entry) (L : Loop W) : Loop W :=
  { L with contLevel := m.contLevel, ms := { L.ms with offset := contOffset m m.contLevel L.ms } }

/-- The body of the loop over the continuations. -/
def contStep (c : Callees W) (m : Entry) (L : Loop W) : Except (Ended W) (Outcome × Loop W) :=
  if L.contLevel < m.contLevel then .ok (.skipped, L)
  else
    let L := L.entered m
    if (m.cond = .condElse || m.cond = .condElif) && (L.ms.li m.contLevel).lastMatch then .ok (.skipped, L)
    else contTested c m (test c m L)

/-! ## The loops -/

/-- An entry that was passed: the variables as the loop came to it, and what came of it. -/
structure Step (W : Type) where
  entry : Entry
  loop : Loop W
  outcome : Outcome

/-- The loop over the continuations. -/
def contLoop (c : Callees W) : List Entry → Loop W → List (Step W) × Except (Ended W) (Loop W)
  | [], L => ([], .ok L)
  | m :: conts, L =>
    match contStep c m L with
    | .error e => ([⟨m, L, .ended⟩], .error e)
    | .ok (o, L') =>
      let r := contLoop c conts L'
      (⟨m, L, o⟩ :: r.1, r.2)

/-- A call of `match`: the groups of entries that it passed, and its end. -/
structure Run (W : Type) where
  groups : List (List (Step W))
  ended : Ended W

/-- The condition of the jump over a group. -/
def skips (mode : BitVec 8) (text : Bool) (m : Entry) : Bool :=
  m.type ≠ .name &&
    ((isString m.type &&
        ((text && m.strFlags &&& (stringBinTest ||| stringTextTest) = stringBinTest) ||
          (!text && m.strFlags &&& (stringTextTest ||| stringBinTest) = stringTextTest))) ||
      m.flag &&& mode ≠ mode)

/-- Behind the continuations of a group. -/
def closeGroup (c : Callees W) (L : Loop W) : Loop W :=
  if L.printedSomething then { L with firstline := false, returnval := c.flags.print || L.returnval } else L

/-- The outer loop. -/
def matchLoop (c : Callees W) (mode : BitVec 8) (text : Bool) : List (Entry × List Entry) → Loop W → Run W
  | [], L => ⟨[], L.ended (.ofBool L.returnval)⟩
  | (m, conts) :: gs, L =>
    if skips mode text m then matchLoop c mode text gs L
    else
      match topStep c m L with
      | .error e => ⟨[[⟨m, L, .ended⟩]], e⟩
      | .ok (.hit off, L') =>
        let r := contLoop c conts L'
        let g := ⟨m, L, .hit off⟩ :: r.1
        match r.2 with
        | .error e => ⟨[g], e⟩
        | .ok L' =>
          let L' := closeGroup c L'
          if !c.flags.magicContinue && L'.printedSomething then ⟨[g], L'.ended (.ofBool L'.returnval)⟩
          else
            let rest := matchLoop c mode text gs L'
            ⟨g :: rest.groups, rest.ended⟩
      | .ok (o, L') =>
        let rest := matchLoop c mode text gs L'
        ⟨[⟨m, L, o⟩] :: rest.groups, rest.ended⟩

/-- `match`. -/
def matchMagic (c : Callees W) (mode : BitVec 8) (text : Bool) (entries : List Entry) (returnval : Bool) (ms : MagicSet W) :
    Run W :=
  let r := fileCheckMem c 0 ms
  let L : Loop W := ⟨r.2, 0, false, true, false, returnval⟩
  if r.1 then matchLoop c mode text (groups entries) L else ⟨[], L.ended .error⟩

/-! ## What a step does -/

variable {c : Callees W} {m : Entry} {L L' : Loop W} {o : Outcome}

/-- The offsets of the levels. -/
def MagicSet.offs (ms : MagicSet W) (k : ℕ) : BitVec 32 := (ms.li k).off

/-- The flags `got_match` of the levels. -/
def MagicSet.marks (ms : MagicSet W) (k : ℕ) : Bool := (ms.li k).gotMatch

theorem offs_congr {ms ms' : MagicSet W} (h : ms'.li = ms.li) : ms'.offs = ms.offs ∧ ms'.marks = ms.marks := by
  constructor
  · funext k
    rw [MagicSet.offs, MagicSet.offs, h]
  · funext k
    rw [MagicSet.marks, MagicSet.marks, h]

theorem offs_setLevel (ms : MagicSet W) (k : ℕ) (f : LevelInfo → LevelInfo) :
    (ms.setLevel k f).offs = Function.update ms.offs k (f (ms.li k)).off := by
  funext j
  by_cases hj : j = k
  · subst hj
    simp [MagicSet.offs, MagicSet.setLevel]
  · simp [MagicSet.offs, MagicSet.setLevel, hj]

theorem marks_setLevel (ms : MagicSet W) (k : ℕ) (f : LevelInfo → LevelInfo) :
    (ms.setLevel k f).marks = Function.update ms.marks k (f (ms.li k)).gotMatch := by
  funext j
  by_cases hj : j = k
  · subst hj
    simp [MagicSet.marks, MagicSet.setLevel]
  · simp [MagicSet.marks, MagicSet.setLevel, hj]

theorem bind_ok {ε α β : Type} {x : Except ε α} {f : α → Except ε β} {b : β} (h : x >>= f = .ok b) :
    ∃ a, x = .ok a ∧ f a = .ok b := by
  cases x with
  | error e => cases h
  | ok a => exact ⟨a, rfl, h⟩

/-- What printing leaves as it was. -/
structure Same (L L' : Loop W) : Prop where
  contLevel : L'.contLevel = L.contLevel
  li : L'.ms.li = L.ms.li
  len : L'.ms.len = L.ms.len
  offset : L'.ms.offset = L.ms.offset

theorem Same.refl (L : Loop W) : Same L L := ⟨rfl, rfl, rfl, rfl⟩

theorem Same.trans {L'' : Loop W} (h : Same L L') (h' : Same L' L'') : Same L L'' :=
  ⟨h'.contLevel.trans h.contLevel, h'.li.trans h.li, h'.len.trans h.len, h'.offset.trans h.offset⟩

theorem output_same {f : W → Bool × W} (h : output f L = .ok L') : Same L L' := by
  unfold output at h
  dsimp only at h
  split at h
  case isTrue =>
    cases h
    exact ⟨rfl, rfl, rfl, rfl⟩
  case isFalse => cases h

theorem handleAnnotation_same (h : handleAnnotation c m L = .ok L') : L' = L := by
  unfold handleAnnotation at h
  split at h
  case isTrue =>
    obtain ⟨L₁, -, h₁⟩ := bind_ok h
    cases h₁
  case isFalse =>
    split at h
    case isTrue =>
      obtain ⟨L₁, -, h₁⟩ := bind_ok h
      cases h₁
    case isFalse =>
      cases h
      rfl

theorem printSep_same (h : printSep c L = .ok L') : Same L L' := by
  unfold printSep at h
  split at h
  case isTrue =>
    cases h
    exact .refl L
  case isFalse => exact output_same h

theorem printEntry_same (h : printEntry c m L = .ok L') : Same L L' := by
  unfold printEntry at h
  split at h
  case isTrue => exact output_same h
  case isFalse =>
    cases h
    exact .refl L

theorem topSep_same (h : topSep c m L = .ok L') : Same L L' := by
  unfold topSep at h
  split at h
  case isTrue =>
    have hsame := printSep_same h
    exact ⟨hsame.contLevel, hsame.li, hsame.len, hsame.offset⟩
  case isFalse =>
    cases h
    exact .refl L

theorem contSep_same (h : contSep c m L = .ok L') : Same L L' := by
  unfold contSep at h
  split at h
  case isTrue =>
    have hsame := printSep_same h
    exact ⟨hsame.contLevel, hsame.li, hsame.len, hsame.offset⟩
  case isFalse =>
    cases h
    exact .refl L

theorem contSpace_same (h : contSpace c m L = .ok L') : Same L L' := by
  unfold contSpace at h
  split at h
  case isTrue =>
    dsimp only at h
    split at h
    case isTrue =>
      have hsame := output_same h
      exact ⟨hsame.contLevel, hsame.li, hsame.len, hsame.offset⟩
    case isFalse =>
      cases h
      exact ⟨rfl, rfl, rfl, rfl⟩
  case isFalse =>
    cases h
    exact .refl L

/-- Before the offset is stored, an entry that matched is only printed. -/
theorem topMatched_eq (h : topMatched c m L = .ok (o, L')) : ∃ L₁, Same L L₁ ∧ store c m L₁ = .ok (o, L') := by
  obtain ⟨L₁, h₁, h⟩ := bind_ok h
  obtain ⟨L₂, h₂, h⟩ := bind_ok h
  obtain ⟨L₃, h₃, hstore⟩ := bind_ok h
  cases handleAnnotation_same h₁
  exact ⟨L₃, (topSep_same h₂).trans (printEntry_same h₃), hstore⟩

theorem contMatched_eq (h : contMatched c m L = .ok (o, L')) : ∃ L₁, Same L L₁ ∧ store c m L₁ = .ok (o, L') := by
  obtain ⟨L₁, h₁, h⟩ := bind_ok h
  obtain ⟨L₂, h₂, h⟩ := bind_ok h
  obtain ⟨L₃, h₃, h⟩ := bind_ok h
  obtain ⟨L₄, h₄, hstore⟩ := bind_ok h
  cases handleAnnotation_same h₁
  exact ⟨L₄, (contSep_same h₂).trans ((contSpace_same h₃).trans (printEntry_same h₄)), hstore⟩

theorem fileCheckMem_true {level : ℕ} {ms : MagicSet W} (h : (fileCheckMem c level ms).1 = true) :
    (fileCheckMem c level ms).2.offs = ms.offs ∧
      (fileCheckMem c level ms).2.marks = Function.update ms.marks level false := by
  have hclear (ms : MagicSet W) : (ms.setLevel level fun i => { i with gotMatch := false, lastMatch := false }).offs = ms.offs ∧
      (ms.setLevel level fun i => { i with gotMatch := false, lastMatch := false }).marks =
        Function.update ms.marks level false := by
    rw [offs_setLevel, marks_setLevel]
    exact ⟨Function.update_eq_self level ms.offs, rfl⟩
  unfold fileCheckMem at h ⊢
  dsimp only at h ⊢
  split
  case isTrue hle =>
    rw [if_pos hle] at h
    split
    case isTrue => exact hclear { ms with len := ms.len + 20 }
    case isFalse hrealloc =>
      rw [if_neg hrealloc] at h
      cases h
  case isFalse => exact hclear ms

/-- The levels behind a match at the level `k` with the offset `off` behind it; `mark` is the `got_match` of its level. -/
structure Stored (k : ℕ) (off : BitVec 32) (mark : Bool) (ms ms' : MagicSet W) : Prop where
  offs : ms'.offs = Function.update ms.offs k off
  marks : ms'.marks = Function.update (Function.update ms.marks k mark) (k + 1) false

theorem store_eq (h : store c m L = .ok (o, L')) : ∃ off, o = .hit off ∧ L'.contLevel = L.contLevel + 1 ∧
    Stored L.contLevel off (L.ms.marks L.contLevel) L.ms L'.ms := by
  unfold store at h
  dsimp only at h
  split at h
  case isTrue hmem =>
    cases h
    obtain ⟨hoffs, hmarks⟩ := fileCheckMem_true hmem
    refine ⟨_, rfl, rfl, ?_, ?_⟩
    · rw [hoffs, offs_setLevel]
      rfl
    · rw [hmarks, marks_setLevel]
      rfl
  case isFalse => cases h

theorem Stored.of_eq {k : ℕ} {off : BitVec 32} {mark : Bool} {ms ms₀ ms' : MagicSet W} (h : Stored k off (ms.marks k) ms ms')
    (hoffs : ms.offs = ms₀.offs) (hmarks : ms.marks = Function.update ms₀.marks k mark) : Stored k off mark ms₀ ms' := by
  refine ⟨h.offs.trans (by rw [hoffs]), h.marks.trans ?_⟩
  rw [hmarks, Function.update_self, Function.update_idem]

theorem Same.stored {off : BitVec 32} {L₁ L₂ : Loop W} (h : Same L L₁) (hlevel : L₂.contLevel = L₁.contLevel + 1)
    (hstored : Stored L₁.contLevel off (L₁.ms.marks L₁.contLevel) L₁.ms L₂.ms) :
    L₂.contLevel = L.contLevel + 1 ∧ Stored L.contLevel off (L.ms.marks L.contLevel) L.ms L₂.ms := by
  obtain ⟨hoffs, hmarks⟩ := offs_congr h.li
  rw [h.contLevel, hmarks] at hstored
  refine ⟨by rw [hlevel, h.contLevel], hstored.offs.trans (by rw [hoffs]), hstored.marks.trans (by rw [hmarks])⟩

theorem topMatched_hit (h : topMatched c m L = .ok (o, L')) : ∃ off, o = .hit off ∧ L'.contLevel = L.contLevel + 1 ∧
    Stored L.contLevel off (L.ms.marks L.contLevel) L.ms L'.ms := by
  obtain ⟨L₁, hsame, hstore⟩ := topMatched_eq h
  obtain ⟨off, ho, hlevel, hstored⟩ := store_eq hstore
  exact ⟨off, ho, hsame.stored hlevel hstored⟩

theorem contMatched_hit (h : contMatched c m L = .ok (o, L')) : ∃ off, o = .hit off ∧ L'.contLevel = L.contLevel + 1 ∧
    Stored L.contLevel off (L.ms.marks L.contLevel) L.ms L'.ms := by
  obtain ⟨L₁, hsame, hstore⟩ := contMatched_eq h
  obtain ⟨off, ho, hlevel, hstored⟩ := store_eq hstore
  exact ⟨off, ho, hsame.stored hlevel hstored⟩

/-- What `mget` and `magiccheck` leave as it was, and what only `mget` changes. -/
theorem test_eq (c : Callees W) (m : Entry) (L : Loop W) :
    (test c m L).2.contLevel = L.contLevel ∧
      (test c m L).2.ms.li = (c.mget m L.contLevel L.returnval L.ms).2.2.li := by
  unfold test
  dsimp only
  split
  case h_4 =>
    split <;> split <;> exact ⟨rfl, rfl⟩
  all_goals exact ⟨rfl, rfl⟩

/-- What `mget` leaves of the levels when a continuation is tested. -/
def Loop.got (c : Callees W) (m : Entry) (L : Loop W) : MagicSet W :=
  (c.mget m m.contLevel L.returnval { L.ms with offset := contOffset m m.contLevel L.ms }).2.2

/-- What becomes of a continuation. -/
inductive ContDone (c : Callees W) (m : Entry) (L : Loop W) : Outcome → Loop W → Prop
  /-- Its level is above the counter. -/
  | above : L.contLevel < m.contLevel → ContDone c m L .skipped L
  /-- It is the other branch of a conditional. -/
  | branch {L' : Loop W} : m.contLevel ≤ L.contLevel → m.cond = .condElse ∨ m.cond = .condElif → L'.contLevel = m.contLevel →
    L'.ms.offs = L.ms.offs → L'.ms.marks = L.ms.marks → ContDone c m L .skipped L'
  | miss {L' : Loop W} : m.contLevel ≤ L.contLevel → L'.contLevel = m.contLevel → L'.ms.offs = (L.got c m).offs →
    L'.ms.marks = (L.got c m).marks → ContDone c m L .miss L'
  | suppressed {L' : Loop W} : m.contLevel ≤ L.contLevel → m.type = .default → (L.got c m).marks m.contLevel = true →
    L'.contLevel = m.contLevel → L'.ms.offs = (L.got c m).offs →
    L'.ms.marks = Function.update (L.got c m).marks m.contLevel false → ContDone c m L .suppressed L'
  | hit {off : BitVec 32} {L' : Loop W} : m.contLevel ≤ L.contLevel →
    (m.type = .default → (L.got c m).marks m.contLevel = false) → L'.contLevel = m.contLevel + 1 →
    Stored m.contLevel off (m.type ≠ .default) (L.got c m) L'.ms → ContDone c m L (.hit off) L'

theorem contStep_done (h : contStep c m L = .ok (o, L')) : ContDone c m L o L' := by
  unfold contStep at h
  split at h
  case isTrue hlt =>
    cases h
    exact .above hlt
  case isFalse hle =>
    dsimp only at h
    split at h
    case isTrue hcond =>
      cases h
      simp only [Bool.and_eq_true, Bool.or_eq_true, decide_eq_true_eq] at hcond
      exact .branch (by omega) hcond.1 rfl rfl rfl
    case isFalse =>
      obtain ⟨hlevel, hli⟩ := test_eq c m (L.entered m)
      have hlevel : (test c m (L.entered m)).2.contLevel = m.contLevel := hlevel
      generalize test c m (L.entered m) = r at h hlevel hli
      unfold contTested at h
      dsimp only at h
      have hgot : r.2.ms.offs = (L.got c m).offs ∧ r.2.ms.marks = (L.got c m).marks := offs_congr hli
      split at h
      case h_1 => cases h
      case h_2 =>
        cases h
        exact .miss (by omega) hlevel hgot.1 hgot.2
      case h_3 =>
        cases h
        refine .miss (by omega) hlevel ?_ ?_
        · rw [offs_setLevel, ← hgot.1]
          exact Function.update_eq_self m.contLevel r.2.ms.offs
        · rw [marks_setLevel, ← hgot.2]
          exact Function.update_eq_self m.contLevel r.2.ms.marks
      case h_4 =>
        have hmatched : (r.2.ms.setLevel m.contLevel fun i => { i with lastMatch := true }).offs = (L.got c m).offs ∧
            (r.2.ms.setLevel m.contLevel fun i => { i with lastMatch := true }).marks = (L.got c m).marks := by
          rw [offs_setLevel, marks_setLevel, ← hgot.1, ← hgot.2]
          exact ⟨Function.update_eq_self _ _, Function.update_eq_self _ _⟩
        generalize r.2.ms.setLevel m.contLevel (fun i => { i with lastMatch := true }) = ms at h hmatched
        split at h
        case isTrue htype =>
          obtain ⟨off, rfl, hlevel', hstored⟩ := contMatched_hit h
          refine .hit (by omega) (fun h => absurd h htype) (by rw [hlevel', hlevel]) ?_
          rw [hlevel] at hstored
          refine hstored.of_eq ?_ ?_
          · rw [offs_setLevel, ← hmatched.1]
            exact Function.update_eq_self m.contLevel ms.offs
          · rw [marks_setLevel, hmatched.2]
            simp [htype]
        case isFalse htype =>
          have htype : m.type = .default := not_not.mp htype
          have hmark : (ms.li m.contLevel).gotMatch = (L.got c m).marks m.contLevel := congrFun hmatched.2 m.contLevel
          rw [hmark] at h
          split at h
          case isTrue hsuppressed =>
            cases h
            refine .suppressed (by omega) htype hsuppressed hlevel ?_ ?_
            · rw [offs_setLevel, ← hmatched.1]
              exact Function.update_eq_self m.contLevel ms.offs
            · rw [marks_setLevel, hmatched.2]
          case isFalse hfree =>
            obtain ⟨off, rfl, hlevel', hstored⟩ := contMatched_hit h
            refine .hit (by omega) (fun _ => by simpa using hfree) (by rw [hlevel', hlevel]) ?_
            rw [hlevel] at hstored
            refine hstored.of_eq hmatched.1 ?_
            rw [hmatched.2, Function.eq_update_iff]
            exact ⟨by simpa [htype] using hfree, fun _ _ => rfl⟩

/-- Only an entry that is tested makes `match` return. -/
theorem le_of_contStep_error {e : Ended W} (h : contStep c m L = .error e) : m.contLevel ≤ L.contLevel := by
  by_contra hlt
  rw [contStep, if_pos (by omega)] at h
  cases h

/-- What `mget` leaves of the levels when an entry of level 0 is tested. -/
def Loop.topGot (c : Callees W) (m : Entry) (L : Loop W) : MagicSet W :=
  (c.mget m L.contLevel L.returnval { L.ms with offset := m.offset }).2.2

/-- What becomes of an entry of level 0. -/
inductive TopDone (c : Callees W) (m : Entry) (L : Loop W) : Outcome → Loop W → Prop
  | miss {L' : Loop W} : L'.contLevel = L.contLevel → L'.ms.offs = (L.topGot c m).offs →
    L'.ms.marks = (L.topGot c m).marks → TopDone c m L .miss L'
  | hit {off : BitVec 32} {L' : Loop W} : L'.contLevel = L.contLevel + 1 →
    Stored L.contLevel off ((L.topGot c m).marks L.contLevel) (L.topGot c m) L'.ms → TopDone c m L (.hit off) L'

theorem topStep_done (h : topStep c m L = .ok (o, L')) : TopDone c m L o L' := by
  unfold topStep at h
  obtain ⟨hlevel, hli⟩ := test_eq c m (L.topEntered m)
  have hlevel : (test c m (L.topEntered m)).2.contLevel = L.contLevel := hlevel
  generalize test c m (L.topEntered m) = r at h hlevel hli
  unfold topTested at h
  obtain ⟨hoffs, hmarks⟩ : r.2.ms.offs = (L.topGot c m).offs ∧ r.2.ms.marks = (L.topGot c m).marks := offs_congr hli
  split at h
  case h_1 => cases h
  case h_4 =>
    obtain ⟨off, rfl, hlevel', hstored⟩ := topMatched_hit h
    rw [hlevel, hmarks] at hstored
    exact .hit (by rw [hlevel', hlevel]) ⟨hstored.offs.trans (by rw [hoffs]), hstored.marks.trans (by rw [hmarks])⟩
  all_goals
    cases h
    exact .miss hlevel hoffs hmarks

/-! ## What the loops do -/

theorem contLoop_error {conts : List Entry} {e : Ended W} (h : contStep c m L = .error e) :
    contLoop c (m :: conts) L = ([⟨m, L, .ended⟩], .error e) := by
  rw [contLoop, h]

theorem contLoop_ok {conts : List Entry} (h : contStep c m L = .ok (o, L')) :
    contLoop c (m :: conts) L = (⟨m, L, o⟩ :: (contLoop c conts L').1, (contLoop c conts L').2) := by
  rw [contLoop, h]

/-- What becomes of a group that the outer loop does not jump over: the steps in it, and the loop behind it or the end. -/
inductive GroupDone (c : Callees W) (m : Entry) (conts : List Entry) (L : Loop W) :
    List (Step W) → Except (Ended W) (Loop W) → Prop
  /-- `match` returns in the middle of the first entry. -/
  | topEnded {e : Ended W} : topStep c m L = .error e → GroupDone c m conts L [⟨m, L, .ended⟩] (.error e)
  | topMiss {L' : Loop W} : topStep c m L = .ok (.miss, L') → GroupDone c m conts L [⟨m, L, .miss⟩] (.ok L')
  /-- `match` returns in the middle of a continuation. -/
  | contEnded {off : BitVec 32} {L' : Loop W} {e : Ended W} : topStep c m L = .ok (.hit off, L') →
    (contLoop c conts L').2 = .error e → GroupDone c m conts L (⟨m, L, .hit off⟩ :: (contLoop c conts L').1) (.error e)
  /-- Something was printed, and that is enough. -/
  | printed {off : BitVec 32} {L' L'' : Loop W} : topStep c m L = .ok (.hit off, L') → (contLoop c conts L').2 = .ok L'' →
    GroupDone c m conts L (⟨m, L, .hit off⟩ :: (contLoop c conts L').1)
      (.error ((closeGroup c L'').ended (.ofBool (closeGroup c L'').returnval)))
  | hit {off : BitVec 32} {L' L'' : Loop W} : topStep c m L = .ok (.hit off, L') → (contLoop c conts L').2 = .ok L'' →
    GroupDone c m conts L (⟨m, L, .hit off⟩ :: (contLoop c conts L').1) (.ok (closeGroup c L''))

theorem matchLoop_done {mode : BitVec 8} {text : Bool} {conts : List Entry} {gs : List (Entry × List Entry)}
    (hskip : skips mode text m = false) : ∃ g r, GroupDone c m conts L g r ∧
      matchLoop c mode text ((m, conts) :: gs) L =
        match r with
        | .error e => ⟨[g], e⟩
        | .ok L' => ⟨g :: (matchLoop c mode text gs L').groups, (matchLoop c mode text gs L').ended⟩ := by
  rw [matchLoop, if_neg (by simp [hskip])]
  cases htop : topStep c m L with
  | error e => exact ⟨_, _, .topEnded htop, rfl⟩
  | ok r =>
    obtain ⟨o, L'⟩ := r
    cases topStep_done htop with
    | miss => exact ⟨_, _, .topMiss htop, rfl⟩
    | hit =>
      dsimp only
      cases hconts : (contLoop c conts L').2 with
      | error e => exact ⟨_, _, .contEnded htop hconts, rfl⟩
      | ok L'' =>
        dsimp only
        split
        case isTrue => exact ⟨_, _, .printed htop hconts, rfl⟩
        case isFalse => exact ⟨_, _, .hit htop hconts, rfl⟩

theorem matchLoop_skips {mode : BitVec 8} {text : Bool} {conts : List Entry} {gs : List (Entry × List Entry)}
    (hskip : skips mode text m = true) : matchLoop c mode text ((m, conts) :: gs) L = matchLoop c mode text gs L := by
  rw [matchLoop, if_pos hskip]

/-! ## The groups of an array -/

theorem groups_flatten (l : List Entry) : ((groups l).map fun g => g.1 :: g.2).flatten = l := by
  induction l with
  | nil => rfl
  | cons m rest ih =>
    cases rest with
    | nil => rfl
    | cons n rest =>
      rw [groups]
      split
      case isTrue => rw [List.map_cons, List.flatten_cons, ih]; rfl
      case isFalse =>
        split
        case h_1 n' conts gs hgs =>
          rw [hgs, List.map_cons, List.flatten_cons] at ih
          rw [List.map_cons, List.flatten_cons, ← ih]
          rfl
        case h_2 hgs =>
          rw [hgs] at ih
          cases ih

/-- The array begins with the first entry of its first group. -/
theorem groups_head {m : Entry} {rest : List Entry} : ∃ conts gs, groups (m :: rest) = (m, conts) :: gs := by
  cases rest with
  | nil => exact ⟨[], [], rfl⟩
  | cons n rest =>
    rw [groups]
    split
    case isTrue => exact ⟨[], _, rfl⟩
    case isFalse =>
      split
      case h_1 n' conts gs _ => exact ⟨n' :: conts, gs, rfl⟩
      case h_2 => exact ⟨[], [], rfl⟩

/-- Behind the first entry, each entry of level 0 begins a group, and no other. -/
theorem groups_tail (l : List Entry) : (∀ g ∈ (groups l).tail, g.1.contLevel = 0) ∧
    ∀ g ∈ groups l, ∀ m ∈ g.2, m.contLevel ≠ 0 := by
  induction l with
  | nil => exact ⟨fun g hg => (by cases hg), fun g hg => (by cases hg)⟩
  | cons m rest ih =>
    cases rest with
    | nil =>
      refine ⟨fun g hg => (by cases hg), fun g hg => ?_⟩
      rw [List.mem_singleton.mp hg]
      exact fun m hm => (by cases hm)
    | cons n rest =>
      obtain ⟨conts, gs, hgs⟩ := @groups_head n rest
      rw [hgs] at ih
      obtain ⟨htops, hconts⟩ := ih
      rw [groups, hgs]
      split
      case isTrue hzero =>
        constructor
        · intro g hg
          rcases List.mem_cons.mp hg with rfl | hg
          · exact hzero
          · exact htops g hg
        · intro g hg
          rcases List.mem_cons.mp hg with rfl | hg
          · exact fun m hm => (by cases hm)
          · exact hconts g hg
      case isFalse hne =>
        refine ⟨htops, fun g hg => ?_⟩
        rcases List.mem_cons.mp hg with rfl | hg
        · intro m' hm
          rcases List.mem_cons.mp hm with rfl | hm
          · exact hne
          · exact hconts _ List.mem_cons_self m' hm
        · exact hconts g (List.mem_cons_of_mem _ hg)

/-- Each group begins with an entry of level 0, if the array does. -/
theorem groups_top {l : List Entry} (h : ∀ m ∈ l.head?, m.contLevel = 0) {g : Entry × List Entry} (hg : g ∈ groups l) :
    g.1.contLevel = 0 := by
  cases l with
  | nil => cases hg
  | cons m rest =>
    obtain ⟨conts, gs, hgs⟩ := @groups_head m rest
    have htops := (groups_tail (m :: rest)).1
    rw [hgs] at hg htops
    rcases List.mem_cons.mp hg with rfl | hg
    · exact h m rfl
    · exact htops g hg

/-- A group is a part of the array. -/
theorem groups_within {l : List Entry} {g : Entry × List Entry} (hg : g ∈ groups l) : (g.1 :: g.2) <:+: l := by
  have := List.infix_of_mem_flatten (@List.mem_map_of_mem _ _ _ _ (fun g : Entry × List Entry => g.1 :: g.2) hg)
  rwa [groups_flatten] at this

end CodingExercises.File
