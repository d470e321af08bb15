import CodingExercises.File.Mget

/-!
# file: what `match` reads and stores

`match` and `file_check_mem` once more, with the index `magindex` into the array of entries, and with each access to the array
and to `ms->c.li` noted (`note`). Where nothing is noted, they are what they were (`softmagic_quiet`).
-/

namespace CodingExercises.File

variable {W : Type}

/-- What is noted. -/
inductive Event
  /-- Bytes of the file are read. -/
  | bytes (addr : ℤ) (count : ℕ)
  /-- An element of `ms->c.li` is read or stored to, where `ms->c.len` is `len`. -/
  | level (index : ℤ) (len : ℕ)
  /-- An element of an array of entries is read. -/
  | entry (index nmagic : ℕ)
  /-- `mget` is called; `base` is what there is to add for `INDIROFFADD`. -/
  | get (call : Call) (m : Entry) (contLevel : ℕ) (offset base : BitVec 32)
  /-- An entry of level 0 has matched, and these are behind it in the array. -/
  | group (behind : List Entry)
deriving DecidableEq

/-- Nothing is noted. -/
def quiet : Event → W → W := fun _ w => w

def MagicSet.note (note : Event → W → W) (e : Event) (ms : MagicSet W) : MagicSet W := { ms with work := note e ms.work }

def MagicSet.noteIf (note : Event → W → W) (b : Bool) (e : Event) (ms : MagicSet W) : MagicSet W :=
  if b then ms.note note e else ms

def Loop.note (note : Event → W → W) (e : Event) (L : Loop W) : Loop W := { L with ms := L.ms.note note e }

def Loop.noteIf (note : Event → W → W) (b : Bool) (e : Event) (L : Loop W) : Loop W :=
  { L with ms := L.ms.noteIf note b e }

/-- The access to `li[cont_level - 1]` in `mget`, behind the offset that the data says. -/
def Leaves.noting (note : Event → W → W) (contLevel len : ℕ) (lv : Leaves W) : Leaves W :=
  { lv with
    indirect := fun m flip s nbytes offset w =>
      let r := lv.indirect m flip s nbytes offset w
      (r.1, if r.1.isSome && m.has flagIndirOffAdd then note (.level ((contLevel : ℤ) - 1) len) r.2 else r.2) }

namespace Noted

variable (note : Event → W → W)

/-- `mget`. -/
def mget (lv : Leaves W) (db : Database) (enter : Call → Bool → MagicSet W → Ended W) (call : Call) (m : Entry)
    (contLevel : ℕ) (returnval : Bool) (ms : MagicSet W) : Answer × Bool × MagicSet W :=
  File.mget (lv.noting note contLevel ms.len) db enter call m contLevel returnval
    (ms.note note (.get call m contLevel ms.offset (indirBase m contLevel ms)))

def callees (lv : Leaves W) (db : Database) (enter : Call → Bool → MagicSet W → Ended W) (call : Call) : Callees W :=
  { File.callees lv db enter call with mget := mget note lv db enter call }

variable (c : Callees W) (m : Entry) (L : Loop W)

/-- `file_check_mem`. -/
def fileCheckMem (level : ℕ) (ms : MagicSet W) : Bool × MagicSet W :=
  let r := File.fileCheckMem c level ms
  (r.1, r.2.noteIf note r.1 (.level level r.2.len))

/-- `ms->c.li[cont_level].off = moffset(ms, m)`, and `file_check_mem(ms, ++cont_level)`. -/
def store : Except (Ended W) (Outcome × Loop W) :=
  let r := c.moffset m L.ms.offset L.ms.work
  let ms := ({ L.ms with work := r.2 }.note note (.level L.contLevel L.ms.len)).setLevel L.contLevel fun i =>
    { i with off := r.1 }
  let v := fileCheckMem note c (L.contLevel + 1) ms
  let L := { L with ms := v.2, contLevel := L.contLevel + 1, needSeparator := m.desc ≠ [] || L.needSeparator }
  if v.1 then .ok (.hit r.1, L) else .error (L.ended .error)

/-- An entry of level 0 that matched. -/
def topMatched : Except (Ended W) (Outcome × Loop W) := do
  let L ← handleAnnotation c m L
  let L ← topSep c m L
  let L ← printEntry c m L
  store note c m L

/-- What follows the test of an entry of level 0. -/
def topTested (r : Tested × Loop W) : Except (Ended W) (Outcome × Loop W) :=
  match r.1 with
  | .ended a => .error (r.2.ended a)
  | .short | .failed => .ok (.miss, r.2)
  | .matched => topMatched note c m r.2

/-- The body of the loop over the entries of level 0, up to the continuations. -/
def topStep : Except (Ended W) (Outcome × Loop W) := topTested note c m (test c m (L.topEntered m))

/-- A continuation that matched and is no default that another match suppresses. -/
def contMatched : Except (Ended W) (Outcome × Loop W) := do
  let L ← handleAnnotation c m L
  let L ← contSep c m L
  let L ← contSpace c m L
  let L ← printEntry c m L
  store note c m L

/-- What follows the test of a continuation: `last_match` and `got_match` of its level. -/
def contTested (r : Tested × Loop W) : Except (Ended W) (Outcome × Loop W) :=
  let k := m.contLevel
  match r.1 with
  | .ended a => .error (r.2.ended a)
  | .short => .ok (.miss, r.2)
  | .failed =>
    let L := r.2.note note (.level k r.2.ms.len)
    .ok (.miss, { L with ms := L.ms.setLevel k fun i => { i with lastMatch := false } })
  | .matched =>
    let L := r.2.note note (.level k r.2.ms.len)
    let ms := L.ms.setLevel k fun i => { i with lastMatch := true }
    if m.type ≠ .default then
      contMatched note c m { L with ms := ms.setLevel k fun i => { i with gotMatch := true } }
    else if (ms.li k).gotMatch then
      .ok (.suppressed, { L with ms := ms.setLevel k fun i => { i with gotMatch := false } })
    else contMatched note c m { L with ms }

/-- The body of the loop over the continuations. -/
def contStep : Except (Ended W) (Outcome × Loop W) :=
  if L.contLevel < m.contLevel then .ok (.skipped, L)
  else
    let L := (L.noteIf note (m.has flagOffAdd) (.level ((m.contLevel : ℤ) - 1) L.ms.len)).entered m
    let other := m.cond = .condElse || m.cond = .condElif
    let L := L.noteIf note other (.level m.contLevel L.ms.len)
    if other && (L.ms.li m.contLevel).lastMatch then .ok (.skipped, L)
    else contTested note c m (test c m L)

/-- `while(magindex + 1 < nmagic && magic[magindex + 1].cont_level != 0) magindex++`: the index, and the entries behind it. -/
def skipConts (nmagic : ℕ) : ℕ → List Entry → MagicSet W → (ℕ × List Entry) × MagicSet W
  | i, [], ms => ((i, []), ms)
  | i, m :: behind, ms =>
    let ms := ms.note note (.entry (i + 1) nmagic)
    if m.contLevel ≠ 0 then skipConts nmagic (i + 1) behind ms else ((i, m :: behind), ms)

/-- `while(magic[magindex + 1].cont_level != 0 && ++magindex < nmagic)`: the level is read before the index is compared. -/
def contLoop (nmagic : ℕ) : ℕ → List Entry → Loop W → Except (Ended W) ((ℕ × List Entry) × Loop W)
  | i, [], L => .ok ((i, []), L.note note (.entry (i + 1) nmagic))
  | i, m :: behind, L =>
    let L := L.note note (.entry (i + 1) nmagic)
    if m.contLevel ≠ 0 then
      match contStep note c m L with
      | .error e => .error e
      | .ok (_, L) => contLoop nmagic (i + 1) behind L
    else .ok ((i, m :: behind), L)

/-- The outer loop, from the index `i`. -/
def matchLoop (mode : BitVec 8) (text : Bool) (nmagic : ℕ) : ℕ → ℕ → List Entry → Loop W → Ended W
  | 0, _, _, L | _, _, [], L => L.ended (.ofBool L.returnval)
  | fuel + 1, i, m :: behind, L =>
    let L := L.note note (.entry i nmagic)
    if skips mode text m then
      let r := skipConts note nmagic i behind L.ms
      matchLoop mode text nmagic fuel (r.1.1 + 1) r.1.2 { L with ms := r.2 }
    else
      match topStep note c m L with
      | .error e => e
      | .ok (.hit _, L) =>
        match contLoop note c nmagic i behind (L.note note (.group behind)) with
        | .error e => e
        | .ok (r, L) =>
          let L := closeGroup c L
          if !c.flags.magicContinue && L.printedSomething then L.ended (.ofBool L.returnval)
          else matchLoop mode text nmagic fuel (r.1 + 1) r.2 L
      | .ok (_, L) =>
        let r := skipConts note nmagic i behind L.ms
        matchLoop mode text nmagic fuel (r.1.1 + 1) r.1.2 { L with ms := r.2 }

/-- `match`. -/
def matchMagic (mode : BitVec 8) (text : Bool) (entries : List Entry) (returnval : Bool) (ms : MagicSet W) : Ended W :=
  let r := fileCheckMem note c 0 ms
  let L : Loop W := ⟨r.2, 0, false, true, false, returnval⟩
  if r.1 then matchLoop note c mode text entries.length entries.length 0 entries L else L.ended .error

/-- A call of `match`, followed to a depth of nested calls. -/
def run (lv : Leaves W) (db : Database) : ℕ → Call → Bool → MagicSet W → Ended W
  | 0, _, returnval, ms => ⟨.cut .depth, returnval, ms⟩
  | n + 1, call, returnval, ms =>
    matchMagic note (callees note lv db (run lv db n) call) call.mode call.text call.entries returnval ms

/-- `file_softmagic`. -/
def softmagic (lv : Leaves W) (db : Database) (n : ℕ) (s nbytes : ℕ) (mode : BitVec 8) (text : Bool) (ms : MagicSet W) :
    Answer × MagicSet W :=
  softmagicLoop (run note lv db n) s nbytes mode text db.regular ms

end Noted

/-! ## Where nothing is noted -/

variable {c : Callees W} {m : Entry} {L : Loop W}

theorem MagicSet.noteIf_quiet (b : Bool) (e : Event) (ms : MagicSet W) : ms.noteIf quiet b e = ms := by
  unfold MagicSet.noteIf
  split <;> rfl

theorem Loop.note_quiet (e : Event) (L : Loop W) : L.note quiet e = L := rfl

theorem Loop.noteIf_quiet (b : Bool) (e : Event) (L : Loop W) : L.noteIf quiet b e = L := by
  rw [Loop.noteIf, MagicSet.noteIf_quiet]

theorem Leaves.noting_quiet (contLevel len : ℕ) (lv : Leaves W) : lv.noting quiet contLevel len = lv := by
  unfold Leaves.noting quiet
  simp only [ite_self]

namespace Noted

theorem callees_quiet (lv : Leaves W) (db : Database) (enter : Call → Bool → MagicSet W → Ended W) (call : Call) :
    callees quiet lv db enter call = File.callees lv db enter call := by
  have hget : mget quiet lv db enter call = File.mget lv db enter call := by
    funext m contLevel returnval ms
    rw [mget, Leaves.noting_quiet]
    rfl
  rw [callees, hget]
  rfl

theorem fileCheckMem_quiet (level : ℕ) (ms : MagicSet W) : fileCheckMem quiet c level ms = File.fileCheckMem c level ms := by
  unfold fileCheckMem
  simp only [MagicSet.noteIf_quiet]

theorem store_quiet : store quiet c m L = File.store c m L := by
  unfold store
  simp only [fileCheckMem_quiet]
  rfl

theorem topMatched_quiet : topMatched quiet c m L = File.topMatched c m L := by
  unfold topMatched
  simp only [store_quiet]
  rfl

theorem topStep_quiet : topStep quiet c m L = File.topStep c m L := by
  unfold topStep topTested
  simp only [topMatched_quiet]
  rfl

theorem contMatched_quiet : contMatched quiet c m L = File.contMatched c m L := by
  unfold contMatched
  simp only [store_quiet]
  rfl

theorem contStep_quiet : contStep quiet c m L = File.contStep c m L := by
  unfold contStep contTested
  simp only [contMatched_quiet, Loop.noteIf_quiet]
  rfl

/-- The entries up to the next one of level 0 are passed. -/
theorem skipConts_eq (nmagic i : ℕ) (behind : List Entry) (ms : MagicSet W) :
    ∃ j, skipConts quiet nmagic i behind ms = ((j, behind.dropWhile (·.contLevel ≠ 0)), ms) := by
  induction behind generalizing i with
  | nil => exact ⟨i, rfl⟩
  | cons m behind ih =>
    rw [skipConts, List.dropWhile_cons]
    by_cases hzero : m.contLevel = 0
    · rw [if_neg (by simpa using hzero), if_neg (by simpa using hzero)]
      exact ⟨i, rfl⟩
    · rw [if_pos hzero, if_pos (by simpa using hzero)]
      exact ih (i + 1)

theorem contLoop_eq (nmagic i : ℕ) (behind : List Entry) (L : Loop W) :
    ∃ j, contLoop quiet c nmagic i behind L =
      (File.contLoop c (behind.takeWhile (·.contLevel ≠ 0)) L).2.map fun L' =>
        ((j, behind.dropWhile (·.contLevel ≠ 0)), L') := by
  induction behind generalizing i L with
  | nil => exact ⟨i, rfl⟩
  | cons m behind ih =>
    rw [contLoop, List.takeWhile_cons, List.dropWhile_cons]
    by_cases hzero : m.contLevel = 0
    · rw [if_neg (by simpa using hzero), if_neg (by simpa using hzero), if_neg (by simpa using hzero)]
      exact ⟨i, rfl⟩
    · rw [if_pos hzero, if_pos (by simpa using hzero), if_pos (by simpa using hzero), contStep_quiet]
      rw [Loop.note_quiet]
      cases hstep : File.contStep c m L with
      | error e =>
        rw [contLoop_error hstep]
        exact ⟨i, rfl⟩
      | ok r =>
        rw [contLoop_ok hstep]
        exact ih (i + 1) r.2

end Noted

/-- A group is the first entry, and what follows it up to the next entry of level 0. -/
theorem groups_cons (m : Entry) (behind : List Entry) :
    groups (m :: behind) = (m, behind.takeWhile (·.contLevel ≠ 0)) :: groups (behind.dropWhile (·.contLevel ≠ 0)) := by
  induction behind generalizing m with
  | nil => rfl
  | cons n behind ih =>
    rw [groups, List.takeWhile_cons, List.dropWhile_cons]
    by_cases hzero : n.contLevel = 0
    · rw [if_pos hzero, if_neg (by simpa using hzero), if_neg (by simpa using hzero)]
    · rw [if_neg hzero, if_pos (by simpa using hzero), if_pos (by simpa using hzero), ih n]

namespace Noted

theorem matchLoop_quiet {mode : BitVec 8} {text : Bool} {nmagic fuel i : ℕ} {entries : List Entry}
    (hfuel : entries.length ≤ fuel) :
    matchLoop quiet c mode text nmagic fuel i entries L = (File.matchLoop c mode text (groups entries) L).ended := by
  induction fuel generalizing i entries L with
  | zero =>
    rw [List.length_eq_zero_iff.mp (Nat.le_zero.mp hfuel)]
    rfl
  | succ fuel ih =>
    cases entries with
    | nil => rfl
    | cons m behind =>
      have hrest : (behind.dropWhile (·.contLevel ≠ 0)).length ≤ fuel := by
        have := (List.dropWhile_sublist (l := behind) (·.contLevel ≠ 0)).length_le
        rw [List.length_cons] at hfuel
        omega
      rw [matchLoop, groups_cons, File.matchLoop]
      simp only [Loop.note_quiet]
      split
      case isTrue =>
        obtain ⟨j, hskip⟩ := skipConts_eq nmagic i behind L.ms
        rw [hskip]
        exact ih hrest
      case isFalse =>
        rw [topStep_quiet]
        cases htop : File.topStep c m L with
        | error e => rfl
        | ok r =>
          obtain ⟨o, L'⟩ := r
          cases topStep_done htop with
          | miss =>
            obtain ⟨j, hskip⟩ := skipConts_eq nmagic i behind L'.ms
            dsimp only
            rw [hskip]
            exact ih hrest
          | hit =>
            obtain ⟨j, hconts⟩ := contLoop_eq (c := c) nmagic i behind L'
            dsimp only
            rw [hconts]
            cases (File.contLoop c (behind.takeWhile (·.contLevel ≠ 0)) L').2 with
            | error e => rfl
            | ok L'' =>
              dsimp only [Except.map]
              split
              case isTrue => rfl
              case isFalse => exact ih hrest

theorem matchMagic_quiet (mode : BitVec 8) (text : Bool) (entries : List Entry) (returnval : Bool) (ms : MagicSet W) :
    matchMagic quiet c mode text entries returnval ms = (File.matchMagic c mode text entries returnval ms).ended := by
  unfold matchMagic File.matchMagic
  rw [fileCheckMem_quiet]
  dsimp only
  split
  case isTrue => exact matchLoop_quiet le_rfl
  case isFalse => rfl

theorem run_quiet (lv : Leaves W) (db : Database) (n : ℕ) : run quiet lv db n = File.run lv db n := by
  induction n with
  | zero => rfl
  | succ n ih =>
    funext call returnval ms
    rw [run, ih, callees_quiet, matchMagic_quiet]
    rfl

/-- With indices and without notes, `file_softmagic` is the same. -/
theorem softmagic_quiet (lv : Leaves W) (db : Database) (n s nbytes : ℕ) (mode : BitVec 8) (text : Bool) (ms : MagicSet W) :
    softmagic quiet lv db n s nbytes mode text ms = File.softmagic lv db n s nbytes mode text ms := by
  rw [softmagic, run_quiet]
  rfl

end Noted

end CodingExercises.File
