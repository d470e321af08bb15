import CodingExercises.File.Continuations
import CodingExercises.File.Reads

/-!
# file: bounds

Every access of a run of `file_softmagic` is in bounds, as long as every entry is got where it fits and no group that matches
is the last one of its array (`softmagic_bounds`). Nothing in the code sees to either (`not_bounds_operand`).

- `mget_fair`: what one call of `mget` notes, with what it calls;
- `contStep_fair`, `topStep_fair`: what an entry notes, and that the counter stays below `ms->c.len`;
- `matchMagic_fair`, `run_fair`: the loops, and the calls of `match`.
-/

namespace CodingExercises.File

open CodingExercises.Lib

variable {R : Type} {x : Outside R} {s nbytes : ℕ} {ms ms' ms'' : MagicSet (Work R)}

/-- From one state to another: there are no fewer levels, and all that was noted in between keeps to what is promised. -/
structure Fair (x : Outside R) (s nbytes : ℕ) (ms ms' : MagicSet (Work R)) : Prop where
  len : ms.len ≤ ms'.len
  keeps : Keeps (Event.Fits x) (Event.InBounds s nbytes) ms.work.log ms'.work.log

theorem Fair.of_eq (hlen : ms'.len = ms.len) (hlog : ms'.work.log = ms.work.log) : Fair x s nbytes ms ms' :=
  ⟨hlen.ge, hlog ▸ .refl _⟩

theorem Fair.refl (ms : MagicSet (Work R)) : Fair x s nbytes ms ms := .of_eq rfl rfl

theorem Fair.trans (h : Fair x s nbytes ms ms') (h' : Fair x s nbytes ms' ms'') : Fair x s nbytes ms ms'' :=
  ⟨h.len.trans h'.len, h.keeps.trans h'.keeps⟩

theorem Fair.note {e : Event} (h : Event.InBounds s nbytes e) : Fair x s nbytes ms (ms.note Work.note e) :=
  ⟨le_rfl, note_keeps h⟩

theorem Fair.note_of_relies {e : Event} (h : Relies (Event.Fits x) ms.work.log (Event.InBounds s nbytes e)) :
    Fair x s nbytes ms (ms.note Work.note e) :=
  ⟨le_rfl, .note (h.mono (List.suffix_cons _ _))⟩

theorem Fair.noteIf {e : Event} {b : Bool} (h : b = true → Event.InBounds s nbytes e) :
    Fair x s nbytes ms (ms.noteIf Work.note b e) := by
  unfold MagicSet.noteIf
  split
  case isTrue hb => exact .note (h hb)
  case isFalse => exact .refl _

/-! ## `mget` -/

variable {call : Call} {m : Entry} {contLevel : ℕ}

theorem low32_le (n : ℕ) : low32 n ≤ n := Nat.mod_le _ _

/-- What `mcopy` leaves to `magiccheck` to search. -/
def Positioned (call : Call) (m : Entry) (p n : ℕ) (search : Search) : Prop :=
  (m.type = .search → search.s = call.s + p ∧ search.sLen = sizeT (n - p)) ∧
    (m.type = .regex → search.s = call.s + p ∧ (p ≤ n → search.sLen ≤ n - p))

theorem mcopy_positioned {w : Work R} {p : BitVec 32} {n : ℕ} (hin : call.Inside s nbytes) (hn : n ≤ call.nbytes)
    (hfits : Relies (Event.Fits x) w.log (CopyFits x m call p.toNat n)) :
    Positioned call m p.toNat n (mcopy x m.type false call.s p n m.strRange w).2.search := by
  constructor
  · intro htype
    rw [htype]
    exact ⟨rfl, rfl⟩
  · intro htype
    unfold CopyFits at hfits
    rw [htype] at hfits ⊢
    exact ⟨rfl, (copyRegex_keeps hin hn hfits).2⟩

/-- The search of an entry that fits is in the file. -/
theorem Positioned.ready {p n : ℕ} {search : Search} (h : Positioned call m p n search) (hin : call.Inside s nbytes)
    (hn : n ≤ call.nbytes) (hfits : SearchFits x m call p n) : Ready x s nbytes m search := by
  obtain ⟨hlo, hhi⟩ := hin
  unfold SearchFits at hfits
  unfold Ready
  cases htype : m.type
  case search =>
    rw [htype] at hfits
    obtain ⟨hs, hlen⟩ := h.1 htype
    intro idx htried
    rw [hs, hlen] at htried
    rw [hs]
    refine inBounds_bytes (by omega) ?_
    rcases hfits with ⟨hle, hflags⟩ | hfits
    · have hreach := @strncmp_reach _ x m.strFlags hflags (call.s + p + idx) (min m.vallen maxString) m.value 0 0
      have hidx := htried.1
      unfold sizeT at hidx
      unfold compareAt
      omega
    · have := hfits idx htried
      omega
  case regex =>
    rw [htype] at hfits
    obtain ⟨hs, hlen⟩ := h.2 htype
    intro hcomp
    rw [hs]
    have := hlen (hfits hcomp)
    exact inBounds_bytes (by omega) (by have := hfits hcomp; omega)
  all_goals trivial

theorem indirect_fst (flip : Bool) (s nbytes : ℕ) (offset : BitVec 32) (w : Work R) :
    (indirect x m flip s nbytes offset w).1 = indirectOf m (cvtFlip m.inType flip) w.value
      (indirectOff x.mem m (cvtFlip m.inType flip) s offset) nbytes offset := by
  unfold indirect
  dsimp only
  split
  case h_1 => rfl
  case h_2 => split <;> rfl

theorem indirect_keeps {w : Work R} (hin : call.Inside s nbytes) (offset base : BitVec 32)
    (hfits : Relies (Event.Fits x) w.log (GetFits x call m contLevel offset base)) (hindir : m.has flagIndir = true) :
    Keeps (Event.Fits x) (Event.InBounds s nbytes) w.log (indirect x m call.flip call.s call.nbytes offset w).2.log := by
  obtain ⟨hlo, hhi⟩ := hin
  unfold indirect
  dsimp only
  split
  case h_1 => exact .refl _
  case h_2 width hwidth =>
    split
    case isTrue hop =>
      refine .note ((hfits.mono (List.suffix_cons _ _)).imp fun h => ?_)
      obtain ⟨hle, hhi'⟩ := h.operand hindir hop width hwidth
      exact inBounds_bytes (by omega) (by omega)
    case isFalse => exact .refl _

/-- `mget` is called. -/
def MagicSet.got (ms : MagicSet (Work R)) (call : Call) (m : Entry) (contLevel : ℕ) : MagicSet (Work R) :=
  ms.note Work.note (.get call m contLevel ms.offset (indirBase m contLevel ms))

/-- Where the copies of `mget` leave the entry. -/
def Located (x : Outside R) (call : Call) (m : Entry) (offset base : BitVec 32)
    (r : Except Answer (BitVec 32) × MagicSet (Work R)) : Prop :=
  ∀ off, r.1 = .ok off → ∃ p n, n ≤ call.nbytes ∧ located x call m offset base = some (p, n, off) ∧
    Positioned call m p n r.2.work.search

/-- What the copies of `mget` read is in the file. -/
theorem locate_fair (hin : call.Inside s nbytes) (hlevel : contLevel < ms.len)
    (hfits : Relies (Event.Fits x) ms.work.log (GetFits x call m contLevel ms.offset (indirBase m contLevel ms))) :
    Fair x s nbytes ms (locate ((leaves x).noting Work.note contLevel ms.len) call m contLevel ms).2 ∧
      Located x call m ms.offset (indirBase m contLevel ms)
        (locate ((leaves x).noting Work.note contLevel ms.len) call m contLevel ms) := by
  have hlow := low32_le call.nbytes
  unfold locate
  dsimp only [Leaves.noting, leaves]
  cases hindir : m.has flagIndir with
  | false =>
    have hlocated : located x call m ms.offset (indirBase m contLevel ms) =
        some ((ms.offset + .ofNat 32 call.offset).toNat, low32 call.nbytes, ms.offset) := by
      rw [located, if_neg (by simp [hindir])]
    have hcopy := hfits.imp fun h => h.copy _ _ _ hlocated
    have hkeeps := @mcopy_keeps _ x s nbytes ms.work call m false _ _ hin hlow fun _ => hcopy
    have hpos := mcopy_positioned hin hlow hcopy
    split
    case isTrue => exact ⟨⟨le_rfl, hkeeps⟩, fun off h => by cases h⟩
    case isFalse =>
      rw [if_neg Bool.false_ne_true]
      refine ⟨⟨le_rfl, hkeeps⟩, fun off h => ?_⟩
      cases h
      exact ⟨_, _, hlow, hlocated, hpos⟩
  | true =>
    have hcopied : mcopy x m.type true call.s (ms.offset + .ofNat 32 call.offset) (low32 call.nbytes) m.strRange ms.work =
        (true, copyValue x call.s (ms.offset + .ofNat 32 call.offset).toNat (low32 call.nbytes) ms.work) := rfl
    have hkeeps := @copyValue_keeps _ x s nbytes ms.work call (ms.offset + .ofNat 32 call.offset).toNat _ hin hlow
    rw [hcopied]
    simp only [Bool.not_true, Bool.false_eq_true, if_false, if_true]
    generalize hw : copyValue x call.s (ms.offset + .ofNat 32 call.offset).toNat (low32 call.nbytes) ms.work = w
      at hkeeps
    have hvalue : w.value = copied x.mem call.s (ms.offset + .ofNat 32 call.offset).toNat (low32 call.nbytes) := by
      rw [← hw, copyValue]
      split <;> rfl
    have hdata : (indirect x m call.flip call.s call.nbytes ms.offset w).1 = dataOffset x call m ms.offset := by
      rw [dataOffset, ← hvalue, indirect_fst]
    have hkeeps := hkeeps.trans (indirect_keeps hin ms.offset _ (hfits.mono hkeeps.grows) hindir)
    rw [hdata]
    generalize (indirect x m call.flip call.s call.nbytes ms.offset w).2 = w₁ at hkeeps
    cases hoff : dataOffset x call m ms.offset with
    | none =>
      simp only [Option.isSome_none, Bool.false_and, Bool.false_eq_true, if_false]
      exact ⟨⟨le_rfl, hkeeps⟩, fun off h => by cases h⟩
    | some off =>
      have hlocated : located x call m ms.offset (indirBase m contLevel ms) =
          some ((off + indirBase m contLevel ms).toNat, call.nbytes, off + indirBase m contLevel ms) := by
        rw [located, if_pos hindir, hoff]
        rfl
      simp only [Option.isSome_some, Bool.true_and]
      have hlevels : Keeps (Event.Fits x) (Event.InBounds s nbytes) ms.work.log
          (if m.has flagIndirOffAdd then w₁.note (.level ((contLevel : ℤ) - 1) ms.len) else w₁).log := by
        split
        case isTrue hadd =>
          refine hkeeps.trans (.note (((hfits.mono hkeeps.grows).mono (List.suffix_cons _ _)).imp fun h => ?_))
          have := h.level hindir hadd (hoff ▸ rfl)
          exact ⟨by omega, by omega⟩
        case isFalse => exact hkeeps
      generalize (if m.has flagIndirOffAdd then w₁.note (.level ((contLevel : ℤ) - 1) ms.len) else w₁) = w₂ at hlevels
      have hcopy := (hfits.mono hlevels.grows).imp fun h => h.copy _ _ _ hlocated
      have hkeeps' := hlevels.trans (@mcopy_keeps _ x s nbytes w₂ call m false _ _ hin le_rfl fun _ => hcopy)
      have hpos := mcopy_positioned hin le_rfl hcopy
      have hbase : indirBase m contLevel { ms with work := w₂ } = indirBase m contLevel ms := rfl
      rw [hbase]
      split
      case isTrue => exact ⟨⟨le_rfl, hkeeps'⟩, fun off' h => by cases h⟩
      case isFalse =>
        refine ⟨⟨le_rfl, hkeeps'⟩, fun off' h => ?_⟩
        cases h
        exact ⟨_, _, le_rfl, hlocated, hpos⟩

/-- Every call of `match` for data in the file. -/
def Calls (x : Outside R) (s nbytes : ℕ) (enter : Call → Bool → MagicSet (Work R) → Ended (Work R)) : Prop :=
  ∀ call returnval ms, call.Inside s nbytes → Fair x s nbytes ms (enter call returnval ms).ms

variable {db : Database} {enter : Call → Bool → MagicSet (Work R) → Ended (Work R)}

theorem softmagicLoop_fair (henter : Calls x s nbytes enter) {s' nbytes' : ℕ} (hlo : s ≤ s') (hhi : s' + nbytes' ≤ s + nbytes)
    (mode : BitVec 8) (text : Bool) (ls : List (List Entry)) (ms : MagicSet (Work R)) :
    Fair x s nbytes ms (softmagicLoop enter s' nbytes' mode text ls ms).2 := by
  induction ls generalizing ms with
  | nil => exact .refl _
  | cons entries ls ih =>
    have hcall := henter ⟨entries, s', nbytes', 0, mode, text, false⟩ false ms ⟨hlo, hhi⟩
    rw [softmagicLoop]
    split
    case isTrue => exact hcall.trans (ih _)
    case isFalse => exact hcall

theorem getIndirect_fair (henter : Calls x s nbytes enter) (hin : call.Inside s nbytes) (len : ℕ) (offset : BitVec 32) :
    Fair x s nbytes ms (getIndirect ((leaves x).noting Work.note contLevel len) db enter call m offset ms).2 := by
  obtain ⟨hlo, hhi⟩ := hin
  unfold getIndirect
  split
  case isTrue => exact .refl _
  case isFalse hshort =>
    have hopen : Fair x s nbytes ms
        { ms with work := ((leaves x).noting Work.note contLevel len).openOut ms.work, offset := 0 } := .of_eq rfl rfl
    have hloop := hopen.trans (@softmagicLoop_fair _ x s nbytes enter henter (call.s + offset.toNat)
      (call.nbytes - offset.toNat) (by omega) (by omega) binTest call.text db.regular _)
    dsimp only
    split
    case isTrue => exact hloop.trans (.of_eq rfl rfl)
    case isFalse => exact hloop.trans (.of_eq rfl rfl)

theorem getUse_fair (henter : Calls x s nbytes enter) (hin : call.Inside s nbytes) (offset : BitVec 32) (returnval : Bool) :
    Fair x s nbytes ms (getUse db enter call m offset returnval ms).2.2 := by
  unfold getUse
  split
  case isTrue => exact .refl _
  case isFalse =>
    dsimp only
    split
    case h_1 => exact .refl _
    case h_2 => exact henter _ _ _ hin

/-- What `mget` reads is in the file, and so is what it leaves to `magiccheck`. -/
theorem mget_fair (henter : Calls x s nbytes enter) (hin : call.Inside s nbytes) (hlevel : contLevel < ms.len)
    (returnval : Bool) :
    Fair x s nbytes ms (Noted.mget Work.note (leaves x) db enter call m contLevel returnval ms).2.2 ∧
      ((Noted.mget Work.note (leaves x) db enter call m contLevel returnval ms).1 = .yes →
        Relies (Event.Fits x) (Noted.mget Work.note (leaves x) db enter call m contLevel returnval ms).2.2.work.log
          (Ready x s nbytes m (Noted.mget Work.note (leaves x) db enter call m contLevel returnval ms).2.2.work.search)) := by
  have hget : Fair x s nbytes ms (ms.got call m contLevel) := .note trivial
  have hfits : Relies (Event.Fits x) (ms.got call m contLevel).work.log
      (GetFits x call m contLevel ms.offset (indirBase m contLevel ms)) :=
    @Relies.of_mem _ (Event.Fits x) _ (.get call m contLevel ms.offset (indirBase m contLevel ms)) List.mem_cons_self
  obtain ⟨hloc, hlocated⟩ := @locate_fair _ x s nbytes (ms.got call m contLevel) call m contLevel hin hlevel hfits
  have hfits := hfits.mono hloc.keeps.grows
  have hready {search : Search} (h : ∀ t ∈ [FileType.search, .regex], m.type ≠ t) : Ready x s nbytes m search := by
    unfold Ready
    split
    case h_1 htype => exact absurd htype (h _ (by simp))
    case h_2 htype => exact absurd htype (h _ (by simp))
    case h_3 => trivial
  unfold Noted.mget mget
  rw [show ms.note Work.note (.get call m contLevel ms.offset (indirBase m contLevel ms)) = ms.got call m contLevel from rfl]
  have hlen : (ms.got call m contLevel).len = ms.len := rfl
  rw [hlen] at hloc hlocated hfits
  dsimp only
  generalize hr : locate ((leaves x).noting Work.note contLevel ms.len) call m contLevel (ms.got call m contLevel) = r
    at hloc hlocated hfits
  have hloc := hget.trans hloc
  cases hoff : r.1 with
  | error a =>
    refine ⟨hloc, fun h => ?_⟩
    have h : a = .yes := h
    rcases locate_answer (hr ▸ hoff) with rfl | rfl <;> cases h
  | ok off =>
    obtain ⟨p, n, hn, hlocated, hpos⟩ := hlocated off hoff
    dsimp only
    split
    case h_1 htype =>
      refine ⟨hloc.trans (getIndirect_fair henter hin ms.len off), fun _ _ => hready fun t ht => ?_⟩
      rw [htype]
      revert ht
      revert t
      decide
    case h_2 htype =>
      refine ⟨hloc.trans (getUse_fair henter hin off returnval), fun _ _ => hready fun t ht => ?_⟩
      rw [htype]
      revert ht
      revert t
      decide
    case h_3 htype =>
      refine ⟨hloc.trans (.of_eq rfl rfl), fun _ _ => hready fun t ht => ?_⟩
      rw [htype]
      revert ht
      revert t
      decide
    case h_4 =>
      split
      case isTrue => exact ⟨hloc, fun h => by cases h⟩
      case isFalse hshort =>
        refine ⟨hloc.trans (.of_eq rfl rfl), fun _ => hfits.imp fun h => ?_⟩
        exact hpos.ready hin hn (h.search _ _ _ hlocated (by simpa using hshort))

/-! ## One entry -/

/-- What `match` calls keeps to what is promised, and only `mget` and `magiccheck` note anything. -/
structure Careful (x : Outside R) (s nbytes : ℕ) (c : Callees (Work R)) : Prop where
  get : ∀ m k returnval ms, k < ms.len → Fair x s nbytes ms (c.mget m k returnval ms).2.2 ∧
    ((c.mget m k returnval ms).1 = .yes → Relies (Event.Fits x) (c.mget m k returnval ms).2.2.work.log
      (Ready x s nbytes m (c.mget m k returnval ms).2.2.work.search))
  check : ∀ m off w, c.magiccheck m off w = magiccheck x m w
  mprint : ∀ m off w, (c.mprint m off w).2.log = w.log
  moffset : ∀ m off w, (c.moffset m off w).2.log = w.log
  printf : ∀ t w, (c.printf t w).2.log = w.log

theorem callees_careful (henter : Calls x s nbytes enter) (hin : call.Inside s nbytes) :
    Careful x s nbytes (Noted.callees Work.note (leaves x) db enter call) where
  get _ _ returnval _ hlevel := mget_fair henter hin hlevel returnval
  check _ _ _ := rfl
  mprint _ _ _ := rfl
  moffset _ _ _ := rfl
  printf _ _ := rfl

variable {c : Callees (Work R)} {L L' : Loop (Work R)}

/-- The counter of the levels is below their number. -/
def Loop.Low (L : Loop (Work R)) : Prop := L.contLevel < L.ms.len

theorem test_fair (hc : Careful x s nbytes c) (hlow : L.Low) :
    Fair x s nbytes L.ms (test c m L).2.ms ∧ (test c m L).2.contLevel = L.contLevel := by
  obtain ⟨hget, hready⟩ := hc.get m L.contLevel L.returnval L.ms hlow
  refine ⟨?_, (test_eq c m L).1⟩
  unfold test
  dsimp only
  split
  case h_4 hyes =>
    have hcheck (L₁ : Loop (Work R)) (hms : L₁.ms = (c.mget m L.contLevel L.returnval L.ms).2.2) :
        Fair x s nbytes L.ms { L₁.ms with work := (c.magiccheck m L₁.ms.offset L₁.ms.work).2 } := by
      rw [hms, hc.check]
      exact hget.trans ⟨le_rfl, magiccheck_keeps (hready hyes)⟩
    by_cases htype : m.type = .indirect
    · rw [if_pos htype]
      have := hcheck { L with ms := (c.mget m L.contLevel L.returnval L.ms).2.2, returnval := true } rfl
      split <;> exact this
    · rw [if_neg htype]
      have := hcheck { L with ms := (c.mget m L.contLevel L.returnval L.ms).2.2 } rfl
      split <;> exact this
  all_goals exact hget

/-- The state that a part of `match` ends with. -/
def ending {α : Type} (state : α → MagicSet (Work R)) : Except (Ended (Work R)) α → MagicSet (Work R)
  | .ok a => state a
  | .error e => e.ms

theorem bind_fair {α β : Type} {f : α → Except (Ended (Work R)) β} {r : Except (Ended (Work R)) α}
    {state : α → MagicSet (Work R)} {state' : β → MagicSet (Work R)} (h : Fair x s nbytes ms (ending state r))
    (hf : ∀ a, r = .ok a → Fair x s nbytes (state a) (ending state' (f a))) :
    Fair x s nbytes ms (ending state' (r >>= f)) := by
  cases r with
  | error e => exact h
  | ok a => exact h.trans (hf a rfl)

theorem output_fair {f : Work R → Bool × Work R} (hf : ∀ w, (f w).2.log = w.log) :
    Fair x s nbytes L.ms (ending Loop.ms (output f L)) := by
  unfold output
  dsimp only
  split <;> exact .of_eq rfl (hf _)

theorem handleAnnotation_fair (hc : Careful x s nbytes c) :
    Fair x s nbytes L.ms (ending Loop.ms ( handleAnnotation c m L)) := by
  have hprint (t : List Char) (L : Loop (Work R)) :
      Fair x s nbytes L.ms (ending Loop.ms ((output (c.printf t) L).bind fun L => .error (L.ended .yes))) :=
    bind_fair (output_fair (hc.printf t)) fun L' _ => .refl L'.ms
  unfold handleAnnotation
  split
  case isTrue => exact hprint _ { L with returnval := true }
  case isFalse =>
    split
    case isTrue => exact hprint _ { L with returnval := true }
    case isFalse => exact .refl _

theorem printSep_fair (hc : Careful x s nbytes c) : Fair x s nbytes L.ms (ending Loop.ms (printSep c L)) := by
  unfold printSep
  split
  case isTrue => exact .refl _
  case isFalse => exact output_fair (hc.printf _)

theorem printEntry_fair (hc : Careful x s nbytes c) : Fair x s nbytes L.ms (ending Loop.ms (printEntry c m L)) := by
  unfold printEntry
  split
  case isTrue => exact output_fair (hc.mprint m L.ms.offset)
  case isFalse => exact .refl _

theorem topSep_fair (hc : Careful x s nbytes c) : Fair x s nbytes L.ms (ending Loop.ms (topSep c m L)) := by
  unfold topSep
  split
  case isTrue => exact @printSep_fair _ _ _ _ _ { L with needSeparator := true, printedSomething := true } hc
  case isFalse => exact .refl _

theorem contSep_fair (hc : Careful x s nbytes c) : Fair x s nbytes L.ms (ending Loop.ms (contSep c m L)) := by
  unfold contSep
  split
  case isTrue => exact @printSep_fair _ _ _ _ _ { L with printedSomething := true } hc
  case isFalse => exact .refl _

theorem contSpace_fair (hc : Careful x s nbytes c) : Fair x s nbytes L.ms (ending Loop.ms (contSpace c m L)) := by
  unfold contSpace
  split
  case isTrue =>
    dsimp only
    split
    case isTrue => exact @output_fair _ _ _ _ { L with needSeparator := false } _ (hc.printf _)
    case isFalse => exact .refl _
  case isFalse => exact .refl _

theorem Same.low (h : Same L L') (hlow : L.Low) : L'.Low := by
  rw [Loop.Low, h.contLevel, h.len]
  exact hlow

/-- What a step notes, and the counter behind it. -/
structure StepFair (x : Outside R) (s nbytes : ℕ) (ms : MagicSet (Work R))
    (r : Except (Ended (Work R)) (Outcome × Loop (Work R))) : Prop where
  fair : Fair x s nbytes ms (ending (·.2.ms) r)
  low : ∀ o L', r = .ok (o, L') → L'.Low

theorem StepFair.bind {r : Except (Ended (Work R)) (Loop (Work R))}
    {f : Loop (Work R) → Except (Ended (Work R)) (Outcome × Loop (Work R))} (h : Fair x s nbytes ms (ending Loop.ms r))
    (hf : ∀ L, r = .ok L → StepFair x s nbytes L.ms (f L)) : StepFair x s nbytes ms (r >>= f) where
  fair := bind_fair h fun L hL => (hf L hL).fair
  low o L' hr := by
    obtain ⟨L, hL, hr⟩ := bind_ok hr
    exact (hf L hL).low o L' hr

/-- There is a level behind one that there is. -/
theorem fileCheckMem_fair {level : ℕ} (hlevel : level ≤ ms.len) :
    Fair x s nbytes ms (Noted.fileCheckMem Work.note c level ms).2 ∧
      ((Noted.fileCheckMem Work.note c level ms).1 = true → level < (Noted.fileCheckMem Work.note c level ms).2.len) := by
  have hmem : ms.len ≤ (fileCheckMem c level ms).2.len ∧ (fileCheckMem c level ms).2.work = ms.work ∧
      ((fileCheckMem c level ms).1 = true → level < (fileCheckMem c level ms).2.len) := by
    unfold fileCheckMem
    dsimp only
    split
    case isTrue =>
      split
      case isTrue => exact ⟨Nat.le_add_right _ _, rfl, fun _ => by simp only [MagicSet.setLevel]; omega⟩
      case isFalse => exact ⟨Nat.le_add_right _ _, rfl, fun h => by cases h⟩
    case isFalse hlt => exact ⟨le_rfl, rfl, fun _ => by simp only [MagicSet.setLevel]; omega⟩
  obtain ⟨hlen, hwork, hlt⟩ := hmem
  have hfair : Fair x s nbytes ms (fileCheckMem c level ms).2 := ⟨hlen, hwork ▸ .refl _⟩
  unfold Noted.fileCheckMem
  refine ⟨hfair.trans (.noteIf fun h => ⟨by omega, by have := hlt h; omega⟩), fun h => ?_⟩
  have hlen' {b : Bool} {e : Event} {ms : MagicSet (Work R)} : (ms.noteIf Work.note b e).len = ms.len := by
    unfold MagicSet.noteIf
    split <;> rfl
  rw [hlen']
  exact hlt h

theorem store_fair (hc : Careful x s nbytes c) (hlow : L.Low) :
    StepFair x s nbytes L.ms (Noted.store Work.note c m L) := by
  have hlevel : Event.InBounds s nbytes (.level L.contLevel L.ms.len) :=
    ⟨Int.natCast_nonneg _, Int.ofNat_lt.mpr hlow⟩
  have hoff : Fair x s nbytes L.ms { L.ms with work := (c.moffset m L.ms.offset L.ms.work).2 } :=
    .of_eq rfl (hc.moffset m L.ms.offset L.ms.work)
  have hnote := hoff.trans (.note hlevel)
  have hset : Fair x s nbytes L.ms (({ L.ms with work := (c.moffset m L.ms.offset L.ms.work).2 }.note Work.note
      (.level L.contLevel L.ms.len)).setLevel L.contLevel
        fun i => { i with off := (c.moffset m L.ms.offset L.ms.work).1 }) := hnote.trans (.of_eq rfl rfl)
  obtain ⟨hmem, hlt⟩ := @fileCheckMem_fair _ x s nbytes _ c (L.contLevel + 1) (hlow.trans_le hset.len)
  have hmem := hset.trans hmem
  unfold Noted.store
  dsimp only
  split
  case isTrue hok =>
    refine ⟨hmem, fun o L' h => ?_⟩
    cases h
    exact hlt hok
  case isFalse => exact ⟨hmem, fun o L' h => by cases h⟩

theorem topMatched_fair (hc : Careful x s nbytes c) (hlow : L.Low) :
    StepFair x s nbytes L.ms (Noted.topMatched Work.note c m L) := by
  unfold Noted.topMatched
  refine .bind (handleAnnotation_fair hc) fun L₁ h₁ => ?_
  rw [handleAnnotation_same h₁]
  refine .bind (topSep_fair hc) fun L₂ h₂ => ?_
  refine .bind (printEntry_fair hc) fun L₃ h₃ => ?_
  exact store_fair hc (((topSep_same h₂).trans (printEntry_same h₃)).low hlow)

theorem Fair.step {r : Except (Ended (Work R)) (Outcome × Loop (Work R))} (h : Fair x s nbytes ms ms')
    (h' : StepFair x s nbytes ms' r) : StepFair x s nbytes ms r :=
  ⟨h.trans h'.fair, h'.low⟩

theorem topStep_fair (hc : Careful x s nbytes c) (hlow : L.Low) :
    StepFair x s nbytes L.ms (Noted.topStep Work.note c m L) := by
  obtain ⟨htest, hlevel⟩ := @test_fair _ x s nbytes m c (L.topEntered m) hc hlow
  have htest : Fair x s nbytes L.ms (test c m (L.topEntered m)).2.ms := ⟨htest.len, htest.keeps⟩
  have hlow' : (test c m (L.topEntered m)).2.Low := by
    have := htest.len
    rw [Loop.Low, hlevel]
    exact hlow.trans_le this
  unfold Noted.topStep Noted.topTested
  split
  case h_1 => exact ⟨htest, fun o L' h => by cases h⟩
  case h_2 =>
    refine ⟨htest, fun o L' h => ?_⟩
    cases h
    exact hlow'
  case h_3 =>
    refine ⟨htest, fun o L' h => ?_⟩
    cases h
    exact hlow'
  case h_4 => exact htest.step (topMatched_fair hc hlow')

theorem contMatched_fair (hc : Careful x s nbytes c) (hlow : L.Low) :
    StepFair x s nbytes L.ms (Noted.contMatched Work.note c m L) := by
  unfold Noted.contMatched
  refine .bind (handleAnnotation_fair hc) fun L₁ h₁ => ?_
  rw [handleAnnotation_same h₁]
  refine .bind (contSep_fair hc) fun L₂ h₂ => ?_
  refine .bind (contSpace_fair hc) fun L₃ h₃ => ?_
  refine .bind (printEntry_fair hc) fun L₄ h₄ => ?_
  have hsame := ((contSep_same h₂).trans (contSpace_same h₃)).trans (printEntry_same h₄)
  exact store_fair hc (hsame.low hlow)

/-- `last_match` and `got_match` are at the level of the entry, which is the counter. -/
theorem contTested_fair {r : Tested × Loop (Work R)} (hc : Careful x s nbytes c) (hlow : r.2.Low)
    (hlevel : r.2.contLevel = m.contLevel) : StepFair x s nbytes r.2.ms (Noted.contTested Work.note c m r) := by
  have hnote : Fair x s nbytes r.2.ms (r.2.note Work.note (.level m.contLevel r.2.ms.len)).ms :=
    .note ⟨by omega, by rw [Loop.Low, hlevel] at hlow; omega⟩
  unfold Noted.contTested
  dsimp only
  split
  case h_1 => exact ⟨.refl _, fun o L' h => by cases h⟩
  case h_2 =>
    refine ⟨.refl _, fun o L' h => ?_⟩
    cases h
    exact hlow
  case h_3 =>
    refine ⟨hnote.trans (.of_eq rfl rfl), fun o L' h => ?_⟩
    cases h
    exact hlow
  case h_4 =>
    have hmatched (L₁ : Loop (Work R)) (hlow₁ : L₁.Low) (h : Fair x s nbytes r.2.ms L₁.ms) :
        StepFair x s nbytes r.2.ms (Noted.contMatched Work.note c m L₁) := h.step (contMatched_fair hc hlow₁)
    split
    case isTrue => exact hmatched _ hlow (hnote.trans (.of_eq rfl rfl))
    case isFalse =>
      split
      case isTrue =>
        refine ⟨hnote.trans (.of_eq rfl rfl), fun o L' h => ?_⟩
        cases h
        exact hlow
      case isFalse => exact hmatched _ hlow (hnote.trans (.of_eq rfl rfl))

/-- A continuation that is not above the counter is at a level that there is, and so is the level below it. -/
theorem contStep_fair (hc : Careful x s nbytes c) (hlow : L.Low) (hcont : m.contLevel ≠ 0) :
    StepFair x s nbytes L.ms (Noted.contStep Work.note c m L) := by
  unfold Noted.contStep
  split
  case isTrue =>
    refine ⟨.refl _, fun o L' h => ?_⟩
    cases h
    exact hlow
  case isFalse hle =>
    have hlt : m.contLevel < L.ms.len := (not_lt.mp hle).trans_lt hlow
    have hlen {b : Bool} {e : Event} {L : Loop (Work R)} : (L.noteIf Work.note b e).ms.len = L.ms.len := by
      unfold Loop.noteIf MagicSet.noteIf
      dsimp only
      split <;> rfl
    dsimp only
    have hbelow : Fair x s nbytes L.ms
        (L.noteIf Work.note (m.has flagOffAdd) (.level ((m.contLevel : ℤ) - 1) L.ms.len)).ms :=
      .noteIf fun _ => ⟨by omega, by omega⟩
    generalize hL₁ : L.noteIf Work.note (m.has flagOffAdd) (.level ((m.contLevel : ℤ) - 1) L.ms.len) = L₁ at hbelow
    have hlen₁ : L₁.ms.len = L.ms.len := hL₁ ▸ hlen
    have hlevel : Event.InBounds s nbytes (.level m.contLevel (L₁.entered m).ms.len) := by
      refine ⟨Int.natCast_nonneg _, ?_⟩
      rw [show (L₁.entered m).ms.len = L₁.ms.len from rfl, hlen₁]
      omega
    have hentered : Fair x s nbytes L.ms (L₁.entered m).ms := hbelow.trans (.of_eq rfl rfl)
    have hcond : Fair x s nbytes L.ms ((L₁.entered m).noteIf Work.note (m.cond = .condElse || m.cond = .condElif)
        (.level m.contLevel (L₁.entered m).ms.len)).ms :=
      hentered.trans (.noteIf fun _ => hlevel)
    generalize hL₂ : (L₁.entered m).noteIf Work.note (m.cond = .condElse || m.cond = .condElif)
      (.level m.contLevel (L₁.entered m).ms.len) = L₂ at hcond
    have hlevel₂ : L₂.contLevel = m.contLevel := hL₂ ▸ rfl
    have hlow₂ : L₂.Low := by
      have := hcond.len
      rw [Loop.Low, hlevel₂]
      omega
    split
    case isTrue =>
      refine ⟨hcond, fun o L' h => ?_⟩
      cases h
      exact hlow₂
    case isFalse =>
      obtain ⟨htest, hlevel⟩ := @test_fair _ x s nbytes m c L₂ hc hlow₂
      refine (hcond.trans htest).step (contTested_fair hc ?_ (hlevel.trans hlevel₂))
      rw [Loop.Low, hlevel]
      exact hlow₂.trans_le htest.len

/-! ## The loops -/

variable {nmagic i : ℕ} {behind : List Entry}

theorem skipConts_fair (hlen : i + 1 + behind.length = nmagic) :
    Fair x s nbytes ms (Noted.skipConts Work.note nmagic i behind ms).2 ∧
      (Noted.skipConts Work.note nmagic i behind ms).1.1 + 1 + (Noted.skipConts Work.note nmagic i behind ms).1.2.length =
        nmagic := by
  induction behind generalizing i ms with
  | nil => exact ⟨.refl _, hlen⟩
  | cons m behind ih =>
    rw [List.length_cons] at hlen
    have hnote : Fair x s nbytes ms (ms.note Work.note (.entry (i + 1) nmagic)) :=
      .note (show i + 1 < nmagic by omega)
    rw [Noted.skipConts]
    split
    case isTrue =>
      obtain ⟨hfair, hlen'⟩ := @ih (ms.note Work.note (.entry (i + 1) nmagic)) (i + 1) (by omega)
      exact ⟨hnote.trans hfair, hlen'⟩
    case isFalse => exact ⟨hnote, by rw [List.length_cons]; omega⟩

/-- There is an entry to stop at. -/
theorem contLoop_fair (hc : Careful x s nbytes c) (hlow : L.Low) (hlen : i + 1 + behind.length = nmagic)
    (hlast : Relies (Event.Fits x) L.ms.work.log (∃ m ∈ behind, m.contLevel = 0)) :
    Fair x s nbytes L.ms (ending (·.2.ms) (Noted.contLoop Work.note c nmagic i behind L)) ∧
      ∀ r L', Noted.contLoop Work.note c nmagic i behind L = .ok (r, L') → L'.Low ∧ r.1 + 1 + r.2.length = nmagic := by
  induction behind generalizing i L with
  | nil =>
    refine ⟨.note_of_relies (hlast.imp fun h => ?_), fun r L' h => ?_⟩
    · obtain ⟨m, hm, -⟩ := h
      cases hm
    · cases h
      exact ⟨hlow, hlen⟩
  | cons m behind ih =>
    rw [List.length_cons] at hlen
    have hnote : Fair x s nbytes L.ms (L.note Work.note (.entry (i + 1) nmagic)).ms :=
      .note (show i + 1 < nmagic by omega)
    rw [Noted.contLoop]
    split
    case isTrue hcont =>
      obtain ⟨hfair, hlow'⟩ := @contStep_fair _ x s nbytes m c (L.note Work.note (.entry (i + 1) nmagic)) hc hlow hcont
      have hfair := hnote.trans hfair
      cases hstep : Noted.contStep Work.note c m (L.note Work.note (.entry (i + 1) nmagic)) with
      | error e =>
        rw [hstep] at hfair
        exact ⟨hfair, fun r L' h => by cases h⟩
      | ok r =>
        obtain ⟨o, L₁⟩ := r
        rw [hstep] at hfair
        have hlast₁ : Relies (Event.Fits x) L₁.ms.work.log (∃ m ∈ behind, m.contLevel = 0) :=
          (hlast.mono hfair.keeps.grows).imp fun h => by
            obtain ⟨m', hm', hzero⟩ := h
            rcases List.mem_cons.mp hm' with rfl | hm'
            · exact absurd hzero hcont
            · exact ⟨m', hm', hzero⟩
        obtain ⟨hrest, hend⟩ := @ih L₁ (i + 1) (hlow' o L₁ hstep) (by omega) hlast₁
        exact ⟨hfair.trans hrest, hend⟩
    case isFalse =>
      refine ⟨hnote, fun r L' h => ?_⟩
      cases h
      exact ⟨hlow, by rw [List.length_cons]; omega⟩

theorem closeGroup_ms (c : Callees (Work R)) (L : Loop (Work R)) :
    (closeGroup c L).ms = L.ms ∧ (closeGroup c L).contLevel = L.contLevel := by
  unfold closeGroup
  split <;> exact ⟨rfl, rfl⟩

theorem matchLoop_fair (hc : Careful x s nbytes c) (mode : BitVec 8) (text : Bool) {fuel : ℕ} {entries : List Entry}
    (hlow : L.Low) (hlen : i + entries.length = nmagic) :
    Fair x s nbytes L.ms (Noted.matchLoop Work.note c mode text nmagic fuel i entries L).ms := by
  induction fuel generalizing i entries L with
  | zero => exact .refl _
  | succ fuel ih =>
    cases entries with
    | nil => exact .refl _
    | cons m behind =>
      rw [List.length_cons] at hlen
      have hnote : Fair x s nbytes L.ms (L.note Work.note (.entry i nmagic)).ms := .note (show i < nmagic by omega)
      have hskip {L₁ : Loop (Work R)} (h : Fair x s nbytes L.ms L₁.ms) (hlow₁ : L₁.Low) :
          Fair x s nbytes L.ms (Noted.matchLoop Work.note c mode text nmagic fuel
            ((Noted.skipConts Work.note nmagic i behind L₁.ms).1.1 + 1) (Noted.skipConts Work.note nmagic i behind L₁.ms).1.2
            { L₁ with ms := (Noted.skipConts Work.note nmagic i behind L₁.ms).2 }).ms := by
        obtain ⟨hfair, hlen'⟩ := @skipConts_fair _ x s nbytes L₁.ms nmagic i behind (by omega)
        refine (h.trans hfair).trans (@ih { L₁ with ms := _ } _ _ ?_ hlen')
        exact hlow₁.trans_le hfair.len
      rw [Noted.matchLoop]
      dsimp only
      split
      case isTrue => exact hskip hnote hlow
      case isFalse =>
        obtain ⟨htop, hlow'⟩ := @topStep_fair _ x s nbytes m c (L.note Work.note (.entry i nmagic)) hc hlow
        have htop := hnote.trans htop
        cases hstep : Noted.topStep Work.note c m (L.note Work.note (.entry i nmagic)) with
        | error e =>
          rw [hstep] at htop
          exact htop
        | ok r =>
          obtain ⟨o, L₁⟩ := r
          rw [hstep] at htop
          have hlow₁ := hlow' o L₁ hstep
          cases o with
          | hit off =>
            have hgroup : Fair x s nbytes L.ms (L₁.note Work.note (.group behind)).ms := htop.trans (.note trivial)
            obtain ⟨hconts, hend⟩ := @contLoop_fair _ x s nbytes c (L₁.note Work.note (.group behind)) nmagic i behind hc hlow₁
              (by omega) (@Relies.of_mem _ (Event.Fits x) _ (.group behind) List.mem_cons_self)
            have hconts := hgroup.trans hconts
            dsimp only
            cases hloop : Noted.contLoop Work.note c nmagic i behind (L₁.note Work.note (.group behind)) with
            | error e =>
              rw [hloop] at hconts
              exact hconts
            | ok r =>
              obtain ⟨r, L₂⟩ := r
              rw [hloop] at hconts
              obtain ⟨hlow₂, hlen'⟩ := hend r L₂ hloop
              obtain ⟨hms, hlevel⟩ := closeGroup_ms c L₂
              have hconts : Fair x s nbytes L.ms (closeGroup c L₂).ms := hms ▸ hconts
              dsimp only
              split
              case isTrue => exact hconts
              case isFalse =>
                refine hconts.trans (ih ?_ hlen')
                rw [Loop.Low, hlevel, hms]
                exact hlow₂
          | skipped => exact hskip htop hlow₁
          | ended => exact hskip htop hlow₁
          | miss => exact hskip htop hlow₁
          | suppressed => exact hskip htop hlow₁

theorem matchMagic_fair (hc : Careful x s nbytes c) (mode : BitVec 8) (text : Bool) (entries : List Entry) (returnval : Bool) :
    Fair x s nbytes ms (Noted.matchMagic Work.note c mode text entries returnval ms).ms := by
  obtain ⟨hmem, hlt⟩ := @fileCheckMem_fair _ x s nbytes ms c 0 (Nat.zero_le _)
  unfold Noted.matchMagic
  dsimp only
  split
  case isTrue hok =>
    have hlow : Loop.Low ⟨(Noted.fileCheckMem Work.note c 0 ms).2, 0, false, true, false, returnval⟩ := hlt hok
    exact hmem.trans (matchLoop_fair hc mode text hlow (Nat.zero_add _))
  case isFalse => exact hmem

/-- The calls of `match`, by the depth. -/
theorem run_fair (x : Outside R) (db : Database) (s nbytes n : ℕ) : Calls x s nbytes (Noted.run Work.note (leaves x) db n) := by
  induction n with
  | zero => exact fun _ _ ms _ => .refl ms
  | succ n ih => exact fun call _ _ hin => matchMagic_fair (callees_careful ih hin) call.mode call.text call.entries _

/-- In a run of `file_softmagic` in which every entry is got where it fits, and the last group of no array matches, every read
of the file is in the file, every access to `ms->c.li` is below `ms->c.len`, and every entry that is read is in its array. -/
theorem softmagic_bounds (x : Outside R) (db : Database) (n s nbytes : ℕ) (mode : BitVec 8) (text : Bool)
    (ms : MagicSet (Work R)) (hlog : ms.work.log = [])
    (hfits : ∀ e ∈ (Noted.softmagic Work.note (leaves x) db n s nbytes mode text ms).2.work.log, e.Fits x) :
    ∀ e ∈ (Noted.softmagic Work.note (leaves x) db n s nbytes mode text ms).2.work.log, e.InBounds s nbytes := by
  have hrun := @softmagicLoop_fair _ x s nbytes _ (run_fair x db s nbytes n) s nbytes le_rfl le_rfl mode text db.regular ms
  exact (hlog ▸ hrun.keeps).all hfits

/-- An event of which nothing is to be assumed but what can be told without the file: an entry for a byte at an offset that is
its own, and a group that is not the last. -/
def Event.plain : Event → Bool
  | .get _ m _ _ _ => m.type = .byte && !m.has flagIndir
  | .group behind => behind.any (·.contLevel = 0)
  | _ => true

theorem Event.Fits.of_plain {e : Event} (h : e.plain = true) : e.Fits x := by
  cases e with
  | get call m contLevel offset base =>
    obtain ⟨htype, hindir⟩ : m.type = .byte ∧ m.has flagIndir = false := by simpa [Event.plain] using h
    have hnot : ¬m.has flagIndir = true := by simp [hindir]
    refine ⟨fun h => absurd h hnot, fun h => absurd h hnot, fun p n f _ _ => ?_, fun p n f _ _ => ?_⟩
    · rw [htype]
      trivial
    · unfold SearchFits
      rw [htype]
      trivial
  | group behind =>
    obtain ⟨m, hm, hzero⟩ := List.any_eq_true.mp h
    exact ⟨m, hm, by simpa using hzero⟩
  | bytes addr count => trivial
  | level index len => trivial
  | entry index nmagic => trivial

/-- A file of sevens. A byte is compared with that of the entry, and nothing is printed. -/
def sevens : Outside Unit where
  flags := ⟨false, false, false, false⟩
  mem := fun _ => 7
  isspace := fun _ => false
  islower := fun _ => false
  isupper := fun _ => false
  tolower := id
  toupper := id
  regcomp := fun _ => false
  regexec := fun _ _ _ => .nomatch
  relate := fun _ v r => (some (v = 0), r)
  compare := fun m v r => (some (v.head? = m.value.head?), r)
  mconvert := fun _ _ v r => (true, v, r)
  mprint := fun _ _ v _ r => (true, v, r)
  moffset := fun _ offset v _ => (offset + 1, v)
  magerror := id
  printf := fun _ r => (true, r)
  openOut := id
  dropOut := id
  keepOut := fun _ _ r => (true, r)
  realloc := fun _ _ => true

/-- What a run over two bytes notes. -/
def sevensLog (entries : List Entry) : List Event :=
  (Noted.softmagic Work.note (leaves sevens) ⟨[entries], []⟩ 1 0 2 binTest false
    ⟨fun _ => ⟨0, false, false⟩, 0, 0, ⟨[], ⟨0, 0, 0, 0⟩, (), []⟩⟩).2.work.log

/-- `offset byte 7` for a binary file. -/
def sevenAt (level : ℕ) (flag : BitVec 8) (offset : BitVec 32) : Entry :=
  { plainEntry level with flag := binTest ||| flag, offset, value := [7] }

/-- `0 byte 7`, `>&0 byte 7` and `5 byte 7`. -/
theorem softmagic_bounds_sevens :
    Event.bytes 1 1 ∈ sevensLog [sevenAt 0 0 0, sevenAt 1 flagOffAdd 0, sevenAt 0 0 5] ∧
      ∀ e ∈ sevensLog [sevenAt 0 0 0, sevenAt 1 flagOffAdd 0, sevenAt 0 0 5], e.InBounds 0 2 := by
  have hplain : (sevensLog [sevenAt 0 0 0, sevenAt 1 flagOffAdd 0, sevenAt 0 0 5]).all Event.plain = true := by decide
  refine ⟨by decide, ?_⟩
  exact softmagic_bounds sevens ⟨[[sevenAt 0 0 0, sevenAt 1 flagOffAdd 0, sevenAt 0 0 5]], []⟩ 1 0 2 binTest false
    ⟨fun _ => ⟨0, false, false⟩, 0, 0, ⟨[], ⟨0, 0, 0, 0⟩, (), []⟩⟩ rfl
    fun e he => .of_plain (List.all_eq_true.mp hplain e he)

/-- `(0.b+(-1000)) byte 7`, with the offset in the file: a byte before the file is read. -/
def operandBefore : Entry :=
  { sevenAt 0 flagIndir 0 with inType := .byte, inOp := opIndirect, inOffset := -1000 }

/-- Neither are the operands of indirect offsets looked for in the file, nor is the end of the array looked for behind a group
that matches. -/
theorem not_bounds_operand :
    ¬(∀ e ∈ sevensLog [operandBefore], e.InBounds 0 2) ∧ ¬∀ e ∈ sevensLog [sevenAt 0 0 0], e.InBounds 0 2 := by
  constructor
  · intro h
    have hread : Event.bytes (-1000) 1 ∈ sevensLog [operandBefore] := by decide
    rcases h _ hread with hzero | ⟨hlo, -⟩
    · cases hzero
    · exact absurd hlo (by decide)
  · intro h
    have hread : Event.entry 1 1 ∈ sevensLog [sevenAt 0 0 0] := by decide
    exact Nat.lt_irrefl 1 (h _ hread)

end CodingExercises.File
