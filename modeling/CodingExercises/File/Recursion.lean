import Mathlib.Data.Finset.Prod
import Mathlib.Data.Fintype.Basic
import CodingExercises.Lib.Guarded
import CodingExercises.File.RelativeOffsets

/-!
# file: the calls of `match`

`match` calls itself for `use` entries, and through `file_softmagic` for `indirect` ones. The calls that can be made for a
database and a buffer are finitely many: the entries are those of the database, and the offsets are within the buffer. So the
recursion ends, unless a call is made with the arguments of one that is in progress (`softmagic_terminates`). Nothing in the
code keeps it from that (`not_terminates_self`).
-/

namespace CodingExercises.File

open CodingExercises.Lib

variable {W : Type} {c : Callees W} {m : Entry} {L : Loop W} {e : Ended W} {why : Cut}

/-! ## Where an answer is cut -/

theorem bind_error {ε α β : Type} {x : Except ε α} {f : α → Except ε β} {e : ε} (h : x >>= f = .error e) :
    x = .error e ∨ ∃ a, x = .ok a ∧ f a = .error e := by
  cases x with
  | error e' =>
    cases h
    exact .inl rfl
  | ok a => exact .inr ⟨a, rfl, h⟩

/-- The answers of what prints. -/
def Plain (e : Ended W) : Prop := e.answer = .error ∨ e.answer = .yes

theorem Plain.ne_cut (h : Plain e) : e.answer ≠ .cut why := by
  intro hcut
  rcases h with h | h
  all_goals
    rw [h] at hcut
    cases hcut

theorem output_plain {f : W → Bool × W} (h : output f L = .error e) : Plain e := by
  unfold output at h
  dsimp only at h
  split at h
  case isTrue => cases h
  case isFalse =>
    cases h
    exact .inl rfl

theorem handleAnnotation_plain (h : handleAnnotation c m L = .error e) : Plain e := by
  have hprint {s : List Char} {L : Loop W}
      (h : ((output (c.printf s) L).bind fun L => .error (L.ended .yes) : Except (Ended W) (Loop W)) = .error e) : Plain e := by
    rcases bind_error h with h | ⟨L', -, h⟩
    · exact output_plain h
    · cases h
      exact .inr rfl
  unfold handleAnnotation at h
  split at h
  case isTrue => exact hprint h
  case isFalse =>
    split at h
    case isTrue => exact hprint h
    case isFalse => cases h

theorem printSep_plain (h : printSep c L = .error e) : Plain e := by
  unfold printSep at h
  split at h
  case isTrue => cases h
  case isFalse => exact output_plain h

theorem printEntry_plain (h : printEntry c m L = .error e) : Plain e := by
  unfold printEntry at h
  split at h
  case isTrue => exact output_plain h
  case isFalse => cases h

theorem store_plain (h : store c m L = .error e) : Plain e := by
  unfold store at h
  dsimp only at h
  split at h
  case isTrue => cases h
  case isFalse =>
    cases h
    exact .inl rfl

theorem topMatched_plain (h : topMatched c m L = .error e) : Plain e := by
  rcases bind_error h with h | ⟨L₁, -, h⟩
  · exact handleAnnotation_plain h
  rcases bind_error h with h | ⟨L₂, -, h⟩
  · unfold topSep at h
    split at h
    case isTrue => exact printSep_plain h
    case isFalse => cases h
  rcases bind_error h with h | ⟨L₃, -, h⟩
  · exact printEntry_plain h
  · exact store_plain h

theorem contMatched_plain (h : contMatched c m L = .error e) : Plain e := by
  rcases bind_error h with h | ⟨L₁, -, h⟩
  · exact handleAnnotation_plain h
  rcases bind_error h with h | ⟨L₂, -, h⟩
  · unfold contSep at h
    split at h
    case isTrue => exact printSep_plain h
    case isFalse => cases h
  rcases bind_error h with h | ⟨L₃, -, h⟩
  · unfold contSpace at h
    dsimp only at h
    split at h
    case isTrue =>
      split at h
      case isTrue => exact output_plain h
      case isFalse => cases h
    case isFalse => cases h
  rcases bind_error h with h | ⟨L₄, -, h⟩
  · exact printEntry_plain h
  · exact store_plain h

/-- Some call of `mget` is cut. -/
def Cuts (c : Callees W) (why : Cut) : Prop := ∃ m k returnval ms, (c.mget m k returnval ms).1 = .cut why

theorem test_cut (h : (test c m L).1 = .ended (.cut why)) : (c.mget m L.contLevel L.returnval L.ms).1 = .cut why := by
  unfold test at h
  dsimp only at h
  split at h
  case h_1 hcut =>
    cases h
    exact hcut
  case h_2 => cases h
  case h_3 =>
    dsimp only at h
    split at h <;> cases h
  case h_4 =>
    split at h <;> cases h

theorem topStep_cut (h : topStep c m L = .error e) (hcut : e.answer = .cut why) : Cuts c why := by
  unfold topStep topTested at h
  split at h
  case h_1 a ha =>
    cases h
    cases hcut
    exact ⟨_, _, _, _, test_cut ha⟩
  case h_4 => exact absurd hcut (topMatched_plain h).ne_cut
  all_goals cases h

theorem contStep_cut (h : contStep c m L = .error e) (hcut : e.answer = .cut why) : Cuts c why := by
  unfold contStep at h
  split at h
  case isTrue => cases h
  case isFalse =>
    dsimp only at h
    split at h
    case isTrue => cases h
    case isFalse =>
      unfold contTested at h
      dsimp only at h
      split at h
      case h_1 a ha =>
        cases h
        cases hcut
        exact ⟨_, _, _, _, test_cut ha⟩
      case h_4 =>
        split at h
        case isTrue => exact absurd hcut (contMatched_plain h).ne_cut
        case isFalse =>
          split at h
          case isTrue => cases h
          case isFalse => exact absurd hcut (contMatched_plain h).ne_cut
      all_goals cases h

theorem contLoop_cut {conts : List Entry} (h : (contLoop c conts L).2 = .error e) (hcut : e.answer = .cut why) :
    Cuts c why := by
  induction conts generalizing L with
  | nil => cases h
  | cons m conts ih =>
    cases hdone : contStep c m L with
    | error e' =>
      rw [contLoop_error hdone] at h
      cases h
      exact contStep_cut hdone hcut
    | ok r =>
      rw [contLoop_ok hdone] at h
      exact ih h

theorem ofBool_ne_cut (b : Bool) : Answer.ofBool b ≠ .cut why := by
  cases b <;> exact fun h => by cases h

theorem GroupDone.cut {conts : List Entry} {g : List (Step W)} {r : Except (Ended W) (Loop W)}
    (h : GroupDone c m conts L g r) (hr : r = .error e) (hcut : e.answer = .cut why) : Cuts c why := by
  cases h with
  | topEnded htop =>
    cases hr
    exact topStep_cut htop hcut
  | topMiss => cases hr
  | contEnded _ hconts =>
    cases hr
    exact contLoop_cut hconts hcut
  | printed =>
    cases hr
    exact absurd hcut (ofBool_ne_cut _)
  | hit => cases hr

theorem matchLoop_cut {mode : BitVec 8} {text : Bool} {gs : List (Entry × List Entry)}
    (h : (matchLoop c mode text gs L).ended.answer = .cut why) : Cuts c why := by
  induction gs generalizing L with
  | nil => exact absurd h (ofBool_ne_cut _)
  | cons g gs ih =>
    obtain ⟨m, conts⟩ := g
    cases hskip : skips mode text m with
    | true =>
      rw [matchLoop_skips hskip] at h
      exact ih h
    | false =>
      obtain ⟨g, r, hdone, hloop⟩ := @matchLoop_done _ c m L mode text conts gs hskip
      rw [hloop] at h
      cases r with
      | error e => exact hdone.cut rfl h
      | ok L' => exact ih h

theorem matchMagic_cut {mode : BitVec 8} {text : Bool} {entries : List Entry} {returnval : Bool} {ms : MagicSet W}
    (h : (matchMagic c mode text entries returnval ms).ended.answer = .cut why) : Cuts c why := by
  unfold matchMagic at h
  dsimp only at h
  split at h
  case isTrue => exact matchLoop_cut h
  case isFalse => cases h

/-! ## What an answer depends on -/

/-- Another `mget`. -/
def Callees.withMget (c : Callees W) (g : Entry → ℕ → Bool → MagicSet W → Answer × Bool × MagicSet W) : Callees W :=
  { c with mget := g }

/-- It gives the same where `mget` is not cut. -/
def Extends (g : Entry → ℕ → Bool → MagicSet W → Answer × Bool × MagicSet W) (c : Callees W) : Prop :=
  ∀ m k returnval ms, (∀ why, (c.mget m k returnval ms).1 ≠ .cut why) → g m k returnval ms = c.mget m k returnval ms

variable {g : Entry → ℕ → Bool → MagicSet W → Answer × Bool × MagicSet W}

theorem test_congr (hg : Extends g c) (h : ∀ why, (test c m L).1 ≠ .ended (.cut why)) :
    test (c.withMget g) m L = test c m L := by
  have hget : g m L.contLevel L.returnval L.ms = c.mget m L.contLevel L.returnval L.ms := by
    refine hg _ _ _ _ fun why hcut => h why ?_
    unfold test
    dsimp only
    rw [hcut]
  unfold test Callees.withMget
  dsimp only
  rw [hget]

/-- An end that is not cut. -/
def Whole {α : Type} (r : Except (Ended W) α) : Prop := ∀ e, r = .error e → ∀ why, e.answer ≠ .cut why

theorem topStep_congr (hg : Extends g c) (h : Whole (topStep c m L)) : topStep (c.withMget g) m L = topStep c m L := by
  have htest : test (c.withMget g) m (L.topEntered m) = test c m (L.topEntered m) := by
    refine test_congr hg fun why hcut => ?_
    have hstep : topStep c m L = .error ((test c m (L.topEntered m)).2.ended (.cut why)) := by
      rw [topStep, topTested, hcut]
    exact h _ hstep why rfl
  rw [topStep, htest]
  rfl

theorem contStep_congr (hg : Extends g c) (h : Whole (contStep c m L)) : contStep (c.withMget g) m L = contStep c m L := by
  unfold contStep at h ⊢
  split
  case isTrue => rfl
  case isFalse hlt =>
    rw [if_neg hlt] at h
    dsimp only at h ⊢
    split
    case isTrue => rfl
    case isFalse hcond =>
      rw [if_neg hcond] at h
      rw [test_congr hg fun why hcut => ?_]
      · rfl
      · have htested : contTested c m (test c m (L.entered m)) = .error ((test c m (L.entered m)).2.ended (.cut why)) := by
          rw [contTested, hcut]
        exact h _ htested why rfl

theorem contLoop_congr (hg : Extends g c) {conts : List Entry} (h : Whole (contLoop c conts L).2) :
    contLoop (c.withMget g) conts L = contLoop c conts L := by
  induction conts generalizing L with
  | nil => rfl
  | cons m conts ih =>
    have hstep : Whole (contStep c m L) := by
      intro e he
      exact h e (by rw [contLoop_error he])
    have hstep' := contStep_congr hg hstep
    cases hdone : contStep c m L with
    | error e => rw [contLoop_error hdone, contLoop_error (hstep'.trans hdone)]
    | ok r =>
      rw [contLoop_ok hdone] at h ⊢
      rw [contLoop_ok (hstep'.trans hdone), ih h]

theorem matchLoop_congr (hg : Extends g c) {mode : BitVec 8} {text : Bool} {gs : List (Entry × List Entry)}
    (h : ∀ why, (matchLoop c mode text gs L).ended.answer ≠ .cut why) :
    matchLoop (c.withMget g) mode text gs L = matchLoop c mode text gs L := by
  induction gs generalizing L with
  | nil => rfl
  | cons mc gs ih =>
    obtain ⟨m, conts⟩ := mc
    cases hskip : skips mode text m with
    | true =>
      rw [matchLoop_skips hskip] at h ⊢
      rw [matchLoop_skips hskip, ih h]
    | false =>
      have hne : ¬skips mode text m = true := by simp [hskip]
      rw [matchLoop, if_neg hne] at h ⊢
      rw [matchLoop, if_neg hne]
      cases htop : topStep c m L with
      | error e =>
        rw [htop] at h
        have htop' := topStep_congr hg (m := m) (L := L) (by rw [htop]; rintro _ ⟨⟩; exact h)
        rw [htop', htop]
      | ok r =>
        obtain ⟨o, L'⟩ := r
        have htop' := topStep_congr hg (m := m) (L := L) (by rw [htop]; rintro _ ⟨⟩)
        rw [htop] at h
        rw [htop', htop]
        cases o with
        | hit off =>
          dsimp only at h ⊢
          have hconts : Whole (contLoop c conts L').2 := by
            intro e he
            rw [he] at h
            exact h
          rw [contLoop_congr hg hconts]
          cases hloop : (contLoop c conts L').2 with
          | error e => rfl
          | ok L'' =>
            rw [hloop] at h
            dsimp only at h ⊢
            rw [show closeGroup (c.withMget g) L'' = closeGroup c L'' from rfl,
              show (c.withMget g).flags = c.flags from rfl]
            split
            case isTrue => rfl
            case isFalse hret =>
              rw [if_neg hret] at h
              rw [ih h]
        | _ =>
          dsimp only at h ⊢
          rw [ih h]

theorem matchMagic_congr (hg : Extends g c) {mode : BitVec 8} {text : Bool} {entries : List Entry} {returnval : Bool}
    {ms : MagicSet W} (h : ∀ why, (matchMagic c mode text entries returnval ms).ended.answer ≠ .cut why) :
    matchMagic (c.withMget g) mode text entries returnval ms = matchMagic c mode text entries returnval ms := by
  unfold matchMagic at h ⊢
  rw [show fileCheckMem (c.withMget g) 0 ms = fileCheckMem c 0 ms from rfl]
  dsimp only at h ⊢
  split
  case isTrue hmem =>
    rw [if_pos hmem] at h
    exact matchLoop_congr hg h
  case isFalse => rfl

/-! ## The calls that `mget` makes -/

/-- The entries that belong to a name in an array. -/
def namedSections : List Entry → List (List Entry)
  | [] => []
  | m :: rest => (m :: rest.takeWhile (·.contLevel ≠ 0)) :: namedSections rest

/-- The arrays that `match` can be called with. -/
def sections (db : Database) : List (List Entry) := db.regular ++ db.named.flatMap namedSections

theorem mem_namedSections {name : List UInt8} {l entries : List Entry} (h : findName name l = some entries) :
    entries ∈ namedSections l := by
  induction l with
  | nil => cases h
  | cons m rest ih =>
    rw [findName] at h
    split at h
    case isTrue =>
      cases h
      exact List.mem_cons_self
    case isFalse => exact List.mem_cons_of_mem _ (ih h)

theorem mem_sections {db : Database} {name : List UInt8} {entries : List Entry} (h : magicfind db name = some entries) :
    entries ∈ sections db := by
  obtain ⟨l, hl, hfind⟩ := List.exists_of_findSome?_eq_some h
  exact List.mem_append_right _ (List.mem_flatMap.mpr ⟨l, hl, mem_namedSections hfind⟩)

/-- The calls that a call can make: entries of the database, at an offset in the buffer or for what is behind it. -/
def Makes (db : Database) (call call' : Call) : Prop :=
  call'.entries ∈ sections db ∧ call'.text = call.text ∧ ∃ off ≤ call.nbytes,
    (call'.s = call.s + off ∧ call'.nbytes = call.nbytes - off ∧ call'.offset = 0 ∧ call'.mode = binTest) ∨
      (call'.s = call.s ∧ call'.nbytes = call.nbytes ∧ call'.offset = off ∧ call'.mode = call.mode)

variable {lv : Leaves W} {db : Database} {enter enter' : Call → Bool → MagicSet W → Ended W} {call : Call} {contLevel : ℕ}
  {returnval : Bool} {ms : MagicSet W}

theorem softmagicLoop_cut {s nbytes : ℕ} {mode : BitVec 8} {text : Bool} {ls : List (List Entry)}
    (h : (softmagicLoop enter s nbytes mode text ls ms).1 = .cut why) :
    ∃ entries ∈ ls, ∃ returnval ms, (enter ⟨entries, s, nbytes, 0, mode, text, false⟩ returnval ms).answer = .cut why := by
  induction ls generalizing ms with
  | nil => cases h
  | cons entries ls ih =>
    rw [softmagicLoop] at h
    split at h
    case isTrue =>
      obtain ⟨entries', hmem, hcut⟩ := ih h
      exact ⟨entries', List.mem_cons_of_mem _ hmem, hcut⟩
    case isFalse => exact ⟨entries, List.mem_cons_self, _, _, h⟩

theorem softmagicLoop_congr (hg : ∀ call returnval ms, (∀ why, (enter call returnval ms).answer ≠ .cut why) →
    enter' call returnval ms = enter call returnval ms) {s nbytes : ℕ} {mode : BitVec 8} {text : Bool}
    {ls : List (List Entry)} (h : ∀ why, (softmagicLoop enter s nbytes mode text ls ms).1 ≠ .cut why) :
    softmagicLoop enter' s nbytes mode text ls ms = softmagicLoop enter s nbytes mode text ls ms := by
  induction ls generalizing ms with
  | nil => rfl
  | cons entries ls ih =>
    rw [softmagicLoop] at h ⊢
    rw [softmagicLoop, hg]
    · split
      case isTrue hno =>
        rw [if_pos hno] at h
        exact ih h
      case isFalse => rfl
    · intro why hcut
      rw [if_neg (by rw [hcut]; exact fun h => by cases h)] at h
      exact h why hcut

theorem locate_error {a : Answer} (h : (locate lv call m contLevel ms).1 = .error a) : a ≠ .cut why := by
  rcases locate_answer h with rfl | rfl
  all_goals exact fun h => by cases h

theorem mget_cut (h : (mget lv db enter call m contLevel returnval ms).1 = .cut why) :
    ∃ call', Makes db call call' ∧ ∃ returnval ms, (enter call' returnval ms).answer = .cut why := by
  unfold mget at h
  dsimp only at h
  split at h
  case h_1 a ha => exact absurd h (locate_error ha)
  case h_2 offset _ =>
    split at h
    case h_1 =>
      unfold getIndirect at h
      split at h
      case isTrue => cases h
      case isFalse hle =>
        dsimp only at h
        split at h
        case isTrue => split at h <;> cases h
        case isFalse =>
          obtain ⟨entries, hmem, hcut⟩ := softmagicLoop_cut h
          exact ⟨⟨entries, call.s + offset.toNat, call.nbytes - offset.toNat, 0, binTest, call.text, false⟩,
            ⟨List.mem_append_left _ hmem, rfl, offset.toNat, by omega, .inl ⟨rfl, rfl, rfl, rfl⟩⟩, hcut⟩
    case h_2 =>
      unfold getUse at h
      split at h
      case isTrue => cases h
      case isFalse hle =>
        dsimp only at h
        split at h
        case h_1 => cases h
        case h_2 entries hfind =>
          exact ⟨⟨entries, call.s, call.nbytes, offset.toNat, call.mode, call.text, _⟩,
            ⟨mem_sections hfind, rfl, offset.toNat, by omega, .inr ⟨rfl, rfl, rfl, rfl⟩⟩, _, _, h⟩
    case h_3 => split at h <;> cases h
    case h_4 =>
      split at h
      case isTrue => cases h
      case isFalse => split at h <;> cases h

theorem getIndirect_congr (hg : ∀ call returnval ms, (∀ why, (enter call returnval ms).answer ≠ .cut why) →
    enter' call returnval ms = enter call returnval ms) {offset : BitVec 32}
    (h : ∀ why, (getIndirect lv db enter call m offset ms).1 ≠ .cut why) :
    getIndirect lv db enter' call m offset ms = getIndirect lv db enter call m offset ms := by
  unfold getIndirect at h ⊢
  split
  case isTrue => rfl
  case isFalse hle =>
    rw [if_neg hle] at h
    dsimp only at h ⊢
    rw [softmagicLoop_congr hg fun why hcut => ?_]
    refine h why ?_
    rw [hcut, if_neg fun h => by cases h]

theorem getUse_congr (hg : ∀ call returnval ms, (∀ why, (enter call returnval ms).answer ≠ .cut why) →
    enter' call returnval ms = enter call returnval ms) {offset : BitVec 32}
    (h : ∀ why, (getUse db enter call m offset returnval ms).1 ≠ .cut why) :
    getUse db enter' call m offset returnval ms = getUse db enter call m offset returnval ms := by
  unfold getUse at h ⊢
  split
  case isTrue => rfl
  case isFalse hle =>
    rw [if_neg hle] at h
    dsimp only at h ⊢
    split
    case h_1 => rfl
    case h_2 entries hfind =>
      rw [hfind] at h
      rw [hg _ _ _ h]

theorem mget_congr (hg : ∀ call returnval ms, (∀ why, (enter call returnval ms).answer ≠ .cut why) →
    enter' call returnval ms = enter call returnval ms)
    (h : ∀ why, (mget lv db enter call m contLevel returnval ms).1 ≠ .cut why) :
    mget lv db enter' call m contLevel returnval ms = mget lv db enter call m contLevel returnval ms := by
  unfold mget at h ⊢
  dsimp only at h ⊢
  split
  case h_1 => rfl
  case h_2 offset hoffset =>
    rw [hoffset] at h
    split
    case h_1 htype =>
      rw [htype] at h
      rw [getIndirect_congr hg h]
    case h_2 htype =>
      rw [htype] at h
      exact getUse_congr hg h
    case h_3 => rfl
    case h_4 => rfl

/-! ## The recursion -/

/-- `match`, as what answers the calls that it makes. -/
def recursion (lv : Leaves W) (db : Database) : Recursion Call (Bool × MagicSet W) (Ended W) where
  body enter call st := (matchCall lv db (fun call returnval ms => enter call (returnval, ms)) call st.1 st.2).ended
  deep st := ⟨.cut .depth, st.1, st.2⟩
  again st := ⟨.cut .again, st.1, st.2⟩
  isDeep e := e.answer = .cut .depth
  isAgain e := e.answer = .cut .again
  makes := Makes db
  isDeep_deep _ := rfl
  not_isDeep_again _ h := by cases h
  isAgain_again _ := rfl
  not_isAgain_deep _ h := by cases h
  deep_origin enter call st h := by
    obtain ⟨m, k, returnval, ms, hcut⟩ := matchMagic_cut h
    obtain ⟨call', hmakes, returnval', ms', h'⟩ := mget_cut hcut
    exact ⟨call', (returnval', ms'), hmakes, h'⟩
  again_origin enter call st h := by
    obtain ⟨m, k, returnval, ms, hcut⟩ := matchMagic_cut h
    obtain ⟨call', hmakes, returnval', ms', h'⟩ := mget_cut hcut
    exact ⟨call', (returnval', ms'), hmakes, h'⟩
  congr enter enter' call st hg hdeep hagain := by
    have hne : ∀ why, (matchCall lv db (fun call returnval ms => enter call (returnval, ms)) call st.1 st.2).ended.answer ≠ .cut why := by
      intro why
      cases why with
      | depth => exact hdeep
      | again => exact hagain
    refine congrArg Run.ended (@matchMagic_congr _ (callees lv db (fun call returnval ms => enter call (returnval, ms)) call)
      (mget lv db (fun call returnval ms => enter' call (returnval, ms)) call) ?_ _ _ _ _ _ hne)
    exact fun m k returnval ms hget => mget_congr (fun call returnval ms hcall => hg call (returnval, ms) (hcall .depth) (hcall .again)) hget

theorem run_eq_followed (n : ℕ) (call : Call) (returnval : Bool) (ms : MagicSet W) :
    run lv db n call returnval ms = followed (recursion lv db) n call (returnval, ms) := by
  induction n generalizing call returnval ms with
  | zero => rfl
  | succ n ih =>
    rw [run, funext fun call => funext fun returnval => funext fun ms => ih call returnval ms]
    rfl

/-- The calls that can be made in a buffer. -/
def callsIn (db : Database) (size : ℕ) (mode : BitVec 8) (text : Bool) : Finset Call :=
  (((sections db).toFinset ×ˢ Finset.range (size + 1) ×ˢ Finset.range (size + 1) ×ˢ Finset.range (size + 1) ×ˢ
    ({mode, binTest} : Finset (BitVec 8)) ×ˢ (Finset.univ : Finset Bool)).image
      fun (entries, s, nbytes, offset, mode, flip) => ⟨entries, s, nbytes, offset, mode, text, flip⟩).filter
    fun call => call.s + call.nbytes ≤ size

theorem mem_callsIn {size : ℕ} {mode : BitVec 8} {text : Bool} : call ∈ callsIn db size mode text ↔
    call.entries ∈ sections db ∧ call.s + call.nbytes ≤ size ∧ call.offset ≤ size ∧
      (call.mode = mode ∨ call.mode = binTest) ∧ call.text = text := by
  simp only [callsIn, Finset.mem_filter, Finset.mem_image, Finset.mem_product, List.mem_toFinset, Finset.mem_range,
    Finset.mem_insert, Finset.mem_singleton, Finset.mem_univ, and_true, Prod.exists]
  constructor
  · rintro ⟨⟨entries, s, nbytes, offset, mode', flip, ⟨hentries, -, -, hoffset, hmode⟩, rfl⟩, hsize⟩
    exact ⟨hentries, hsize, Nat.le_of_lt_succ hoffset, hmode, rfl⟩
  · rintro ⟨hentries, hsize, hoffset, hmode, rfl⟩
    exact ⟨⟨call.entries, call.s, call.nbytes, call.offset, call.mode, call.flip,
      ⟨hentries, by omega, by omega, by omega, hmode⟩, rfl⟩, hsize⟩

theorem callsIn_closed {size : ℕ} {mode : BitVec 8} {text : Bool} {call' : Call} (hcall : call ∈ callsIn db size mode text)
    (hmakes : Makes db call call') : call' ∈ callsIn db size mode text := by
  rw [mem_callsIn] at hcall ⊢
  obtain ⟨-, hsize, hoffset, hmode, htext⟩ := hcall
  obtain ⟨hentries, htext', off, hoff, ⟨hs, hn, ho, hm⟩ | ⟨hs, hn, ho, hm⟩⟩ := hmakes
  · exact ⟨hentries, by omega, by omega, .inr hm, htext'.trans htext⟩
  · exact ⟨hentries, by omega, by omega, by rwa [hm], htext'.trans htext⟩

/-- `file_softmagic` that gives up where `match` is called with the arguments of a call in progress. -/
def softmagicGuarded (lv : Leaves W) (db : Database) (n : ℕ) (s nbytes : ℕ) (mode : BitVec 8) (text : Bool)
    (ms : MagicSet W) : Answer × MagicSet W :=
  softmagicLoop (fun call returnval ms => guarded (recursion lv db) n [] call (returnval, ms)) s nbytes mode text db.regular ms

/-- It ends, and all calls in it are answered. -/
def Terminates (lv : Leaves W) (db : Database) (s nbytes : ℕ) (mode : BitVec 8) (text : Bool) (ms : MagicSet W) : Prop :=
  ∃ N r, (∀ why, r.1 ≠ .cut why) ∧ ∀ n ≥ N, softmagic lv db n s nbytes mode text ms = r

/-- **Termination.** If no call of `match` is made with the arguments of one that is in progress, `file_softmagic` ends. -/
theorem softmagic_terminates (lv : Leaves W) (db : Database) (s nbytes : ℕ) (mode : BitVec 8) (text : Bool) (ms : MagicSet W)
    (h : ∀ n, (softmagicGuarded lv db n s nbytes mode text ms).1 ≠ .cut .again) : Terminates lv db s nbytes mode text ms := by
  let U := callsIn db (s + nbytes) mode text
  have hne : ∀ why, (softmagicGuarded lv db (U.card + 1) s nbytes mode text ms).1 ≠ .cut why := by
    intro why
    cases why with
    | again => exact h _
    | depth =>
      intro hcut
      obtain ⟨entries, hmem, returnval, ms', hcut⟩ := softmagicLoop_cut hcut
      refine guarded_not_deep (r := recursion lv db) (fun call hcall call' hmakes => callsIn_closed hcall hmakes) (Nat.lt_succ_self U.card) _ ?_ hcut
      exact mem_callsIn.mpr ⟨List.mem_append_left _ hmem, Nat.le_refl _, Nat.zero_le _, .inl rfl, rfl⟩
  refine ⟨U.card + 1, _, hne, fun n hn => softmagicLoop_congr (fun call returnval ms hcall => ?_) hne⟩
  have hfollowed := followed_eq_guarded (r := recursion lv db) (hcall .depth) (hcall .again)
  rw [run_eq_followed, ← hfollowed]
  refine followed_mono (r := recursion lv db) ?_ hn
  rw [hfollowed]
  exact hcall .depth

/-- `0 name a`. -/
def nameEntry : Entry := { plainEntry 0 with type := .name, value := [97] }

/-- `>0 use a`, or `0 use a`. -/
def useEntry (level : ℕ) : Entry := { plainEntry level with type := .use, value := [97], flag := binTest }

/-- A named entry that uses itself, and an entry that uses it. -/
def selfDb : Database := ⟨[[useEntry 0]], [[nameEntry, useEntry 1]]⟩

def selfCall : Call := ⟨[nameEntry, useEntry 1], 0, 64, 0, binTest, false, false⟩

/-- `0 byte x` and `0 use a`, with a named entry that ends. -/
theorem softmagic_terminates_one :
    Terminates byteLeaves ⟨[[useEntry 0]], [[nameEntry]]⟩ 0 64 binTest false ⟨fun _ => ⟨0, false, false⟩, 20, 0, ()⟩ := by
  refine softmagic_terminates byteLeaves ⟨[[useEntry 0]], [[nameEntry]]⟩ 0 64 binTest false
    ⟨fun _ => ⟨0, false, false⟩, 20, 0, ()⟩ fun n => ?_
  match n with
  | 0 => exact fun h => by cases h
  | 1 => exact fun h => by cases h
  | n + 2 => exact fun h => by cases h

theorem test_of_cut (h : (c.mget m L.contLevel L.returnval L.ms).1 = .cut why) : (test c m L).1 = .ended (.cut why) := by
  unfold test
  dsimp only
  rw [h]

theorem contStep_of_condNone (hle : m.contLevel ≤ L.contLevel) (hcond : m.cond = .condNone) :
    contStep c m L = contTested c m (test c m (L.entered m)) := by
  rw [contStep, if_neg (by omega)]
  dsimp only
  rw [hcond]
  exact if_neg Bool.false_ne_true

/-- The call for the named entry makes itself again. -/
theorem self_cut {enter : Call → Bool → MagicSet Unit → Ended Unit}
    (h : ∀ returnval li offset, (enter selfCall returnval ⟨li, 20, offset, ()⟩).answer = .cut .depth) (returnval : Bool)
    (li : ℕ → LevelInfo) (offset : BitVec 32) :
    (matchCall byteLeaves selfDb enter selfCall returnval ⟨li, 20, offset, ()⟩).ended.answer = .cut .depth := by
  let c := callees byteLeaves selfDb enter selfCall
  let L : Loop Unit := ⟨(fileCheckMem c 0 ⟨li, 20, offset, ()⟩).2, 0, false, true, false, returnval⟩
  obtain ⟨li', htop⟩ : ∃ li', topStep c nameEntry L =
      .ok (.hit 0, ⟨⟨li', 20, 0, ()⟩, 1, false, true, false, returnval⟩) := ⟨_, rfl⟩
  generalize hL' : (⟨⟨li', 20, 0, ()⟩, 1, false, true, false, returnval⟩ : Loop Unit) = L' at htop
  have htest : (test c (useEntry 1) (L'.entered (useEntry 1))).1 = .ended (.cut .depth) := by
    refine test_of_cut ?_
    subst hL'
    exact h _ _ _
  have hstep : contStep c (useEntry 1) L' =
      .error ((test c (useEntry 1) (L'.entered (useEntry 1))).2.ended (.cut .depth)) := by
    rw [contStep_of_condNone (by subst hL'; exact Nat.le_refl 1) rfl, contTested, htest]
  show (matchLoop c binTest false [(nameEntry, [useEntry 1])] L).ended.answer = _
  rw [matchLoop, if_neg (by decide), htop]
  dsimp only
  rw [contLoop_error hstep]
  rfl

theorem run_self_cut (n : ℕ) (returnval : Bool) (li : ℕ → LevelInfo) (offset : BitVec 32) :
    (run byteLeaves selfDb n selfCall returnval ⟨li, 20, offset, ()⟩).answer = .cut .depth := by
  induction n generalizing returnval li offset with
  | zero => rfl
  | succ n ih => exact self_cut ih returnval li offset

/-- The call for `0 use a`. -/
def firstCall : Call := ⟨[useEntry 0], 0, 64, 0, binTest, false, false⟩

theorem run_first_cut (n : ℕ) (returnval : Bool) (li : ℕ → LevelInfo) (offset : BitVec 32) :
    (run byteLeaves selfDb (n + 1) firstCall returnval ⟨li, 20, offset, ()⟩).answer = .cut .depth := by
  let c := callees byteLeaves selfDb (run byteLeaves selfDb n) firstCall
  let L : Loop Unit := ⟨(fileCheckMem c 0 ⟨li, 20, offset, ()⟩).2, 0, false, true, false, returnval⟩
  have htest : (test c (useEntry 0) (L.topEntered (useEntry 0))).1 = .ended (.cut .depth) :=
    test_of_cut (run_self_cut n _ _ _)
  have hstep : topStep c (useEntry 0) L =
      .error ((test c (useEntry 0) (L.topEntered (useEntry 0))).2.ended (.cut .depth)) := by
    rw [topStep, topTested, htest]
  show (matchLoop c binTest false [(useEntry 0, [])] L).ended.answer = _
  rw [matchLoop, if_neg (by decide), hstep]
  rfl

/-- At each depth there is one more call. -/
theorem not_terminates_self : ¬Terminates byteLeaves selfDb 0 64 binTest false ⟨fun _ => ⟨0, false, false⟩, 20, 0, ()⟩ := by
  rintro ⟨N, r, hne, hall⟩
  refine hne .depth ?_
  rw [← hall (N + 1) (by omega)]
  have hcut := run_first_cut N false (fun _ => ⟨0, false, false⟩) 0
  show (softmagicLoop (run byteLeaves selfDb (N + 1)) 0 64 binTest false [[useEntry 0]] _).1 = _
  rw [softmagicLoop]
  refine (congrArg Prod.fst (if_neg fun h => ?_)).trans hcut
  rw [show (run byteLeaves selfDb (N + 1) ⟨[useEntry 0], 0, 64, 0, binTest, false, false⟩ false _).answer = _ from hcut] at h
  cases h

end CodingExercises.File
