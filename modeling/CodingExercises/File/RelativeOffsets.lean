import CodingExercises.File.Continuations
import CodingExercises.File.Mget

/-!
# file: relative offsets and defaults

What the array of levels says when a continuation is tested: the offset behind the most recent match of the level below, and
whether something of its own level has matched since (`Tracked`). It does if the counter was 0 when the group began, and if no
`match` that was called in the meantime has changed it.

- `tracked_of_contLoop`: the invariant over the loop;
- `matchCall_levels`: what is added for `OFFADD` and `INDIROFFADD`, and when a default takes effect.
-/

namespace CodingExercises.File

variable {W : Type} {c : Callees W}

/-! ## What was passed -/

/-- The offset behind an entry of the level that matched. -/
def Step.hitAt (j : ℕ) (s : Step W) : Option (BitVec 32) :=
  match s.outcome with
  | .hit off => if s.level = j then some off else none
  | _ => none

/-- The most recent match of a level: the offset behind it, and what was passed since. What was passed last stands first. -/
def since (j : ℕ) : List (Step W) → Option (BitVec 32 × List (Step W))
  | [] => none
  | s :: hist =>
    match s.hitAt j with
    | some off => some (off, [])
    | none => (since j hist).map fun r => (r.1, s :: r.2)

/-- It matched, or it is a default that did not take effect. -/
def Outcome.settles : Outcome → Bool
  | .hit _ | .suppressed => true
  | _ => false

def Step.settles (k : ℕ) (s : Step W) : Bool := s.level = k && s.outcome.settles

/-- The last that matched is no default. -/
def Marked (k : ℕ) (behind : List (Step W)) : Prop := ∃ s, behind.find? (·.settles k) = some s ∧ s.entry.type ≠ .default

/-- What was called for the entry has changed neither the offset of the level below `k` nor the flag of the level `k`. -/
def Kept (c : Callees W) (k : ℕ) (s : Step W) : Prop :=
  s.tested → (s.loop.got c s.entry).offs (k - 1) = s.loop.ms.offs (k - 1) ∧
    (s.loop.got c s.entry).marks k = s.loop.ms.marks k

/-- What the levels say behind the steps `hist` of a group that began with the counter `start`. -/
structure Tracked (c : Callees W) (start : ℕ) (hist : List (Step W)) (ms : MagicSet W) : Prop where
  default_of_suppressed : ∀ s ∈ hist, s.outcome = .suppressed → s.entry.type = .default
  levels : ∀ k, 1 ≤ k → (k = 1 → start = 0) → ∀ off behind, since (k - 1) hist = some (off, behind) →
    (∀ s ∈ behind, Kept c k s) → ms.offs (k - 1) = off ∧ (ms.marks k = true ↔ Marked k behind) ∧
      ∀ s ∈ behind, s.level = k → s.outcome = .suppressed → ∃ t ∈ behind, t.level = k ∧ t.matched

theorem hitAt_eq_some {j : ℕ} {s : Step W} {off : BitVec 32} (h : s.hitAt j = some off) :
    s.level = j ∧ s.outcome = .hit off := by
  unfold Step.hitAt at h
  split at h
  case h_1 off' ho =>
    split at h
    case isTrue hj =>
      cases h
      exact ⟨hj, ho⟩
    case isFalse => cases h
  case h_2 => cases h

theorem since_cons_of_some {j : ℕ} {s : Step W} {hist : List (Step W)} {off : BitVec 32} (h : s.hitAt j = some off) :
    since j (s :: hist) = some (off, []) := by
  rw [since, h]

theorem since_cons_of_none {j : ℕ} {s : Step W} {hist : List (Step W)} (h : s.hitAt j = none) :
    since j (s :: hist) = (since j hist).map fun r => (r.1, s :: r.2) := by
  rw [since, h]

/-- Everything since a match of a level was passed, and is no match of the level. -/
theorem mem_of_since {j : ℕ} {hist behind : List (Step W)} {off : BitVec 32} (h : since j hist = some (off, behind))
    {s : Step W} (hs : s ∈ behind) : s ∈ hist := by
  induction hist generalizing behind with
  | nil => cases h
  | cons t hist ih =>
    cases ht : t.hitAt j with
    | some off' =>
      rw [since_cons_of_some ht] at h
      cases h
      cases hs
    | none =>
      rw [since_cons_of_none ht] at h
      obtain ⟨r, hr, heq⟩ := Option.map_eq_some_iff.mp h
      cases heq
      rcases List.mem_cons.mp hs with rfl | hs
      · exact List.mem_cons_self
      · exact List.mem_cons_of_mem _ (ih hr hs)

theorem marked_nil {k : ℕ} : ¬Marked k ([] : List (Step W)) := by
  rintro ⟨s, hs, -⟩
  cases hs

theorem marked_cons_of_settles {k : ℕ} {s : Step W} {behind : List (Step W)} (h : s.settles k = true) :
    Marked k (s :: behind) ↔ s.entry.type ≠ .default := by
  simp [Marked, h]

theorem marked_cons_of_not_settles {k : ℕ} {s : Step W} {behind : List (Step W)} (h : s.settles k = false) :
    Marked k (s :: behind) ↔ Marked k behind := by
  simp [Marked, h]

theorem level_of_settles {k : ℕ} {s : Step W} (h : s.settles k = true) : s.level = k ∧ s.outcome.settles = true := by
  obtain ⟨hk, ho⟩ := (Bool.and_eq_true_iff).mp h
  exact ⟨of_decide_eq_true hk, ho⟩

theorem settles_of_level {k : ℕ} {s : Step W} (hk : s.level = k) (hm : s.matched) : s.settles k = true := by
  obtain ⟨off, ho⟩ := hm
  rw [Step.settles, ho]
  exact Bool.and_eq_true_iff.mpr ⟨decide_eq_true hk, rfl⟩

theorem level_ne_of_not_settles {k : ℕ} {s : Step W} (h : s.settles k = false) (ho : s.outcome.settles = true) :
    s.level ≠ k := by
  rintro rfl
  rw [Step.settles, ho, Bool.and_true, decide_eq_false_iff_not] at h
  exact h rfl

/-- What settles a level is a match, unless it is a default. -/
theorem matched_of_settles {k : ℕ} {s : Step W} (h : s.settles k = true) (hne : s.outcome ≠ .suppressed) :
    s.level = k ∧ s.matched := by
  obtain ⟨hk, ho⟩ := level_of_settles h
  refine ⟨hk, ?_⟩
  cases hout : s.outcome with
  | hit off => exact ⟨off, hout⟩
  | suppressed => exact absurd hout hne
  | skipped => rw [hout] at ho; cases ho
  | ended => rw [hout] at ho; cases ho
  | miss => rw [hout] at ho; cases ho

theorem Marked.exists_matched {k : ℕ} {behind : List (Step W)} (h : Marked k behind)
    (hdefault : ∀ s ∈ behind, s.outcome = .suppressed → s.entry.type = .default) :
    ∃ s ∈ behind, s.level = k ∧ s.matched := by
  obtain ⟨s, hs, htype⟩ := h
  have hmem := List.mem_of_find?_eq_some hs
  obtain ⟨hk, hm⟩ := matched_of_settles (List.find?_some hs) fun ho => htype (hdefault s hmem ho)
  exact ⟨s, hmem, hk, hm⟩

/-! ## The invariant -/

/-- A group begins. -/
theorem TopDone.tracked {m : Entry} {L L' : Loop W} {off : BitVec 32} (h : TopDone c m L (.hit off) L')
    (hzero : m.contLevel = 0) : Tracked c L.contLevel [⟨m, L, .hit off⟩] L'.ms := by
  cases h with
  | hit hlevel hstored =>
    refine ⟨fun s hs ho => ?_, fun k hk hstart off' behind hsince hkept => ?_⟩
    · rw [List.mem_singleton.mp hs] at ho
      cases ho
    · cases hhit : (⟨m, L, .hit off⟩ : Step W).hitAt (k - 1) with
      | none =>
        rw [since_cons_of_none hhit] at hsince
        cases hsince
      | some off'' =>
        obtain ⟨hlevel', hoff⟩ := hitAt_eq_some hhit
        rw [since_cons_of_some hhit] at hsince
        cases hsince
        cases hoff
        have hk : k = 1 := by
          have : m.contLevel = k - 1 := hlevel'
          omega
        subst hk
        refine ⟨?_, ?_, fun s hs => by cases hs⟩
        · rw [hstored.offs, hstart rfl]
          rfl
        · rw [hstored.marks, hstart rfl]
          exact iff_of_false Bool.false_ne_true marked_nil

/-- A step that is no match of the level below, and leaves what the levels say. -/
theorem Tracked.pass {start k : ℕ} {s : Step W} {hist : List (Step W)} {ms ms' : MagicSet W} (h : Tracked c start hist ms)
    (hk : 1 ≤ k) (hstart : k = 1 → start = 0) {off : BitVec 32} {behind : List (Step W)}
    (hsince : since (k - 1) hist = some (off, behind)) (hkept : ∀ t ∈ behind, Kept c k t) (hoffs : ms'.offs (k - 1) = ms.offs (k - 1))
    (hsettled : s.settles k = true → (ms'.marks k = true ↔ s.entry.type ≠ .default))
    (hother : s.settles k = false → ms'.marks k = ms.marks k)
    (hsuppressed : s.level = k → s.outcome = .suppressed → ms.marks k = true) :
    ms'.offs (k - 1) = off ∧ (ms'.marks k = true ↔ Marked k (s :: behind)) ∧
      ∀ t ∈ s :: behind, t.level = k → t.outcome = .suppressed → ∃ u ∈ s :: behind, u.level = k ∧ u.matched := by
  obtain ⟨hoff, hmark, hmatched⟩ := h.levels k hk hstart off behind hsince hkept
  refine ⟨hoffs.trans hoff, ?_, fun t ht htk hto => ?_⟩
  · cases hs : s.settles k with
    | true => rw [hsettled hs, marked_cons_of_settles hs]
    | false => rw [hother hs, marked_cons_of_not_settles hs, hmark]
  · have hdefault : ∀ u ∈ behind, u.outcome = .suppressed → u.entry.type = .default :=
      fun u hu => h.default_of_suppressed u (mem_of_since hsince hu)
    obtain ⟨u, hu, hum⟩ : ∃ u ∈ behind, u.level = k ∧ u.matched := by
      rcases List.mem_cons.mp ht with rfl | ht
      · exact (hmark.mp (hsuppressed htk hto)).exists_matched hdefault
      · exact hmatched t ht htk hto
    exact ⟨u, List.mem_cons_of_mem _ hu, hum⟩

/-- One step keeps the invariant. -/
theorem ContDone.tracked {m : Entry} {L L' : Loop W} {o : Outcome} (h : ContDone c m L o L') {start : ℕ}
    {hist : List (Step W)} (ht : Tracked c start hist L.ms) : Tracked c start (⟨m, L, o⟩ :: hist) L'.ms := by
  refine ⟨fun s hs ho => ?_, fun k hk hstart off behind hsince hkept => ?_⟩
  · rcases List.mem_cons.mp hs with rfl | hs
    · cases h with
      | suppressed _ htype => exact htype
      | _ => cases ho
    · exact ht.default_of_suppressed s hs ho
  · cases hhit : (⟨m, L, o⟩ : Step W).hitAt (k - 1) with
    | some off' =>
      -- the level below has matched: its offset is new, and the flag is cleared
      obtain ⟨hlevel, rfl⟩ := hitAt_eq_some hhit
      have hlevel' : m.contLevel = k - 1 := hlevel
      rw [since_cons_of_some hhit] at hsince
      cases hsince
      cases h with
      | hit _ _ _ hstored =>
        rw [hlevel'] at hstored
        refine ⟨?_, ?_, fun s hs => by cases hs⟩
        · rw [hstored.offs, Function.update_self]
        · rw [hstored.marks, Nat.sub_add_cancel hk, Function.update_self]
          exact iff_of_false Bool.false_ne_true marked_nil
    | none =>
      rw [since_cons_of_none hhit] at hsince
      obtain ⟨⟨off', behind'⟩, hsince', heq⟩ := Option.map_eq_some_iff.mp hsince
      cases heq
      have hkeptTail : ∀ s ∈ behind', Kept c k s := fun s hs => hkept s (List.mem_cons_of_mem _ hs)
      have hkeptHead : Kept c k ⟨m, L, o⟩ := hkept _ List.mem_cons_self
      have hne {off : BitVec 32} (ho : o = .hit off) : m.contLevel ≠ k - 1 := by
        rintro hlevel
        subst ho
        simp [Step.hitAt, Step.level, hlevel] at hhit
      refine ht.pass hk hstart hsince' hkeptTail ?_ ?_ ?_ ?_
      · cases h with
        | above => rfl
        | branch _ _ _ hoffs => rw [hoffs]
        | miss _ _ hoffs => rw [hoffs, (hkeptHead fun h => by cases h).1]
        | suppressed _ _ _ _ hoffs => rw [hoffs, (hkeptHead fun h => by cases h).1]
        | hit _ _ _ hstored =>
          rw [hstored.offs, Function.update_of_ne (Ne.symm (hne rfl)), (hkeptHead fun h => by cases h).1]
      · intro hsettles
        obtain ⟨hlevel, ho⟩ := level_of_settles hsettles
        have hlevel' : m.contLevel = k := hlevel
        cases h with
        | suppressed _ htype _ _ _ hmarks =>
          rw [hmarks, hlevel', Function.update_self]
          exact iff_of_false Bool.false_ne_true fun h => h htype
        | hit _ _ _ hstored =>
          rw [hstored.marks, hlevel', Function.update_of_ne (by omega), Function.update_self]
          exact decide_eq_true_iff
        | _ => cases ho
      · intro hsettles
        cases h with
        | above => rfl
        | branch _ _ _ _ hmarks => rw [hmarks]
        | miss _ _ _ hmarks => rw [hmarks, (hkeptHead fun h => by cases h).2]
        | suppressed _ _ _ _ _ hmarks =>
          have hlevel : m.contLevel ≠ k := level_ne_of_not_settles hsettles rfl
          rw [hmarks, Function.update_of_ne (Ne.symm hlevel), (hkeptHead fun h => by cases h).2]
        | hit _ _ _ hstored =>
          have hlevel : m.contLevel ≠ k := level_ne_of_not_settles hsettles rfl
          have hsucc : k ≠ m.contLevel + 1 := fun h => hne rfl (by omega)
          rw [hstored.marks, Function.update_of_ne hsucc, Function.update_of_ne (Ne.symm hlevel),
            (hkeptHead fun h => by cases h).2]
      · rintro hlevel rfl
        have hlevel' : m.contLevel = k := hlevel
        cases h with
        | suppressed _ _ hmark =>
          rw [hlevel'] at hmark
          rw [← (hkeptHead fun h => by cases h).2]
          exact hmark

/-- The loop over the continuations keeps the invariant, and each step does what a step can do. -/
theorem tracked_of_contLoop {conts : List Entry} {L : Loop W} {start : ℕ} {hist : List (Step W)}
    (ht : Tracked c start hist L.ms) (pre : List (Step W)) (s : Step W) (post : List (Step W))
    (h : (contLoop c conts L).1 = pre ++ s :: post) :
    Tracked c start (pre.reverse ++ hist) s.loop.ms ∧
      (s.outcome = .ended ∨ ∃ L', contStep c s.entry s.loop = .ok (s.outcome, L')) := by
  induction conts generalizing L hist pre with
  | nil => cases pre <;> cases h
  | cons m conts ih =>
    cases hdone : contStep c m L with
    | error e =>
      rw [contLoop_error hdone] at h
      cases pre with
      | nil =>
        obtain ⟨rfl, -⟩ := List.cons.inj h
        exact ⟨ht, .inl rfl⟩
      | cons t pre => cases pre <;> cases (List.cons.inj h).2
    | ok r =>
      obtain ⟨o, L'⟩ := r
      have hstep := contStep_done hdone
      rw [contLoop_ok hdone] at h
      cases pre with
      | nil =>
        obtain ⟨rfl, -⟩ := List.cons.inj h
        exact ⟨ht, .inr ⟨L', hdone⟩⟩
      | cons t pre =>
        obtain ⟨rfl, hpre⟩ := List.cons.inj h
        rw [List.reverse_cons, List.append_assoc]
        exact ih (hstep.tracked ht) pre hpre

theorem entry_mem_of_contLoop {conts : List Entry} {L : Loop W} {s : Step W} (hs : s ∈ (contLoop c conts L).1) :
    s.entry ∈ conts := by
  induction conts generalizing L with
  | nil => cases hs
  | cons m conts ih =>
    cases hdone : contStep c m L with
    | error e =>
      rw [contLoop_error hdone] at hs
      rw [List.mem_singleton.mp hs]
      exact List.mem_cons_self
    | ok r =>
      rw [contLoop_ok hdone] at hs
      rcases List.mem_cons.mp hs with rfl | hs
      · exact List.mem_cons_self
      · exact List.mem_cons_of_mem _ (ih hs)

/-- The groups of a run: a first step, and the loop over continuations if it matched. -/
theorem GroupDone.steps {m : Entry} {conts : List Entry} {L : Loop W} {g : List (Step W)} {r : Except (Ended W) (Loop W)}
    (h : GroupDone c m conts L g r) : (∃ o, g = [⟨m, L, o⟩]) ∨
      ∃ off L', TopDone c m L (.hit off) L' ∧ g = ⟨m, L, .hit off⟩ :: (contLoop c conts L').1 := by
  cases h with
  | topEnded => exact .inl ⟨_, rfl⟩
  | topMiss => exact .inl ⟨_, rfl⟩
  | contEnded htop => exact .inr ⟨_, _, topStep_done htop, rfl⟩
  | printed htop => exact .inr ⟨_, _, topStep_done htop, rfl⟩
  | hit htop => exact .inr ⟨_, _, topStep_done htop, rfl⟩

theorem mem_matchLoop {mode : BitVec 8} {text : Bool} {gs : List (Entry × List Entry)} {L : Loop W} {g : List (Step W)}
    (hg : g ∈ (matchLoop c mode text gs L).groups) : ∃ m conts L₀ r, (m, conts) ∈ gs ∧ GroupDone c m conts L₀ g r := by
  induction gs generalizing L with
  | nil => cases hg
  | cons mc gs ih =>
    obtain ⟨m, conts⟩ := mc
    cases hskip : skips mode text m with
    | true =>
      rw [matchLoop_skips hskip] at hg
      obtain ⟨m', conts', L₀, r, hmem, hdone⟩ := ih hg
      exact ⟨m', conts', L₀, r, List.mem_cons_of_mem _ hmem, hdone⟩
    | false =>
      obtain ⟨g', r, hdone, hloop⟩ := @matchLoop_done _ c m L mode text conts gs hskip
      rw [hloop] at hg
      cases r with
      | error e =>
        rw [List.mem_singleton.mp hg]
        exact ⟨m, conts, L, _, List.mem_cons_self, hdone⟩
      | ok L' =>
        rcases List.mem_cons.mp hg with rfl | hg
        · exact ⟨m, conts, L, _, List.mem_cons_self, hdone⟩
        · obtain ⟨m', conts', L₀, r, hmem, hdone'⟩ := ih hg
          exact ⟨m', conts', L₀, r, List.mem_cons_of_mem _ hmem, hdone'⟩

theorem mem_matchMagic {mode : BitVec 8} {text : Bool} {entries : List Entry} {returnval : Bool} {ms : MagicSet W}
    {g : List (Step W)} (hg : g ∈ (matchMagic c mode text entries returnval ms).groups) :
    ∃ m conts L₀ r, (m, conts) ∈ groups entries ∧ GroupDone c m conts L₀ g r := by
  unfold matchMagic at hg
  dsimp only at hg
  split at hg
  case isTrue => exact mem_matchLoop hg
  case isFalse => cases hg

/-! ## Bases and defaults -/

theorem settles_of_matched {m : Entry} {L L' : Loop W} {o : Outcome} (h : contStep c m L = .ok (o, L'))
    (hle : m.contLevel ≤ L.contLevel) (hcond : o ≠ .skipped) (htest : (test c m (L.entered m)).1 = .matched) :
    o.settles = true := by
  rw [contStep, if_neg (by omega)] at h
  dsimp only at h
  split at h
  case isTrue =>
    cases h
    exact absurd rfl hcond
  case isFalse =>
    rw [contTested, htest] at h
    dsimp only at h
    split at h
    case isTrue =>
      obtain ⟨off, rfl, -⟩ := contMatched_hit h
      rfl
    case isFalse =>
      split at h
      case isTrue =>
        cases h
        rfl
      case isFalse =>
        obtain ⟨off, rfl, -⟩ := contMatched_hit h
        rfl

theorem locate_li {lv : Leaves W} {call : Call} {m : Entry} {contLevel : ℕ} {ms : MagicSet W} :
    (locate lv call m contLevel ms).2.li = ms.li := by
  unfold locate
  dsimp only
  split
  case isTrue => rfl
  case isFalse =>
    split
    case isTrue =>
      split
      case h_1 => rfl
      case h_2 => split <;> rfl
    case isFalse => rfl

/-- Only `indirect` and `use` call `match`. -/
theorem mget_li {lv : Leaves W} {db : Database} {enter : Call → Bool → MagicSet W → Ended W} {call : Call} {m : Entry}
    {contLevel : ℕ} {returnval : Bool} {ms : MagicSet W} (hi : m.type ≠ .indirect) (hu : m.type ≠ .use) :
    (mget lv db enter call m contLevel returnval ms).2.2.li = ms.li := by
  unfold mget
  dsimp only
  split
  case h_1 => exact locate_li
  case h_2 =>
    split
    case h_1 h => exact absurd h hi
    case h_2 h => exact absurd h hu
    case h_3 => exact locate_li
    case h_4 => split <;> exact locate_li

/-- What is added for `OFFADD` and `INDIROFFADD` is the offset behind the most recent match of the level below. -/
def BaseRight (hist : List (Step W)) (s : Step W) : Prop :=
  s.entry.has flagOffAdd = true ∨ s.entry.has flagIndirOffAdd = true →
    ∃ off behind, since (s.level - 1) hist = some (off, behind) ∧
      (s.entry.has flagOffAdd = true → contOffset s.entry s.level s.loop.ms = s.entry.offset + off) ∧
      (s.entry.has flagIndirOffAdd = true → indirBase s.entry s.level s.loop.ms = off)

/-- A default takes effect if and only if nothing of its level has matched under the same entry. -/
def DefaultRight (hist : List (Step W)) (s : Step W) : Prop :=
  s.entry.type = .default → s.outcome ≠ .ended →
    ∃ off behind, since (s.level - 1) hist = some (off, behind) ∧ (s.matched ↔ ∀ t ∈ behind, t.level = s.level → ¬t.matched)

/-- In all groups of a run, for the continuations that are tested. -/
def LevelsRight (r : Run W) : Prop :=
  ∀ top steps, top :: steps ∈ r.groups → ∀ pre s post, steps = pre ++ s :: post → s.tested →
    BaseRight (pre.reverse ++ [top]) s ∧ DefaultRight (pre.reverse ++ [top]) s

/-- The entry is under one that matched, and what that one has left of the levels is there: the counter was 0 when the group
began, if it is under the first entry, and nothing that was called in the meantime has changed it. -/
def Fresh (c : Callees W) (top : Step W) (hist : List (Step W)) (s : Step W) : Prop :=
  ∃ off behind, since (s.level - 1) hist = some (off, behind) ∧ (s.level = 1 → top.loop.contLevel = 0) ∧
    ∀ t ∈ behind, Kept c s.level t

/-- A default matches by itself, and the last entry of its level that matched under the same entry, or was suppressed, is not a
default too. -/
def FirstDefault (c : Callees W) (hist : List (Step W)) (s : Step W) : Prop :=
  s.entry.type = .default → (test c s.entry (s.loop.entered s.entry)).1 = .matched ∧
    ∀ off behind, since (s.level - 1) hist = some (off, behind) → ∀ t, behind.find? (·.settles s.level) = some t →
      t.entry.type ≠ .default

variable {lv : Leaves W} {db : Database} {enter : Call → Bool → MagicSet W → Ended W} {call : Call}

/-- Whether nothing has matched is what the flag says, unless the last that settled it was a default. -/
theorem not_marked_iff {k : ℕ} {behind : List (Step W)}
    (hdefault : ∀ s ∈ behind, s.outcome = .suppressed → s.entry.type = .default)
    (hfirst : ∀ t, behind.find? (·.settles k) = some t → t.entry.type ≠ .default) :
    ¬Marked k behind ↔ ∀ t ∈ behind, t.level = k → ¬t.matched := by
  constructor
  · intro hmark t ht hk hm
    obtain ⟨u, hu⟩ := Option.isSome_iff_exists.mp (List.find?_isSome.mpr ⟨t, ht, settles_of_level hk hm⟩)
    exact hmark ⟨u, hu, hfirst u hu⟩
  · intro hnone hmark
    obtain ⟨s, hs, hk, hm⟩ := hmark.exists_matched hdefault
    exact hnone s hs hk hm

variable {lv : Leaves W} {db : Database} {enter : Call → Bool → MagicSet W → Ended W} {call : Call} {returnval : Bool}
  {ms : MagicSet W} {top s : Step W} {steps pre post : List (Step W)}

/-- What the levels say when a continuation is tested, with `hist` passed before it. -/
structure Says (c : Callees W) (hist : List (Step W)) (s : Step W) (off : BitVec 32) (behind : List (Step W)) : Prop where
  since_eq : since (s.level - 1) hist = some (off, behind)
  offs : s.loop.ms.offs (s.level - 1) = off
  marks : s.loop.ms.marks s.level = true ↔ Marked s.level behind
  default_of_suppressed : ∀ t ∈ behind, t.outcome = .suppressed → t.entry.type = .default
  suppressed : ∀ t ∈ behind, t.level = s.level → t.outcome = .suppressed → ∃ u ∈ behind, u.level = s.level ∧ u.matched
  step : s.outcome = .ended ∨ ∃ L', contStep c s.entry s.loop = .ok (s.outcome, L')

theorem says_of_fresh (hzero : ∀ m ∈ call.entries.head?, m.contLevel = 0)
    (hg : top :: steps ∈ (matchCall lv db enter call returnval ms).groups) (hs : steps = pre ++ s :: post)
    (hfresh : Fresh (callees lv db enter call) top (pre.reverse ++ [top]) s) :
    ∃ off behind, Says (callees lv db enter call) (pre.reverse ++ [top]) s off behind := by
  obtain ⟨m, conts, L, r, hmem, hdone⟩ := mem_matchMagic hg
  subst hs
  obtain ⟨o, ho⟩ | ⟨off, L', htop, hgroup⟩ := hdone.steps
  · cases pre <;> cases (List.cons.inj ho).2
  · obtain ⟨rfl, hsteps⟩ := List.cons.inj hgroup
    obtain ⟨htracked, hdone⟩ := tracked_of_contLoop (htop.tracked (groups_top hzero hmem)) pre s post hsteps.symm
    obtain ⟨off, behind, hsince, hstart, hkept⟩ := hfresh
    have hlevel : 1 ≤ s.level := by
      have hentry : s.entry ∈ conts := entry_mem_of_contLoop (by rw [← hsteps]; simp)
      exact Nat.one_le_iff_ne_zero.mpr ((groups_tail call.entries).2 _ hmem s.entry hentry)
    obtain ⟨hoffs, hmark, hsuppressed⟩ := htracked.levels s.level hlevel hstart off behind hsince hkept
    exact ⟨off, behind, hsince, hoffs, hmark, fun t ht => htracked.default_of_suppressed t (mem_of_since hsince ht),
      hsuppressed, hdone⟩

/-- A default that matches by itself takes effect just if the flag of its level is not set. -/
theorem Says.matched_iff {hist behind : List (Step W)} {off : BitVec 32}
    (h : Says (callees lv db enter call) hist s off behind) (htested : s.tested) (htype : s.entry.type = .default)
    (hended : s.outcome ≠ .ended) (hown : (test (callees lv db enter call) s.entry (s.loop.entered s.entry)).1 = .matched) :
    s.matched ↔ ¬Marked s.level behind := by
  obtain ⟨L', hstep⟩ := h.step.resolve_left hended
  have hgot : (s.loop.got (callees lv db enter call) s.entry).marks = s.loop.ms.marks :=
    (offs_congr (mget_li (by rw [htype]; decide) (by rw [htype]; decide))).2
  have hcases := contStep_done hstep
  have hmarks := h.marks
  rw [Step.level] at hmarks ⊢
  generalize ho : s.outcome = o at hcases hstep
  cases hcases with
  | above => exact absurd ho htested
  | branch => exact absurd ho htested
  | miss hle => cases settles_of_matched hstep hle (fun h => by cases h) hown
  | suppressed _ _ hsupp =>
    rw [hgot] at hsupp
    refine iff_of_false ?_ fun hnone => hnone (hmarks.mp hsupp)
    rintro ⟨off', hoff'⟩
    rw [ho] at hoff'
    cases hoff'
  | hit _ hfree =>
    have hfree := hfree htype
    rw [hgot] at hfree
    refine iff_of_true ⟨_, ho⟩ fun hm => ?_
    rw [hmarks.mpr hm] at hfree
    cases hfree

/-- Where the levels are fresh, a default that matches by itself is right just if it is the first of its kind. -/
theorem defaultRight_iff (hzero : ∀ m ∈ call.entries.head?, m.contLevel = 0)
    (hg : top :: steps ∈ (matchCall lv db enter call returnval ms).groups) (hs : steps = pre ++ s :: post) (htested : s.tested)
    (hfresh : Fresh (callees lv db enter call) top (pre.reverse ++ [top]) s) (htype : s.entry.type = .default)
    (hended : s.outcome ≠ .ended) (hown : (test (callees lv db enter call) s.entry (s.loop.entered s.entry)).1 = .matched) :
    DefaultRight (pre.reverse ++ [top]) s ↔ FirstDefault (callees lv db enter call) (pre.reverse ++ [top]) s := by
  obtain ⟨off, behind, hbase⟩ := says_of_fresh hzero hg hs hfresh
  have hmatched := hbase.matched_iff htested htype hended hown
  constructor
  · intro hright _
    refine ⟨hown, fun off' behind' hsince t ht htype' => ?_⟩
    rw [hbase.since_eq] at hsince
    cases hsince
    obtain ⟨off', behind', hsince, hiff⟩ := hright htype hended
    rw [hbase.since_eq] at hsince
    cases hsince
    -- behind another default the flag is not set, but something has matched
    have hnot : ¬Marked s.level behind := by
      rintro ⟨u, hu, hne⟩
      rw [ht] at hu
      cases hu
      exact hne htype'
    have hnone := hiff.mp (hmatched.mpr hnot)
    have hmem := List.mem_of_find?_eq_some ht
    have hsettles := List.find?_some ht
    by_cases ho : t.outcome = .suppressed
    · obtain ⟨u, hu, hk, hm⟩ := hbase.suppressed t hmem (level_of_settles hsettles).1 ho
      exact hnone u hu hk hm
    · obtain ⟨hk, hm⟩ := matched_of_settles hsettles ho
      exact hnone t hmem hk hm
  · intro hfirst _ _
    refine ⟨off, behind, hbase.since_eq, hmatched.trans ?_⟩
    exact not_marked_iff hbase.default_of_suppressed ((hfirst htype).2 off behind hbase.since_eq)

/-- **Relative offsets and defaults.** In each run, what is added for a continuation that is tested is right if the levels are
fresh, and so is what becomes of a default that is the first of its kind. -/
theorem matchCall_levels (lv : Leaves W) (db : Database) (enter : Call → Bool → MagicSet W → Ended W) (call : Call)
    (returnval : Bool) (ms : MagicSet W) (hzero : ∀ m ∈ call.entries.head?, m.contLevel = 0) (top : Step W)
    (steps : List (Step W)) (hg : top :: steps ∈ (matchCall lv db enter call returnval ms).groups) (pre : List (Step W))
    (s : Step W) (post : List (Step W)) (hs : steps = pre ++ s :: post) (htested : s.tested)
    (hfresh : Fresh (callees lv db enter call) top (pre.reverse ++ [top]) s) :
    BaseRight (pre.reverse ++ [top]) s ∧
      (FirstDefault (callees lv db enter call) (pre.reverse ++ [top]) s → DefaultRight (pre.reverse ++ [top]) s) := by
  obtain ⟨off, behind, hbase⟩ := says_of_fresh hzero hg hs hfresh
  refine ⟨fun _ => ⟨off, behind, hbase.since_eq, fun hadd => ?_, fun hadd => ?_⟩, fun hfirst htype hended => ?_⟩
  · rw [contOffset, if_pos hadd, ← hbase.offs]
    rfl
  · rw [indirBase, if_pos hadd, ← hbase.offs]
    rfl
  · exact (defaultRight_iff hzero hg hs htested hfresh htype hended (hfirst htype).1).mpr hfirst htype hended

/-- Bytes that match, as `0 byte x` and `16 byte x` do. -/
def byteLeaves : Leaves Unit where
  flags := ⟨false, false, false, false⟩
  mcopy := fun _ _ _ _ _ _ w => (true, w)
  indirect := fun _ _ _ _ _ w => (none, w)
  mconvert := fun _ _ w => (true, w)
  openOut := id
  dropOut := id
  keepOut := fun _ _ w => (true, w)
  magiccheck := fun _ _ w => (some true, w)
  mprint := fun _ _ w => (true, w)
  moffset := fun m off w => (if m.type = .byte then off + 1 else if m.type = .default then off else 0, w)
  printf := fun _ w => (true, w)
  realloc := fun _ _ => true

/-- The entry `byte x` at an offset. -/
def byteAt (level : ℕ) (flag : BitVec 8) (offset : BitVec 32) : Entry := { plainEntry level with flag, offset }

/-- 64 bytes, and no other entries. -/
def byteRun (entries : List Entry) : Run Unit :=
  matchCall byteLeaves ⟨[], []⟩ (fun _ returnval ms => ⟨.no, returnval, ms⟩) ⟨entries, 0, 64, 0, 0, false, false⟩ false
    ⟨fun _ => ⟨0, false, false⟩, 0, 0, ()⟩

/-- `16 byte x` and `>&0 default x`. -/
theorem matchCall_levels_one :
    ∃ top s, [top, s] ∈ (byteRun [byteAt 0 0 16, { byteAt 1 flagOffAdd 0 with type := .default }]).groups ∧
      BaseRight [top] s ∧ DefaultRight [top] s := by
  refine ⟨_, _, List.mem_cons_self, ?_⟩
  have h := matchCall_levels byteLeaves ⟨[], []⟩ (fun _ returnval ms => ⟨.no, returnval, ms⟩)
    ⟨[byteAt 0 0 16, { byteAt 1 flagOffAdd 0 with type := .default }], 0, 64, 0, 0, false, false⟩ false
    ⟨fun _ => ⟨0, false, false⟩, 0, 0, ()⟩ (by decide) _ _ List.mem_cons_self [] _ [] rfl
    (by unfold Step.tested; decide) ⟨17, [], rfl, fun _ => rfl, fun t ht => by cases ht⟩
  refine ⟨h.1, h.2 fun _ => ⟨rfl, fun off behind hsince t ht => ?_⟩⟩
  cases hsince
  cases ht

/-- `0 byte x`, `16 byte x` and `>&0 byte x`: 1 is added for the last, the offset behind the first entry of another group. -/
theorem not_levelsRight_carried : ¬LevelsRight (byteRun [byteAt 0 0 0, byteAt 0 0 16, byteAt 1 flagOffAdd 0]) := by
  intro h
  obtain ⟨off, behind, hsince, hadd, -⟩ := (h _ _ (List.mem_cons_of_mem _ List.mem_cons_self) [] _ [] rfl
    (by unfold Step.tested; decide)).1 (.inl (by decide))
  cases hsince
  have := hadd (by decide)
  revert this
  decide

end CodingExercises.File
