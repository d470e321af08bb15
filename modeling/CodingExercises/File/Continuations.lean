import Mathlib.Data.List.Chain
import CodingExercises.Lib.Outline
import CodingExercises.File.Softmagic

/-!
# file: the levels of continuations

If the levels of an array rise by at most one from an entry to the next, the loops test those continuations of a group for
which the nearest preceding entry of each lower level was tested and matched (`matchMagic_tests`).

The counter is carried from one group to the next, and it may be high when a group begins. But the first continuation of a
group has level 1, which is not above the counter then, and sets it.
-/

namespace CodingExercises.File

open CodingExercises.Lib

variable {W : Type} {c : Callees W}

/-- The entry was given to `mget`. -/
def Step.tested (s : Step W) : Prop := s.outcome ≠ .skipped

/-- The entry matched, and the entries under it come to be tested. -/
def Step.matched (s : Step W) : Prop := ∃ off, s.outcome = .hit off

def Step.level (s : Step W) : ℕ := s.entry.contLevel

/-- Levels rise by at most one from an entry to the next. -/
def Rising (l : List Entry) : Prop := l.IsChain fun m n => n.contLevel ≤ m.contLevel + 1

/-- The steps `steps` behind the step `top` of an entry of level 0 are those of the continuations `conts`, and those are tested
that are to be tested. -/
structure GroupTested (conts : List Entry) (top : Step W) (steps : List (Step W)) : Prop where
  top_tested : top.tested
  failed : ¬top.matched → steps = []
  order : steps.map (·.entry) <+: conts
  all : top.matched → steps.map (·.entry) = conts ∨ ∃ s ∈ steps, s.outcome = .ended
  tested_iff : ∀ pre s post, steps = pre ++ s :: post →
    (s.tested ↔ Controlled Step.level Step.matched (pre.reverse ++ [top]) s.level)

/-- One step keeps the walk. -/
theorem ContDone.walk {m : Entry} {L L' : Loop W} {o : Outcome} (h : ContDone c m L o L') (hcond : m.cond = .condNone)
    {prev : Step W} {hist : List (Step W)} (hw : Walk Step.level Step.matched (prev :: hist) L.contLevel)
    (hrise : m.contLevel ≤ prev.level + 1) :
    Walk Step.level Step.matched (⟨m, L, o⟩ :: prev :: hist) L'.contLevel ∧
      (o ≠ .skipped ↔ m.contLevel ≤ L.contLevel) := by
  cases h with
  | above hlt =>
    refine ⟨.skip hw hrise hlt fun ⟨off, hoff⟩ => (by cases hoff), iff_of_false (fun h => h rfl) (by omega)⟩
  | branch _ hbranch =>
    rw [hcond] at hbranch
    rcases hbranch with hbranch | hbranch <;> cases hbranch
  | miss hle hlevel =>
    rw [hlevel]
    exact ⟨.miss hw hrise hle fun ⟨off, hoff⟩ => (by cases hoff), iff_of_true (fun h => by cases h) hle⟩
  | suppressed hle _ _ hlevel =>
    rw [hlevel]
    exact ⟨.miss hw hrise hle fun ⟨off, hoff⟩ => (by cases hoff), iff_of_true (fun h => by cases h) hle⟩
  | hit hle _ hlevel =>
    rw [hlevel]
    exact ⟨.hit hw hrise hle ⟨_, rfl⟩, iff_of_true (fun h => by cases h) hle⟩

/-- The loop over the continuations is a walk. -/
theorem contLoop_tests {conts : List Entry} (hcond : ∀ m ∈ conts, m.cond = .condNone) {L : Loop W} {prev : Step W}
    {hist : List (Step W)} (hw : Walk Step.level Step.matched (prev :: hist) L.contLevel)
    (hrise : Rising (prev.entry :: conts)) :
    (contLoop c conts L).1.map (·.entry) <+: conts ∧
      ((contLoop c conts L).1.map (·.entry) = conts ∨ ∃ s ∈ (contLoop c conts L).1, s.outcome = .ended) ∧
      ∀ pre s post, (contLoop c conts L).1 = pre ++ s :: post →
        (s.tested ↔ Controlled Step.level Step.matched (pre.reverse ++ prev :: hist) s.level) := by
  induction conts generalizing L prev hist with
  | nil =>
    refine ⟨List.nil_prefix, .inl rfl, fun pre s post h => ?_⟩
    cases pre <;> cases h
  | cons m conts ih =>
    have hstep := (List.isChain_cons_cons.mp hrise).1
    cases hdone : contStep c m L with
    | error e =>
      rw [contLoop_error hdone]
      refine ⟨⟨conts, rfl⟩, .inr ⟨_, List.mem_singleton_self _, rfl⟩, fun pre s post h => ?_⟩
      have hle := le_of_contStep_error hdone
      obtain ⟨rfl, rfl⟩ : pre = [] ∧ s = ⟨m, L, .ended⟩ := by
        cases pre with
        | nil => exact ⟨rfl, (List.cons.inj h).1.symm⟩
        | cons t pre => cases pre <;> cases (List.cons.inj h).2
      exact iff_of_true (fun h => by cases h) ((hw.le_iff hstep).mp hle)
    | ok r =>
      obtain ⟨o, L'⟩ := r
      obtain ⟨hw', htested⟩ := (contStep_done hdone).walk (hcond m List.mem_cons_self) hw hstep
      obtain ⟨hinitial, hall, hiff⟩ := ih (fun m' hm => hcond m' (List.mem_cons_of_mem _ hm)) hw'
        (List.isChain_cons_cons.mp hrise).2
      rw [contLoop_ok hdone]
      refine ⟨(List.prefix_cons_inj m).mpr hinitial, ?_, fun pre s post h => ?_⟩
      · rcases hall with hall | ⟨s, hs, hended⟩
        · exact .inl (congrArg (m :: ·) hall)
        · exact .inr ⟨s, List.mem_cons_of_mem _ hs, hended⟩
      · cases pre with
        | nil =>
          obtain ⟨rfl, rfl⟩ := List.cons.inj h
          exact htested.trans (hw.le_iff hstep)
        | cons t pre =>
          obtain ⟨rfl, hpre⟩ := List.cons.inj h
          rw [List.reverse_cons, List.append_assoc]
          exact hiff pre s post hpre

theorem GroupDone.tests {m : Entry} {conts : List Entry} {L : Loop W} {g : List (Step W)} {r : Except (Ended W) (Loop W)}
    (h : GroupDone c m conts L g r) (hzero : m.contLevel = 0) (hcond : ∀ m ∈ conts, m.cond = .condNone)
    (hrise : Rising (m :: conts)) : ∃ top steps, g = top :: steps ∧ top.entry = m ∧ GroupTested conts top steps := by
  have hhit {off : BitVec 32} {L' : Loop W} (htop : topStep c m L = .ok (.hit off, L')) :
      GroupTested conts ⟨m, L, .hit off⟩ (contLoop c conts L').1 := by
    cases topStep_done htop with
    | hit hlevel =>
      have hw : Walk Step.level Step.matched [(⟨m, L, .hit off⟩ : Step W)] L'.contLevel :=
        .start hzero ⟨off, rfl⟩ (by omega)
      obtain ⟨hinitial, hall, hiff⟩ := contLoop_tests hcond hw hrise
      exact ⟨fun h => (by cases h), fun h => absurd ⟨off, rfl⟩ h, hinitial, fun _ => hall, hiff⟩
  have hfailed {o : Outcome} (ho : o = .ended ∨ o = .miss) : GroupTested conts ⟨m, L, o⟩ [] := by
    refine ⟨?_, fun _ => rfl, List.nil_prefix, ?_, fun pre s post h => by cases pre <;> cases h⟩
    · rcases ho with rfl | rfl <;> exact fun h => by cases h
    · rintro ⟨off, hoff⟩
      rcases ho with rfl | rfl <;> cases hoff
  cases h with
  | topEnded => exact ⟨_, _, rfl, rfl, hfailed (.inl rfl)⟩
  | topMiss => exact ⟨_, _, rfl, rfl, hfailed (.inr rfl)⟩
  | contEnded htop => exact ⟨_, _, rfl, rfl, hhit htop⟩
  | printed htop => exact ⟨_, _, rfl, rfl, hhit htop⟩
  | hit htop => exact ⟨_, _, rfl, rfl, hhit htop⟩

/-- The steps of a group, and the group as it stands in the array. -/
def Tests (g : Entry × List Entry) (steps : List (Step W)) : Prop :=
  ∃ top rest, steps = top :: rest ∧ top.entry = g.1 ∧ GroupTested g.2 top rest

theorem matchLoop_tests {mode : BitVec 8} {text : Bool} {gs : List (Entry × List Entry)} {L : Loop W}
    (h : ∀ g ∈ gs, g.1.contLevel = 0 ∧ (∀ m ∈ g.2, m.cond = .condNone) ∧ Rising (g.1 :: g.2)) :
    ∃ gs', gs'.Sublist gs ∧ List.Forall₂ Tests gs' (matchLoop c mode text gs L).groups := by
  induction gs generalizing L with
  | nil => exact ⟨[], .slnil, .nil⟩
  | cons g gs ih =>
    obtain ⟨m, conts⟩ := g
    have hgs (L : Loop W) := @ih L fun g hg => h g (List.mem_cons_of_mem _ hg)
    cases hskip : skips mode text m with
    | true =>
      rw [matchLoop_skips hskip]
      obtain ⟨gs', hsub, htests⟩ := hgs L
      exact ⟨gs', hsub.cons _, htests⟩
    | false =>
      obtain ⟨g, r, hdone, hloop⟩ := @matchLoop_done _ c m L mode text conts gs hskip
      obtain ⟨hzero, hcond, hrise⟩ := h _ List.mem_cons_self
      have htests := hdone.tests hzero hcond hrise
      rw [hloop]
      cases r with
      | error e => exact ⟨[(m, conts)], (List.nil_sublist gs).cons_cons _, .cons htests .nil⟩
      | ok L' =>
        obtain ⟨gs', hsub, hrest⟩ := hgs L'
        exact ⟨(m, conts) :: gs', hsub.cons_cons _, .cons htests hrest⟩

/-- **Continuation levels.** In each group that a run passes, also behind other groups that matched, the continuations are
passed once each in order, none where the first entry fails, and those are tested for which the nearest preceding entry of
each lower level was tested and matched. -/
theorem matchMagic_tests (c : Callees W) (mode : BitVec 8) (text : Bool) (entries : List Entry) (returnval : Bool)
    (ms : MagicSet W) (hfirst : ∀ m ∈ entries.head?, m.contLevel = 0) (hrise : Rising entries)
    (hcond : ∀ m ∈ entries, m.cond = .condNone) :
    ∃ gs, gs.Sublist (groups entries) ∧
      List.Forall₂ Tests gs (matchMagic c mode text entries returnval ms).groups := by
  unfold matchMagic
  dsimp only
  split
  case isTrue =>
    refine matchLoop_tests fun g hg => ⟨groups_top hfirst hg, fun m hm => ?_, hrise.infix (groups_within hg)⟩
    exact hcond m ((groups_within hg).subset (List.mem_cons_of_mem _ hm))
  case isFalse => exact ⟨[], List.nil_sublist _, .nil⟩

/-- The entry `0 byte x` with some level, and no text. -/
def plainEntry (level : ℕ) : Entry where
  type := .byte
  desc := []
  contLevel := level
  flag := 0
  reln := 'x'
  vallen := 0
  inType := .invalid
  inOp := 0
  cond := .condNone
  offset := 0
  inOffset := 0
  strRange := 0
  strFlags := 0
  value := []
  mimetype := []
  apple := []

/-- Entries match unless their level is `k`; the offset behind each is `off`. -/
def matchBut (k : ℕ) (off : BitVec 32) : Callees Unit where
  flags := ⟨false, false, false, false⟩
  mget := fun m _ returnval ms => (if m.contLevel = k then .no else .yes, returnval, ms)
  magiccheck := fun _ _ w => (some true, w)
  mprint := fun _ _ w => (true, w)
  moffset := fun _ _ w => (off, w)
  printf := fun _ w => (true, w)
  realloc := fun _ _ => true

/-- Two groups; nothing matches on level 1, so that the entries of level 2 are not tested. -/
theorem matchMagic_tests_two : ∃ gs, gs.Sublist (groups [plainEntry 0, plainEntry 1, plainEntry 2, plainEntry 0, plainEntry 1]) ∧
    List.Forall₂ Tests gs (matchMagic (matchBut 1 0) 0 false [plainEntry 0, plainEntry 1, plainEntry 2, plainEntry 0, plainEntry 1]
      false ⟨fun _ => ⟨0, false, false⟩, 0, 0, ()⟩).groups :=
  matchMagic_tests (matchBut 1 0) 0 false [plainEntry 0, plainEntry 1, plainEntry 2, plainEntry 0, plainEntry 1] false
    ⟨fun _ => ⟨0, false, false⟩, 0, 0, ()⟩ (by decide) (by unfold Rising; decide) (by decide)

end CodingExercises.File
