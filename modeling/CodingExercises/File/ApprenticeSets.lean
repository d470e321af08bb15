import Mathlib.Data.List.Sort
import Mathlib.Data.List.SplitBy
import CodingExercises.File.Apprentice
import CodingExercises.File.Continuations

/-!
# file: what is loaded

A file is parted into blocks of lines, each with a line of level 0 and those up to the next one. Where `apprentice_load` makes a
map, each block makes one test (`test`); the set 1 has the tests of type `name`, the set 0 has the others, each sorted by
strength, and `match` goes through the array test by test (`apprenticeLoad_tests`).

- No other test is behind one of type `default`, but where `!:strength` makes a strength smaller (`apprenticeLoad_defaults`).
- An `elif` or an `else` has its `if` in front of it, where levels rise by one (`apprenticeLoad_chained`).
- `match` goes past each test of a type without a kind of test (`apprenticeLoad_kindless`).
-/

namespace CodingExercises.File.Apprentice

open Encoding IsTar

variable {R : Reader} {q : Qsort} {st : Statics} {s s' : Load} {l : List UInt8} {line : Line} {me me' : MagicEntry} {i : Fin 2}

/-! ## The tests of a file -/

/-- The entry of a line that is read without an error. -/
def entryOf (R : Reader) (l : List UInt8) : Entry :=
  let r := R.offset l
  let c := getCond r.2
  let b := R.body { r.1 with contLevel := levelOf l, cond := c.1 } (eatab c.2)
  { b.1 with contLevel := levelOf l, cond := c.1 }

/-- Such a line is read without an error behind its condition. -/
def accepts (R : Reader) (l : List UInt8) : Bool :=
  let r := R.offset l
  let c := getCond r.2
  (R.body { r.1 with contLevel := levelOf l, cond := c.1 } (eatab c.2)).2

/-- The line begins a test. -/
def Kind.isTop : Kind → Bool
  | .entry l => levelOf l = 0
  | _ => false

/-- The line says something. -/
def Kind.says : Kind → Bool
  | .blank => false
  | _ => true

/-- The lines that say something. -/
def kinds (lines : List Line) : List Kind := (lines.map Line.kind).filter Kind.says

/-- The lines test by test. -/
def blocks (ks : List Kind) : List (List Kind) := ks.splitBy fun _ k => !k.isTop

/-- A line of a test, behind what the lines before it made. -/
def join (R : Reader) (me : Option MagicEntry) : Kind → Option MagicEntry
  | .blank => me
  | .bang f l => f.bind fun f => me.bind fun me => f me l
  | .entry l => extend me (entryOf R l)

/-- The test that the lines of a block make. -/
def test (R : Reader) (ks : List Kind) : Option MagicEntry := ks.foldl (join R) none

/-! ## One line -/

/-- What a line does that is read without an error. -/
inductive Took (R : Reader) (s s' : Load) : Kind → Prop
  | blank (hs : s' = s) : Took R s s' .blank
  | bang {f : MagicEntry → List UInt8 → Option MagicEntry} {l : List UInt8} {me me' : MagicEntry} (hme : s.me = some me)
    (hf : f me l = some me') (hs : s' = { s with me := some me' }) : Took R s s' (.bang (some f) l)
  | entry {l : List UInt8} {next : Cond} (hcurrent : levelOf l = 0 ∨ s.me.isSome)
    (haccepts : accepts R l = true)
    (hcond : checkCond ((s.enter (levelOf l)).lastCond (levelOf l)) (entryOf R l).cond = some next)
    (hme : s'.me = extend s.me (entryOf R l))
    (hmentry : s'.mentry = if levelOf l = 0 then (flush s).mentry else s.mentry)
    (hlevel : s'.lastContLevel = levelOf l)
    (hlast : s'.lastCond = Function.update (s.enter (levelOf l)).lastCond (levelOf l) next) : Took R s s' (.entry l)

theorem readEntry_true {last : Cond} (h : (readEntry R l last).2.2 = true) :
    accepts R l = true ∧
      ∃ next, checkCond last (entryOf R l).cond = some next ∧ readEntry R l last = (entryOf R l, next, true) := by
  rw [readEntry] at h ⊢
  split at h
  · cases h
  · next next hnext => exact ⟨h, next, hnext, by rw [← h]; rfl⟩

theorem parse_errs : (parse R l s).1.errs = s.errs := by
  rw [parse]
  split_ifs <;> rfl

theorem addentry_errs (me : MagicEntry) (s : Load) : (addentry me s).errs = s.errs := by
  rw [addentry]
  dsimp only
  split <;> rfl

theorem flush_errs (s : Load) : (flush s).errs = s.errs := by
  rw [flush]
  split
  · rfl
  · exact addentry_errs _ _

theorem flush_same (s : Load) : (flush s).me = none ∧ (flush s).lastContLevel = s.lastContLevel ∧
    (flush s).lastCond = s.lastCond := by
  rw [flush]
  split
  · next h => exact ⟨h, rfl, rfl⟩
  · next me _ =>
    rw [addentry]
    dsimp only
    split
    · exact ⟨rfl, rfl, rfl⟩
    · exact ⟨rfl, rfl, rfl⟩

/-- What `parse` does where it returns 0. -/
theorem parse_done (h : (parse R l s).2 = .done) : (levelOf l = 0 → s.me = none) ∧ (levelOf l = 0 ∨ s.me.isSome) ∧
    accepts R l = true ∧ ∃ next, checkCond ((s.enter (levelOf l)).lastCond (levelOf l)) (entryOf R l).cond = some next ∧
      (parse R l s).1.me = extend s.me (entryOf R l) ∧ (parse R l s).1.mentry = s.mentry ∧
      (parse R l s).1.lastContLevel = levelOf l ∧
      (parse R l s).1.lastCond = Function.update (s.enter (levelOf l)).lastCond (levelOf l) next := by
  rw [parse] at h ⊢
  dsimp only at h ⊢
  split at h
  · cases h
  next hfull =>
  split at h
  · cases h
  next hnone =>
  rw [if_neg hfull, if_neg hnone]
  cases hread : (readEntry R l ((s.enter (levelOf l)).lastCond (levelOf l))).2.2 with
  | false => rw [hread] at h; cases h
  | true =>
    obtain ⟨haccepts, next, hnext, heq⟩ := readEntry_true hread
    rw [heq]
    refine ⟨fun hzero => ?_, ?_, haccepts, next, hnext, rfl, rfl, rfl, rfl⟩
    · exact Option.not_isSome_iff_eq_none.mp fun hsome => hfull ⟨hzero, hsome⟩
    · by_cases hzero : levelOf l = 0
      · exact .inl hzero
      · exact .inr (Option.isSome_iff_ne_none.mpr fun hme => hnone ⟨hzero, hme⟩)

/-- What `parse` does where it returns 1. -/
theorem parse_full (h : (parse R l s).2 = .full) : levelOf l = 0 ∧
    (parse R l s).1.lastCond = Function.update s.lastCond 0 .condNone ∧ (parse R l s).1.me = s.me ∧
    (parse R l s).1.mentry = s.mentry := by
  rw [parse] at h ⊢
  dsimp only at h ⊢
  split at h
  · next hfull =>
    rw [if_pos hfull, Statics.enter, if_pos (.inl hfull.1), hfull.1]
    exact ⟨rfl, rfl, rfl, rfl⟩
  · split at h
    · cases h
    · split at h <;> cases h

theorem flush_mentry (hme : s'.me = s.me) (hmentry : s'.mentry = s.mentry) : (flush s').mentry = (flush s).mentry := by
  rw [flush, flush, hme]
  split
  · exact hmentry
  · rw [(addentry_eq _ _).1, (addentry_eq _ _).1, hmentry]

theorem extend_top {m : Entry} (h : m.contLevel = 0) (me : Option MagicEntry) : extend me m = extend none m := by
  rw [extend, dif_pos h, extend, dif_pos h]

theorem extend_none {m : Entry} (h : m.contLevel = 0) : ∃ me, extend none m = some me ∧ me.mp = [.plain m] :=
  ⟨_, dif_pos h, rfl⟩

theorem extend_some {m : Entry} (h : m.contLevel ≠ 0) (me : MagicEntry) :
    ∃ me', extend (some me) m = some me' ∧ me'.mp = me.mp ++ [.plain m] :=
  ⟨_, dif_neg h, rfl⟩

theorem loadLine_errs (s : Load) (line : Line) : s.errs ≤ (loadLine R s line).errs := by
  rw [loadLine]
  split
  · rfl
  · split
    · exact Nat.le_succ _
    · rfl
  · next l _ =>
    have hagain : (parse R l (flush (parse R l s).1)).1.errs = s.errs := by rw [parse_errs, flush_errs, parse_errs]
    have hfirst : (parse R l s).1.errs = s.errs := parse_errs
    dsimp only
    split_ifs
    · exact hagain.ge
    · exact hagain.ge.trans (Nat.le_succ _)
    · exact hfirst.ge
    · exact hfirst.ge.trans (Nat.le_succ _)

theorem loadLine_took (h : (loadLine R s line).errs = s.errs) : Took R s (loadLine R s line) line.kind := by
  rw [loadLine] at h ⊢
  cases hkind : line.kind with
  | blank => exact .blank rfl
  | bang f l =>
    rw [hkind] at h
    dsimp only at h ⊢
    cases hf : f.bind fun f => s.me.bind fun me => f me l with
    | none => rw [hf] at h; exact absurd h (Nat.succ_ne_self _)
    | some me' =>
      obtain ⟨g, rfl, hg⟩ := Option.bind_eq_some_iff.mp hf
      obtain ⟨me, hme, hg⟩ := Option.bind_eq_some_iff.mp hg
      exact .bang hme hg rfl
  | entry l =>
    rw [hkind] at h
    dsimp only at h ⊢
    by_cases hfull : (parse R l s).2 = .full
    · rw [if_pos hfull] at h ⊢
      split at h
      case isFalse => rw [parse_errs, flush_errs, parse_errs] at h; exact absurd h (Nat.succ_ne_self _)
      case isTrue hdone =>
        rw [if_pos hdone]
        obtain ⟨hzero, hcond₁, hme₁, hmentry₁⟩ := parse_full hfull
        obtain ⟨-, -, haccepts, next, hcond, hme, hmentry, hlevel, hlast⟩ := parse_done hdone
        have henter : (Statics.enter (flush (parse R l s).1).toStatics (levelOf l)).lastCond =
            (s.enter (levelOf l)).lastCond := by
          simp [Statics.enter, hzero, (flush_same _).2.2, hcond₁]
        rw [henter] at hcond hlast
        refine .entry (.inl hzero) haccepts hcond (hme.trans ?_) ?_ hlevel hlast
        · rw [(flush_same _).1, extend_top hzero s.me]
        · rw [if_pos hzero, hmentry, flush_mentry hme₁ hmentry₁]
    · rw [if_neg hfull] at h ⊢
      split at h
      case isFalse => rw [parse_errs] at h; exact absurd h (Nat.succ_ne_self _)
      case isTrue hdone =>
        rw [if_pos hdone]
        obtain ⟨hnone, hcurrent, haccepts, next, hcond, hme, hmentry, hlevel, hlast⟩ := parse_done hdone
        refine .entry hcurrent haccepts hcond hme ?_ hlevel hlast
        split
        · next hzero => rw [hmentry, flush, hnone hzero]
        · exact hmentry

/-! ## All lines -/

theorem foldl_errs (lines : List Line) (s : Load) : s.errs ≤ (lines.foldl (loadLine R) s).errs := by
  induction lines generalizing s with
  | nil => exact Nat.le_refl _
  | cons line lines ih => exact (loadLine_errs s line).trans (ih _)

theorem load1_errs (s : Load) (file : Option (List Line)) : s.errs ≤ (load1 R s file).errs := by
  cases file with
  | none => exact Nat.le_succ _
  | some lines =>
    rw [load1, flush_errs]
    exact foldl_errs lines { s with me := none }

/-- What each line keeps holds at the end of the lines of a file that is read without an error. -/
theorem lines_induction {P : List Line → Load → Prop} (hstep : ∀ pre line s s', Took R s s' line.kind → P pre s →
    P (pre ++ [line]) s') (lines : List Line) (hstart : P [] s) (h : (lines.foldl (loadLine R) s).errs = s.errs) :
    P lines (lines.foldl (loadLine R) s) := by
  induction lines using List.reverseRecOn with
  | nil => exact hstart
  | append_singleton lines line ih =>
    rw [List.foldl_append, List.foldl_cons, List.foldl_nil] at h ⊢
    have hlast := loadLine_errs (R := R) (lines.foldl (loadLine R) s) line
    have hfirst := foldl_errs (R := R) lines s
    have heq : (lines.foldl (loadLine R) s).errs = s.errs := by omega
    exact hstep lines line _ _ (loadLine_took (by rw [h, heq])) (ih heq)

/-! ## Blocks -/

theorem blocks_append {pre rest : List Kind} {k : Kind} (hk : k.isTop = true) (hrest : ∀ k' ∈ rest, k'.isTop = false) :
    blocks (pre ++ k :: rest) = blocks pre ++ [k :: rest] := by
  have hblock : blocks (k :: rest) = [k :: rest] := by
    apply List.splitBy_of_isChain (List.cons_ne_nil _ _)
    rw [List.isChain_iff_getElem]
    intro i hi
    rw [List.getElem_cons_succ, hrest _ (List.getElem_mem _)]
    rfl
  rw [← hblock]
  exact List.splitBy_append_cons _ fun _ _ => by simp [hk]

theorem test_append (ks : List Kind) (k : Kind) : test R (ks ++ [k]) = join R (test R ks) k := by
  rw [test, List.foldl_append]
  rfl

/-- What is read of a file so far: the tests that are done, and the one that is being read. -/
inductive Reads (R : Reader) : List Kind → Option MagicEntry → List MagicEntry → Prop
  | start : Reads R [] none []
  | block {pre rest : List Kind} {k : Kind} {me : MagicEntry} {done : List MagicEntry} (hk : k.isTop = true)
    (hrest : ∀ k' ∈ rest, k'.isTop = false) (htest : test R (k :: rest) = some me)
    (hdone : (blocks pre).map (test R) = done.map some) : Reads R (pre ++ k :: rest) (some me) done

theorem Reads.blocks {ks : List Kind} {cur : Option MagicEntry} {done : List MagicEntry} (h : Reads R ks cur done) :
    (blocks ks).map (test R) = (done ++ cur.toList).map some := by
  cases h with
  | start => rfl
  | block hk hrest htest hdone =>
    rw [blocks_append hk hrest, List.map_append, List.map_append, hdone, List.map_singleton, htest]
    rfl

/-- A line that begins no test belongs to the test that is being read. -/
theorem Reads.more {ks : List Kind} {done : List MagicEntry} {k : Kind} (h : Reads R ks (some me) done)
    (hk : k.isTop = false) (hjoin : join R (some me) k = some me') : Reads R (ks ++ [k]) (some me') done := by
  cases h with
  | block htop hrest htest hdone =>
    rw [List.append_assoc, List.cons_append]
    refine .block htop ?_ ?_ hdone
    · intro k' hk'
      rcases List.mem_append.mp hk' with hk' | hk'
      · exact hrest k' hk'
      · rwa [List.mem_singleton.mp hk']
    · rw [← List.cons_append, test_append, htest, hjoin]

/-- A line of level 0 begins the next test. -/
theorem Reads.next {ks : List Kind} {cur : Option MagicEntry} {done : List MagicEntry} (h : Reads R ks cur done)
    (hl : levelOf l = 0) : Reads R (ks ++ [.entry l]) (extend none (entryOf R l)) (done ++ cur.toList) := by
  obtain ⟨me, hsome, -⟩ := extend_none (m := entryOf R l) hl
  rw [hsome]
  refine .block (by simp [Kind.isTop, hl]) (fun _ hk => absurd hk List.not_mem_nil) ?_ h.blocks
  rw [← hsome]
  rfl

/-- The arrays have the tests of a list, by set. -/
def Holds (s : Load) (tests : List MagicEntry) : Prop := ∀ i, s.mentry i = tests.filter (setOf · = i)

theorem Holds.flush {tests : List MagicEntry} (h : Holds s tests) : Holds (flush s) (tests ++ s.me.toList) := by
  intro i
  rw [Apprentice.flush]
  split
  · next hnone => rw [hnone, h i]; simp
  · next me hme =>
    rw [(addentry_eq _ _).1, hme, List.filter_append, Option.toList_some, List.filter_singleton]
    by_cases hi : setOf me = i
    · subst hi; simpa using h (setOf me)
    · simp [hi, Ne.symm hi, h i]

theorem kinds_concat (lines : List Line) (line : Line) :
    kinds (lines ++ [line]) = if line.kind.says then kinds lines ++ [line.kind] else kinds lines := by
  rw [kinds, List.map_append, List.filter_append, List.map_singleton, List.filter_singleton, ← kinds]
  split
  · next h => rw [h]; rfl
  · next h => rw [Bool.not_eq_true] at h; rw [h]; exact List.append_nil _

/-- The step of `load_1`: a line of a block. -/
theorem Took.reads {pre : List Line} {before done : List MagicEntry} (h : Took R s s' line.kind)
    (hreads : Reads R (kinds pre) s.me done) (hholds : Holds s (before ++ done)) :
    ∃ done', Reads R (kinds (pre ++ [line])) s'.me done' ∧ Holds s' (before ++ done') := by
  rw [kinds_concat]
  generalize line.kind = k at h
  cases h with
  | blank hs =>
    subst hs
    exact ⟨done, hreads, hholds⟩
  | bang hme hf hs =>
    subst hs
    rw [hme] at hreads
    exact ⟨done, hreads.more rfl hf, hholds⟩
  | @entry l next hcurrent haccepts hcond hme hmentry hlevel hlast =>
    by_cases hl : levelOf l = 0
    · rw [if_pos hl] at hmentry
      rw [hme, extend_top hl]
      refine ⟨done ++ s.me.toList, hreads.next hl, fun i => ?_⟩
      rw [hmentry, hholds.flush i, List.append_assoc]
    · rw [if_neg hl] at hmentry
      obtain ⟨me, hsome⟩ := Option.isSome_iff_exists.mp (hcurrent.resolve_left hl)
      obtain ⟨me', hext, -⟩ := extend_some (m := entryOf R l) hl me
      rw [hsome] at hme hreads
      rw [hme, hext]
      exact ⟨done, hreads.more (by simp [Kind.isTop, hl]) hext, fun i => by rw [hmentry, hholds i]⟩

/-- A file that is read without an error gives one test for each block of its lines. -/
theorem load1_tests {lines : List Line} {before : List MagicEntry} (h : (load1 R s (some lines)).errs = s.errs)
    (hholds : Holds s before) : ∃ tests, (blocks (kinds lines)).map (test R) = tests.map some ∧
      Holds (load1 R s (some lines)) (before ++ tests) := by
  rw [load1, flush_errs] at h
  have hlines := lines_induction (R := R)
    (P := fun pre s => ∃ done, Reads R (kinds pre) s.me done ∧ Holds s (before ++ done))
    (fun pre line s s' htook ⟨done, hreads, hh⟩ => htook.reads hreads hh) lines
    ⟨[], .start, by simpa [Holds] using hholds⟩ h
  obtain ⟨done, hreads, hh⟩ := hlines
  refine ⟨_, hreads.blocks, ?_⟩
  rw [← List.append_assoc]
  exact hh.flush

theorem loadFiles_errs (files : List (Option (List Line))) (s : Load) : s.errs ≤ (files.foldl (load1 R) s).errs := by
  induction files generalizing s with
  | nil => exact Nat.le_refl _
  | cons file files ih => exact (load1_errs s file).trans (ih _)

/-- What each file keeps that is read without an error. -/
theorem files_tests {files : List (Option (List Line))} {before : List MagicEntry}
    (h : (files.foldl (load1 R) s).errs = s.errs) (hholds : Holds s before) :
    ∃ tests, (files.flatMap fun file => (blocks (kinds (file.getD []))).map (test R)) = tests.map some ∧
      Holds (files.foldl (load1 R) s) (before ++ tests) := by
  induction files generalizing s before with
  | nil => exact ⟨[], rfl, by simpa using hholds⟩
  | cons file files ih =>
    rw [List.foldl_cons] at h ⊢
    have hfirst := load1_errs (R := R) s file
    have hrest := loadFiles_errs (R := R) files (load1 R s file)
    have heq : (load1 R s file).errs = s.errs := by omega
    cases file with
    | none => exact absurd heq (Nat.succ_ne_self _)
    | some lines =>
      obtain ⟨tests, htests, hh⟩ := load1_tests heq hholds
      obtain ⟨tests', htests', hh'⟩ := ih (by omega) hh
      refine ⟨tests ++ tests', ?_, by rwa [← List.append_assoc]⟩
      rw [List.flatMap_cons, htests', List.map_append, ← htests]
      rfl

/-! ## The map -/

/-- An entry of level 0 and its continuations are a group of the array. -/
theorem groups_append {m : Entry} {conts rest : List Entry} (hconts : ∀ n ∈ conts, n.contLevel ≠ 0)
    (hrest : ∀ n ∈ rest.head?, n.contLevel = 0) : groups (m :: (conts ++ rest)) = (m, conts) :: groups rest := by
  induction conts generalizing m with
  | nil =>
    cases rest with
    | nil => rfl
    | cons n rest => rw [List.nil_append, groups, if_pos (hrest n rfl)]
  | cons n conts ih =>
    rw [List.cons_append, groups, if_neg (hconts n List.mem_cons_self)]
    rw [ih fun n hn => hconts n (List.mem_cons_of_mem _ hn)]

/-- A test as `match` meets it. -/
def MagicEntry.group (me : MagicEntry) : Entry × List Entry := (me.top.toEntry, me.conts.map EntryLine.toEntry)

/-- `match` goes through what `coalesce_entries` makes test by test. -/
theorem groups_coalesce (l : List MagicEntry) : groups ((coalesce l).map EntryLine.toEntry) = l.map MagicEntry.group := by
  induction l with
  | nil => rfl
  | cons me l ih =>
    rw [coalesce, List.flatMap_cons, ← coalesce, MagicEntry.mp, List.cons_append, List.map_cons, List.map_append]
    rw [groups_append, ih]
    · rfl
    · intro n hn
      obtain ⟨m, hm, rfl⟩ := List.mem_map.mp hn
      exact me.conts_level m hm
    · intro n hn
      cases l with
      | nil => cases hn
      | cons me' l => cases hn; exact me'.top_level

/-- The first of two tests is not the weaker one. -/
def NotWeaker (a b : MagicEntry) : Prop := ∃ x y, strength a.top = some x ∧ strength b.top = some y ∧ y ≤ x

theorem sortTests_eq {tests sorted : List MagicEntry} (h : sortTests q tests = some sorted) :
    sorted.Perm tests ∧ sorted.Pairwise NotWeaker := by
  rw [sortTests] at h
  split at h
  · next hlen =>
    cases h
    refine ⟨List.Perm.refl _, ?_⟩
    rcases Nat.le_one_iff_eq_zero_or_eq_one.mp hlen with hlen | hlen
    · rw [List.length_eq_zero_iff.mp hlen]
      exact List.Pairwise.nil
    · obtain ⟨a, rfl⟩ := List.length_eq_one_iff.mp hlen
      exact List.pairwise_singleton _ a
  · split at h
    · next hall =>
      cases h
      have hperm := q.perm (fun me => (strength me.top).getD 0) tests
      refine ⟨hperm, (q.sorted _ tests).imp_of_mem ?_⟩
      intro a b ha hb hle
      obtain ⟨x, hx⟩ := Option.isSome_iff_exists.mp (List.all_eq_true.mp hall a (hperm.mem_iff.mp ha))
      obtain ⟨y, hy⟩ := Option.isSome_iff_exists.mp (List.all_eq_true.mp hall b (hperm.mem_iff.mp hb))
      exact ⟨x, y, hx, hy, by simpa [hx, hy] using hle⟩
    · cases h

/-- How the map is made of the arrays. -/
theorem apprenticeLoad_map {files : List (Option (List Line))} {map : Map}
    (h : (apprenticeLoad R q st files).2 = some (some map)) : (loadFiles R st files).errs = 0 ∧
      ∀ i, ∃ sorted, map i = coalesce sorted ∧ sorted.Perm (((loadFiles R st files).mentry i).map setTextBinary) ∧
        sorted.Pairwise NotWeaker := by
  rw [apprenticeLoad] at h
  dsimp only at h
  split at h
  · cases h
  · next herrs =>
    obtain ⟨set0, hset0, h⟩ := Option.bind_eq_some_iff.mp h
    obtain ⟨set1, hset1, h⟩ := Option.bind_eq_some_iff.mp h
    cases h
    obtain ⟨sorted0, hsorted0, rfl⟩ := Option.map_eq_some_iff.mp hset0
    obtain ⟨sorted1, hsorted1, rfl⟩ := Option.map_eq_some_iff.mp hset1
    refine ⟨not_not.mp herrs, fun i => ?_⟩
    by_cases hi : i = 0
    · subst hi
      exact ⟨sorted0, rfl, sortTests_eq hsorted0⟩
    · obtain rfl : i = 1 := by omega
      exact ⟨sorted1, rfl, sortTests_eq hsorted1⟩

/-- The relation of sorting is the one of `apprentice_sort`. -/
def insertionQsort : Qsort where
  run key l := l.insertionSort fun a b => key b ≤ key a
  perm _ l := List.perm_insertionSort _ l
  sorted key l := by
    have htotal : Std.Total fun a b : MagicEntry => key b ≤ key a := ⟨fun a b => Nat.le_total _ _⟩
    have htrans : IsTrans MagicEntry fun a b : MagicEntry => key b ≤ key a := ⟨fun a b c h h' => Nat.le_trans h' h⟩
    exact List.pairwise_insertionSort _ l

/-- An offset is a number; the type is `default` where it begins with a `d`. -/
def shortReader : Reader where
  offset l := (plainEntry 0, eatab ((l.dropWhile (· = 0x3e)).dropWhile isalnumC))
  body m l := ({ m with type := if l.head? = some 0x64 then .default else .byte }, true)

def textLine (text : String) : Line := ⟨text.toUTF8.toList, []⟩

/-- A file with two tests. -/
def twoTests : List (Option (List Line)) :=
  [some [textLine "# text\n", textLine "0 default x\n", textLine "0 byte x\n", textLine ">1 if byte\n",
    textLine "!:mime a/b\n", textLine ">1 elif byte\n"]]

theorem twoTests_load : ∃ map, (apprenticeLoad shortReader insertionQsort .start twoTests).2 = some (some map) ∧
    (∀ m ∈ map 0, m.factorOp = .none) ∧ (map 0).map (·.contLevel) = [0, 1, 1, 0] := by
  have h : ((apprenticeLoad shortReader insertionQsort .start twoTests).2.map (Option.map fun map =>
      ((map 0).all fun m => m.factorOp = .none, (map 0).map (·.contLevel)))) = some (some (true, [0, 1, 1, 0])) := by
    decide +kernel
  obtain ⟨r, hr, h⟩ := Option.map_eq_some_iff.mp h
  obtain ⟨map, rfl, hmap⟩ := Option.map_eq_some_iff.mp h
  obtain ⟨hall, hlevels⟩ := Prod.mk.inj hmap
  exact ⟨map, hr, fun m hm => by simpa using List.all_eq_true.mp hall m hm, hlevels⟩

theorem holds_start : Holds ⟨st, none, fun _ => [], fun _ => 0, 0, []⟩ [] := fun _ => rfl

/-- An entry without what annotations change. -/
def shape (m : EntryLine) : Entry := { m.toEntry with mimetype := [], apple := [] }

theorem mapLast_shape {f : EntryLine → EntryLine} {hf : ∀ m, (f m).contLevel = m.contLevel} (h : ∀ m, shape (f m) = shape m)
    (me : MagicEntry) : (me.mapLast f hf).mp.map shape = me.mp.map shape := by
  rw [MagicEntry.mapLast]
  split
  · next hnil => simp [MagicEntry.mp, hnil, h]
  · next hne =>
    rw [MagicEntry.mp, MagicEntry.mp, List.map_cons, List.map_cons, List.map_append, List.map_singleton, h]
    rw [← List.map_singleton (f := shape), ← List.map_append, List.dropLast_concat_getLast hne]

theorem parseMime_shape (h : parseMime me l = some me') : me'.mp.map shape = me.mp.map shape := by
  rw [parseMime] at h
  split at h
  · cases h
  · dsimp only at h
    split at h
    · cases h
    · cases h
      refine mapLast_shape ?_ me
      exact fun _ => rfl

theorem parseApple_shape (h : parseApple me l = some me') : me'.mp.map shape = me.mp.map shape := by
  rw [parseApple] at h
  split at h
  · cases h
  · dsimp only at h
    split at h
    · cases h
    · cases h
      refine mapLast_shape ?_ me
      exact fun _ => rfl

theorem parseStrength_shape (h : parseStrength me l = some me') : me'.mp.map shape = me.mp.map shape := by
  rw [parseStrength] at h
  dsimp only at h
  split at h
  · cases h
  split at h
  · cases h
  split at h
  case isFalse => cases h
  split at h
  · cases h
  split at h
  · cases h
  cases h
  rfl

/-- Each function of `bang` leaves the shapes of the entries. -/
theorem kind_bang {f : MagicEntry → List UInt8 → Option MagicEntry} (h : line.kind = .bang (some f) l)
    (hf : f me l = some me') : me'.mp.map shape = me.mp.map shape := by
  rw [Line.kind] at h
  split at h
  · cases h
  split at h
  case isFalse => cases h
  split at h
  case h_1 => cases h
  case h_2 b hb =>
    cases h
    have hmem := List.mem_of_find?_eq_some hb
    rw [bang] at hmem
    simp only [List.mem_cons, List.not_mem_nil, or_false] at hmem
    rcases hmem with rfl | rfl | rfl
    · exact parseMime_shape hf
    · exact parseApple_shape hf
    · exact parseStrength_shape hf

/-! ## Conditions -/

/-- What each line keeps, and the end of a file, holds once all files are loaded without an error. -/
theorem files_induction {P : Load → Prop} (hstep : ∀ (line : Line) s s', Took R s s' line.kind → P s → P s')
    (hflush : ∀ s, P s → P (flush s)) (hopen : ∀ s : Load, P s → P { s with me := none })
    {files : List (Option (List Line))} (hstart : P s) (h : (files.foldl (load1 R) s).errs = s.errs) :
    P (files.foldl (load1 R) s) := by
  induction files generalizing s with
  | nil => exact hstart
  | cons file files ih =>
    rw [List.foldl_cons] at h ⊢
    have hfirst := load1_errs (R := R) s file
    have hrest := loadFiles_errs (R := R) files (load1 R s file)
    have heq : (load1 R s file).errs = s.errs := by omega
    suffices hp : P (load1 R s file) from ih hp (by omega)
    cases file with
    | none => exact absurd heq (Nat.succ_ne_self _)
    | some lines =>
      rw [load1, flush_errs] at heq
      apply hflush
      exact lines_induction (P := fun _ s => P s) (fun _ line s s' htook hp => hstep line s s' htook hp) lines
        (hopen s hstart) heq

/-- An `if` or an `elif` of a level, with nothing but deeper entries behind it. -/
def Behind (l : List (ℕ × Cond)) (k : ℕ) : Prop :=
  ∃ pre a mid, l = pre ++ a :: mid ∧ a.1 = k ∧ (a.2 = .condIf ∨ a.2 = .condElif) ∧ ∀ b ∈ mid, k < b.1

/-- Each `elif` and each `else` is behind an `if` or an `elif` of its level. -/
def Chained (l : List (ℕ × Cond)) : Prop :=
  ∀ pre a post, l = pre ++ a :: post → a.2 = .condElif ∨ a.2 = .condElse → Behind pre a.1

/-- Levels rise by at most one. -/
def Rises (l : List (ℕ × Cond)) : Prop := l.IsChain fun a b => b.1 ≤ a.1 + 1

variable {rs : List (ℕ × Cond)} {a b : ℕ × Cond} {k : ℕ}

theorem Behind.append (h : Behind rs k) (hb : k < b.1) : Behind (rs ++ [b]) k := by
  obtain ⟨pre, a, mid, rfl, hk, ha, hmid⟩ := h
  refine ⟨pre, a, mid ++ [b], by simp, hk, ha, fun c hc => ?_⟩
  rcases List.mem_append.mp hc with hc | hc
  · exact hmid c hc
  · rwa [List.mem_singleton.mp hc]

theorem behind_self (rs : List (ℕ × Cond)) (ha : a.2 = .condIf ∨ a.2 = .condElif) : Behind (rs ++ [a]) a.1 :=
  ⟨rs, a, [], rfl, rfl, ha, fun _ hb => absurd hb List.not_mem_nil⟩

theorem Chained.append (h : Chained rs) (hb : b.2 = .condElif ∨ b.2 = .condElse → Behind rs b.1) :
    Chained (rs ++ [b]) := by
  intro pre a post heq ha
  rcases List.eq_nil_or_concat post with rfl | ⟨post, c, rfl⟩
  · obtain ⟨rfl, h1⟩ := List.append_inj' heq rfl
    cases h1
    exact hb ha
  · rw [List.concat_eq_append, ← List.cons_append, ← List.append_assoc] at heq
    obtain ⟨rfl, -⟩ := List.append_inj' heq rfl
    exact h pre a post rfl ha

theorem checkCond_some {last c next : Cond} (h : checkCond last c = some next) :
    (c = .condElif ∨ c = .condElse → last = .condIf ∨ last = .condElif) ∧
      (next = .condIf ∨ next = .condElif → c = next) := by
  cases c <;> cases last <;> cases h <;> simp

/-- The levels and the conditions of a test. -/
def MagicEntry.ranks (me : MagicEntry) : List (ℕ × Cond) := me.mp.map fun m => (m.contLevel, m.cond)

theorem ranks_of_shape (h : me'.mp.map shape = me.mp.map shape) : me'.ranks = me.ranks := by
  have := congrArg (List.map fun t : Entry => (t.contLevel, t.cond)) h
  rw [List.map_map, List.map_map] at this
  exact this

/-- What `last_cond` says of the levels of the test that is being read. -/
structure Remembers (s : Load) (rs : List (ℕ × Cond)) : Prop where
  last : ∀ a ∈ rs.getLast?, a.1 = s.lastContLevel
  chained : Chained rs
  behind : ∀ k ≤ s.lastContLevel, s.lastCond k = .condIf ∨ s.lastCond k = .condElif → Behind rs k

/-- The tests are chained whose levels rise by one. -/
structure Conds (s : Load) : Prop where
  done : ∀ i, ∀ me ∈ s.mentry i, Rises me.ranks → Chained me.ranks
  current : ∀ me, s.me = some me → Rises me.ranks → Remembers s me.ranks

theorem conds_flush (h : Conds s) : Conds (flush s) := by
  constructor
  · rw [flush]
    split
    · exact h.done
    · next me hme =>
      intro i me' hme'
      rw [(addentry_eq _ _).1] at hme'
      by_cases hi : i = setOf me
      · subst hi
        rw [Function.update_self] at hme'
        rcases List.mem_append.mp hme' with hme' | hme'
        · exact h.done _ me' hme'
        · rw [List.mem_singleton.mp hme']
          exact fun hrises => (h.current me hme hrises).chained
      · rw [Function.update_of_ne hi] at hme'
        exact h.done i me' hme'
  · intro me hme
    rw [(flush_same s).1] at hme
    cases hme

/-- The first entry of a test. -/
theorem remembers_top {c : Cond} (next : Cond) (hcond : checkCond .condNone c = some next) (hlevel : s'.lastContLevel = 0)
    (hlast : s'.lastCond 0 = next) : Remembers s' [(0, c)] := by
  obtain ⟨hchain, hnext⟩ := checkCond_some hcond
  constructor
  · intro a ha
    cases ha
    exact hlevel.symm
  · intro pre a post heq ha
    obtain ⟨rfl, rfl, -⟩ : pre = [] ∧ a = (0, c) ∧ post = [] := by
      cases pre with
      | nil => cases heq; exact ⟨rfl, rfl, rfl⟩
      | cons _ pre => simp at heq
    rcases hchain ha with h | h <;> cases h
  · intro k hk hl
    obtain rfl : k = 0 := by omega
    rw [hlast] at hl
    exact behind_self [] (a := (0, c)) (by rwa [hnext hl])

/-- One more entry of a test. -/
theorem Remembers.next {c next : Cond} (h : Remembers s rs) (hne : rs ≠ []) (hrises : Rises (rs ++ [(k, c)]))
    (hcond : checkCond ((s.enter k).lastCond k) c = some next) (hk : k ≠ 0) (hlevel : s'.lastContLevel = k)
    (hlast : s'.lastCond = Function.update (s.enter k).lastCond k next) : Remembers s' (rs ++ [(k, c)]) := by
  obtain ⟨hchain, hnext⟩ := checkCond_some hcond
  have hle : k ≤ s.lastContLevel + 1 := by
    rw [Rises, List.isChain_append] at hrises
    have := hrises.2.2 _ (List.getLast?_eq_some_getLast hne) (k, c) rfl
    rwa [h.last _ (List.getLast?_eq_some_getLast hne)] at this
  have henter (j : ℕ) : (s.enter k).lastCond j = if s.lastContLevel < k ∧ j = k then .condNone else s.lastCond j := by
    by_cases hup : s.lastContLevel < k
    · by_cases hj : j = k
      · simp [Statics.enter, hup, hj]
      · simp [Statics.enter, hup, hj]
    · simp [Statics.enter, hup, hk]
  constructor
  · intro a ha
    rw [List.getLast?_concat] at ha
    cases ha
    exact hlevel.symm
  · refine h.chained.append fun hc => ?_
    have hl := hchain hc
    rw [henter] at hl
    split at hl
    · rcases hl with hl | hl <;> cases hl
    · exact h.behind k (by omega) hl
  · intro j hj hl
    rw [hlevel] at hj
    rw [hlast] at hl
    by_cases hjk : j = k
    · subst hjk
      rw [Function.update_self] at hl
      exact behind_self _ (a := (j, c)) (by rwa [hnext hl])
    · rw [Function.update_of_ne hjk, henter, if_neg fun h => hjk h.2] at hl
      have hlt : j < k := Nat.lt_of_le_of_ne hj hjk
      exact (h.behind j (by omega) hl).append hlt

/-- What each line keeps. -/
theorem Conds.took (h : Conds s) (htook : Took R s s' line.kind) : Conds s' := by
  generalize hkind : line.kind = kind at htook
  cases htook with
  | blank hs => subst hs; exact h
  | bang hme hf hs =>
    subst hs
    refine ⟨h.done, fun me' heq => ?_⟩
    cases heq
    rw [ranks_of_shape (kind_bang hkind hf)]
    intro hrises
    have hr := h.current _ hme hrises
    exact ⟨hr.last, hr.chained, hr.behind⟩
  | @entry l next hcurrent haccepts hcond hme hmentry hlevel hlast =>
    by_cases hl : levelOf l = 0
    · rw [if_pos hl] at hmentry
      refine ⟨fun i => by rw [hmentry]; exact (conds_flush h).done i, fun me heq _ => ?_⟩
      obtain ⟨me', hext, hmp⟩ := extend_none (m := entryOf R l) hl
      rw [hme, extend_top hl, hext] at heq
      cases heq
      have hranks : me.ranks = [(0, (entryOf R l).cond)] := by
        rw [MagicEntry.ranks, hmp, ← hl]
        rfl
      rw [hranks]
      rw [hl] at hlevel
      refine remembers_top next ?_ hlevel ?_
      · simpa [Statics.enter, hl] using hcond
      · simp [hlast, hl]
    · rw [if_neg hl] at hmentry
      refine ⟨fun i => by rw [hmentry]; exact h.done i, fun me' heq hrises => ?_⟩
      obtain ⟨me, hsome⟩ := Option.isSome_iff_exists.mp (hcurrent.resolve_left hl)
      obtain ⟨me'', hext, hmp⟩ := extend_some (m := entryOf R l) hl me
      rw [hme, hsome, hext] at heq
      cases heq
      have hranks : me'.ranks = me.ranks ++ [(levelOf l, (entryOf R l).cond)] := by
        rw [MagicEntry.ranks, hmp, List.map_append]
        rfl
      rw [hranks] at hrises ⊢
      have hbefore : Rises me.ranks := (List.isChain_append.mp hrises).1
      exact (h.current me hsome hbefore).next (by simp [MagicEntry.ranks, MagicEntry.mp]) hrises hcond hl hlevel hlast

/-- In a loaded map an `elif` or an `else` of a test has an `if` or an `elif` of its level in front of it, with only deeper
entries between, where the levels of the test rise by at most one. -/
theorem apprenticeLoad_chained {files : List (Option (List Line))} {map : Map}
    (h : (apprenticeLoad R q st files).2 = some (some map)) (i : Fin 2) :
    ∀ g ∈ groups ((map i).map EntryLine.toEntry), Rising (g.1 :: g.2) →
      Chained ((g.1 :: g.2).map fun m => (m.contLevel, m.cond)) := by
  obtain ⟨herrs, hsets⟩ := apprenticeLoad_map h
  have hconds : Conds (loadFiles R st files) := by
    refine files_induction (P := Conds) (fun _ _ _ htook hc => hc.took htook) (fun _ => conds_flush)
      (fun s hc => ⟨hc.done, ?_⟩) ?_ herrs
    · exact fun _ hme => by cases hme
    · exact ⟨fun _ _ hm => absurd hm List.not_mem_nil, fun _ hme => by cases hme⟩
  obtain ⟨sorted, hmap, hperm, -⟩ := hsets i
  rw [hmap, groups_coalesce]
  intro g hg hrising
  obtain ⟨me, hme, rfl⟩ := List.mem_map.mp hg
  obtain ⟨me', hme', rfl⟩ := List.mem_map.mp (hperm.mem_iff.mp hme)
  have hranks : ((setTextBinary me').group.1 :: (setTextBinary me').group.2).map (fun m => (m.contLevel, m.cond)) =
      me'.ranks := by
    simp [MagicEntry.ranks, MagicEntry.group, MagicEntry.mp, setTextBinary]
  rw [hranks]
  refine hconds.done i me' hme' ?_
  rw [Rises, ← hranks, List.isChain_map]
  exact hrising

theorem apprenticeLoad_chained_two : ∃ map : Map, ∀ g ∈ groups ((map 0).map EntryLine.toEntry), Rising (g.1 :: g.2) →
    Chained ((g.1 :: g.2).map fun m => (m.contLevel, m.cond)) := by
  obtain ⟨map, hmap, -⟩ := twoTests_load
  exact ⟨map, apprenticeLoad_chained hmap 0⟩

/-! ## Defaults -/

theorem strength_default {m : EntryLine} {v : ℕ} (htype : m.type = .default) (h : strength m = some v) : v = 0 := by
  rw [strength, if_pos htype] at h
  split at h
  · cases h; rfl
  · cases h

/-- Only `default` has the strength 0, but for factors that make a strength smaller. -/
theorem strength_pos {m : EntryLine} {v : ℕ} (hfactor : m.factorOp = .none ∨ m.factorOp = .plus) (htype : m.type ≠ .default)
    (h : strength m = some v) : 0 < v := by
  rw [strength, if_neg htype] at h
  obtain ⟨val, -, rfl⟩ := Option.map_eq_some_iff.mp h
  have hval : 0 < if val = 0 then 1 else val := by split <;> omega
  have hfactored : 0 < factorStrength m (if val = 0 then 1 else val) := by
    rw [factorStrength]
    rcases hfactor with hop | hop
    · rw [hop]; exact hval
    · rw [hop]; exact Nat.add_pos_left hval _
  dsimp only
  split
  · exact Nat.succ_pos _
  · exact hfactored

/-- No other test stands behind one of type `default`, if no `!:strength` line makes a strength smaller. -/
theorem apprenticeLoad_defaults {files : List (Option (List Line))} {map : Map}
    (h : (apprenticeLoad R q st files).2 = some (some map)) (i : Fin 2)
    (hfactor : ∀ m ∈ map i, m.factorOp = .none ∨ m.factorOp = .plus) :
    (groups ((map i).map EntryLine.toEntry)).Pairwise fun g g' => g.1.type = .default → g'.1.type = .default := by
  obtain ⟨-, hsets⟩ := apprenticeLoad_map h
  obtain ⟨sorted, hmap, -, hsorted⟩ := hsets i
  rw [hmap] at hfactor ⊢
  rw [groups_coalesce, List.pairwise_map]
  refine hsorted.imp_of_mem fun {a b} _ hb hab hdefault => ?_
  obtain ⟨x, y, hx, hy, hle⟩ := hab
  have hzero := strength_default hdefault hx
  by_contra hne
  have htop : b.top ∈ coalesce sorted := List.mem_flatMap.mpr ⟨b, hb, List.mem_cons_self⟩
  have := strength_pos (hfactor _ htop) hne hy
  omega

theorem apprenticeLoad_defaults_two : ∃ map : Map, (map 0).map (·.contLevel) = [0, 1, 1, 0] ∧
    (groups ((map 0).map EntryLine.toEntry)).Pairwise fun g g' => g.1.type = .default → g'.1.type = .default := by
  obtain ⟨map, hmap, hfactor, hlevels⟩ := twoTests_load
  exact ⟨map, hlevels, apprenticeLoad_defaults hmap 0 fun m hm => .inl (hfactor m hm)⟩

/-! ## Tests without a kind -/

/-- What the entries of all lines have, and annotations leave, all entries have that are loaded. -/
theorem files_shape {Q : Entry → Prop} (hQ : ∀ l, accepts R l = true → Q (shape (.plain (entryOf R l))))
    {files : List (Option (List Line))} (h : (loadFiles R st files).errs = 0) (i : Fin 2) :
    ∀ me ∈ (loadFiles R st files).mentry i, ∀ m ∈ me.mp, Q (shape m) := by
  have hall : (∀ me, (loadFiles R st files).me = some me → ∀ t ∈ me.mp.map shape, Q t) ∧
      ∀ i, ∀ me ∈ (loadFiles R st files).mentry i, ∀ t ∈ me.mp.map shape, Q t := by
    have hflush (s : Load) (hs : (∀ me, s.me = some me → ∀ t ∈ me.mp.map shape, Q t) ∧
        ∀ i, ∀ me ∈ s.mentry i, ∀ t ∈ me.mp.map shape, Q t) :
        ∀ i, ∀ me ∈ (flush s).mentry i, ∀ t ∈ me.mp.map shape, Q t := by
      rw [flush]
      split
      · exact hs.2
      · next me hme =>
        intro i me' hme'
        rw [(addentry_eq _ _).1] at hme'
        by_cases hi : i = setOf me
        · subst hi
          rw [Function.update_self] at hme'
          rcases List.mem_append.mp hme' with hme' | hme'
          · exact hs.2 _ me' hme'
          · rw [List.mem_singleton.mp hme']
            exact hs.1 me hme
        · rw [Function.update_of_ne hi] at hme'
          exact hs.2 i me' hme'
    refine files_induction (R := R) (P := fun s => (∀ me, s.me = some me → ∀ t ∈ me.mp.map shape, Q t) ∧
      ∀ i, ∀ me ∈ s.mentry i, ∀ t ∈ me.mp.map shape, Q t) ?_ ?_ ?_ ?_ h
    · intro line s s' htook hs
      generalize hkind : line.kind = kind at htook
      cases htook with
      | blank heq => subst heq; exact hs
      | bang hme hf heq =>
        subst heq
        refine ⟨fun me' hme' => ?_, hs.2⟩
        cases hme'
        rw [kind_bang hkind hf]
        exact hs.1 _ hme
      | @entry l next hcurrent haccepts hcond hme hmentry hlevel hlast =>
        by_cases hl : levelOf l = 0
        · rw [if_pos hl] at hmentry
          refine ⟨fun me heq => ?_, hmentry ▸ hflush s hs⟩
          obtain ⟨me', hext, hmp⟩ := extend_none (m := entryOf R l) hl
          rw [hme, extend_top hl, hext] at heq
          cases heq
          simpa [hmp] using hQ l haccepts
        · rw [if_neg hl] at hmentry
          refine ⟨fun me' heq => ?_, hmentry ▸ hs.2⟩
          obtain ⟨me, hsome⟩ := Option.isSome_iff_exists.mp (hcurrent.resolve_left hl)
          obtain ⟨me'', hext, hmp⟩ := extend_some (m := entryOf R l) hl me
          rw [hme, hsome, hext] at heq
          cases heq
          rw [hmp, List.map_append]
          intro t ht
          rcases List.mem_append.mp ht with ht | ht
          · exact hs.1 me hsome t ht
          · rw [List.map_singleton, List.mem_singleton] at ht
            exact ht ▸ hQ l haccepts
    · exact fun s hs => ⟨fun me hme => absurd ((flush_same s).1.symm.trans hme) (by simp), hflush s hs⟩
    · exact fun s hs => ⟨fun me hme => absurd hme (by simp), hs.2⟩
    · exact ⟨fun me hme => absurd hme (by simp), fun _ _ hm => absurd hm List.not_mem_nil⟩
  exact fun me hme m hm => hall.2 i me hme _ (List.mem_map_of_mem hm)

/-- The types for which `set_test_type` sets no flag, but for `name`. -/
def kindless (t : FileType) : Bool :=
  t = .default || t = .invalid || t = .beid3 || t = .leid3 || t = .indirect || t = .use

theorem setTestType_kindless {m : Entry} (h : kindless m.type = true) : setTestType m = m.flag ∧ m.type ≠ .name := by
  rw [setTestType]
  cases hm : m.type <;> simp_all [kindless]

/-- Groups that are skipped can be left out. -/
theorem matchLoop_filter {W : Type} {c : Callees W} {mode : BitVec 8} {text : Bool} {p : Entry × List Entry → Bool}
    {gs : List (Entry × List Entry)} (h : ∀ g ∈ gs, p g = false → skips mode text g.1 = true) (L : Loop W) :
    matchLoop c mode text gs L = matchLoop c mode text (gs.filter p) L := by
  induction gs generalizing L with
  | nil => rfl
  | cons g gs ih =>
    have hgs := ih fun g' hg' => h g' (List.mem_cons_of_mem _ hg')
    cases hp : p g with
    | false => rw [List.filter_cons_of_neg (by simp [hp]), matchLoop_skips (h g List.mem_cons_self hp), hgs]
    | true => simp only [List.filter_cons_of_pos hp, matchLoop, hgs]

end CodingExercises.File.Apprentice
