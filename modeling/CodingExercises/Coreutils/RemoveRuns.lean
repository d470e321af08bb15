import CodingExercises.Coreutils.Remove

/-!
# rm: runs

A run of `rm` is one block of events for each file of the command line (`rm_blocks`). From that:

- no entry of the walk is lost (`rm_passes`);
- after an entry is left in place, no directory above it is asked for or unlinked (`rm_ancestors`);
- with `--one-file-system`, mount points and what is in them are not unlinked (`rm_spares_mounts`);
- `rm -r` does what it should just when each directory of the command line is `.` or `..`, and not the root
  (`rm_removes_iff`).
-/

namespace CodingExercises.Coreutils.Remove

open FtsWalk

section

variable (env : System) (x : RmOptions)

/-- A run over the roots from the `i`th on. -/
theorem rmLoop_blocks (ts : List Tree) : ∀ (n i : ℕ) (status : RmStatus) (s : St) (p : FTSENT),
    s.walk.frames = [p] → p.info ≠ .d → p.nextIndex = i → p.link = ts → ts.length < n →
    ∃ status' s' l, rmLoop env x n status s = some (status', s') ∧ s'.log = s.log ++ l ∧ Blocks env x i ts l := by
  induction ts with
  | nil =>
    intro n i status s p hframes hinfo hi hlink hn
    obtain ⟨n, rfl⟩ : ∃ m, n = m + 1 := ⟨n - 1, by omega⟩
    have hread : s.walk.read = { s.walk with frames := [] } := by
      rw [Walk.read_next hframes hinfo, hlink]
      rfl
    refine ⟨status, { s with walk := s.walk.read }, [], ?_, by simp, .nil i⟩
    unfold rmLoop
    rw [hread, hframes]
    rfl
  | cons t ts ih =>
    intro n i status s p hframes hinfo hi hlink hn
    obtain ⟨n, rfl⟩ : ∃ m, n = m + 1 := ⟨n - 1, by omega⟩
    have hread : s.walk.read = s.walk.enter [] i t ts := by
      rw [Walk.read_next hframes hinfo, hlink, hi]
      rfl
    have hcur : ({ s with walk := s.walk.read }.add [.passed [i] (t.info [])]).walk.frames = [arrive [] i t ts] := by
      rw [hread]
      rfl
    obtain ⟨new, s', l, q, hrm, hframes', hinfo', hpos, hlink', hlog, hblock⟩ := rmFts_root env x hcur
    have hnext : q.nextIndex = i + 1 := by
      rw [FTSENT.nextIndex, hpos]
      rfl
    rw [List.length_cons] at hn
    obtain ⟨status', s'', l', hloop, hlog', hblocks⟩ :=
      ih n (i + 1) (status.update new) s' q hframes' hinfo' hnext hlink' (by omega)
    refine ⟨status', s'', (.passed [i] (t.info []) :: l) ++ l', ?_, ?_, .cons hblock hblocks⟩
    · have hcur : s.walk.read.frames = [arrive [] i t ts] := by
        rw [hread]
        rfl
      have hrm' : rmFts env x ({ s with walk := s.walk.read }.add [.passed (arrive [] i t ts).pos
          (arrive [] i t ts).info]) = some (new, s') := hrm
      unfold rmLoop
      rw [hcur]
      simp only [hrm', hloop]
    · rw [hlog', hlog]
      simp [St.add]

theorem Tree.visits_length_pos (xdev : Bool) (dev : ℕ) (up : List (ℕ × ℕ)) (pos : Pos) (t : Tree) :
    0 < (t.visits xdev dev up pos).length := by
  cases t with
  | leaf => simp [Tree.visits]
  | locked =>
    rw [Tree.visits]
    split
    · simp
    · split <;> simp
  | dir =>
    rw [Tree.visits]
    split
    · simp
    · split <;> simp

theorem length_le_visitsRoots (xdev : Bool) (i : ℕ) (roots : List Tree) :
    roots.length ≤ (visitsRoots xdev i roots).length := by
  induction roots generalizing i with
  | nil => simp
  | cons t ts ih =>
    have hpos := Tree.visits_length_pos xdev t.ftsDev [] [i] t
    have := ih (i + 1)
    simp only [visitsRoots, List.length_append, List.length_cons]
    omega

/-- **A run of `rm`**: a block of events for each root, and at the end at most a failure of `fts_close`. -/
theorem rm_blocks (roots : List Tree) :
    ∃ status l l', rm env x roots = some (status, l ++ l') ∧ Blocks env x 0 roots l ∧
      ∀ e ∈ l', ∃ errno, e = .failed (.ftsCloseFailed errno) := by
  unfold rm
  split
  · next hnil =>
    rw [List.isEmpty_iff.mp hnil]
    exact ⟨.ok, [], [], rfl, .nil 0, by simp⟩
  · have hlen := length_le_visitsRoots x.oneFileSystem 0 roots
    obtain ⟨status, s, l, hloop, hlog, hblocks⟩ := rmLoop_blocks env x roots
      ((visitsRoots x.oneFileSystem 0 roots).length + 1) 0 .ok ⟨.start x.oneFileSystem roots, []⟩ _ rfl (by simp) rfl
      rfl (by omega)
    rw [hloop]
    dsimp only at hlog ⊢
    rw [List.nil_append] at hlog
    cases env.ftsClose with
    | none => exact ⟨status, l, [], by simp [hlog], hblocks, by simp⟩
    | some e => exact ⟨.error, l, [.failed (.ftsCloseFailed e)], by simp [hlog], hblocks, by simp⟩

end

section

variable {env : System} {x : RmOptions} {i : ℕ} {roots : List Tree} {l : List Event}

/-- Every event is about one of the roots. -/
theorem Blocks.about (h : Blocks env x i roots l) : ∀ e ∈ l, ∃ j, e.pos? = some [j] := by
  induction h with
  | nil => simp
  | cons hblock _ ih =>
    intro e he
    rcases List.mem_append.mp he with he | he
    · exact ⟨_, hblock.about e he⟩
    · exact ih e he

/-- What is skipped are directories of the command line, and what that drops is their second visit. -/
theorem Blocks.skips_roots (h : Blocks env x i roots l) : ∀ s ∈ skips l, (∃ j, s.1 = [j]) ∧ s.2 = some (s.1, .dp) := by
  induction h with
  | nil => simp [Remove.skips]
  | cons hblock _ ih =>
    intro s hs
    rw [Remove.skips, List.filterMap_append] at hs
    rcases List.mem_append.mp hs with hs | hs
    · rw [← Remove.skips, hblock.skips_eq] at hs
      split at hs
      · rw [List.mem_singleton.mp hs]
        exact ⟨⟨_, rfl⟩, rfl⟩
      · simp at hs
    · exact ih s hs

end

/-! ## Skips -/

/-- A visit is inside a directory that is skipped, or its second one. -/
def dropped (l : List Event) (v : Pos × Info) : Bool :=
  (skips l).any fun s => s.1.isSuffixOf v.1 && s.1 ≠ v.1 || v.1 = s.1 && v.2.isPost

mutual

theorem suffix_visits {xdev : Bool} {dev : ℕ} {v : Pos × Info} : ∀ (t : Tree) (up : List (ℕ × ℕ)) (pos : Pos),
    v ∈ t.visits xdev dev up pos → pos <:+ v.1
  | .leaf _ _, up, pos, h => by
    rw [Tree.visits, List.mem_singleton] at h
    subst h
    exact List.suffix_refl _
  | .locked _ _ _ _, up, pos, h => by
    rw [Tree.visits] at h
    split at h
    · simp_all
    · split at h <;> simp only [List.mem_cons, List.not_mem_nil, or_false] at h <;> rcases h with rfl | rfl <;> simp
  | .dir _ _ _ _ ts, up, pos, h => by
    rw [Tree.visits] at h
    split at h
    · simp_all
    · split at h
      · simp only [List.mem_cons, List.not_mem_nil, or_false] at h
        rcases h with rfl | rfl <;> simp
      · rcases List.mem_append.mp h with h | h
        · rcases List.mem_cons.mp h with rfl | h
          · exact List.suffix_refl _
          · obtain ⟨k, hk⟩ := suffix_visitsList ts _ _ _ h
            exact (List.suffix_cons k pos).trans hk
        · rw [List.mem_singleton] at h
          subst h
          exact List.suffix_refl _

theorem suffix_visitsList {xdev : Bool} {dev : ℕ} {v : Pos × Info} : ∀ (ts : List Tree) (up : List (ℕ × ℕ)) (pos : Pos)
    (i : ℕ), v ∈ visitsList xdev dev up pos i ts → ∃ k, k :: pos <:+ v.1
  | [], up, pos, i, h => by simp [visitsList] at h
  | t :: ts, up, pos, i, h => by
    rw [visitsList] at h
    rcases List.mem_append.mp h with h | h
    · exact ⟨i, suffix_visits t _ _ h⟩
    · exact suffix_visitsList ts _ _ _ h

end

/-- The first visit of a tree; what comes after that is inside a directory, or its second visit. -/
theorem visits_cons (xdev : Bool) (dev i : ℕ) (t : Tree) :
    ∃ rest, t.visits xdev dev [] [i] = ([i], t.info []) :: rest ∧
      ∀ v ∈ rest, t.isDir ∧ ([i] <:+ v.1 ∧ [i] ≠ v.1 ∨ v.1 = [i] ∧ v.2.isPost) := by
  cases t with
  | leaf => exact ⟨[], by simp [Tree.visits, Tree.info], by simp⟩
  | locked =>
    rw [Tree.visits, if_neg (by simp)]
    split
    · exact ⟨_, rfl, by simp [Tree.isDir, Tree.devIno, Info.isPost]⟩
    · exact ⟨_, rfl, by simp [Tree.isDir, Tree.devIno, Info.isPost]⟩
  | dir name d ino e ts =>
    rw [Tree.visits, if_neg (by simp)]
    split
    · exact ⟨_, rfl, by simp [Tree.isDir, Tree.devIno, Info.isPost]⟩
    · refine ⟨_, rfl, ?_⟩
      intro v hv
      refine ⟨rfl, ?_⟩
      rcases List.mem_append.mp hv with hv | hv
      · obtain ⟨k, hk⟩ := suffix_visitsList ts _ _ _ hv
        left
        refine ⟨(List.suffix_cons k [i]).trans hk, ?_⟩
        intro heq
        have := hk.length_le
        rw [← heq] at this
        simp at this
      · right
        rw [List.mem_singleton.mp hv]
        cases e <;> exact ⟨rfl, rfl⟩

theorem Tree.info_nil_not_post (t : Tree) : (t.info []).isPost = false := by
  rcases t with ⟨_, info, h⟩ | _ | _
  · cases info <;> first
      | rfl
      | simp [Info.isLeaf] at h
  · rfl
  · rfl

/-- Of the visits of a tree, only the first one is not dropped. -/
theorem filter_visits {L : List Event} {xdev : Bool} {dev i : ℕ} {t : Tree} (hroots : ∀ s ∈ skips L, ∃ j, s.1 = [j])
    (hskip : t.isDir → ∃ s ∈ skips L, s.1 = [i]) :
    (t.visits xdev dev [] [i]).filter (!dropped L ·) = [([i], t.info [])] := by
  obtain ⟨rest, hvisits, hrest⟩ := visits_cons xdev dev i t
  have hfirst : dropped L ([i], t.info []) = false := by
    rw [dropped, List.any_eq_false]
    intro s hs
    obtain ⟨j, hj⟩ := hroots s hs
    simp only [hj, Tree.info_nil_not_post, Bool.and_false, Bool.or_false, Bool.and_eq_true, decide_eq_true_eq, not_and,
      List.isSuffixOf_iff_suffix, ne_eq, not_not]
    intro h
    exact h.eq_of_length (by simp)
  have hdropped : ∀ v ∈ rest, dropped L v = true := by
    intro v hv
    obtain ⟨ht, hv⟩ := hrest v hv
    obtain ⟨s, hs, hi⟩ := hskip ht
    rw [dropped, List.any_eq_true]
    refine ⟨s, hs, ?_⟩
    rw [hi]
    rcases hv with ⟨hsuffix, hne⟩ | ⟨heq, hpost⟩
    · simp [List.isSuffixOf_iff_suffix, hsuffix, hne]
    · simp [heq, hpost]
  have hnil : rest.filter (!dropped L ·) = [] := by
    rw [List.filter_eq_nil_iff]
    intro v hv
    simp [hdropped v hv]
  rw [hvisits, List.filter_cons_of_pos (by simp [hfirst]), hnil]

/-- What is passed to `rm_fts` are the visits that are not dropped. -/
theorem Blocks.passed_eq {env : System} {x : RmOptions} {L : List Event} {xdev : Bool}
    (hroots : ∀ s ∈ skips L, ∃ j, s.1 = [j]) {i : ℕ} {roots : List Tree} {l : List Event} (h : Blocks env x i roots l)
    (hsub : ∀ s ∈ Remove.skips l, s ∈ Remove.skips L) :
    passed l = (visitsRoots xdev i roots).filter (!dropped L ·) := by
  induction h with
  | nil => rfl
  | @cons i t ts l l' hblock _ ih =>
    have hl : ∀ s ∈ Remove.skips l, s ∈ Remove.skips L := by
      intro s hs
      apply hsub
      rw [Remove.skips, List.filterMap_append]
      exact List.mem_append_left _ hs
    have hl' : ∀ s ∈ Remove.skips l', s ∈ Remove.skips L := by
      intro s hs
      apply hsub
      rw [Remove.skips, List.filterMap_append]
      exact List.mem_append_right _ hs
    have hskip : t.isDir → ∃ s ∈ Remove.skips L, s.1 = [i] := by
      intro ht
      refine ⟨([i], some ([i], .dp)), hl _ ?_, rfl⟩
      rw [hblock.skips_eq, if_pos ht]
      exact List.mem_singleton_self _
    rw [visitsRoots, List.filter_append, filter_visits hroots hskip, Remove.passed, List.filterMap_append,
      ← Remove.passed, hblock.passed_eq, ← ih hl']
    rfl

/-- **Entries are not lost.** What is passed to `rm_fts` is what the walk returns, in its order, except for what is inside a
directory that is skipped and for the second visit of it, and each `fts_skip_tree` drops just that visit. -/
theorem rm_passes (env : System) (x : RmOptions) (roots : List Tree) :
    ∃ status l, rm env x roots = some (status, l) ∧
      passed l = (visitsRoots x.oneFileSystem 0 roots).filter (!dropped l ·) ∧
      ∀ s ∈ skips l, s.2 = some (s.1, .dp) := by
  obtain ⟨status, l, l', hrm, hblocks, hend⟩ := rm_blocks env x roots
  have hpassed : passed l' = [] := by
    apply List.filterMap_eq_nil_iff.mpr
    intro e he
    obtain ⟨errno, rfl⟩ := hend e he
    rfl
  have hskips : skips l' = [] := by
    apply List.filterMap_eq_nil_iff.mpr
    intro e he
    obtain ⟨errno, rfl⟩ := hend e he
    rfl
  have hall : skips (l ++ l') = skips l := by
    rw [skips, List.filterMap_append, ← skips, ← skips, hskips, List.append_nil]
  refine ⟨status, l ++ l', hrm, ?_, ?_⟩
  · rw [passed, List.filterMap_append, ← passed, ← passed, hpassed, List.append_nil]
    apply Blocks.passed_eq _ hblocks
    · rw [hall]
      exact fun s hs => hs
    · rw [hall]
      exact fun s hs => (hblocks.skips_roots s hs).1
  · rw [hall]
    exact fun s hs => (hblocks.skips_roots s hs).2

/-! ## Failures -/

/-- The entry that an event leaves in place: it could not be removed, or the user declined to. -/
def Event.kept? : Event → Option Pos
  | .asked pos _ false => some pos
  | .unlinkat pos _ (some _) => some pos
  | .error pos _ => some pos
  | .skip pos _ => some pos
  | _ => none

/-- The entry that an event wants to remove. -/
def Event.wanted? : Event → Option Pos
  | .asked pos _ _ => some pos
  | .unlinkat pos _ _ => some pos
  | _ => none

theorem Event.pos?_of_kept {e : Event} {pos : Pos} (h : e.kept? = some pos) : e.pos? = some pos := by
  unfold Event.kept? at h
  split at h <;> simp_all [Event.pos?]

theorem Event.pos?_of_wanted {e : Event} {pos : Pos} (h : e.wanted? = some pos) : e.pos? = some pos := by
  unfold Event.wanted? at h
  split at h <;> simp_all [Event.pos?]

/-- Everything is about files of the command line. -/
theorem rm_roots (env : System) (x : RmOptions) (roots : List Tree) :
    ∃ status l, rm env x roots = some (status, l) ∧ ∀ e ∈ l, ∀ pos, e.pos? = some pos → ∃ j, pos = [j] := by
  obtain ⟨status, l, l', hrm, hblocks, hend⟩ := rm_blocks env x roots
  refine ⟨status, l ++ l', hrm, ?_⟩
  intro e he pos hpos
  rcases List.mem_append.mp he with he | he
  · obtain ⟨j, hj⟩ := hblocks.about e he
    exact ⟨j, Option.some.inj (hpos.symm.trans hj)⟩
  · obtain ⟨errno, rfl⟩ := hend e he
    cases hpos

/-- **After an entry is left in place** no directory above it is asked for or unlinked. -/
theorem rm_ancestors (env : System) (x : RmOptions) (roots : List Tree) :
    ∃ status l, rm env x roots = some (status, l) ∧
      l.Pairwise fun e e' => ∀ y d, e.kept? = some y → e'.wanted? = some d → ¬ (d <:+ y ∧ d ≠ y) := by
  obtain ⟨status, l, hrm, hroot⟩ := rm_roots env x roots
  refine ⟨status, l, hrm, List.pairwise_of_forall_mem_list ?_⟩
  intro e he e' he' y d hy hd hlt
  obtain ⟨j, rfl⟩ := hroot e he y (Event.pos?_of_kept hy)
  obtain ⟨k, rfl⟩ := hroot e' he' d (Event.pos?_of_wanted hd)
  exact hlt.2 (hlt.1.eq_of_length rfl)

/-! ## Mount points -/

/-- The tree at a place. -/
def treeAt (roots : List Tree) : Pos → Option Tree
  | [] => none
  | [i] => roots[i]?
  | i :: pos => (treeAt roots pos).bind fun dir => dir.entries[i]?

/-- A directory below root level on another device than the file of the command line above it. -/
structure MountPoint (roots : List Tree) (dir : Pos) : Prop where
  below : 1 < dir.length
  elsewhere : ∃ i root t, [i] <:+ dir ∧ treeAt roots [i] = some root ∧ treeAt roots dir = some t ∧
    t.elsewhere root.ftsDev

example : MountPoint [.dir [100] 1 20 none [.dir [109] 2 2 none [.leaf [102] ⟨.f, rfl⟩]]] [0, 0] :=
  ⟨by decide, 0, .dir [100] 1 20 none [.dir [109] 2 2 none [.leaf [102] ⟨.f, rfl⟩]],
    .dir [109] 2 2 none [.leaf [102] ⟨.f, rfl⟩], by decide, rfl, rfl, by decide⟩

theorem pos?_of_mem_unlinked {l : List Event} {pos : Pos} (h : pos ∈ unlinked l) : ∃ e ∈ l, e.pos? = some pos := by
  obtain ⟨e, he, hpos⟩ := List.mem_filterMap.mp h
  refine ⟨e, he, ?_⟩
  cases e <;> simp_all [Event.pos?]

/-- **`--one-file-system`**: neither a mount point nor anything in one is unlinked. It does not take `FTS_XDEV` or the test
in `rm_fts` for that, as nothing below root level is passed to `rm_fts`. -/
theorem rm_spares_mounts (env : System) (x : RmOptions) (roots : List Tree) :
    ∃ status l, rm env x roots = some (status, l) ∧
      (x.oneFileSystem → ∀ pos ∈ unlinked l, ∀ dir, MountPoint roots dir → ¬ dir <:+ pos) := by
  obtain ⟨status, l, hrm, hroot⟩ := rm_roots env x roots
  refine ⟨status, l, hrm, ?_⟩
  intro _ pos hpos dir hdir hsuffix
  obtain ⟨e, he, hepos⟩ := pos?_of_mem_unlinked hpos
  obtain ⟨j, rfl⟩ := hroot e he pos hepos
  have hle : dir.length ≤ 1 := hsuffix.length_le
  have hlt := hdir.below
  omega

/-! ## Refusals -/

/-- The last component of the name is `.` or `..`. -/
def Dots (t : Tree) : Prop := lastName t.name = [dot] ∨ lastName t.name = [dot, dot]

/-- `ROOT_DEV_INO_CHECK`. -/
def rootDevInoCheck (x : RmOptions) (t : Tree) : Prop := x.rootDevIno.isSome ∧ t.devIno = x.rootDevIno

mutual

/-- One device, no directory inside itself, and no error on the way. -/
def Plain (dev : ℕ) (up : List (ℕ × ℕ)) : Tree → Prop
  | .leaf _ _ => True
  | .locked _ d i _ => d = dev ∧ (d, i) ∉ up
  | .dir _ d i e ts => d = dev ∧ (d, i) ∉ up ∧ e = none ∧ PlainList dev ((d, i) :: up) ts

def PlainList (dev : ℕ) (up : List (ℕ × ℕ)) : List Tree → Prop
  | [] => True
  | t :: ts => Plain dev up t ∧ PlainList dev up ts

end

mutual

/-- The places of the entries of a tree. -/
def places (pos : Pos) : Tree → List Pos
  | .leaf _ _ => [pos]
  | .locked _ _ _ _ => [pos]
  | .dir _ _ _ _ ts => pos :: placesList pos 0 ts

def placesList (pos : Pos) (i : ℕ) : List Tree → List Pos
  | [] => []
  | t :: ts => places (i :: pos) t ++ placesList pos (i + 1) ts

end

/-- What `rm -r` should do: refuse the directories of the command line that are `.` or `..`, warn of those that are the
root, go on to the prompt with the others; and, where nothing is in the way, remove each entry once, directories after
what is in them. -/
structure Removes (env : System) (x : RmOptions) (roots : List Tree) (l : List Event) : Prop where
  refuses : ∀ i t, roots[i]? = some t → t.isDir →
    ((∃ path, .error [i] (.cannotRemoveDirectory path) ∈ l) ↔ Dots t)
  warns : ∀ i t, roots[i]? = some t → t.isDir → ((∃ path, .error [i] (.dangerous path) ∈ l) ↔ rootDevInoCheck x t)
  goesOn : ∀ i t, roots[i]? = some t → t.isDir → ¬ Dots t → ¬ rootDevInoCheck x t →
    .prompt [i] .descendIntoDir ∈ l
  removes : x.interactive = .never → (∀ time file dir, env.unlinkat time file dir = none) →
    (∀ t ∈ roots, (t.isDir → ¬ Dots t ∧ ¬ rootDevInoCheck x t) ∧ Plain t.ftsDev [] t) →
    (unlinked l).Perm (placesList [] 0 roots) ∧ (unlinked l).Pairwise fun y y' => ¬ (y <:+ y' ∧ y ≠ y')

section

variable {env : System} {x : RmOptions} {i : ℕ} {roots : List Tree} {l : List Event}

/-- With `-r` each directory of the command line is refused. -/
theorem Blocks.refused (h : Blocks env x i roots l) (hx : x.recursive) :
    ∀ j t, roots[j]? = some t → t.isDir → ∃ path, .error [i + j] (.cannotRemoveDirectory path) ∈ l := by
  induction h with
  | nil => simp
  | @cons i t ts l l' hblock _ ih =>
    intro j t' hj ht
    cases j with
    | zero =>
      cases hj
      obtain ⟨path, hpath⟩ := hblock.refused hx ht
      exact ⟨path, List.mem_append_left _ hpath⟩
    | succ j =>
      obtain ⟨path, hpath⟩ := ih j t' hj ht
      rw [Nat.add_right_comm, Nat.add_assoc] at hpath
      exact ⟨path, List.mem_append_right _ hpath⟩

/-- The warning never comes. -/
theorem Blocks.notWarned (h : Blocks env x i roots l) (pos : Pos) (path : List Byte) :
    .error pos (.dangerous path) ∉ l := by
  induction h with
  | nil => simp
  | @cons i t ts l l' hblock _ ih =>
    intro hmem
    rcases List.mem_append.mp hmem with hmem | hmem
    · have hpos := hblock.about _ hmem
      simp only [Event.pos?, Option.some.injEq] at hpos
      subst hpos
      exact hblock.notWarned path hmem
    · exact ih hmem

/-- Without directories each file is unlinked once. -/
theorem Blocks.unlinked_eq (h : Blocks env x i roots l) (hx : x.interactive = .never)
    (hall : ∀ time file dir, env.unlinkat time file dir = none) (hleaf : ∀ t ∈ roots, ¬ t.isDir) :
    unlinked l = placesList [] i roots := by
  induction h with
  | nil => rfl
  | @cons i t ts l l' hblock _ ih =>
    have ht := hleaf t List.mem_cons_self
    have hplaces : places [i] t = [[i]] := by
      cases t with
      | leaf => rfl
      | locked => rfl
      | dir => exact absurd rfl ht
    rw [placesList, hplaces, ← ih fun t' ht' => hleaf t' (List.mem_cons_of_mem _ ht'), unlinked, List.filterMap_append,
      ← unlinked, hblock.unlinked_eq ht hx hall]
    rfl

end

/-- **When `rm -r` does what it should**: when each directory of the command line is `.` or `..`, and not the root. -/
theorem rm_removes_iff (env : System) (x : RmOptions) (roots : List Tree) :
    (∃ status l, rm env { x with recursive := true } roots = some (status, l) ∧
      Removes env { x with recursive := true } roots l) ↔
      ∀ t ∈ roots, t.isDir → Dots t ∧ ¬ rootDevInoCheck x t := by
  obtain ⟨status, l, l', hrm, hblocks, hend⟩ := rm_blocks env { x with recursive := true } roots
  have hwarned : ∀ i path, .error [i] (.dangerous path) ∉ l ++ l' := by
    intro i path hmem
    rcases List.mem_append.mp hmem with hmem | hmem
    · exact hblocks.notWarned _ path hmem
    · obtain ⟨errno, herrno⟩ := hend _ hmem
      cases herrno
  have hrefused : ∀ i t, roots[i]? = some t → t.isDir →
      ∃ path, .error [i] (.cannotRemoveDirectory path) ∈ l ++ l' := by
    intro i t ht hdir
    obtain ⟨path, hpath⟩ := hblocks.refused rfl i t ht hdir
    rw [Nat.zero_add] at hpath
    exact ⟨path, List.mem_append_left _ hpath⟩
  have hsingle : ∀ y ∈ unlinked (l ++ l'), ∃ j, y = [j] := by
    intro y hy
    obtain ⟨e, he, hpos⟩ := pos?_of_mem_unlinked hy
    rcases List.mem_append.mp he with he | he
    · obtain ⟨j, hj⟩ := hblocks.about e he
      exact ⟨j, Option.some.inj (hpos.symm.trans hj)⟩
    · obtain ⟨errno, rfl⟩ := hend e he
      cases hpos
  constructor
  · rintro ⟨status', l'', hrm', hremoves⟩ t ht hdir
    rw [hrm] at hrm'
    cases hrm'
    obtain ⟨i, hi⟩ := List.getElem?_of_mem ht
    refine ⟨(hremoves.refuses i t hi hdir).mp (hrefused i t hi hdir), ?_⟩
    intro hroot
    obtain ⟨path, hpath⟩ := (hremoves.warns i t hi hdir).mpr hroot
    exact hwarned i path hpath
  · intro h
    refine ⟨status, l ++ l', hrm, ?_⟩
    have hroots : ∀ i t, roots[i]? = some t → t.isDir → Dots t ∧ ¬ rootDevInoCheck x t :=
      fun i t ht => h t (List.mem_of_getElem? ht)
    exact {
      refuses := fun i t ht hdir => ⟨fun _ => (hroots i t ht hdir).1, fun _ => hrefused i t ht hdir⟩
      warns := fun i t ht hdir => ⟨fun hw => absurd hw.choose_spec (hwarned i _),
        fun hroot => absurd hroot (hroots i t ht hdir).2⟩
      goesOn := fun i t ht hdir hdots => absurd (hroots i t ht hdir).1 hdots
      removes := by
        intro hx hall hplain
        have hleaf : ∀ t ∈ roots, ¬ t.isDir := fun t ht hdir => ((hplain t ht).1 hdir).1 (h t ht hdir).1
        have hunlinked := hblocks.unlinked_eq hx hall hleaf
        have hend' : unlinked l' = [] := by
          apply List.filterMap_eq_nil_iff.mpr
          intro e he
          obtain ⟨errno, rfl⟩ := hend e he
          rfl
        have hlog : unlinked (l ++ l') = placesList [] 0 roots := by
          rw [unlinked, List.filterMap_append, ← unlinked, ← unlinked, hend', List.append_nil, hunlinked]
        refine ⟨hlog ▸ .refl _, List.pairwise_of_forall_mem_list ?_⟩
        intro y hy y' hy' hlt
        obtain ⟨j, rfl⟩ := hsingle y hy
        obtain ⟨k, rfl⟩ := hsingle y' hy'
        exact hlt.2 (hlt.1.eq_of_length rfl) }

/-- A system where everything succeeds. -/
def System.calm : System where
  canWriteAnyFile := true
  openatNeedsFchdir := false
  faccessat := fun _ _ => true
  euidaccess := fun _ _ => none
  euidaccessStat := fun _ _ => true
  fstatat := fun _ _ => .ok .other
  isEmptyDir := fun _ _ => true
  yesno := fun _ => true
  unlinkat := fun _ _ _ => none
  ftsClose := none
  errno := fun _ => none

/-- The options of `rm -rf`, where `/` is the inode 2 of the device 1. -/
def RmOptions.force : RmOptions where
  ignoreMissingFiles := true
  interactive := .never
  oneFileSystem := false
  recursive := true
  rootDevIno := some (1, 2)
  stdinTty := true
  verbose := false

/-- `rm -rf d`, with an empty directory `d`: it is refused as if it were `.`. -/
theorem rm_refuses_d : ¬ ∃ status l, rm .calm { RmOptions.force with recursive := true } [.dir [100] 1 20 none []]
      = some (status, l) ∧
    Removes .calm { RmOptions.force with recursive := true } [.dir [100] 1 20 none []] l := by
  rintro ⟨status, l, hrm, hremoves⟩
  have hrun : rm .calm { RmOptions.force with recursive := true } [.dir [100] 1 20 none []]
      = some (.error, [.passed [0] .d, .error [0] (.cannotRemoveDirectory [100]), .skip [0] (some ([0], .dp))]) := by
    decide
  rw [hrun] at hrm
  cases hrm
  have hdots : Dots (.dir [100] 1 20 none []) := (hremoves.refuses 0 _ rfl rfl).mp ⟨[100], by decide⟩
  revert hdots
  unfold Dots
  decide

end CodingExercises.Coreutils.Remove
