import CodingExercises.Coreutils.MkdirP

/-!
# mkdir -p: owner and mode

What `make_dir_parents` leaves behind. When it returns true and no child does the work, `DIR` is a directory with the owner,
the group and the mode that are asked for, unless it was there before and is to be preserved. A new directory never grants
others what it should not while it is made (`makeDirParents_right`).
-/

namespace CodingExercises.Coreutils.MkdirP

open Lib
open SaveWd (Errno Savewd ChdirOptions Answers savewdChdir)

/-! ## What is expected -/

/-- The owner and the group are the requested ones. -/
def Owned (r : Request) (f : File) : Prop :=
  (r.owner ≠ Chown.noId → f.uid = r.owner) ∧ (r.group ≠ Chown.noId → f.gid = r.group)

/-- The mode agrees with `MODE` on `MODE_BITS`, which is a subset of `CHMOD_MODE_BITS`. -/
def Agrees (r : Request) (f : File) : Prop :=
  ∀ i ∈ ModeT.bits r.modeBits, i ∈ ModeT.bits chmodModeBits → (i ∈ ModeT.bits f.mode ↔ i ∈ ModeT.bits r.mode)

/-- The file is as it should be. -/
structure Ready (r : Request) (f : File) : Prop where
  owned : Owned r f
  agrees : Agrees r f

/-- Those of the permissions `mask` that the file grants are granted by `MODE`, to the owner and the group that were asked
for, with the special bits set. -/
def GrantsRight (r : Request) (mask : ModeT) (f : File) : Prop :=
  ∀ i ∈ ModeT.bits mask, i ∈ ModeT.bits f.mode → i ∈ ModeT.bits r.mode ∧ Ready r f

/-- A new directory grants group and others no permission too early, if the owner or the group may change, and no write
permission, if special bits may. -/
structure Safe (r : Request) (f : File) : Prop where
  owner : r.keepOwner = false → GrantsRight r (sIrwxg ||| sIrwxo) f
  special : r.keepSpecialModeBits = false → GrantsRight r (sIwgrp ||| sIwoth) f

/-! ## Bits -/

variable {k : Kernel} {r : Request} {w : World} {f g : File} {link : Bool} {i : ℕ}

theorem mem_bits_xor {x y : ModeT} : i ∈ ModeT.bits (x ^^^ y) ↔ ¬(i ∈ ModeT.bits x ↔ i ∈ ModeT.bits y) := by
  simp only [ModeT.bits, mem_bits, UInt32.toBitVec_xor, BitVec.getLsbD_xor]
  cases x.toBitVec.getLsbD i <;> cases y.toBitVec.getLsbD i <;> simp

theorem mem_bits_and {x y : ModeT} : i ∈ ModeT.bits (x &&& y) ↔ i ∈ ModeT.bits x ∧ i ∈ ModeT.bits y := by
  rw [ModeT.bits_and, Set.mem_inter_iff]

theorem mem_bits_or {x y : ModeT} : i ∈ ModeT.bits (x ||| y) ↔ i ∈ ModeT.bits x ∨ i ∈ ModeT.bits y := by
  rw [ModeT.bits_or, Set.mem_union]

theorem mem_bits_diff {x y : ModeT} : i ∈ ModeT.bits (x &&& ~~~y) ↔ i ∈ ModeT.bits x ∧ i ∉ ModeT.bits y := by
  rw [mem_bits_and, ModeT.mem_bits_not]
  exact ⟨fun h => ⟨h.1, h.2.2⟩, fun h => ⟨h.1, ModeT.lt_of_mem h.1, h.2⟩⟩

/-- The bits that `st_mode` has of those that `chmod` changes. -/
theorem mem_stMode (hi : i ∈ ModeT.bits chmodModeBits) : i ∈ ModeT.bits f.stMode ↔ i ∈ ModeT.bits f.mode := by
  have hnot : i ∉ ModeT.bits sIfdir := by
    intro hmem
    have hboth : i ∈ ModeT.bits (sIfdir &&& chmodModeBits) := mem_bits_and.mpr ⟨hmem, hi⟩
    rw [show sIfdir &&& chmodModeBits = 0 by decide, ModeT.bits_zero] at hboth
    exact hboth
  rw [File.stMode, mem_bits_or, mem_bits_and]
  exact ⟨fun h => (h.resolve_left hnot).1, fun h => .inr ⟨h, hi⟩⟩

/-- A file without one of these bits has none of them. -/
theorem notMem_of_and_eq_zero {x y : ModeT} (h : x &&& y = 0) (hx : i ∈ ModeT.bits x) : i ∉ ModeT.bits y := by
  intro hy
  have hboth := mem_bits_and.mpr ⟨hx, hy⟩
  rw [h, ModeT.bits_zero] at hboth
  exact hboth

theorem x_subset (hi : i ∈ ModeT.bits sIxugo) : i ∈ ModeT.bits chmodModeBits := by
  have hsub : sIxugo &&& chmodModeBits = sIxugo := by decide
  rw [← hsub, mem_bits_and] at hi
  exact hi.2

/-! ## `dirchownmod` -/

/-- What a directory `f` can become while it is changed: it has no more bits, or it is as it should be, with no other bits
than those of `MODE_BITS` and its own. -/
def Between (r : Request) (f g : File) : Prop :=
  g.isDir = f.isDir ∧ (ModeT.bits g.mode ⊆ ModeT.bits f.mode ∨
    Ready r g ∧ ∀ i ∈ ModeT.bits g.mode, i ∉ ModeT.bits r.modeBits → i ∈ ModeT.bits f.mode)

/-- `DIR` is changed to `g`, by way of what `P` says. -/
structure Changes (P : File → Prop) (w w' : World) (link : Bool) (g : File) : Prop where
  dir : w'.dir = .file link g
  cwd : w'.cwd = w.cwd
  moments : ∃ l, w'.moments = w.moments ++ l ∧ ∀ s ∈ l, ∃ f, s = .file link f ∧ P f

theorem Changes.refl {P : File → Prop} (hdir : w.dir = .file link f) : Changes P w w link f :=
  ⟨hdir, rfl, [], by simp, by simp⟩

theorem Changes.trans {P : File → Prop} {w₁ w₂ : World} (h : Changes P w w₁ link f) (h' : Changes P w₁ w₂ link g) :
    Changes P w w₂ link g := by
  obtain ⟨l, hl, hall⟩ := h.moments
  obtain ⟨l', hl', hall'⟩ := h'.moments
  refine ⟨h'.dir, h'.cwd.trans h.cwd, l ++ l', by rw [hl', hl, List.append_assoc], ?_⟩
  intro s hs
  rcases List.mem_append.mp hs with hs | hs
  · exact hall s hs
  · exact hall' s hs

/-- A call on `DIR`. -/
theorem change_dir {P : File → Prop} (change : File → File) (answer : Option Errno) (hdir : w.dir = .file link f)
    (hP : P (change f)) :
    ∃ w' g, w.change answer change (some .dir) = (answer, w') ∧ Changes P w w' link g ∧
      g = if answer.isNone then change f else f := by
  cases answer with
  | some e => exact ⟨w, f, rfl, .refl hdir, rfl⟩
  | none =>
    have hget : w.get .dir = some f := by rw [World.get, hdir]
    have hput : w.put (change f) .dir = w.setDir (.file link (change f)) := by rw [World.put, hdir]
    refine ⟨w.setDir (.file link (change f)), change f, ?_, ⟨rfl, rfl, _, rfl, ?_⟩, rfl⟩
    · simp only [World.change, hget, hput]
    · intro s hs
      rw [List.mem_singleton.mp hs]
      exact ⟨_, rfl, hP⟩

/-- What a name leads to stays the same. -/
theorem Changes.target {P : File → Prop} {w' : World} (h : Changes P w w' link g) (hdir : w.dir = .file link f) (fd : Bool)
    (name : Name) (nofollow : Bool) : w'.target fd name nofollow = w.target fd name nofollow := by
  simp only [World.target, h.cwd, h.dir, hdir]
  cases fd <;> cases name <;> cases w.cwd <;> cases link <;> rfl

/-- `chown` takes bits away, and gives the file its owner and its group. -/
theorem chown_between : Between r f (f.chown k r.owner r.group) := by
  refine ⟨rfl, .inl ?_⟩
  intro i hi
  simp only [File.chown] at hi
  split at hi
  · exact (mem_bits_diff.mp hi).1
  · exact hi

theorem chown_owned : Owned r (f.chown k r.owner r.group) := by
  constructor
  · intro hne
    simp [File.chown, Chown.newId, hne]
  · intro hne
    simp [File.chown, Chown.newId, hne]

/-- What `chown` clears is indeterminate. -/
theorem mem_chown (hi : i ∈ ModeT.bits chmodModeBits)
    (hnot : i ∉ ModeT.bits (if f.stMode &&& sIxugo ≠ 0 then f.stMode &&& (sIsuid ||| sIsgid) else 0)) :
    i ∈ ModeT.bits (f.chown k r.owner r.group).mode ↔ i ∈ ModeT.bits f.mode := by
  simp only [File.chown]
  split
  · next hx =>
    rw [mem_bits_diff, mem_bits_and]
    refine ⟨fun h => h.1, fun h => ⟨h, fun hclear => hnot ?_⟩⟩
    have hstx : f.stMode &&& sIxugo ≠ 0 := by
      obtain ⟨j, hj⟩ := ModeT.ne_zero_iff.mp hx
      obtain ⟨hmode, hjx⟩ := mem_bits_and.mp hj
      exact ModeT.ne_zero_iff.mpr ⟨j, mem_bits_and.mpr ⟨(mem_stMode (x_subset hjx)).mpr hmode, hjx⟩⟩
    rw [if_pos hstx, mem_bits_and]
    exact ⟨(mem_stMode hi).mpr h, hclear.2⟩
  · exact Iff.rfl

/-- The calls of `dirchownmod` work on `DIR`. -/
structure Aimed (k : Kernel) (w : World) (fd : Bool) (name : Name) (nofollow : Bool) : Prop where
  stat : w.target fd name false = some .dir
  chown : w.target fd name nofollow = some .dir
  chmod : w.target (k.haveFchmod && fd) name nofollow = some .dir

variable {fd : Bool} {name : Name} {mkdirMode : ModeT}

/-- What is left to `chmod`: `g` has its owner, and only the indeterminate bits can differ from those of `f`. -/
structure Owed (r : Request) (f g : File) (indeterminate : ModeT) : Prop where
  owned : Owned r g
  isDir : g.isDir = f.isDir
  same : ∀ i ∈ ModeT.bits chmodModeBits, i ∉ ModeT.bits indeterminate → (i ∈ ModeT.bits g.mode ↔ i ∈ ModeT.bits f.mode)

theorem chownPart_spec (hdir : w.dir = .file link f) (htarget : w.target fd name (mkdirMode ≠ noMode) = some .dir) :
    ∃ e ind w' g, chownPart k fd name mkdirMode r f w = (e, ind, w') ∧ Changes (Between r f) w w' link g ∧
      (e = none → Owed r f g ind) := by
  unfold chownPart
  split
  · rw [htarget]
    obtain ⟨w', g, hchange, hchanges, hg⟩ :=
      change_dir (P := Between r f) (·.chown k r.owner r.group) k.chown hdir chown_between
    rw [hchange]
    cases hchown : k.chown with
    | some e => exact ⟨some e, 0, w', g, rfl, hchanges, by simp⟩
    | none =>
      rw [hchown] at hg
      subst hg
      exact ⟨none, _, w', _, rfl, hchanges, fun _ => ⟨chown_owned, rfl, fun i hi hnot => mem_chown hi hnot⟩⟩
  · next hkeep =>
    push Not at hkeep
    refine ⟨none, 0, w, f, rfl, .refl hdir, fun _ => ⟨⟨?_, ?_⟩, rfl, fun _ _ _ => Iff.rfl⟩⟩
    · exact fun hne => (hkeep.1 hne).symm
    · exact fun hne => (hkeep.2 hne).symm

/-- The mode that `chmod` sets. -/
theorem mem_chmodMode (hmode : ModeT.bits r.mode ⊆ ModeT.bits r.modeBits) (hi : i ∈ ModeT.bits chmodModeBits) :
    i ∈ ModeT.bits ((r.mode ||| (f.stMode &&& chmodModeBits &&& ~~~r.modeBits)) &&& chmodModeBits) ↔
      if i ∈ ModeT.bits r.modeBits then i ∈ ModeT.bits r.mode else i ∈ ModeT.bits f.mode := by
  rw [mem_bits_and, mem_bits_or, mem_bits_diff, mem_bits_and, mem_stMode hi]
  have hsub := @hmode i
  split <;> tauto

theorem chmodPart_spec (hmode : ModeT.bits r.mode ⊆ ModeT.bits r.modeBits) {ind : ModeT} (hdir : w.dir = .file link g)
    (htarget : w.target (k.haveFchmod && fd) name (mkdirMode ≠ noMode) = some .dir) (h : Owed r f g ind) :
    ∃ e w' g', chmodPart k fd name mkdirMode r f ind w = (e, w') ∧ Changes (Between r f) w w' link g' ∧
      (e = none → Ready r g' ∧ g'.isDir = f.isDir) := by
  unfold chmodPart
  split
  · rw [htarget]
    let new : File → File := fun x =>
      { x with mode := (r.mode ||| (f.stMode &&& chmodModeBits &&& ~~~r.modeBits)) &&& chmodModeBits }
    have hready : Ready r (new g) :=
      ⟨h.owned, fun i hi hchmod => by rw [mem_chmodMode hmode hchmod, if_pos hi]⟩
    have hbetween : Between r f (new g) := by
      refine ⟨h.isDir, .inr ⟨hready, fun i hi hnot => ?_⟩⟩
      rwa [mem_chmodMode hmode (mem_bits_and.mp hi).2, if_neg hnot] at hi
    obtain ⟨w', g', hchange, hchanges, hg⟩ := change_dir (P := Between r f) _ k.chmod hdir hbetween
    refine ⟨k.chmod, w', g', hchange, hchanges, fun hnone => ?_⟩
    rw [hnone] at hg
    subst hg
    exact ⟨hready, h.isDir⟩
  · next hzero =>
    refine ⟨none, w, g, rfl, .refl hdir, fun _ => ⟨⟨h.owned, fun i hi hchmod => ?_⟩, h.isDir⟩⟩
    have hnot : i ∉ ModeT.bits ((f.stMode ^^^ r.mode) ||| ind) := fun hmem =>
      notMem_of_and_eq_zero (not_not.mp hzero) hmem hi
    rw [mem_bits_or, mem_bits_xor, mem_stMode hchmod] at hnot
    rw [h.same i hchmod (fun hind => hnot (.inr hind))]
    exact not_not.mp fun hne => hnot (.inl hne)

/-- What `dirchownmod` does to a directory. -/
theorem dirchownmod_spec (hmode : ModeT.bits r.mode ⊆ ModeT.bits r.modeBits) (hdir : w.dir = .file link f)
    (hisDir : f.isDir = true) (haim : Aimed k w fd name (mkdirMode ≠ noMode)) :
    ∃ e w' g, dirchownmod k fd name mkdirMode r w = (e, w') ∧ Changes (Between r f) w w' link g ∧
      (e = none → Ready r g ∧ g.isDir = true) := by
  have hget : (some Place.dir).bind w.get = some f := by rw [Option.bind_some, World.get, hdir]
  cases hstat : k.stat with
  | some e =>
    have hst : w.stat k fd name = .error e := by rw [World.stat, haim.stat, hget, hstat]
    refine ⟨some e, w, f, ?_, .refl hdir, by simp⟩
    rw [dirchownmod, hst]
  | none =>
    have hst : w.stat k fd name = .ok f := by rw [World.stat, haim.stat, hget, hstat]
    obtain ⟨e, ind, w₁, g, hchown, hchanges, howed⟩ := chownPart_spec (k := k) (r := r) hdir haim.chown
    cases e with
    | some e =>
      refine ⟨some e, w₁, g, ?_, hchanges, by simp⟩
      simp only [dirchownmod, hst, hisDir, Bool.not_true, Bool.false_eq_true, if_false, hchown]
    | none =>
      have htarget : w₁.target (k.haveFchmod && fd) name (mkdirMode ≠ noMode) = some .dir := by
        rw [hchanges.target hdir]
        exact haim.chmod
      obtain ⟨e, w₂, g', hchmod, hchanges', hready⟩ := chmodPart_spec hmode hchanges.dir htarget (howed rfl)
      cases e with
      | some e =>
        refine ⟨some e, w₂, g', ?_, hchanges.trans hchanges', by simp⟩
        simp only [dirchownmod, hst, hisDir, Bool.not_true, Bool.false_eq_true, if_false, hchown, hchmod]
      | none =>
        refine ⟨if fd then k.close else none, w₂, g', ?_, hchanges.trans hchanges', fun _ => ⟨(hready rfl).1, ?_⟩⟩
        · simp only [dirchownmod, hst, hisDir, Bool.not_true, Bool.false_eq_true, if_false, hchown, hchmod]
        · rw [(hready rfl).2, hisDir]

/-- `dirchownmod` changes nothing but a directory. -/
theorem dirchownmod_notDir (hdir : w.isDirectory = false) (hcwd : w.cwd = .here) :
    ∃ e, dirchownmod k false .path mkdirMode r w = (some e, w) := by
  have htarget : w.target false .path false = some .dir := by
    simp only [World.target, hcwd, Bool.false_eq_true, if_false]
    split <;> rfl
  cases hst : w.stat k false .path with
  | error e => exact ⟨e, by rw [dirchownmod, hst]⟩
  | ok f =>
    have hisDir : f.isDir = false := by
      simp only [World.stat, htarget, Option.bind_some, World.get] at hst
      simp only [World.isDirectory] at hdir
      split at hst <;> grind
    exact ⟨enotdir, by simp only [dirchownmod, hst, hisDir, Bool.not_false, if_true]⟩

/-! ## `make_dir_parents` -/

variable {wd : Savewd Place} {o : ChdirOptions} {result : Result} {w' : World}

/-- Where `savewd_chdir` leads to. -/
theorem chdir_cases {a : Answers Place} {res : SaveWd.ChdirResult} {wd' : Savewd Place} {cwd cwd' : Place}
    (h : savewdChdir true o true wd cwd a = some (res, wd', cwd')) :
    (res ≠ .ok ∧ cwd' = cwd) ∨ (res = .ok ∧ a.opened = none ∧ o.skipReadable = true ∧ cwd' = cwd) ∨
      (res = .ok ∧ a.changed = .ok cwd') := by
  unfold savewdChdir at h
  simp only [Bool.true_or, Bool.true_and] at h
  split at h
  · cases h
    exact .inl ⟨by decide, rfl⟩
  · split at h
    · next hskip =>
      cases h
      rw [Bool.and_eq_true, Option.isNone_iff_eq_none] at hskip
      exact .inr (.inl ⟨rfl, hskip.1, hskip.2, rfl⟩)
    · split at h
      · cases h
        exact .inl ⟨by decide, rfl⟩
      · split at h
        · cases h
          exact .inl ⟨by decide, rfl⟩
        · next hchanged =>
          split at h
          all_goals cases h
          all_goals exact .inr (.inr ⟨rfl, hchanged⟩)

/-- Only `DIR` can become the working directory. -/
theorem answers_changed {nofollow : Bool} {p : Place} (h : (k.answers w nofollow).changed = .ok p) :
    p = .dir ∧ w.isDirectory = true := by
  simp only [Kernel.answers] at h
  split at h
  · cases h
  · split at h
    · next hdir =>
      cases h
      exact ⟨rfl, hdir⟩
    · cases h

/-- Only a directory is opened. -/
theorem answers_opened {nofollow : Bool} (h : (k.answers w nofollow).opened = none) : w.isDirectory = true := by
  by_contra hdir
  rw [Bool.not_eq_true] at hdir
  simp [Kernel.answers, hdir] at h

/-- After `savewd_chdir` the calls work on `DIR`, unless they do not follow the link that it is. -/
theorem aimed_of_chdir {res : SaveWd.ChdirResult} {wd' : Savewd Place} {cwd' : Place} {nofollow : Bool}
    (hdir : w.dir = .file link f) (hcwd : w.cwd = .here) (hlink : nofollow = true → link = false)
    (hskip : o.skipReadable = k.haveFchmod)
    (h : savewdChdir true o true wd w.cwd (k.answers w o.nofollow) = some (res, wd', cwd')) :
    Aimed k { w with cwd := cwd' } (k.answers w o.nofollow).opened.isNone (if res = .ok then .dot else .path) nofollow := by
  obtain ⟨hres, rfl⟩ | ⟨rfl, hopened, hskips, rfl⟩ | ⟨rfl, hchanged⟩ := chdir_cases h
  · rw [if_neg hres]
    have hpath (fd nofollow : Bool) (hlink : nofollow = true → link = false) :
        World.target { w with cwd := w.cwd } fd .path nofollow = some .dir := by
      simp only [World.target, hcwd, hdir]
      cases fd <;> cases link <;> cases nofollow <;> simp_all
    exact ⟨hpath _ _ (by simp), hpath _ _ hlink, hpath _ _ hlink⟩
  · rw [hopened]
    exact ⟨rfl, rfl, by rw [← hskip, hskips]; rfl⟩
  · obtain ⟨rfl, -⟩ := answers_changed hchanged
    have hdot (fd nofollow : Bool) : World.target { w with cwd := Place.dir } fd .dot nofollow = some .dir := by
      cases fd <;> rfl
    exact ⟨hdot _ _, hdot _ _, hdot _ _⟩

/-- The work is left to a child, or `dirchownmod` decides, unless `savewd_chdir` failed unexpectedly. -/
theorem changeDirectory_cases {mkdirErrno : Option Errno}
    (h : changeDirectory k r wd mkdirErrno mkdirMode o w = some (result, w')) :
    (result.delegated = true ∧ w' = w) ∨
      ∃ res wd' cwd', savewdChdir true o true wd w.cwd (k.answers w o.nofollow) = some (res, wd', cwd') ∧
        ((result.ok = false ∧ w' = { w with cwd := cwd' }) ∨
          ∃ e, dirchownmod k (k.answers w o.nofollow).opened.isNone (if res = .ok then .dot else .path) mkdirMode r
            { w with cwd := cwd' } = (e, w') ∧ (result.ok = true → e = none)) := by
  simp only [changeDirectory, decide_eq_true_eq] at h
  split at h
  · cases h
  · obtain ⟨rfl, rfl⟩ := by simpa using h
    exact .inl ⟨rfl, rfl⟩
  · next res wd' cwd' _ hchdir =>
    refine .inr ⟨res, wd', cwd', hchdir, ?_⟩
    generalize dirchownmod k (k.answers w o.nofollow).opened.isNone (if res = .ok then .dot else .path) mkdirMode r
      { w with cwd := cwd' } = d at h ⊢
    obtain ⟨e, w₁⟩ := d
    split at h
    · next hparts =>
      split at hparts
      · cases hparts
      · cases hparts
        obtain ⟨-, rfl⟩ := by simpa using h
        exact .inr ⟨none, rfl, by simp⟩
    · next hparts =>
      obtain ⟨rfl, rfl⟩ := by simpa using h
      split at hparts
      · cases hparts
        exact .inl ⟨rfl, rfl⟩
      · cases hparts
        exact .inr ⟨_, rfl, by simp⟩

/-- What `make_dir_parents` does to a directory that is to be changed. -/
theorem changeDirectory_spec (hmode : ModeT.bits r.mode ⊆ ModeT.bits r.modeBits) {mkdirErrno : Option Errno}
    (hdir : w.dir = .file link f) (hisDir : f.isDir = true) (hcwd : w.cwd = .here)
    (hlink : mkdirMode ≠ noMode → link = false) (hskip : o.skipReadable = k.haveFchmod)
    (h : changeDirectory k r wd mkdirErrno mkdirMode o w = some (result, w')) :
    ∃ g cwd, Changes (Between r f) { w with cwd } w' link g ∧
      (result.ok = true → result.delegated = false → Ready r g ∧ g.isDir = true) := by
  obtain ⟨hdelegated, rfl⟩ | ⟨res, wd', cwd', hchdir, hrest⟩ := changeDirectory_cases h
  · exact ⟨f, w'.cwd, .refl hdir, by simp [hdelegated]⟩
  · obtain ⟨hfailed, rfl⟩ | ⟨e, hdirchownmod, hok⟩ := hrest
    · exact ⟨f, cwd', .refl hdir, by simp [hfailed]⟩
    · have haim : Aimed k { w with cwd := cwd' } _ _ (mkdirMode ≠ noMode) :=
        aimed_of_chdir hdir hcwd (by simpa using hlink) hskip hchdir
      obtain ⟨e', w₁, g, heq, hchanges, hready⟩ := dirchownmod_spec (w := { w with cwd := cwd' }) hmode hdir hisDir haim
      rw [hdirchownmod] at heq
      cases heq
      exact ⟨g, cwd', hchanges, fun htrue _ => hready (hok htrue)⟩

/-- Where there is no directory, nothing changes and `make_dir_parents` does not succeed. -/
theorem changeDirectory_notDir {mkdirErrno : Option Errno} (hdir : w.isDirectory = false) (hcwd : w.cwd = .here)
    (h : changeDirectory k r wd mkdirErrno mkdirMode o w = some (result, w')) :
    (result.ok = true → result.delegated = true) ∧ w'.dir = w.dir ∧ w'.moments = w.moments := by
  obtain ⟨hdelegated, rfl⟩ | ⟨res, wd', cwd', hchdir, hrest⟩ := changeDirectory_cases h
  · exact ⟨fun _ => hdelegated, rfl, rfl⟩
  · obtain ⟨hfailed, rfl⟩ | ⟨e, hdirchownmod, hok⟩ := hrest
    · exact ⟨by simp [hfailed], rfl, rfl⟩
    · have hopened : (k.answers w o.nofollow).opened.isNone = false := by
        rw [Bool.eq_false_iff]
        intro hnone
        rw [answers_opened (Option.isNone_iff_eq_none.mp hnone)] at hdir
        cases hdir
      obtain ⟨hres, rfl⟩ | ⟨-, hnone, -⟩ | ⟨-, hchanged⟩ := chdir_cases hchdir
      · rw [hopened, if_neg hres] at hdirchownmod
        obtain ⟨e', heq⟩ : ∃ e, dirchownmod k false .path mkdirMode r w = (some e, w) := dirchownmod_notDir hdir hcwd
        rw [hdirchownmod] at heq
        cases heq
        exact ⟨fun htrue => by simpa using hok htrue, rfl, rfl⟩
      · rw [hnone] at hopened
        cases hopened
      · rw [(answers_changed hchanged).2] at hdir
        cases hdir

/-- `DIR` is as it should be, unless it was there before and is to be preserved. -/
def Right (r : Request) (w w' : World) : Prop :=
  ∃ link f, w'.dir = .file link f ∧ f.isDir = true ∧
    ((∃ link f, w.dir = .file link f) ∧ r.preserveExisting = true ∨ Ready r f)

/-- The first moment of a new directory. -/
theorem mem_mkdir {m mask : ModeT} {sgid : Bool} (hi : i ∈ ModeT.bits mask)
    (hmask : mask &&& sIsgid = 0)
    (h : i ∈ ModeT.bits ((m &&& (sIsvtx ||| sIrwxugo)) ||| if sgid then sIsgid else 0)) : i ∈ ModeT.bits m := by
  rcases mem_bits_or.mp h with h | h
  · exact (mem_bits_and.mp h).1
  · split at h
    · exact absurd h (notMem_of_and_eq_zero hmask hi)
    · rw [ModeT.bits_zero] at h
      exact absurd h (Set.notMem_empty i)

/-- A new directory is safe. -/
theorem safe_mkdir {sgid : Bool} (hf : f.mode = (r.mkdirMode &&& (sIsvtx ||| sIrwxugo)) ||| if sgid then sIsgid else 0) :
    (r.keepOwner = false → ∀ i ∈ ModeT.bits (sIrwxg ||| sIrwxo), i ∉ ModeT.bits f.mode) ∧
      (r.keepSpecialModeBits = false → ∀ i ∈ ModeT.bits (sIwgrp ||| sIwoth), i ∉ ModeT.bits f.mode) := by
  have hsub (i : ℕ) (hi : i ∈ ModeT.bits (sIwgrp ||| sIwoth)) : i ∈ ModeT.bits (sIrwxg ||| sIrwxo) := by
    have hand : (sIwgrp ||| sIwoth) &&& (sIrwxg ||| sIrwxo) = sIwgrp ||| sIwoth := by decide
    rw [← hand] at hi
    exact (mem_bits_and.mp hi).2
  rw [hf]
  constructor
  · intro hkeep i hi hmem
    have hmode := mem_mkdir hi (by decide) hmem
    rw [Request.mkdirMode, hkeep, Bool.not_false, if_pos rfl] at hmode
    exact (mem_bits_diff.mp hmode).2 hi
  · intro hspecial i hi hmem
    have hmode := mem_mkdir hi (by decide) hmem
    rw [Request.mkdirMode, hspecial] at hmode
    split at hmode
    · exact (mem_bits_diff.mp hmode).2 (hsub i hi)
    · rw [Bool.not_false, if_pos rfl] at hmode
      exact (mem_bits_diff.mp hmode).2 hi

/-- What becomes of a new directory is safe. -/
theorem safe_of_between {sgid : Bool}
    (hf : f.mode = (r.mkdirMode &&& (sIsvtx ||| sIrwxugo)) ||| if sgid then sIsgid else 0) (h : Between r f g) :
    Safe r g := by
  have hgrants (mask : ModeT) (hmask : ∀ i ∈ ModeT.bits mask, i ∉ ModeT.bits f.mode)
      (hchmod : ∀ i ∈ ModeT.bits mask, i ∈ ModeT.bits chmodModeBits) : GrantsRight r mask g := by
    intro i hi hmem
    rcases h.2 with hsub | ⟨hready, hown⟩
    · exact absurd (hsub hmem) (hmask i hi)
    · by_cases hbits : i ∈ ModeT.bits r.modeBits
      · exact ⟨(hready.agrees i hbits (hchmod i hi)).mp hmem, hready⟩
      · exact absurd (hown i hmem hbits) (hmask i hi)
  have hchmod (mask : ModeT) (hand : mask &&& chmodModeBits = mask) (i : ℕ) (hi : i ∈ ModeT.bits mask) :
      i ∈ ModeT.bits chmodModeBits := by
    rw [← hand] at hi
    exact (mem_bits_and.mp hi).2
  obtain ⟨howner, hspecial⟩ := safe_mkdir hf
  exact ⟨fun hkeep => hgrants _ (howner hkeep) (hchmod _ (by decide)),
    fun hkeep => hgrants _ (hspecial hkeep) (hchmod _ (by decide))⟩

/-- A directory that keeps its owner and has no special bits is ready when it is made. -/
theorem ready_mkdir {sgid : Bool} (howner : r.keepOwner = true) (hspecial : r.keepSpecialModeBits = true)
    (hf : f.mode = (r.mkdirMode &&& (sIsvtx ||| sIrwxugo)) ||| if sgid then sIsgid else 0) : Ready r f := by
  have hmode : r.mkdirMode = r.mode := by rw [Request.mkdirMode, howner, hspecial]; rfl
  simp only [Request.keepOwner, Bool.and_eq_true, decide_eq_true_eq] at howner
  simp only [Request.keepSpecialModeBits, decide_eq_true_eq] at hspecial
  refine ⟨⟨fun hne => absurd howner.1 hne, fun hne => absurd howner.2 hne⟩, fun i hi hchmod => ?_⟩
  have hids : i ∉ ModeT.bits (sIsuid ||| sIsgid) := fun hmem => by
    have hany : i ∈ ModeT.bits ((r.modeBits &&& (sIsuid ||| sIsgid)) ||| (r.mode &&& sIsvtx)) :=
      mem_bits_or.mpr (.inl (mem_bits_and.mpr ⟨hi, hmem⟩))
    rw [hspecial, ModeT.bits_zero] at hany
    exact hany
  have hrest : i ∈ ModeT.bits (sIsvtx ||| sIrwxugo) := by
    rw [show chmodModeBits = (sIsuid ||| sIsgid) ||| (sIsvtx ||| sIrwxugo) by decide, mem_bits_or] at hchmod
    exact hchmod.resolve_left hids
  have hsgid : i ∉ ModeT.bits (if sgid then sIsgid else 0) := by
    split
    · exact fun hmem => hids (mem_bits_or.mpr (.inr hmem))
    · rw [ModeT.bits_zero]
      exact Set.notMem_empty i
  rw [hf, hmode, mem_bits_or, mem_bits_and]
  exact ⟨fun h => (h.resolve_right hsgid).1, fun h => .inl ⟨h, hrest⟩⟩

/-- What holds of a run from `w` to `w'`. -/
def Made (r : Request) (w : World) (result : Result) (w' : World) : Prop :=
  (result.ok = true → result.delegated = false → Right r w w') ∧
    (w.dir = .absent → ∀ s ∈ w'.moments, ∃ link f, s = .file link f ∧ Safe r f)

/-- A run that leaves `DIR` alone. -/
theorem made_same {dir : Situation} {here : File} (hok : result.ok = true → result.delegated = false → Right r (.start dir here) w')
    (hmoments : w'.moments = []) : Made r (.start dir here) result w' :=
  ⟨hok, fun _ s hs => by rw [hmoments] at hs; cases hs⟩

/-- `DIR` is new. -/
theorem makeDir_new (hmode : ModeT.bits r.mode ⊆ ModeT.bits r.modeBits) {here : File} (hmkdir : k.mkdir = none)
    (h : makeDir k r wd (.start .absent here) = some (result, w')) : Made r (.start .absent here) result w' := by
  let new : File :=
    ⟨true, (r.mkdirMode &&& (sIsvtx ||| sIrwxugo)) ||| if k.inherits then sIsgid else 0, k.newUid, k.newGid⟩
  have hw : World.mkdir k r.mkdirMode (.start .absent here) = (none, (World.start .absent here).setDir (.file false new)) := by
    simp only [World.mkdir, World.start, hmkdir, new]
  rw [makeDir, hw] at h
  dsimp only at h
  split at h
  · next hkeep =>
    -- the umask is zero: `mkdir` has set the whole mode
    rw [Bool.and_eq_true] at hkeep
    cases h
    refine ⟨fun _ _ => ⟨false, new, rfl, rfl, .inr (ready_mkdir hkeep.1 hkeep.2 rfl)⟩, fun _ s hs => ?_⟩
    rw [List.mem_singleton.mp hs]
    exact ⟨false, new, rfl, safe_of_between rfl ⟨rfl, .inl (fun _ hi => hi)⟩⟩
  · have hdir : ((World.start .absent here).setDir (.file false new)).dir = .file false new := rfl
    obtain ⟨g, cwd, hchanges, hready⟩ := changeDirectory_spec hmode hdir rfl rfl (fun _ => rfl) rfl h
    refine ⟨fun hok hhere => ?_, fun _ s hs => ?_⟩
    · obtain ⟨hr, hdir⟩ := hready hok hhere
      exact ⟨false, g, hchanges.dir, hdir, .inr hr⟩
    · obtain ⟨l, hl, hall⟩ := hchanges.moments
      rw [hl] at hs
      rcases List.mem_append.mp hs with hs | hs
      · rw [List.mem_singleton.mp hs]
        exact ⟨false, new, rfl, safe_of_between rfl ⟨rfl, .inl (fun _ hi => hi)⟩⟩
      · obtain ⟨f, rfl, hf⟩ := hall s hs
        exact ⟨false, f, rfl, safe_of_between rfl hf⟩

/-- `stat` of a name tells what is there. -/
theorem stat_path {dir : Situation} {here : File} (h : (World.start dir here).stat k false .path = .ok f) :
    ∃ link, dir = .file link f := by
  have htarget : (World.start dir here).target false .path false = some .dir := by
    simp only [World.target, World.start, Bool.false_eq_true, if_false]
    split <;> rfl
  simp only [World.stat, htarget, Option.bind_some] at h
  simp only [World.get, World.start] at h
  cases dir with
  | absent => cases h
  | dangling => cases h
  | file link f' =>
    cases hstat : k.stat with
    | none =>
      rw [hstat] at h
      cases h
      exact ⟨link, rfl⟩
    | some e =>
      rw [hstat] at h
      cases h

/-- A directory that is preserved. -/
theorem preserve_some {dir : Situation} {here : File} {e : Errno}
    (h : preserve k r (some e) (.start dir here) = (result, w')) :
    (result.ok = true → ∃ link f, dir = .file link f ∧ f.isDir = true) ∧ w' = .start dir here := by
  cases hstat : (World.start dir here).stat k false .path with
  | error e' =>
    simp only [preserve, hstat, Bool.and_false, Bool.false_eq_true, if_false] at h
    cases h
    exact ⟨by simp, rfl⟩
  | ok f =>
    simp only [preserve, hstat] at h
    obtain ⟨link, rfl⟩ := stat_path hstat
    split at h
    · next hisDir =>
      cases h
      exact ⟨fun _ => ⟨link, f, rfl, (Bool.and_eq_true_iff.mp hisDir).2⟩, rfl⟩
    · cases h
      exact ⟨by simp, rfl⟩

/-- `mkdir` fails. -/
theorem makeDir_old (hmode : ModeT.bits r.mode ⊆ ModeT.bits r.modeBits) {dir : Situation} {here : File} {e : Errno}
    (hmkdir : World.mkdir k r.mkdirMode (.start dir here) = (some e, .start dir here))
    (h : makeDir k r wd (.start dir here) = some (result, w')) : Made r (.start dir here) result w' := by
  rw [makeDir, hmkdir] at h
  dsimp only at h
  split at h
  · next hpreserve =>
    obtain ⟨hok, hsame⟩ := preserve_some (Option.some.inj h)
    rw [hsame]
    refine made_same (fun htrue _ => ?_) rfl
    obtain ⟨link, f, hdir, hisDir⟩ := hok htrue
    exact ⟨link, f, hdir, hisDir, .inl ⟨⟨link, f, hdir⟩, hpreserve⟩⟩
  · cases hdir : (World.start dir here).isDirectory with
    | false =>
      obtain ⟨hok, -, hmoments⟩ := changeDirectory_notDir hdir rfl h
      exact made_same (fun htrue hhere => absurd (hok htrue) (by rw [hhere]; decide)) hmoments
    | true =>
      simp only [World.isDirectory, World.start] at hdir
      split at hdir
      · next link f =>
        have hfile : (World.start (.file link f) here).dir = .file link f := rfl
        obtain ⟨g, cwd, hchanges, hready⟩ :=
          changeDirectory_spec hmode hfile hdir rfl (fun hne => absurd rfl hne) rfl h
        refine ⟨fun hok hhere => ?_, fun habsent => by cases habsent⟩
        obtain ⟨hr, hisDir⟩ := hready hok hhere
        exact ⟨link, g, hchanges.dir, hisDir, .inr hr⟩
      · cases hdir

theorem makeDir_made (hmode : ModeT.bits r.mode ⊆ ModeT.bits r.modeBits) {dir : Situation} {here : File}
    (h : makeDir k r wd (.start dir here) = some (result, w')) : Made r (.start dir here) result w' := by
  cases dir with
  | absent =>
    cases hmkdir : k.mkdir with
    | none => exact makeDir_new hmode hmkdir h
    | some e => exact makeDir_old hmode (e := e) (by simp only [World.mkdir, World.start, hmkdir]) h
  | dangling => exact makeDir_old hmode (e := k.mkdir.getD eexist) rfl h
  | file link f => exact makeDir_old hmode (e := k.mkdir.getD eexist) rfl h

/-- When `make_dir_parents` returns true and no child does the work, `DIR` is a directory with the requested owner, group
and mode, unless it was there before and is to be preserved; and while a new `DIR` is made, it grants no permission too
early. -/
theorem makeDirParents_right (k : Kernel) (r : Request) (absolute : Bool) (wd : Savewd Place) (dir : Situation) (here : File)
    (result : Result) (w' : World) (hmode : ModeT.bits r.mode ⊆ ModeT.bits r.modeBits)
    (h : makeDirParents k r absolute wd (.start dir here) = some (result, w')) :
    (result.ok = true → result.delegated = false →
      ∃ link f, w'.dir = .file link f ∧ f.isDir = true ∧
        ((∃ link f, dir = .file link f) ∧ r.preserveExisting = true ∨ Ready r f)) ∧
      (dir = .absent → ∀ s ∈ w'.moments, ∃ link f, s = .file link f ∧ Safe r f) := by
  change Made r (.start dir here) result w'
  have hfailed {e : Errno} (h : some ((⟨false, false, false, some (.cannotCreate (some e))⟩ : Result), World.start dir here) =
      some (result, w')) : Made r (.start dir here) result w' := by
    cases h
    exact made_same (by simp) rfl
  simp only [makeDirParents] at h
  split at h
  · exact hfailed h
  · split at h
    · split at h
      · cases h
        exact made_same (by simp) rfl
      · exact hfailed h
      · exact makeDir_made hmode h
    · exact makeDir_made hmode h

/-- A directory of another owner, with the bit `S_ISGID`, that it inherits and `chown` clears. -/
theorem makeDirParents_setgid :
    let answers : Answers Place := ⟨none, none, .error .eacces, .ok .dir, none, 0⟩
    let k : Kernel := ⟨false, .failed enotdir, none, 0, 0, true, answers, none, none, 0o6000, none, none⟩
    let r : Request := ⟨false, 0o2755, 0o7777, 7, Chown.noId, false⟩
    ∃ w', makeDirParents k r false .initial (.start .absent ⟨true, 0o755, 0, 0⟩) = some (⟨true, false, true, none⟩, w') ∧
      ∃ f, w'.dir = .file false f ∧ f.mode = 0o2755 ∧ Ready r f := by
  intro answers k r
  have hmode : ModeT.bits r.mode ⊆ ModeT.bits r.modeBits := fun i hi => by
    rw [show r.mode = r.mode &&& r.modeBits by decide] at hi
    exact (mem_bits_and.mp hi).2
  let here : File := ⟨true, 0o755, 0, 0⟩
  let w' : World := ⟨.file false ⟨true, 0o2755, 7, 0⟩, here, .dir,
    [.file false ⟨true, 0o2700, 0, 0⟩, .file false ⟨true, 0o700, 7, 0⟩, .file false ⟨true, 0o2755, 7, 0⟩]⟩
  have hrun : makeDirParents k r false .initial (.start .absent here) = some (⟨true, false, true, none⟩, w') := by decide
  obtain ⟨link, f, hdir, -, hpreserve | hready⟩ :=
    (makeDirParents_right k r false .initial .absent here _ w' hmode hrun).1 rfl rfl
  · exact absurd hpreserve.2 (by decide)
  · cases hdir
    exact ⟨w', hrun, _, rfl, rfl, hready⟩

end CodingExercises.Coreutils.MkdirP
