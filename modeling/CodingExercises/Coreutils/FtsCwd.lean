import CodingExercises.Coreutils.FtsRoots

/-!
# fts: the virtual working directory

Walks with `FTS_CWDFD`. The directory of `fts_cwd_fd` is to be the one that contains the entry that is returned (`Contains`).

`fts_build` goes back from every directory that it has read, not only from one without entries, since the test of `type` is
an assignment; and `fts_safe_changedir` takes no descriptor from the ring, since it compares with the empty string for `..`.
So entries below root level are returned with the right directory only where going back is right, which it is for a root that
is the initial working directory; and in runs that read no entries of any other directory, the directory is always right
(`run_right`).
-/

namespace CodingExercises.Coreutils.Fts

open Lib

variable {ι : Type} {env : Env ι}

/-! ## Descriptors -/

/-- The descriptors in a ring are open, different from each other and from `fts_cwd_fd`. -/
structure RingOk (data : Fin 4 → ℤ) (fds : List ℤ) (cwdFd : ℤ) : Prop where
  opened : ∀ k, 0 ≤ data k → data k ∈ fds
  other : ∀ k, 0 ≤ data k → data k ≠ cwdFd
  distinct : ∀ j k, 0 ≤ data j → data j = data k → j = k

/-- A descriptor in the ring is replaced, and closed. -/
theorem RingOk.update {data : Fin 4 → ℤ} {fds fds' : List ℤ} {cwdFd cwdFd' : ℤ} (h : RingOk data fds cwdFd) {k : Fin 4}
    {v : ℤ} (hfds : ∀ fd ∈ fds, fd ≠ data k → fd ∈ fds') (hcwd : ∀ j, 0 ≤ data j → data j ≠ cwdFd')
    (hv : 0 ≤ v → v ∈ fds' ∧ v ≠ cwdFd' ∧ ∀ j, data j ≠ v) : RingOk (Function.update data k v) fds' cwdFd' := by
  constructor
  · intro j hj
    by_cases hjk : j = k
    · subst hjk
      rw [Function.update_self] at hj ⊢
      exact (hv hj).1
    · rw [Function.update_of_ne hjk] at hj ⊢
      exact hfds _ (h.opened j hj) fun heq => hjk (h.distinct j k hj heq)
  · intro j hj
    by_cases hjk : j = k
    · subst hjk
      rw [Function.update_self] at hj ⊢
      exact (hv hj).2.1
    · rw [Function.update_of_ne hjk] at hj ⊢
      exact hcwd j hj
  · intro i j hi hij
    by_cases hik : i = k <;> by_cases hjk : j = k
    · rw [hik, hjk]
    · subst hik
      rw [Function.update_self] at hi hij
      rw [Function.update_of_ne hjk] at hij
      exact absurd hij.symm ((hv hi).2.2 j)
    · subst hjk
      rw [Function.update_of_ne hik] at hi hij
      rw [Function.update_self] at hij
      exact absurd hij ((hv (hij ▸ hi)).2.2 i)
    · rw [Function.update_of_ne hik] at hi hij
      rw [Function.update_of_ne hjk] at hij
      exact h.distinct i j hi hij

/-- The working directory is `d`, the ring is in order, and nothing has been taken from it by `fts_safe_changedir`. -/
structure VwdAt (env : Env ι) (d : ι) (w : Vwd ι) : Prop where
  here : w.dirOf env w.cwdFd = some d
  ring : RingOk w.ring.data (w.fds.map Prod.fst) w.cwdFd
  popped : w.popped = []

theorem find?_filter_ne {l : List (ℤ × ι)} {x y : ℤ} (h : x ≠ y) :
    (l.filter (·.1 ≠ x)).find? (·.1 = y) = l.find? (·.1 = y) := by
  rw [List.find?_filter]
  congr 1
  funext a
  by_cases ha : a.1 = y
  · simp [ha, Ne.symm h]
  · simp [ha]

/-- A descriptor is closed; the others are not. -/
theorem dirOf_close {w : Vwd ι} {x y : ℤ} (h : x ≠ y) : (w.close x).dirOf env y = w.dirOf env y := by
  unfold Vwd.dirOf Vwd.close
  rw [find?_filter_ne h]

theorem mem_close {w : Vwd ι} {x y : ℤ} (h : x ≠ y) (hy : y ∈ w.fds.map Prod.fst) : y ∈ (w.close x).fds.map Prod.fst := by
  obtain ⟨a, ha, rfl⟩ := List.mem_map.mp hy
  exact List.mem_map_of_mem (List.mem_filter.mpr ⟨ha, by simpa using Ne.symm h⟩)

theorem VwdAt.cwd_open {d : ι} {w : Vwd ι} (h : VwdAt env d w) : w.cwdFd = atFdcwd ∨ w.cwdFd ∈ w.fds.map Prod.fst := by
  have hhere := h.here
  unfold Vwd.dirOf at hhere
  split at hhere
  · exact .inl ‹_›
  · right
    obtain ⟨a, ha, -⟩ := Option.map_eq_some_iff.mp hhere
    have hmem := List.mem_of_find?_eq_some ha
    have heq : a.1 = w.cwdFd := by simpa using List.find?_some ha
    rw [← heq]
    exact List.mem_map_of_mem hmem

/-- One turn of clearing the ring. -/
theorem VwdAt.clearOne {d : ι} {w : Vwd ι} (h : VwdAt env d w) : VwdAt env d (fdRingClearOne w) := by
  unfold fdRingClearOne iRingPop
  by_cases hempty : w.ring.empty = true
  · simpa [hempty] using h
  · have hneg : ∀ {fds : List ℤ}, 0 ≤ (-1 : ℤ) → -1 ∈ fds ∧ -1 ≠ w.cwdFd ∧ ∀ j, w.ring.data j ≠ -1 :=
      fun h => absurd h (by decide)
    simp only [hempty]
    by_cases hfd : 0 ≤ w.ring.data w.ring.front
    · have hne := h.ring.other _ hfd
      rw [if_neg (by decide)]
      simp only [ge_iff_le, hfd, if_true]
      refine ⟨?_, ?_, h.popped⟩
      · exact (dirOf_close hne).trans h.here
      · exact h.ring.update (fun fd hopen hother => mem_close (Ne.symm hother) hopen) h.ring.other hneg
    · rw [if_neg (by decide)]
      simp only [ge_iff_le, hfd, if_false]
      exact ⟨h.here, h.ring.update (fun fd hopen _ => hopen) h.ring.other hneg, h.popped⟩

theorem VwdAt.clear {d : ι} {w : Vwd ι} (h : VwdAt env d w) : VwdAt env d (fdRingClear w) :=
  h.clearOne.clearOne.clearOne.clearOne

/-- A push replaces a descriptor in the ring. -/
theorem iRingPush_spec (ir : IRing) (val : ℤ) :
    ∃ k ir', iRingPush ir val = (ir.data k, ir') ∧ ir'.data = Function.update ir.data k val := ⟨_, _, rfl, rfl⟩

/-- The working directory is changed to that of a descriptor that is not in use for it, and the one before is put into the
ring. -/
theorem VwdAt.advance {d d' : ι} {w : Vwd ι} (h : VwdAt env d w) {fd : ℤ} (hfd : fd ≠ w.cwdFd ∨ fd = atFdcwd)
    (hdir : w.dirOf env fd = some d') (hring : ∀ k, 0 ≤ w.ring.data k → w.ring.data k ≠ fd) :
    ∃ w', cwdAdvancedFd env w fd true = some w' ∧ VwdAt env d' w' := by
  have hold : 0 ≤ w.cwdFd → w.cwdFd ∈ w.fds.map Prod.fst ∧ w.cwdFd ≠ fd ∧ ∀ j, w.ring.data j ≠ w.cwdFd := by
    intro hold
    refine ⟨h.cwd_open.resolve_left ?_, ?_, ?_⟩
    · rintro heq
      rw [heq] at hold
      exact absurd hold (by decide)
    · rintro rfl
      obtain hne | heq := hfd
      · exact hne rfl
      · rw [heq] at hold
        exact absurd hold (by decide)
    · intro j heq
      exact h.ring.other j (heq ▸ hold) heq
  have hassert : w.cwdFd ≠ fd ∨ w.cwdFd = atFdcwd := by
    by_cases heq : w.cwdFd = fd
    · obtain hne | hat := hfd
      · exact absurd heq.symm hne
      · exact .inr (heq.trans hat)
    · exact .inl heq
  obtain ⟨dest, ring, hpush, hdata⟩ := iRingPush_spec w.ring w.cwdFd
  simp only [cwdAdvancedFd, hpush, if_true, not_not_intro hassert, if_false]
  by_cases hprev : 0 ≤ w.ring.data dest
  · simp only [ge_iff_le, hprev, if_true]
    have hne := hring dest hprev
    refine ⟨_, rfl, (dirOf_close hne).trans hdir, ?_, h.popped⟩
    dsimp only [Vwd.close]
    rw [hdata]
    apply h.ring.update
    · exact fun x hopen hother => mem_close (Ne.symm hother) hopen
    · exact hring
    · intro hpos
      obtain ⟨hopen, hnew, hdata⟩ := hold hpos
      exact ⟨mem_close (hdata dest) hopen, hnew, hdata⟩
  · simp only [ge_iff_le, hprev, if_false]
    refine ⟨_, rfl, hdir, ?_, h.popped⟩
    dsimp only
    rw [hdata]
    exact h.ring.update (fun x hopen _ => hopen) hring hold

/-- Back to the initial working directory. -/
theorem VwdAt.restore {d : ι} {w : Vwd ι} (h : VwdAt env d w) (hopt : env.options = .cwdfd) :
    ∃ w', restoreInitialCwd env w = some w' ∧ VwdAt env env.fs.cwd w' := by
  have hnochdir : env.options.isNochdir = false := by rw [hopt]; rfl
  have hneg : ∀ x : ℤ, 0 ≤ x → x ≠ atFdcwd := by
    rintro x hx rfl
    exact absurd hx (by decide)
  unfold restoreInitialCwd
  simp only [hnochdir, Bool.false_eq_true, if_false]
  exact h.clear.advance (.inr rfl) (if_pos rfl) fun k hk => hneg _ hk

/-- A new descriptor of a directory, and the working directory changed to it. -/
theorem VwdAt.descend {d : ι} {w : Vwd ι} (h : VwdAt env d w) (i : ι) :
    ∃ w', cwdAdvancedFd env (w.newFd env i).2 (w.newFd env i).1 true = some w' ∧ VwdAt env i w' := by
  have hfresh := env.newFd_fresh (w.fds.map Prod.fst)
  have hnonneg := env.newFd_nonneg (w.fds.map Prod.fst)
  generalize hfd : env.newFd (w.fds.map Prod.fst) = fd at hfresh hnonneg
  have hnew : w.newFd env i = (fd, { w with fds := (fd, i) :: w.fds }) := by rw [Vwd.newFd, hfd]
  have hcwd : fd ≠ w.cwdFd := by
    rintro rfl
    obtain heq | hmem := h.cwd_open
    · rw [heq] at hnonneg
      exact absurd hnonneg (by decide)
    · exact hfresh hmem
  have hat : VwdAt env d { w with fds := (fd, i) :: w.fds } := by
    refine ⟨?_, ⟨fun k hk => List.mem_cons_of_mem _ (h.ring.opened k hk), h.ring.other, h.ring.distinct⟩, h.popped⟩
    have hhere := h.here
    unfold Vwd.dirOf at hhere ⊢
    rwa [List.find?_cons_of_neg (by simpa using hcwd)]
  rw [hnew]
  apply hat.advance (.inl hcwd)
  · have hnot : fd ≠ atFdcwd := by
      rintro rfl
      exact absurd hnonneg (by decide)
    simp [Vwd.dirOf, hnot]
  · intro k hk heq
    have hopen := h.ring.opened k hk
    rw [heq] at hopen
    exact hfresh hopen

/-! ## What is to hold -/

/-- The entry at hand is below root level, then `fts_cwd_fd` is an open descriptor of the directory that contains it, the one
that the `fts_path` of its parent leads to, and `fts_accpath` is its name there. -/
def Contains (env : Env ι) (s : FTS ι) : Prop :=
  ∀ p link parent above, s.cur = ⟨p, link⟩ :: parent :: above → 0 < p.level →
    ∃ i d, env.fs.lookup env.fs.cwd (s.path.take parent.entry.pathlen) = .ok i ∧ env.fs.follow i = .ok d ∧
      s.vwd.dirOf env s.vwd.cwdFd = some d ∧ p.access s.path = some p.name

/-- Every descriptor that `fts_safe_changedir` has popped is that of the parent of the directory that is left. -/
def PoppedParents (env : Env ι) (w : Vwd ι) : Prop :=
  ∀ e ∈ w.popped, ∃ d d', e = (some d, some d') ∧ env.fs.lookup d [46, 46] = .ok d'

/-- If `p` is a directory with entries for `fts_build` to read, it is a root that is the initial working directory. -/
def ReadsHomeAt (env : Env ι) (s : FTS ι) (p : FTSENT) : Prop :=
  ∀ accpath dir dirents dp, p.access s.path = some accpath → opendir env s.vwd accpath = .ok (dir, dirents) →
    dp ∈ dirents → listed env dp = true → p.level = 0 ∧ dir = env.fs.cwd

/-- If the next call of `fts_read` reads a directory with entries, it is a root that is the initial working directory. -/
def ReadsHome (env : Env ι) (s : FTS ι) : Prop :=
  ∀ p link above, s.cur = ⟨p, link⟩ :: above → s.stop = false → p.info = .d → p.instr ≠ .skip → ReadsHomeAt env s p

/-- Calls of `fts_read` after `fts_open`, each in a state of which `ok` holds, with `FTS_SKIP` set for the current node at
will, and what the last one has returned. -/
inductive Run (env : Env ι) (ok : FTS ι → Prop) (argv : List Path) : Option FTSENT → FTS ι → Prop
  | start {s : FTS ι} : ftsOpen env argv = some s → Run env ok argv none s
  | skip {r : Option FTSENT} {s : FTS ι} : Run env ok argv r s → Run env ok argv none (ftsSet s .skip)
  | read {r r' : Option FTSENT} {s s' : FTS ι} : Run env ok argv r s → ok s → ftsRead env s = some (r', s') →
      Run env ok argv r' s'

/-- What is known of file systems: the names in a directory are names, and `..` in a directory is the one it is in. -/
structure FileSys.Lawful (fs : FileSys ι) : Prop where
  plain : ∀ d l dp, fs.readdir d = .ok l → dp ∈ l → dp.name ≠ [] ∧ slash ∉ dp.name
  dotdot : ∀ d n i, n ≠ [] → slash ∉ n → isDot n = false → fs.lookup d n = .ok i → fs.kind i = .dir →
    fs.lookup i [46, 46] = .ok d

/-! ## Entries -/

section Entries

variable {w : Vwd ι} {d : ι}

theorem VwdAt.lookup (h : VwdAt env d w) (path : Path) : w.lookup env path = env.fs.lookup d path := by
  simp only [Vwd.lookup, h.here]

/-- An entry of the directory `d`, in the list that `fts_build` makes. -/
structure EntryOf (env : Env ι) (d : ι) (level : ℤ) (q : FTSENT) : Prop where
  level : q.level = level
  accpath : q.accpath = .name
  plain : q.name ≠ [] ∧ slash ∉ q.name ∧ isDot q.name = false
  dir : q.info = .d → ∃ i, env.fs.lookup d q.name = .ok i ∧ env.fs.kind i = .dir

/-- What `fts_stat` leaves as it is. -/
structure SameEntry (q q' : FTSENT) : Prop where
  level : q'.level = q.level
  accpath : q'.accpath = q.accpath
  name : q'.name = q.name
  pathlen : q'.pathlen = q.pathlen

theorem ftsStat_spec (h : VwdAt env d w) {path : List Byte} {q q' : FTSENT} {a : Path} (ha : q.access path = some a)
    (hstat : ftsStat env w path q = some q') :
    SameEntry q q' ∧ (q'.info = .d → ∃ i, env.fs.lookup d a = .ok i ∧ env.fs.kind i = .dir) := by
  simp only [ftsStat, ha, h.lookup, Option.bind_eq_bind, Option.bind_some] at hstat
  cases hlookup : env.fs.lookup d a with
  | error e =>
    rw [hlookup] at hstat
    cases hstat
    exact ⟨⟨rfl, rfl, rfl, rfl⟩, fun h => by cases h⟩
  | ok i =>
    rw [hlookup] at hstat
    cases hkind : env.fs.kind i <;> simp only [hkind] at hstat
    case dir =>
      have hdir : ∃ j, Except.ok (ε := Errno) i = .ok j ∧ env.fs.kind j = .dir := ⟨i, rfl, hkind⟩
      split at hstat <;> cases hstat
      · exact ⟨⟨rfl, rfl, rfl, rfl⟩, fun h => by cases h⟩
      · exact ⟨⟨rfl, rfl, rfl, rfl⟩, fun _ => hdir⟩
    all_goals
      cases hstat
      exact ⟨⟨rfl, rfl, rfl, rfl⟩, fun h => by cases h⟩

theorem ftsStat_some {path : List Byte} {q : FTSENT} {a : Path} (ha : q.access path = some a) :
    ∃ q', ftsStat env w path q = some q' := by
  simp only [ftsStat, ha, Option.bind_eq_bind, Option.bind_some]
  split
  · exact ⟨_, rfl⟩
  · split
    · split <;> exact ⟨_, rfl⟩
    all_goals exact ⟨_, rfl⟩

theorem prefix_ftsPalloc (path : List Byte) (more : ℕ) : path <+: (ftsPalloc env path more).1 := by
  unfold ftsPalloc
  exact ⟨_, rfl⟩

/-- An entry is built; the buffer may grow. -/
theorem ftsBuildEntry_spec (hopt : env.options = .cwdfd) (h : VwdAt env d w) {level : ℤ} {len : ℕ}
    {path path' : List Byte} {dp : Dirent} {q : FTSENT} (hplain : dp.name ≠ [] ∧ slash ∉ dp.name)
    (hlisted : listed env dp = true) (hrun : ftsBuildEntry env w level len path dp = some (path', q)) :
    path <+: path' ∧ EntryOf env d level q := by
  have hdot : isDot dp.name = false := by simpa [listed, hopt, Options.seedot] using hlisted
  have hpath : path <+: (if dp.name.length ≥ path.length - len then ftsPalloc env path (dp.name.length + len + 1)
      else (path, false)).1 := by
    split
    · exact prefix_ftsPalloc path _
    · exact List.prefix_refl path
  simp only [ftsBuildEntry, hopt, Options.isNochdir, Bool.false_eq_true, if_false, Option.bind_eq_bind,
    Option.bind_some] at hrun
  cases hcompar : env.compar with
  | none =>
    simp only [hcompar, Option.some.injEq, Prod.mk.injEq] at hrun
    obtain ⟨rfl, rfl⟩ := hrun
    exact ⟨hpath, rfl, rfl, ⟨hplain.1, hplain.2, hdot⟩, nofun⟩
  | some compar =>
    simp only [hcompar, Option.bind_eq_some_iff, Option.some.injEq, Prod.mk.injEq] at hrun
    obtain ⟨q', hstat, rfl, rfl⟩ := hrun
    obtain ⟨hsame, hdir⟩ := ftsStat_spec h rfl hstat
    have hname : q'.name = dp.name := hsame.name
    refine ⟨hpath, hsame.level, hsame.accpath, ?_, ?_⟩
    · rw [hname]
      exact ⟨hplain.1, hplain.2, hdot⟩
    · rw [hname]
      exact hdir

theorem ftsBuildLoop_spec (hopt : env.options = .cwdfd) (h : VwdAt env d w) {level : ℤ} {len : ℕ} {dps : List Dirent}
    (hplain : ∀ dp ∈ dps, dp.name ≠ [] ∧ slash ∉ dp.name) {path path' : List Byte} {head : List FTSENT}
    (hrun : ftsBuildLoop env w level len path dps = some (path', head)) :
    path <+: path' ∧ (∀ q ∈ head, EntryOf env d level q) ∧ (head ≠ [] → ∃ dp ∈ dps, listed env dp = true) := by
  induction dps generalizing path path' head with
  | nil =>
    cases hrun
    exact ⟨List.prefix_refl _, fun q hq => absurd hq List.not_mem_nil, fun h => absurd rfl h⟩
  | cons dp dps ih =>
    rw [List.forall_mem_cons] at hplain
    have hskip : (!env.options.seedot ∧ isDot dp.name) ↔ ¬ listed env dp = true := by
      simp [listed]
    rw [ftsBuildLoop] at hrun
    simp only [Bool.not_eq_true'] at hrun
    split at hrun
    · obtain ⟨hpath, hentries, hsome⟩ := ih hplain.2 hrun
      refine ⟨hpath, hentries, ?_⟩
      intro hne
      obtain ⟨dp', hmem, hlisted⟩ := hsome hne
      exact ⟨dp', List.mem_cons_of_mem _ hmem, hlisted⟩
    · rename_i hnot
      have hlisted : listed env dp = true := by
        by_contra hl
        exact hnot (by simpa using hskip.mpr hl)
      simp only [Option.bind_eq_bind, Option.bind_eq_some_iff, Option.some.injEq, Prod.mk.injEq, Prod.exists] at hrun
      obtain ⟨path₁, q, hentry, path₂, rest, hloop, rfl, rfl⟩ := hrun
      obtain ⟨hpath₁, hq⟩ := ftsBuildEntry_spec hopt h hplain.1 hlisted hentry
      obtain ⟨hpath₂, hrest, -⟩ := ih hplain.2 hloop
      refine ⟨hpath₁.trans hpath₂, ?_, fun _ => ⟨dp, List.mem_cons_self, hlisted⟩⟩
      rw [List.forall_mem_cons]
      exact ⟨hq, hrest⟩

/-- The entries are put in another order. -/
theorem ftsBuildSort_perm (env : Env ι) (w : Vwd ι) (head : List FTSENT) : (ftsBuildSort env w head).Perm head := by
  obtain ⟨head', hhead'⟩ : ∃ head', head' = if head.length > 10000 ∧ env.compar.isNone ∧ !env.options.isNochdir
      ∧ (w.dirOf env w.cwdFd).all env.inodeSortUseful then ftsSort env ftsCompareIno head else head := ⟨_, rfl⟩
  have hino : head'.Perm head := by
    rw [hhead']
    split
    · exact env.qsort_perm _ _
    · exact .refl head
  unfold ftsBuildSort
  rw [← hhead']
  dsimp only
  split
  · split
    · exact (env.qsort_perm _ _).trans hino
    · exact hino
  · exact hino

end Entries

/-! ## Changing the directory -/

section Changedir

variable {w w' : Vwd ι} {d : ι}

/-- With a descriptor, it is changed to. -/
theorem ftsSafeChangedir_fd (hopt : env.options = .cwdfd) {fd : ℤ} (hfd : 0 ≤ fd) :
    ftsSafeChangedir env w fd none = (cwdAdvancedFd env w fd true).bind fun w => some (none, w) := by
  have hneg : ¬ fd < 0 := Int.not_lt.mpr hfd
  simp [ftsSafeChangedir, hopt, Options.isNochdir, hneg]

/-- `..` is opened, or there is an error. -/
theorem diropen_dotdot (h : VwdAt env d w) :
    (∃ e, diropen env w [46, 46] = .error e) ∨
      ∃ i, env.fs.lookup d [46, 46] = .ok i ∧ diropen env w [46, 46] = .ok (w.newFd env i) := by
  unfold diropen
  rw [h.lookup]
  cases hlookup : env.fs.lookup d [46, 46] with
  | error e => exact .inl ⟨e, rfl⟩
  | ok i =>
    dsimp only
    split
    · exact .inl ⟨_, rfl⟩
    · cases env.fs.readdir i with
      | error e => exact .inl ⟨e, rfl⟩
      | ok l => exact .inr ⟨i, rfl, rfl⟩

/-- Without one, `..` is opened, and the ring is not looked at. -/
theorem ftsSafeChangedir_dotdot (hopt : env.options = .cwdfd) (h : VwdAt env d w) {err : Option Errno}
    (hrun : ftsSafeChangedir env w (-1) (some [46, 46]) = some (err, w')) :
    (err.isSome = true ∧ w'.popped = []) ∨ err = none ∧ ∃ i, env.fs.lookup d [46, 46] = .ok i ∧ VwdAt env i w' := by
  obtain ⟨e, hopen⟩ | ⟨i, hlookup, hopen⟩ := diropen_dotdot h
  · simp [ftsSafeChangedir, hopt, Options.isNochdir, hopen] at hrun
    obtain ⟨rfl, rfl⟩ := hrun
    exact .inl ⟨rfl, h.popped⟩
  · obtain ⟨w₁, hadvance, hat⟩ := h.descend i
    simp [ftsSafeChangedir, hopt, Options.isNochdir, hopen, hadvance] at hrun
    obtain ⟨rfl, rfl⟩ := hrun
    exact .inr ⟨rfl, i, hlookup, hat⟩

theorem opendir_spec (h : VwdAt env d w) {file : Path} {dir : ι} {dirents : List Dirent}
    (hrun : opendir env w file = .ok (dir, dirents)) :
    ∃ i, env.fs.lookup d file = .ok i ∧ env.fs.follow i = .ok dir ∧ env.fs.kind dir = .dir ∧
      env.fs.readdir dir = .ok dirents := by
  simp only [opendir, h.lookup] at hrun
  split at hrun
  · cases hrun
  · rename_i i hlookup
    split at hrun
    · cases hrun
    · rename_i j hfollow
      split at hrun
      · cases hrun
      · rename_i hkind
        split at hrun
        · cases hrun
        · rename_i l hreaddir
          cases hrun
          exact ⟨i, hlookup, hfollow, not_not.mp hkind, hreaddir⟩

end Changedir

/-! ## Reading a directory -/

/-- What `fts_build` leaves: it has failed to go back, or the working directory is the initial one; and there are entries
only of the initial one, when it is a root. -/
structure Built (env : Env ι) (s s' : FTS ι) (p p' : FTSENT) (child : List FTSENT) : Prop where
  path : s.path <+: s'.path
  same : SameEntry p p'
  vwd : (s'.stop = true ∧ child = [] ∧ s'.vwd.popped = []) ∨ s'.stop = s.stop ∧ VwdAt env env.fs.cwd s'.vwd
  child : child ≠ [] → p.level = 0 ∧ (∀ q ∈ child, EntryOf env env.fs.cwd 1 q) ∧
    ∃ a i, p.access s.path = some a ∧ env.fs.lookup env.fs.cwd a = .ok i ∧ env.fs.follow i = .ok env.fs.cwd

theorem SameEntry.refl (p : FTSENT) : SameEntry p p := ⟨rfl, rfl, rfl, rfl⟩

theorem map_adjust {d : ι} {level : ℤ} {head : List FTSENT} (h : ∀ q ∈ head, EntryOf env d level q) :
    head.map FTSENT.adjust = head := by
  have hsame : ∀ q ∈ head, q.adjust = id q := by
    intro q hq
    simp [FTSENT.adjust, (h q hq).accpath]
  rw [List.map_congr_left hsame, List.map_id]

variable {s s' : FTS ι} {p p' : FTSENT} {child : List FTSENT}

/-- Back from the directory `dir`: to the initial working directory, or there is an error. -/
theorem back_spec (hopt : env.options = .cwdfd) {w w' : Vwd ι} {dir : ι} {level : ℤ} {err : Option Errno}
    (h : VwdAt env dir w) (hback : level ≠ 0 → ∀ i, env.fs.lookup dir [46, 46] = .ok i → i = env.fs.cwd)
    (hrun : (if level = 0 then (restoreInitialCwd env w).map fun w => (none, w)
      else ftsSafeChangedir env w (-1) (some [46, 46])) = some (err, w')) :
    (err.isSome = true ∧ w'.popped = []) ∨ err = none ∧ VwdAt env env.fs.cwd w' := by
  by_cases hlevel : level = 0
  · obtain ⟨w₁, hrestore, hat⟩ := h.restore hopt
    rw [if_pos hlevel, hrestore] at hrun
    cases hrun
    exact .inr ⟨rfl, hat⟩
  · rw [if_neg hlevel] at hrun
    obtain hfailed | ⟨herr, i, hlookup, hat⟩ := ftsSafeChangedir_dotdot hopt h hrun
    · exact .inl hfailed
    · rw [hback hlevel i hlookup] at hat
      exact .inr ⟨herr, hat⟩

/-- The end of `fts_build`, after it has gone back. -/
def ftsBuildEnd (env : Env ι) (s : FTS ι) (cur : FTSENT) (path : List Byte) (head : List FTSENT)
    (err : Option Errno) (w : Vwd ι) : List FTSENT × FTSENT × FTS ι :=
  if err.isSome then ([], { cur with info := .err }, { s with path, vwd := w, stop := true })
  else if head = [] then ([], cur, { s with path, vwd := w })
  else (ftsBuildSort env w head, cur, { s with path, vwd := w })

theorem ftsBuildEnd_of_bind {path : List Byte} {head : List FTSENT} {back : Option (Option Errno × Vwd ι)}
    {r : List FTSENT × FTSENT × FTS ι}
    (h : (back.bind fun x =>
      if x.1.isSome = true then some ([], { p with info := .err }, { s with path, vwd := x.2, stop := true })
      else if head = [] then some ([], p, { s with path, vwd := x.2 })
      else some (ftsBuildSort env x.2 head, p, { s with path, vwd := x.2 })) = some r) :
    ∃ err w, back = some (err, w) ∧ r = ftsBuildEnd env s p path head err w := by
  obtain ⟨⟨err, w⟩, hback, h⟩ := Option.bind_eq_some_iff.mp h
  refine ⟨err, w, hback, Option.some.inj ?_⟩
  rw [← h]
  unfold ftsBuildEnd
  split
  · rfl
  · split <;> rfl

/-- A directory that can be opened is changed to and read, and the working directory changed back. -/
theorem ftsBuild_opened (hopt : env.options = .cwdfd) {a : Path} {dir : ι} {dirents : List Dirent} {w : Vwd ι}
    {r : List FTSENT × FTSENT × FTS ι} (haccess : p.access s.path = some a)
    (hopen : opendir env s.vwd a = .ok (dir, dirents))
    (hadvance : cwdAdvancedFd env (s.vwd.newFd env dir).2 (s.vwd.newFd env dir).1 true = some w)
    (hrun : ftsBuild env s p = some r) :
    ∃ len path head err w', ftsBuildLoop env w (p.level + 1) len s.path dirents = some (path, head) ∧
      (if p.level = 0 then (restoreInitialCwd env w).map fun w => (none, w)
        else ftsSafeChangedir env w (-1) (some [46, 46])) = some (err, w') ∧
      r = ftsBuildEnd env s p path (head.map FTSENT.adjust) err w' := by
  have hnochdir : env.options.isNochdir = false := by rw [hopt]; rfl
  have hchange : ftsSafeChangedir env (s.vwd.newFd env dir).2 (s.vwd.newFd env dir).1 none = some (none, w) := by
    have hnonneg : 0 ≤ (s.vwd.newFd env dir).1 := env.newFd_nonneg _
    rw [ftsSafeChangedir_fd hopt hnonneg, hadvance, Option.bind_some]
  have htype : ∀ head : List FTSENT, (if bchild ≠ 0 ∨ head = [] then 1 else 0) = 1 :=
    fun head => if_pos (.inl (by decide))
  have hbread : (1 : ℕ) ≠ bread := by decide
  have hone : (1 : ℕ) ≠ 0 := by decide
  simp only [ftsBuild, hnochdir, Bool.false_eq_true, if_false, Option.bind_eq_bind, haccess, Option.bind_some,
    hopen, hchange, htype, if_pos hone, if_neg hbread] at hrun
  obtain ⟨len, -, hrun⟩ := Option.bind_eq_some_iff.mp hrun
  obtain ⟨⟨path, head⟩, hloop, hrun⟩ := Option.bind_eq_some_iff.mp hrun
  refine ⟨len + 1, path, head, ?_⟩
  by_cases hlevel : p.level = 0
  · rw [if_pos hlevel] at hrun ⊢
    obtain ⟨err, w', hchange, hend⟩ := ftsBuildEnd_of_bind hrun
    exact ⟨err, w', hloop, hchange, hend⟩
  · rw [if_neg hlevel] at hrun ⊢
    obtain ⟨err, w', hchange, hend⟩ := ftsBuildEnd_of_bind hrun
    exact ⟨err, w', hloop, hchange, hend⟩

/-- A directory is read, and the working directory changed back. -/
theorem ftsBuild_spec (hopt : env.options = .cwdfd) (hlawful : env.fs.Lawful) (hat : VwdAt env env.fs.cwd s.vwd)
    (hhome : ReadsHomeAt env s p)
    (hback : p.level ≠ 0 → ∀ a dir dirents i, p.access s.path = some a → opendir env s.vwd a = .ok (dir, dirents) →
      env.fs.lookup dir [46, 46] = .ok i → i = env.fs.cwd)
    (hrun : ftsBuild env s p = some (child, p', s')) : Built env s s' p p' child := by
  obtain ⟨a, haccess⟩ : ∃ a, p.access s.path = some a := by
    cases haccess : p.access s.path with
    | none => simp [ftsBuild, haccess] at hrun
    | some a => exact ⟨a, rfl⟩
  cases hopen : opendir env s.vwd a with
  | error e =>
    simp only [ftsBuild, haccess, hopen, Option.bind_eq_bind, Option.bind_some] at hrun
    cases hrun
    exact ⟨List.prefix_refl _, ⟨rfl, rfl, rfl, rfl⟩, .inr ⟨rfl, hat⟩, fun hne => absurd rfl hne⟩
  | ok found =>
    obtain ⟨dir, dirents⟩ := found
    obtain ⟨i, hlookup, hfollow, hkind, hreaddir⟩ := opendir_spec hat hopen
    obtain ⟨w₁, hadvance, hat₁⟩ := hat.descend dir
    obtain ⟨len, path, head, err, w', hloop, hchange, hend⟩ := ftsBuild_opened hopt haccess hopen hadvance hrun
    obtain ⟨hpath, hentries, hsome⟩ := ftsBuildLoop_spec hopt hat₁ (fun dp hdp => hlawful.plain dir dirents dp hreaddir hdp) hloop
    rw [map_adjust hentries] at hend
    unfold ftsBuildEnd at hend
    obtain ⟨herr, hpopped⟩ | ⟨rfl, hat'⟩ :=
      back_spec hopt hat₁ (fun hlevel i hi => hback hlevel a dir dirents i haccess hopen hi) hchange
    · rw [if_pos herr] at hend
      cases hend
      exact ⟨hpath, ⟨rfl, rfl, rfl, rfl⟩, .inl ⟨rfl, rfl, hpopped⟩, fun hne => absurd rfl hne⟩
    · rw [if_neg (by decide)] at hend
      split at hend
      · cases hend
        exact ⟨hpath, .refl p, .inr ⟨rfl, hat'⟩, fun hne => absurd rfl hne⟩
      · rename_i hne
        cases hend
        obtain ⟨dp, hdp, hlisted⟩ := hsome hne
        obtain ⟨hlevel, rfl⟩ := hhome a dir dirents dp haccess hopen hdp hlisted
        refine ⟨hpath, .refl p, .inr ⟨rfl, hat'⟩, fun _ => ⟨hlevel, ?_, a, i, haccess, hlookup, hfollow⟩⟩
        intro q hq
        have hentry := hentries q ((ftsBuildSort_perm env _ _).subset hq)
        rwa [hlevel, Int.zero_add] at hentry

/-! ## Runs -/

variable {q : FTSENT} {link qs : List FTSENT} {above : List Frame} {r : Option FTSENT}

/-- A root in the list of `fts_open`. -/
structure RootOk (q : FTSENT) : Prop where
  level : q.level = 0
  zero : 0 ∉ q.name

/-- The path of a root is in the buffer. -/
structure AtRoot (s : FTS ι) (p : FTSENT) : Prop where
  accpath : p.accpath = .path
  length : p.pathlen < s.path.length
  path : cstr s.path = s.path.take p.pathlen

/-- The frame of the root `p` whose directory is the initial working directory, when its entries are visited. -/
structure InRoot (env : Env ι) (s : FTS ι) (p : FTSENT) (link : List FTSENT) : Prop where
  level : p.level = 0
  roots : ∀ q ∈ link, RootOk q
  length : p.pathlen ≤ s.path.length
  leads : ∃ i, env.fs.lookup env.fs.cwd (s.path.take p.pathlen) = .ok i ∧ env.fs.follow i = .ok env.fs.cwd

/-- Where a walk is: it has stopped; there are no roots; at a root; at an entry of a root that is the initial working
directory; or at its end. -/
inductive HomeInv (env : Env ι) (s : FTS ι) : Prop
  | stopped : s.stop = true → s.vwd.popped = [] → HomeInv env s
  | empty {p : FTSENT} : s.cur = [⟨p, []⟩] → p.info ≠ .d → VwdAt env env.fs.cwd s.vwd → HomeInv env s
  | root {p : FTSENT} {link : List FTSENT} : s.cur = [⟨p, link⟩, rootParent] → p.level = 0 → (∀ q ∈ link, RootOk q) →
      (p.info = .d → AtRoot s p) →
      VwdAt env env.fs.cwd s.vwd → HomeInv env s
  | entry {p q : FTSENT} {link qs : List FTSENT} : s.cur = [⟨q, qs⟩, ⟨p, link⟩, rootParent] →
      EntryOf env env.fs.cwd 1 q → (∀ q' ∈ qs, EntryOf env env.fs.cwd 1 q') → InRoot env s p link → VwdAt env env.fs.cwd s.vwd → HomeInv env s
  | done : s.cur = [] → VwdAt env env.fs.cwd s.vwd → HomeInv env s

theorem HomeInv.popped (h : HomeInv env s) : s.vwd.popped = [] := by
  cases h with
  | stopped _ hpopped => exact hpopped
  | empty _ _ hat => exact hat.popped
  | root _ _ _ _ hat => exact hat.popped
  | entry _ _ _ _ hat => exact hat.popped
  | done _ hat => exact hat.popped

/-- In a walk that has not stopped, the working directory is that of the entry at hand. -/
theorem HomeInv.contains (h : HomeInv env s) (hstop : s.stop = false) : Contains env s := by
  intro p' link' parent above' hcur hlevel
  cases h with
  | stopped hstop' _ =>
    rw [hstop] at hstop'
    cases hstop'
  | empty hcur' _ _ =>
    rw [hcur'] at hcur
    cases hcur
  | root hcur' hroot _ _ _ =>
    rw [hcur'] at hcur
    cases hcur
    rw [hroot] at hlevel
    exact absurd hlevel (by decide)
  | entry hcur' hentry _ hin hat =>
    rw [hcur'] at hcur
    cases hcur
    obtain ⟨i, hlookup, hfollow⟩ := hin.leads
    refine ⟨i, _, hlookup, hfollow, hat.here, ?_⟩
    simp [FTSENT.access, hentry.accpath]
  | done hcur' _ =>
    rw [hcur'] at hcur
    cases hcur

/-- Bytes are written at a place of a buffer: those before it stay. -/
theorem poke_spec {b b' s : List Byte} {off : ℕ} (h : poke b off s = some b') :
    b'.length = b.length ∧ b'.take off = b.take off ∧ b' = b.take off ++ s ++ b.drop (off + s.length) := by
  unfold poke at h
  split at h
  · rename_i hle
    cases h
    refine ⟨?_, ?_, rfl⟩
    · simp
      omega
    · rw [List.append_assoc, List.take_append_of_le_length (by simp; omega), List.take_take, Nat.min_self]
  · cases h

/-- From `check_for_dir` on, the entry is stat'ed if it was not. -/
theorem checkForDir_spec {d : ι} {a : Path} (hat : VwdAt env d s.vwd) (haccess : q.access s.path = some a)
    (hrun : checkForDir env s q qs above = some (r, s')) :
    ∃ q', r = some q' ∧ s'.cur = ⟨q', qs⟩ :: above ∧ s'.path = s.path ∧ s'.vwd = s.vwd ∧ s'.stop = s.stop ∧
      SameEntry q q' ∧ (q'.info = .d → q.info = .d ∨ ∃ i, env.fs.lookup d a = .ok i ∧ env.fs.kind i = .dir) := by
  obtain ⟨q₁, hstat, hsame, hdir⟩ : ∃ q₁, (if q.info = .nsok ∧ q.required then ftsStat env s.vwd s.path q else some q) =
      some q₁ ∧ SameEntry q q₁ ∧ (q₁.info = .d → q.info = .d ∨ ∃ i, env.fs.lookup d a = .ok i ∧ env.fs.kind i = .dir) := by
    by_cases hpending : q.info = .nsok ∧ q.required
    · simp only [if_pos hpending]
      obtain ⟨q₁, hstat⟩ := ftsStat_some (w := s.vwd) haccess
      obtain ⟨hsame, hdir⟩ := ftsStat_spec hat haccess hstat
      exact ⟨q₁, hstat, hsame, fun hd => .inr (hdir hd)⟩
    · simp only [if_neg hpending]
      exact ⟨q, rfl, .refl q, .inl⟩
  rw [checkForDir_eq hstat] at hrun
  split at hrun
  · rename_i hd
    obtain ⟨⟨q₂, cycle⟩, henter, hrun⟩ := Option.bind_eq_some_iff.mp hrun
    cases hrun
    simp only [enterDir, Option.bind_eq_bind, Option.bind_eq_some_iff, Option.some.injEq, Prod.mk.injEq] at henter
    obtain ⟨⟨cyclic, cycle'⟩, -, hq₂, rfl⟩ := henter
    refine ⟨q₂, rfl, rfl, rfl, rfl, rfl, ?_, fun _ => hdir hd⟩
    rw [← hq₂]
    split
    · exact ⟨hsame.level, hsame.accpath, hsame.name, hsame.pathlen⟩
    · exact hsame
  · cases hrun
    exact ⟨q₁, rfl, rfl, rfl, rfl, rfl, hsame, hdir⟩

/-- From `name` on: the path of the directory stays in the buffer. -/
theorem ftsName_spec {d : ι} {parent : Frame} (hat : VwdAt env d s.vwd) (hq : EntryOf env d 1 q)
    (hrun : ftsName env s q qs (parent :: above) = some (r, s')) :
    ∃ q', r = some q' ∧ s'.cur = ⟨q', qs⟩ :: parent :: above ∧ EntryOf env d 1 q' ∧ VwdAt env d s'.vwd ∧
      s'.stop = s.stop ∧ s'.path.length = s.path.length ∧
      s'.path.take parent.entry.pathlen = s.path.take parent.entry.pathlen := by
  simp only [ftsName, Option.bind_eq_bind, Option.bind_eq_some_iff] at hrun
  obtain ⟨t, hnappend, path, hpoke, hrun⟩ := hrun
  obtain ⟨hlength, hbefore, hpath⟩ := poke_spec hpoke
  have haccess : q.access path = some q.name := by simp [FTSENT.access, hq.accpath]
  obtain ⟨q', rfl, hcur, hpath', hvwd, hstop, hsame, hdir⟩ :=
    checkForDir_spec (s := { s with path }) hat haccess hrun
  refine ⟨q', rfl, hcur, ?_, by rw [hvwd]; exact hat, hstop, by rw [hpath', hlength], ?_⟩
  · refine ⟨hsame.level.trans hq.level, hsame.accpath.trans hq.accpath, ?_, ?_⟩
    · rw [hsame.name]
      exact hq.plain
    · intro hd
      rw [hsame.name]
      obtain hd | hdir := hdir hd
      · exact hq.dir hd
      · exact hdir
  · rw [hpath']
    dsimp only
    unfold nappend at hnappend
    split at hnappend
    · cases hnappend
    · rename_i hzero
      split at hnappend
      · -- the slash at the end of the path of the directory is written again
        rename_i hslash
        cases hnappend
        obtain ⟨k, hk⟩ := Nat.exists_eq_succ_of_ne_zero hzero
        rw [hk, Nat.succ_sub_one] at hslash hpath hbefore
        have hlt : k < s.path.length := (List.getElem?_eq_some_iff.mp hslash).1
        have htake : (s.path.take k).length = k := List.length_take_of_le (by omega)
        have hwritten : path[k]? = some slash := by
          rw [hpath, List.append_assoc, List.getElem?_append_right (by omega), htake]
          simp
        rw [hk, List.take_add_one, List.take_add_one, hbefore, hwritten, hslash]
      · cases hnappend
        exact hbefore

/-- What a call of `fts_read` leaves. -/
def Landed (env : Env ι) (r : Option FTSENT) (s : FTS ι) : Prop := HomeInv env s ∧ (r.isSome = true → s.stop = false)

/-- On to the next root. -/
theorem ftsNext_landed (hopt : env.options = .cwdfd) (hat : VwdAt env env.fs.cwd s.vwd) (hstop : s.stop = false)
    (hroots : ∀ q ∈ link, RootOk q) (hrun : ftsNext env s [rootParent] link = some (r, s')) : Landed env r s' := by
  cases link with
  | nil =>
    cases hrun
    exact ⟨.done rfl hat, nofun⟩
  | cons q link =>
    obtain ⟨hq, hroots⟩ := List.forall_mem_cons.mp hroots
    obtain ⟨w, hrestore, hat'⟩ := hat.restore hopt
    simp only [ftsNext, hq.level, if_true, hrestore, Option.bind_eq_bind, Option.bind_some, Option.bind_eq_some_iff,
      Prod.exists] at hrun
    obtain ⟨path, q₁, hload, hrun⟩ := hrun
    simp only [ftsLoad, Option.bind_eq_bind, Option.bind_eq_some_iff, Option.some.injEq, Prod.mk.injEq] at hload
    obtain ⟨path', hpoke, rfl, rfl⟩ := hload
    obtain ⟨rest, hpath⟩ : ∃ rest, path' = q.name ++ 0 :: rest := by
      obtain ⟨-, -, hpath⟩ := poke_spec hpoke
      rw [List.take_zero, List.nil_append, List.append_assoc] at hpath
      exact ⟨_, hpath⟩
    have hcstr : cstr path' = q.name := by
      rw [hpath]
      exact cstr_append_zero rest hq.zero
    obtain ⟨q', rfl, hcur, hpath', hvwd, hstop', hsame, -⟩ :=
      checkForDir_spec (s := { s with path := path', vwd := w, cycle := cycleCheckInit }) (a := q.name) hat'
        (by simp [FTSENT.access, hcstr]) hrun
    refine ⟨.root hcur (hsame.level.trans hq.level) hroots (fun _ => ⟨hsame.accpath, ?_, ?_⟩) ?_,
      fun _ => hstop'.trans hstop⟩
    · rw [hsame.pathlen, hpath', hpath, List.length_append]
      exact Nat.lt_add_of_pos_right (by simp)
    · rw [hpath', hsame.pathlen]
      exact hcstr.trans (by rw [hpath, List.take_left])
    · rw [hvwd]
      exact hat'

/-- Back to the root, behind its last entry. -/
theorem ftsUp_landed (hopt : env.options = .cwdfd) (hat : VwdAt env env.fs.cwd s.vwd) (hstop : s.stop = false)
    (hin : InRoot env s p link) (hrun : ftsUp env s [⟨p, link⟩, rootParent] = some (r, s')) : Landed env r s' := by
  have hlevel : p.level ≠ -1 := by
    rw [hin.level]
    decide
  obtain ⟨w, hrestore, hat'⟩ := hat.restore hopt
  simp only [ftsUp, if_neg hlevel, if_pos hin.level, hrestore, Option.map_some, Option.bind_eq_bind, Option.bind_some,
    Option.isSome_none, Bool.false_eq_true, if_false, Bool.or_false, hstop] at hrun
  split at hrun
  · cases hrun
  · obtain ⟨path, hpoke, hrun⟩ := Option.bind_eq_some_iff.mp hrun
    have hvisited : (if p.errno.isSome = true then Info.err else Info.dp) ≠ .d := by split <;> exact nofun
    split at hrun
    · obtain ⟨cycle, -, hrun⟩ := Option.bind_eq_some_iff.mp hrun
      cases hrun
      exact ⟨.root rfl hin.level hin.roots (fun hd => absurd hd hvisited) hat', fun _ => rfl⟩
    · cases hrun
      exact ⟨.root rfl hin.level hin.roots (fun hd => absurd hd hvisited) hat', fun _ => rfl⟩

/-- On to the next entry of a root. -/
theorem ftsNext_entry (hopt : env.options = .cwdfd) (hat : VwdAt env env.fs.cwd s.vwd) (hstop : s.stop = false)
    (hin : InRoot env s p link) (hqs : ∀ q ∈ qs, EntryOf env env.fs.cwd 1 q)
    (hrun : ftsNext env s [⟨p, link⟩, rootParent] qs = some (r, s')) : Landed env r s' := by
  induction qs with
  | nil => exact ftsUp_landed hopt hat hstop hin hrun
  | cons q qs ih =>
    obtain ⟨hq, hqs⟩ := List.forall_mem_cons.mp hqs
    have hlevel : q.level ≠ 0 := by
      rw [hq.level]
      decide
    rw [ftsNext, if_neg hlevel] at hrun
    split at hrun
    · exact ih hqs hrun
    · obtain ⟨q', rfl, hcur, hq', hat', hstop', hlength, htake⟩ := ftsName_spec hat hq hrun
      refine ⟨.entry hcur hq' hqs ⟨hin.level, hin.roots, ?_, ?_⟩ hat', fun _ => hstop'.trans hstop⟩
      · rw [hlength]
        exact hin.length
      · rw [htake]
        exact hin.leads

theorem AtRoot.take_grow (h : AtRoot s p) (hpath : s.path <+: s'.path) (hsame : SameEntry p p') :
    s'.path.take p'.pathlen = s.path.take p.pathlen := by
  obtain ⟨t, ht⟩ := hpath
  rw [← ht, hsame.pathlen, List.take_append_of_le_length h.length.le]

/-- The string at the start of a buffer stays when the buffer grows. -/
theorem AtRoot.grow (h : AtRoot s p) (hpath : s.path <+: s'.path) (hsame : SameEntry p p') : AtRoot s' p' := by
  have htake := h.take_grow hpath hsame
  obtain ⟨t, ht⟩ := hpath
  have hlt := h.length
  refine ⟨hsame.accpath.trans h.accpath, ?_, ?_⟩
  · rw [hsame.pathlen, ← ht, List.length_append]
    omega
  · have hcstr : (cstr s.path).length = p.pathlen := by
      rw [h.path, List.length_take_of_le hlt.le]
    rw [htake, ← h.path, ← ht]
    unfold cstr at hcstr ⊢
    rw [List.takeWhile_append, if_neg (by omega)]

theorem InRoot.grow (h : InRoot env s p link) (hpath : s.path <+: s'.path) : InRoot env s' p link := by
  obtain ⟨t, ht⟩ := hpath
  refine ⟨h.level, h.roots, ?_, ?_⟩
  · rw [← ht, List.length_append]
    exact Nat.le_add_right_of_le h.length
  · rw [← ht, List.take_append_of_le_length h.length]
    exact h.leads

/-- A directory stays an entry, whatever its mark is. -/
theorem EntryOf.visited {d : ι} {q' : FTSENT} (h : EntryOf env d 1 q) (hd : q.info = .d) (hsame : SameEntry q q') :
    EntryOf env d 1 q' := by
  refine ⟨hsame.level.trans h.level, hsame.accpath.trans h.accpath, ?_, fun _ => ?_⟩
  · rw [hsame.name]
    exact h.plain
  · rw [hsame.name]
    exact h.dir hd

theorem SameEntry.trans {q q' : FTSENT} (h : SameEntry p q) (h' : SameEntry q q') : SameEntry p q' :=
  ⟨h'.level.trans h.level, h'.accpath.trans h.accpath, h'.name.trans h.name, h'.pathlen.trans h.pathlen⟩

/-- The entry `p`, with the mark of an error or of a second visit, is the current node. -/
structure Stays (s s' : FTS ι) (p : FTSENT) (link : List FTSENT) (above : List Frame) (r : Option FTSENT) (p' : FTSENT) :
    Prop where
  result : r = some p'
  cur : s'.cur = ⟨p', link⟩ :: above
  path : s'.path = s.path
  vwd : s'.vwd = s.vwd
  stop : s'.stop = s.stop
  same : SameEntry p p'

/-- What `fts_read` can do at a directory that has been visited in preorder: it leaves it; it fails to go back; it has read
it, and there is nothing in it; or it goes on to the first of its entries. -/
theorem ftsDescend_cases {instr : Instr} (hrun : ftsDescend env s instr p link above = some (r, s')) :
    (instr = .skip ∧ ∃ p', Stays s s' p link above r p') ∨
    (instr ≠ .skip ∧ ∃ child p₁ s₁, ftsBuild env s p = some (child, p₁, s₁) ∧
      ((child = [] ∧ s₁.stop = true ∧ r = none ∧ s'.stop = true ∧ s'.vwd = s₁.vwd) ∨
        (child = [] ∧ s₁.stop = false ∧ ∃ p', Stays s₁ s' p₁ link above r p') ∨
        ∃ q qs, child = q :: qs ∧ ftsName env s₁ q qs (⟨p₁, link⟩ :: above) = some (r, s'))) := by
  simp only [ftsDescend] at hrun
  split at hrun
  · rename_i hinstr
    obtain ⟨cycle, -, hrun⟩ := Option.bind_eq_some_iff.mp hrun
    cases hrun
    exact .inl ⟨hinstr, _, rfl, rfl, rfl, rfl, rfl, ⟨rfl, rfl, rfl, rfl⟩⟩
  · rename_i hinstr
    obtain ⟨⟨child, p₁, s₁⟩, hbuild, hrun⟩ := Option.bind_eq_some_iff.mp hrun
    refine .inr ⟨hinstr, child, p₁, s₁, hbuild, ?_⟩
    cases child with
    | nil =>
      dsimp only at hrun
      split at hrun
      · rename_i hstop
        cases hrun
        exact .inl ⟨rfl, hstop, rfl, hstop, rfl⟩
      · rename_i hstop
        obtain ⟨cycle, -, hrun⟩ := Option.bind_eq_some_iff.mp hrun
        cases hrun
        refine .inr (.inl ⟨rfl, by simpa using hstop, _, rfl, rfl, rfl, rfl, rfl, ?_⟩)
        split <;> exact ⟨rfl, rfl, rfl, rfl⟩
    | cons q qs => exact .inr (.inr ⟨q, qs, rfl, hrun⟩)

/-- `fts_build` has failed to go back. -/
theorem Built.stopped (h : Built env s s' p p' []) {s₂ : FTS ι} (hstop : s.stop = false) (hstop' : s'.stop = true)
    (hstop₂ : s₂.stop = true) (hvwd : s₂.vwd = s'.vwd) : Landed env none s₂ := by
  obtain ⟨-, -, hpopped⟩ | ⟨hsame, -⟩ := h.vwd
  · exact ⟨.stopped hstop₂ (by rw [hvwd]; exact hpopped), nofun⟩
  · rw [hstop, hstop'] at hsame
    cases hsame

theorem Built.at_home (h : Built env s s' p p' child) (hstop' : s'.stop = false) : VwdAt env env.fs.cwd s'.vwd := by
  obtain ⟨hstop, -, -⟩ | ⟨-, hat⟩ := h.vwd
  · rw [hstop'] at hstop
    cases hstop
  · exact hat

/-- There are entries, so it has not failed. -/
theorem Built.home (h : Built env s s' p p' child) (hne : child ≠ []) : s'.stop = s.stop ∧ VwdAt env env.fs.cwd s'.vwd :=
  h.vwd.resolve_left fun hstopped => hne hstopped.2.1

/-- A root that is a directory is left, or entered when it is the initial working directory. -/
theorem ftsDescend_root (hopt : env.options = .cwdfd) (hlawful : env.fs.Lawful) (hat : VwdAt env env.fs.cwd s.vwd)
    (hstop : s.stop = false) {instr : Instr} (hlevel : p.level = 0) (hroots : ∀ q ∈ link, RootOk q) (hp : AtRoot s p)
    (hhome : instr ≠ .skip → ReadsHomeAt env s p)
    (hrun : ftsDescend env s instr p link [rootParent] = some (r, s')) : Landed env r s' := by
  obtain ⟨-, p', hstays⟩ | ⟨hinstr, child, p₁, s₁, hbuild, hcases⟩ := ftsDescend_cases hrun
  · refine ⟨.root hstays.cur (hstays.same.level.trans hlevel) hroots (fun _ => ?_) (by rw [hstays.vwd]; exact hat),
      fun _ => hstays.stop.trans hstop⟩
    exact hp.grow (by rw [hstays.path]) hstays.same
  · have hbuilt := ftsBuild_spec hopt hlawful hat (hhome hinstr) (fun hne => absurd hlevel hne) hbuild
    have hp₁ := hp.grow hbuilt.path hbuilt.same
    have hlevel₁ := hbuilt.same.level.trans hlevel
    obtain ⟨rfl, hstop₁, rfl, hstop', hvwd⟩ | ⟨rfl, hstop₁, p', hstays⟩ | ⟨q, qs, rfl, hname⟩ := hcases
    · exact hbuilt.stopped hstop hstop₁ hstop' hvwd
    · have hat₁ := hbuilt.at_home hstop₁
      refine ⟨.root hstays.cur (hstays.same.level.trans hlevel₁) hroots (fun _ => ?_) (by rw [hstays.vwd]; exact hat₁),
        fun _ => hstays.stop.trans hstop₁⟩
      exact hp₁.grow (by rw [hstays.path]) hstays.same
    · -- the first of the entries
      obtain ⟨-, hentries, a, i, haccess, hlookup, hfollow⟩ := hbuilt.child (List.cons_ne_nil q qs)
      obtain ⟨hq, hqs⟩ := List.forall_mem_cons.mp hentries
      obtain ⟨hstop₁, hat₁⟩ := hbuilt.home (List.cons_ne_nil q qs)
      obtain ⟨q', rfl, hcur, hq', hat', hstop', hlength, htake⟩ := ftsName_spec hat₁ hq hname
      have ha : a = s₁.path.take p₁.pathlen := by
        have hcstr : some (cstr s.path) = some a := by
          rw [← haccess, FTSENT.access, hp.accpath]
        rw [← Option.some.inj hcstr, hp.path, hp.take_grow hbuilt.path hbuilt.same]
      rw [ha] at hlookup
      refine ⟨.entry hcur hq' hqs ⟨hlevel₁, hroots, ?_, i, ?_, hfollow⟩ hat', fun _ => hstop'.trans (hstop₁.trans hstop)⟩
      · rw [hlength]
        exact hp₁.length.le
      · rw [htake]
        exact hlookup

/-- An entry that is a directory is left, or there is nothing in it. -/
theorem ftsDescend_entry (hopt : env.options = .cwdfd) (hlawful : env.fs.Lawful) (hat : VwdAt env env.fs.cwd s.vwd)
    (hstop : s.stop = false) {instr : Instr} (hin : InRoot env s p link) (hq : EntryOf env env.fs.cwd 1 q)
    (hd : q.info = .d) (hqs : ∀ q ∈ qs, EntryOf env env.fs.cwd 1 q) (hhome : instr ≠ .skip → ReadsHomeAt env s q)
    (hrun : ftsDescend env s instr q qs [⟨p, link⟩, rootParent] = some (r, s')) : Landed env r s' := by
  have hlevel : q.level ≠ 0 := by
    rw [hq.level]
    decide
  obtain ⟨-, q', hstays⟩ | ⟨hinstr, child, q₁, s₁, hbuild, hcases⟩ := ftsDescend_cases hrun
  · refine ⟨.entry hstays.cur (hq.visited hd hstays.same) hqs (hin.grow (by rw [hstays.path])) (by rw [hstays.vwd]; exact hat),
      fun _ => hstays.stop.trans hstop⟩
  · have hback : ∀ a dir dirents i, q.access s.path = some a → opendir env s.vwd a = .ok (dir, dirents) →
        env.fs.lookup dir [46, 46] = .ok i → i = env.fs.cwd := by
      intro a dir dirents i haccess hopen hdotdot
      obtain ⟨j, hj, hkind⟩ := hq.dir hd
      have haccess' : some q.name = some a := by rw [← haccess, FTSENT.access, hq.accpath]
      cases haccess'
      obtain ⟨j', hj', hfollow, -, -⟩ := opendir_spec hat hopen
      rw [hj] at hj'
      cases hj'
      rw [env.fs.follow_file _ (by rw [hkind]; decide)] at hfollow
      cases hfollow
      rw [hlawful.dotdot _ _ _ hq.plain.1 hq.plain.2.1 hq.plain.2.2 hj hkind] at hdotdot
      cases hdotdot
      rfl
    have hbuilt := ftsBuild_spec hopt hlawful hat (hhome hinstr) (fun _ => hback) hbuild
    obtain ⟨rfl, hstop₁, rfl, hstop', hvwd⟩ | ⟨rfl, hstop₁, q', hstays⟩ | ⟨q', qs', rfl, -⟩ := hcases
    · exact hbuilt.stopped hstop hstop₁ hstop' hvwd
    · have hat₁ := hbuilt.at_home hstop₁
      refine ⟨.entry hstays.cur (hq.visited hd (hbuilt.same.trans hstays.same)) hqs ?_ (by rw [hstays.vwd]; exact hat₁),
        fun _ => hstays.stop.trans hstop₁⟩
      exact hin.grow (by rw [hstays.path]; exact hbuilt.path)
    · exact absurd (hbuilt.child (List.cons_ne_nil q' qs')).1 hlevel

/-- One call of `fts_read`. -/
theorem HomeInv.read (hopt : env.options = .cwdfd) (hlawful : env.fs.Lawful) (h : HomeInv env s) (hhome : ReadsHome env s)
    (hrun : ftsRead env s = some (r, s')) : Landed env r s' := by
  unfold ftsRead at hrun
  cases h with
  | stopped hstop hpopped =>
    rw [hstop] at hrun
    split at hrun
    · cases hrun
      exact ⟨.stopped hstop hpopped, nofun⟩
    · rw [if_pos rfl] at hrun
      cases hrun
      exact ⟨.stopped hstop hpopped, nofun⟩
  | empty hcur hinfo hat =>
    rw [hcur] at hrun
    dsimp only at hrun
    split at hrun
    · cases hrun
      exact ⟨.empty hcur hinfo hat, nofun⟩
    · simp only [ftsNext, ftsUp] at hrun
      cases hrun
  | root hcur hlevel hroots hp hat =>
    rw [hcur] at hrun
    dsimp only at hrun
    split at hrun
    · cases hrun
      exact ⟨.root hcur hlevel hroots hp hat, nofun⟩
    · rename_i hstop
      have hstop : s.stop = false := by simpa using hstop
      split at hrun
      · rename_i hd
        obtain ⟨haccpath, hlength, hpath⟩ := hp hd
        refine ftsDescend_root hopt hlawful hat hstop ?_ hroots ?_ ?_ hrun
        · exact hlevel
        · exact ⟨haccpath, hlength, hpath⟩
        intro hinstr
        have hhome := hhome _ _ _ hcur hstop hd hinstr
        exact hhome
      · exact ftsNext_landed hopt hat hstop hroots hrun
  | entry hcur hq hqs hin hat =>
    rw [hcur] at hrun
    dsimp only at hrun
    split at hrun
    · cases hrun
      exact ⟨.entry hcur hq hqs hin hat, nofun⟩
    · rename_i hstop
      have hstop : s.stop = false := by simpa using hstop
      split at hrun
      · rename_i hd
        refine ftsDescend_entry hopt hlawful hat hstop hin ?_ ?_ hqs ?_ hrun
        · exact hq.visited hd ⟨rfl, rfl, rfl, rfl⟩
        · exact hd
        intro hinstr
        have hhome := hhome _ _ _ hcur hstop hd hinstr
        exact hhome
      · exact ftsNext_entry hopt hat hstop hin hqs hrun
  | done hcur hat =>
    rw [hcur] at hrun
    cases hrun
    exact ⟨.done hcur hat, nofun⟩

/-- An instruction for the current node changes nothing else. -/
theorem HomeInv.set (h : HomeInv env s) (instr : Instr) : HomeInv env (ftsSet s instr) := by
  cases h with
  | stopped hstop hpopped =>
    unfold ftsSet
    split <;> exact .stopped hstop hpopped
  | empty hcur hinfo hat =>
    simp only [ftsSet, hcur]
    exact .empty rfl hinfo hat
  | root hcur hlevel hroots hp hat =>
    simp only [ftsSet, hcur]
    exact .root rfl hlevel hroots (fun hd => ⟨(hp hd).accpath, (hp hd).length, (hp hd).path⟩) hat
  | entry hcur hq hqs hin hat =>
    simp only [ftsSet, hcur]
    exact .entry rfl ⟨hq.level, hq.accpath, hq.plain, hq.dir⟩ hqs ⟨hin.level, hin.roots, hin.length, hin.leads⟩ hat
  | done hcur hat =>
    simp only [ftsSet, hcur]
    exact .done hcur hat

theorem HomeInv.start {argv : List Path} (hzero : ∀ arg ∈ argv, 0 ∉ arg) (hrun : ftsOpen env argv = some s) :
    HomeInv env s := by
  obtain ⟨ps, hroots, hperm, -, hall⟩ :=
    ftsOpenRoots_spec env (ftsPalloc env [] (max (ftsMaxarglen argv) 1024)).1 argv
  have hroots : ftsOpenRoots env ⟨atFdcwd, iRingInit, [], []⟩ (ftsPalloc env [] (max (ftsMaxarglen argv) 1024)).1 argv =
      some ps := hroots
  simp only [ftsOpen, hroots, Option.bind_eq_bind, Option.bind_some, Option.some.injEq] at hrun
  subst hrun
  have hat : VwdAt env env.fs.cwd (vwdInit : Vwd ι) := by
    have hneg : ∀ k, ¬ 0 ≤ iRingInit.data k := fun k => by decide +revert
    exact ⟨rfl, ⟨fun k hk => absurd hk (hneg k), fun k hk => absurd hk (hneg k), fun j _ hj => absurd hj (hneg j)⟩, rfl⟩
  by_cases hne : argv = []
  · obtain rfl : ps = [] := by simpa [hne] using hperm
    rw [if_neg (not_not.mpr hne)]
    exact .empty rfl (fun h => by cases h) hat
  · rw [if_pos hne]
    refine .root rfl rfl ?_ (fun h => by cases h) hat
    intro q hq
    exact ⟨(hall q hq).level, hzero q.name (hperm.subset (List.mem_map_of_mem hq))⟩

/-- In every run that reads no entries but of roots that are the initial working directory: `fts_cwd_fd` is an open
descriptor of the directory that contains the entry, whenever one below root level is returned; and what
`fts_safe_changedir` pops is the parent of the directory that is left. -/
theorem run_right (hopt : env.options = .cwdfd) (hlawful : env.fs.Lawful) {argv : List Path}
    (hzero : ∀ arg ∈ argv, 0 ∉ arg) (hrun : Run env (ReadsHome env) argv r s) :
    (r.isSome = true → Contains env s) ∧ PoppedParents env s.vwd := by
  have hinv : Landed env r s := by
    induction hrun with
    | start hopen => exact ⟨.start hzero hopen, nofun⟩
    | skip _ ih => exact ⟨ih.1.set .skip, nofun⟩
    | read _ hhome hread ih => exact ih.1.read hopt hlawful hhome hread
  refine ⟨fun hr => hinv.1.contains (hinv.2 hr), ?_⟩
  intro e he
  rw [hinv.1.popped] at he
  cases he

/-! ## A directory in another one -/

/-- The initial working directory, a directory `d` in it, and a file `f` that is in both. -/
inductive Place
  | home
  | sub
  | file
deriving DecidableEq

/-- Its file system, with the names that are looked up. -/
def homeAndSub : FileSys Place where
  cwd := .home
  lookup i path :=
    if path = [46] then .ok i
    else if path = [46, 46] then .ok .home
    else if path = [100] ∧ i = .home then .ok .sub
    else if path = [102] then .ok .file
    else .error .enoent
  follow i := .ok i
  kind i := if i = .file then .reg else .dir
  dev _ := 1
  ino i := match i with
    | .home => 2
    | .sub => 3
    | .file => 4
  readdir i := match i with
    | .home => .ok [⟨[100], 3, some .dir⟩, ⟨[102], 4, some .reg⟩]
    | .sub => .ok [⟨[102], 4, some .reg⟩]
    | .file => .error .enotdir
  lookup_nil _ := rfl
  lookup_slash i p j _ h := by
    have hne : ∀ n : Path, n.getLast? ≠ some 47 → p ++ [47] ≠ n := by
      rintro n hn rfl
      exact hn (by simp)
    have hdot := hne [46] (by decide)
    have hdotdot := hne [46, 46] (by decide)
    have hd := hne [100] (by decide)
    have hf := hne [102] (by decide)
    simp only [hdot, hdotdot, hd, hf, false_and, if_false] at h
    cases h
  follow_file _ _ := rfl

/-- A process that walks over it, without assertions. -/
def homeEnv : Env Place where
  fs := homeAndSub
  options := .cwdfd
  ndebug := true
  compar := none
  qsort _ l := l
  moves _ := false
  junk _ := 0
  newFd := (plainEnv .cwdfd).newFd
  inodeSortUseful _ := false
  qsort_perm _ l := List.Perm.refl l
  newFd_nonneg := (plainEnv .cwdfd).newFd_nonneg
  newFd_fresh := (plainEnv .cwdfd).newFd_fresh

/-- What is seen of a stream: the levels and the lengths of the paths of the frames, `fts_info` and `fts_accpath`, the path of
the root, and the directory of `fts_cwd_fd`. -/
structure Seen where
  frames : List (ℤ × ℕ)
  info : Option Info
  accpath : Option Path
  root : Path
  here : Option Place
deriving DecidableEq

def seen (s : FTS Place) : Seen where
  frames := s.cur.map fun f => (f.entry.level, f.entry.pathlen)
  info := s.cur.head?.map fun f => f.entry.info
  accpath := s.cur.head?.bind fun f => f.entry.access s.path
  root := s.path.take 1
  here := s.vwd.dirOf homeEnv s.vwd.cwdFd

/-- Two calls return the root and its first entry, each with the initial working directory. -/
theorem read_twice {a : Byte} (ha : a = 46 ∨ a = 100) : ∃ s₀ r₁ s₁ r₂ s₂, ftsOpen homeEnv [[a]] = some s₀ ∧
    ftsRead homeEnv s₀ = some (r₁, s₁) ∧ ftsRead homeEnv s₁ = some (some r₂, s₂) ∧ (seen s₀).info = some .init ∧
    seen s₁ = ⟨[(0, 1), (-1, 0)], some .d, some [a], [a], some .home⟩ ∧
    ∃ info, seen s₂ = ⟨[(1, 3), (0, 1), (-1, 0)], info, some [if a = 46 then 100 else 102], [a], some .home⟩ := by
  have hreads : ((ftsOpen homeEnv [[a]]).bind fun s₀ => (ftsRead homeEnv s₀).bind fun x₁ =>
      (ftsRead homeEnv x₁.2).map fun x₂ => ((seen s₀).info, seen x₁.2, x₂.1.isSome, seen x₂.2)) =
      some (some .init, ⟨[(0, 1), (-1, 0)], some .d, some [a], [a], some .home⟩, true,
        ⟨[(1, 3), (0, 1), (-1, 0)], some (if a = 46 then .d else .f), some [if a = 46 then 100 else 102], [a],
          some .home⟩) := by
    obtain rfl | rfl := ha <;> decide +kernel
  obtain ⟨s₀, hopen, hreads⟩ := Option.bind_eq_some_iff.mp hreads
  obtain ⟨⟨r₁, s₁⟩, hread₁, hreads⟩ := Option.bind_eq_some_iff.mp hreads
  obtain ⟨⟨r₂, s₂⟩, hread₂, hsee⟩ := Option.map_eq_some_iff.mp hreads
  simp only [Prod.mk.injEq] at hsee
  obtain ⟨hinit, hsee₁, hsome, hsee₂⟩ := hsee
  obtain ⟨r, rfl⟩ := Option.isSome_iff_exists.mp hsome
  exact ⟨s₀, r₁, s₁, r, s₂, hopen, hread₁, hread₂, hinit, hsee₁, _, hsee₂⟩

/-- The walk of the root `.`, which is the initial working directory: the second call returns `d`. -/
theorem run_right_dot : ∃ r s, Run homeEnv (ReadsHome homeEnv) [[46]] (some r) s ∧
    (seen s).accpath = some [100] ∧ ((some r).isSome = true → Contains homeEnv s) ∧ PoppedParents homeEnv s.vwd := by
  obtain ⟨s₀, r₁, s₁, r₂, s₂, hopen, hread₁, hread₂, hinit, hsee₁, info, hsee₂⟩ := read_twice (.inl rfl)
  have hlawful : homeEnv.fs.Lawful := by
    constructor
    · intro d l dp hl
      cases d <;> cases hl <;> revert dp <;> decide
    · intro d n i _ _ hdot hlookup hkind
      simp only [isDot, decide_eq_false_iff_not, not_or] at hdot
      simp only [homeEnv, homeAndSub, if_neg hdot.1, if_neg hdot.2] at hlookup
      split at hlookup
      · rename_i hd
        rw [hd.2]
        rfl
      · split at hlookup
        · cases hlookup
          cases hkind
        · cases hlookup
  have hhome₀ : ReadsHome homeEnv s₀ := by
    intro p link above hcur _ hd
    simp [seen, hcur, hd] at hinit
  have hhome₁ : ReadsHome homeEnv s₁ := by
    intro p link above hcur _ _ _ a dir dirents dp haccess hopen _ _
    simp only [seen, hcur, Seen.mk.injEq, List.map_cons, List.cons.injEq, Prod.mk.injEq, List.head?_cons,
      Option.bind_some, haccess, Option.some.injEq] at hsee₁
    obtain ⟨⟨⟨hlevel, -⟩, -⟩, -, rfl, -, hhere⟩ := hsee₁
    simp only [opendir, Vwd.lookup, hhere] at hopen
    cases hopen
    exact ⟨hlevel, rfl⟩
  have hrun : Run homeEnv (ReadsHome homeEnv) [[46]] (some r₂) s₂ := .read (.read (.start hopen) hhome₀ hread₁) hhome₁ hread₂
  exact ⟨r₂, s₂, hrun, by rw [hsee₂]; rfl, run_right rfl hlawful (by decide) hrun⟩

/-- The walk of the root `d`, which is another directory: the second call returns `f`. -/
theorem not_right_d : ¬ ∀ r s, Run homeEnv (fun _ => True) [[100]] r s →
    (r.isSome = true → Contains homeEnv s) ∧ PoppedParents homeEnv s.vwd := by
  intro hright
  obtain ⟨s₀, r₁, s₁, r₂, s₂, hopen, hread₁, hread₂, -, -, info, hsee₂⟩ := read_twice (.inr rfl)
  have hcontains := (hright _ s₂ (.read (.read (.start hopen) trivial hread₁) trivial hread₂)).1 rfl
  simp only [seen, Seen.mk.injEq] at hsee₂
  obtain ⟨hframes, -, -, hroot, hhere⟩ := hsee₂
  match hcur : s₂.cur with
  | [] => simp [hcur] at hframes
  | [_] => simp [hcur] at hframes
  | ⟨p, link⟩ :: parent :: above =>
    simp only [hcur, List.map_cons, List.cons.injEq, Prod.mk.injEq] at hframes
    obtain ⟨⟨hlevel, -⟩, ⟨-, hpathlen⟩, -⟩ := hframes
    obtain ⟨i, d, hlookup, hfollow, hd, -⟩ := hcontains p link parent above hcur (by rw [hlevel]; decide)
    rw [hpathlen, hroot] at hlookup
    rw [hhere] at hd
    cases hlookup
    cases hfollow
    cases hd

end CodingExercises.Coreutils.Fts
