import Mathlib.Data.List.Forall2
import Mathlib.Data.List.Infix
import CodingExercises.Coreutils.Fts
import CodingExercises.Lib.Cursor

/-!
# fts: walks with `FTS_NOCHDIR`

What the calls of `fts_read` have to give is the walk in depth first order (`WalkedRoots`). With the assertions compiled in,
that of `cycle_check` fails when the first directory is entered, so that the calls come to their end if and only if no root
is a directory; and then they give the walk (`walks_iff`).
-/

namespace CodingExercises.Coreutils.Fts

open Lib

/-! ## Walks in depth first order -/

/-- The path of an entry: the path of its directory, a slash if there is none at its end, and the name. -/
def join (p : Path) (n : Name) : Path := (if p.getLast? = some slash then p else p ++ [slash]) ++ n

section Spec

variable {ι : Type} (env : Env ι)

/-- An entry of a directory that is returned. -/
def listed (dp : Dirent) : Bool := env.options.seedot || !isDot dp.name

mutual

/-- The walk of a file with its path: a directory comes once before what is in it and once behind it, and any other file
once. -/
inductive Walked : Path → ι → List (Path × Info) → Prop
  | leaf {path : Path} {i : ι} {info : Info} : env.fs.kind i ≠ .dir → info ≠ .d → info ≠ .dp → Walked path i [(path, info)]
  | dir {path : Path} {i : ι} {dirents order : List Dirent} {w : List (Path × Info)} : env.fs.kind i = .dir →
      env.fs.readdir i = .ok dirents → order.Perm (dirents.filter (listed env)) → WalkedAll path i order w →
      Walked path i ((path, .d) :: w ++ [(path, .dp)])

/-- The walks of the entries of a directory. The directory itself and the one above it come once. -/
inductive WalkedAll : Path → ι → List Dirent → List (Path × Info) → Prop
  | nil {path : Path} {i : ι} : WalkedAll path i [] []
  | dot {path : Path} {i : ι} {dp : Dirent} {dps : List Dirent} {w : List (Path × Info)} {info : Info} : isDot dp.name →
      info ≠ .d → info ≠ .dp → WalkedAll path i dps w → WalkedAll path i (dp :: dps) ((join path dp.name, info) :: w)
  | cons {path : Path} {i j : ι} {dp : Dirent} {dps : List Dirent} {w w' : List (Path × Info)} : ¬ isDot dp.name →
      env.fs.lookup i dp.name = .ok j → Walked (join path dp.name) j w → WalkedAll path i dps w' →
      WalkedAll path i (dp :: dps) (w ++ w')

end

/-- The walks of the roots. A root that there is not comes once. -/
inductive WalkedRoots : List Path → List (Path × Info) → Prop
  | nil : WalkedRoots [] []
  | found {arg : Path} {args : List Path} {i : ι} {w w' : List (Path × Info)} : env.fs.lookup env.fs.cwd arg = .ok i →
      Walked env arg i w → WalkedRoots args w' → WalkedRoots (arg :: args) (w ++ w')
  | missing {arg : Path} {args : List Path} {e : Errno} {w : List (Path × Info)} :
      env.fs.lookup env.fs.cwd arg = .error e → WalkedRoots args w → WalkedRoots (arg :: args) ((arg, .ns) :: w)

/-- What is seen of an entry: `fts_path` and `fts_info`. -/
def see (p : FTSENT) (s : FTS ι) : Path × Info := (cstr s.path, p.info)

/-- The calls of `fts_read` after `fts_open` give the walk of the roots, in an order of the comparison function if there is
one, and then `NULL`. -/
def Walks (argv : List Path) : Prop :=
  ∃ s w order, ftsOpen env argv = some s ∧ Ends (ftsRead env) see (ftsRead env s) w ∧ order.Perm argv ∧
    (env.compar = none → order = argv) ∧ WalkedRoots env order w

/-- A root is a directory. -/
def IsDir (arg : Path) : Prop := ∃ i, env.fs.lookup env.fs.cwd arg = .ok i ∧ env.fs.kind i = .dir

end Spec

/-! ## Roots -/

section Roots

variable {ι : Type} {env : Env ι}

/-- The working directory at the start of a walk. -/
def vwdInit : Vwd ι := ⟨atFdcwd, iRingInit, [], []⟩

/-- `fts_info` of a root. -/
def rootInfo (env : Env ι) (arg : Path) : Info :=
  match env.fs.lookup env.fs.cwd arg with
  | .error _ => .ns
  | .ok i =>
    match env.fs.kind i with
    | .dir => .d
    | .lnk => .sl
    | .reg => .f
    | _ => .default

theorem lookup_vwdInit (path : Path) : (vwdInit : Vwd ι).lookup env path = env.fs.lookup env.fs.cwd path := by
  simp [vwdInit, Vwd.lookup, Vwd.dirOf]

theorem rootInfo_eq_d_iff (arg : Path) : rootInfo env arg = .d ↔ IsDir env arg := by
  unfold rootInfo IsDir
  cases env.fs.lookup env.fs.cwd arg with
  | error e => simp
  | ok i => cases hkind : env.fs.kind i <;> simp [hkind]

theorem rootInfo_ne (arg : Path) : rootInfo env arg ≠ .dp ∧ rootInfo env arg ≠ .nsok := by
  unfold rootInfo
  split
  · simp
  · split <;> simp

/-- A root is stat'ed. -/
theorem ftsStat_root (env : Env ι) {path : List Byte} {p : FTSENT} {arg : Path} (haccess : p.access path = some arg) (hlevel : p.level = 0) :
    ∃ p', ftsStat env vwdInit path p = some p' ∧ p'.info = rootInfo env arg ∧ p'.level = 0 ∧ p'.instr = p.instr ∧
      p'.name = p.name := by
  simp only [ftsStat, haccess, lookup_vwdInit, Option.bind_eq_bind, Option.bind_some, rootInfo]
  cases env.fs.lookup env.fs.cwd arg with
  | error e => exact ⟨_, rfl, rfl, hlevel, rfl, rfl⟩
  | ok i => cases hkind : env.fs.kind i <;> simp [hkind, hlevel]

/-- An entry that `fts_open` has made of a root. -/
structure IsRoot (env : Env ι) (p : FTSENT) : Prop where
  level : p.level = 0
  info : p.info = .nsok ∧ p.required = true ∨ p.info = rootInfo env p.name

variable {p : FTSENT} {link : List FTSENT} {above : List Frame} {s : FTS ι}

/-- The assertion of `cycle_check` fails at its first call. -/
theorem enterDir_assert (hassert : env.ndebug = false) : enterDir env cycleCheckInit p = none := by
  simp [enterDir, cycleCheck, cycleCheckInit, hassert]

theorem checkForDir_eq {p' : FTSENT}
    (h : (if p.info = .nsok ∧ p.required then ftsStat env s.vwd s.path p else some p) = some p') :
    checkForDir env s p link above =
      if p'.info = .d then
        (enterDir env s.cycle p').bind fun r => some (some r.1, { s with cur := ⟨r.1, link⟩ :: above, cycle := r.2 })
      else some (some p', { s with cur := ⟨p', link⟩ :: above }) := by
  unfold checkForDir
  split at h
  · rw [if_pos ‹_›, h]
    rfl
  · rw [if_neg ‹_›]
    cases h
    rfl

/-- A root is returned, or it is a directory and the assertion fails. -/
theorem checkForDir_root (hassert : env.ndebug = false) {arg : Path} (hvwd : s.vwd = vwdInit)
    (hcycle : s.cycle = cycleCheckInit) (link : List FTSENT) (above : List Frame) (haccess : p.access s.path = some arg) (hlevel : p.level = 0)
    (hinfo : p.info = .nsok ∧ p.required = true ∨ p.info = rootInfo env arg) :
    if rootInfo env arg = .d then checkForDir env s p link above = none
    else ∃ p', checkForDir env s p link above = some (some p', { s with cur := ⟨p', link⟩ :: above }) ∧
      p'.info = rootInfo env arg := by
  have hstat : ∃ p', (if p.info = .nsok ∧ p.required then ftsStat env s.vwd s.path p else some p) = some p' ∧
      p'.info = rootInfo env arg := by
    by_cases hpending : p.info = .nsok ∧ p.required = true
    · obtain ⟨p', hstat, hinfo', -⟩ := ftsStat_root env haccess hlevel
      refine ⟨p', ?_, hinfo'⟩
      rw [if_pos hpending, hvwd, hstat]
    · exact ⟨p, if_neg hpending, hinfo.resolve_left hpending⟩
  obtain ⟨p', hstat, hinfo'⟩ := hstat
  rw [checkForDir_eq hstat, hinfo']
  split
  · rw [hcycle, enterDir_assert hassert]
    rfl
  · exact ⟨p', rfl, hinfo'⟩

theorem restoreInitialCwd_init (hopt : env.options.isNochdir = true) : restoreInitialCwd env vwdInit = some vwdInit := by
  simp [restoreInitialCwd, hopt, fdRingClear, fdRingClearOne, vwdInit, iRingPop, iRingInit]

/-- The frame of the parent of the roots. -/
def rootParent : Frame := ⟨{ ftsAlloc [] with level := -1 }, []⟩

/-- The stream is at a root, with more roots behind it. -/
structure AtRoots (env : Env ι) (s : FTS ι) (ps : List FTSENT) : Prop where
  vwd : s.vwd = vwdInit
  stop : s.stop = false
  roots : ∀ p ∈ ps, IsRoot env p ∧ 0 ∉ p.name ∧ p.name.length < s.path.length

theorem cstr_append_zero {p : Path} (r : List Byte) (h : 0 ∉ p) : cstr (p ++ 0 :: r) = p := by
  induction p with
  | nil => rfl
  | cons c p ih =>
    have hc : c ≠ 0 := fun hc => h (by simp [hc])
    have ih := ih fun hp => h (List.mem_cons_of_mem _ hp)
    unfold cstr at ih ⊢
    rw [List.cons_append, List.takeWhile_cons_of_pos (by simpa using hc), ih]

/-- A root is loaded: its name is in the buffer. -/
theorem ftsLoad_root {path : List Byte} (hzero : 0 ∉ p.name) (hlen : p.name.length < path.length) :
    ∃ path' p', ftsLoad path p = some (path', p') ∧ path'.length = path.length ∧ cstr path' = p.name ∧
      p'.accpath = .path ∧ p'.level = p.level ∧ p'.info = p.info ∧ p'.required = p.required := by
  have hpoke : poke path 0 (p.name ++ [0]) = some (p.name ++ 0 :: path.drop (p.name.length + 1)) := by
    unfold poke
    rw [if_pos (by simpa using Nat.succ_le_of_lt hlen)]
    simp
  have hload : ftsLoad path p = some (p.name ++ 0 :: path.drop (p.name.length + 1),
      { p with pathlen := p.name.length, name := lastName p.name, accpath := .path }) := by
    rw [ftsLoad, hpoke]
    rfl
  refine ⟨_, _, hload, ?_, cstr_append_zero _ hzero, rfl, rfl, rfl, rfl⟩
  simp only [List.length_append, List.length_cons, List.length_drop]
  omega

/-- The next root. -/
theorem ftsNext_root (hopt : env.options.isNochdir = true) (hassert : env.ndebug = false) {ps : List FTSENT}
    (h : AtRoots env s (p :: ps)) :
    if rootInfo env p.name = .d then ftsNext env s [rootParent] (p :: ps) = none
    else ∃ p' s', ftsNext env s [rootParent] (p :: ps) = some (some p', s') ∧ see p' s' = (p.name, rootInfo env p.name) ∧
      AtRoots env s' ps ∧ ftsRead env s' = ftsNext env s' [rootParent] ps := by
  obtain ⟨hroot, hzero, hlen⟩ := h.roots p List.mem_cons_self
  obtain ⟨path', p₁, hload, hlen', hcstr, haccpath, hlevel, hinfo, hrequired⟩ := ftsLoad_root hzero hlen
  have hnext : ftsNext env s [rootParent] (p :: ps) =
      checkForDir env { s with path := path', vwd := vwdInit, cycle := cycleCheckInit } p₁ ps [rootParent] := by
    simp only [ftsNext, hroot.level, if_true, h.vwd, restoreInitialCwd_init hopt, hload, Option.bind_eq_bind,
      Option.bind_some]
  have haccess : p₁.access path' = some p.name := by simp [FTSENT.access, haccpath, hcstr]
  have hcheck := checkForDir_root (s := { s with path := path', vwd := vwdInit, cycle := cycleCheckInit }) hassert rfl rfl
    ps [rootParent] haccess (by rw [hlevel, hroot.level]) (by rw [hinfo, hrequired]; exact hroot.info)
  rw [hnext]
  split at hcheck
  · rwa [if_pos ‹_›]
  · rename_i hdir
    rw [if_neg hdir]
    obtain ⟨p', hrun, hinfo'⟩ := hcheck
    refine ⟨p', _, hrun, ?_, ?_, ?_⟩
    · simp [see, hcstr, hinfo']
    · refine ⟨rfl, h.stop, ?_⟩
      intro q hq
      obtain ⟨hq, hzero, hlen⟩ := h.roots q (List.mem_cons_of_mem _ hq)
      exact ⟨hq, hzero, by rw [← hlen'] at hlen; exact hlen⟩
    · simp [ftsRead, h.stop, hinfo', hdir]

/-- Without a directory among them, the roots come one after the other. -/
theorem ends_roots (hopt : env.options.isNochdir = true) (hassert : env.ndebug = false) {ps : List FTSENT}
    (h : AtRoots env s ps) (hdir : ∀ p ∈ ps, rootInfo env p.name ≠ .d) :
    Ends (ftsRead env) see (ftsNext env s [rootParent] ps) (ps.map fun p => (p.name, rootInfo env p.name)) := by
  induction ps generalizing s with
  | nil => exact ends_end _
  | cons p ps ih =>
    have hnext := ftsNext_root hopt hassert h
    rw [if_neg (hdir p List.mem_cons_self)] at hnext
    obtain ⟨p', s', hrun, hsee, hat, hread⟩ := hnext
    have hrest := ih hat fun q hq => hdir q (List.mem_cons_of_mem _ hq)
    rw [← hread] at hrest
    have hone : Passes (ftsRead env) see (some (some p', s')) [see p' s'] (ftsRead env s') := .one
    rw [hrun, List.map_cons, ← hsee]
    exact hone.ends hrest

/-- With a directory among them, the end does not come. -/
theorem not_ends_roots (hopt : env.options.isNochdir = true) (hassert : env.ndebug = false) {ps : List FTSENT}
    (h : AtRoots env s ps) (hdir : ∃ p ∈ ps, rootInfo env p.name = .d) (w : List (Path × Info)) :
    ¬ Ends (ftsRead env) see (ftsNext env s [rootParent] ps) w := by
  induction ps generalizing s w with
  | nil => simp at hdir
  | cons p ps ih =>
    have hnext := ftsNext_root hopt hassert h
    split at hnext
    · rw [hnext]
      rintro ⟨s', hpasses⟩
      cases hpasses
    · rename_i hp
      obtain ⟨p', s', hrun, -, hat, hread⟩ := hnext
      rw [hrun]
      intro hends
      obtain ⟨w', -, hends⟩ := hends.tail
      rw [hread] at hends
      refine ih hat ?_ w' hends
      simpa [hp] using hdir

/-! ## `fts_open` -/

theorem isRoot_stat (env : Env ι) (path : List Byte) (arg : Path) :
    ∃ p, ftsStat env vwdInit path (ftsAlloc arg) = some p ∧ IsRoot env p ∧ p.name = arg := by
  obtain ⟨p, hstat, hinfo, hlevel, -, hname⟩ := ftsStat_root (p := ftsAlloc arg) env (show (ftsAlloc arg).access path = some arg from rfl) rfl
  refine ⟨p, hstat, ⟨hlevel, .inr ?_⟩, hname⟩
  rw [hinfo, hname]
  rfl

theorem mapM_roots (env : Env ι) (path : List Byte) (argv : List Path) :
    ∃ ps, (argv.mapM fun arg => ftsStat env vwdInit path (ftsAlloc arg)) = some ps ∧ ps.map FTSENT.name = argv ∧
      ∀ p ∈ ps, IsRoot env p := by
  induction argv with
  | nil => exact ⟨[], rfl, rfl, by simp⟩
  | cons arg argv ih =>
    obtain ⟨p, hstat, hroot, hname⟩ := isRoot_stat env path arg
    obtain ⟨ps, hmap, hnames, hroots⟩ := ih
    refine ⟨p :: ps, ?_, by rw [List.map_cons, hname, hnames], List.forall_mem_cons.mpr ⟨hroot, hroots⟩⟩
    rw [List.mapM_cons, hstat, hmap]
    rfl

/-- The list of the roots. -/
theorem ftsOpenRoots_spec (env : Env ι) (path : List Byte) (argv : List Path) :
    ∃ ps, ftsOpenRoots env vwdInit path argv = some ps ∧ (ps.map FTSENT.name).Perm argv ∧
      (env.compar = none → ps.map FTSENT.name = argv) ∧ ∀ p ∈ ps, IsRoot env p := by
  unfold ftsOpenRoots
  cases hcompar : env.compar with
  | some compar =>
    obtain ⟨ps, hmap, hnames, hroots⟩ := mapM_roots env path argv
    have hperm : (if ps.reverse.length > 1 then ftsSort env compar ps.reverse else ps.reverse).Perm ps := by
      split
      · exact (env.qsort_perm compar ps.reverse).trans ps.reverse_perm
      · exact ps.reverse_perm
    refine ⟨_, by simp only [hmap, Option.bind_eq_bind, Option.bind_some]; rfl, ?_, by simp, ?_⟩
    · rw [← hnames]
      exact hperm.map _
    · intro p hp
      exact hroots p (hperm.subset hp)
  | none =>
    cases argv with
    | nil => exact ⟨[], rfl, .refl _, fun _ => rfl, by simp⟩
    | cons arg argv =>
      obtain ⟨p, hstat, hroot, hname⟩ := isRoot_stat env path arg
      have hnames : ((argv.map fun arg => { ftsAlloc arg with info := .nsok, required := true }).map FTSENT.name) = argv := by
        rw [List.map_map]
        exact List.map_id argv
      refine ⟨_, by simp only [hstat, Option.bind_eq_bind, Option.bind_some]; rfl, ?_, ?_, ?_⟩
      · rw [List.map_cons, hname, hnames]
      · intro _
        rw [List.map_cons, hname, hnames]
      · rw [List.forall_mem_cons]
        refine ⟨hroot, ?_⟩
        intro q hq
        obtain ⟨arg', -, rfl⟩ := List.mem_map.mp hq
        exact ⟨rfl, .inl ⟨rfl, rfl⟩⟩

theorem le_foldl_max (l : List ℕ) (k : ℕ) : k ≤ l.foldl max k ∧ ∀ n ∈ l, n ≤ l.foldl max k := by
  induction l generalizing k with
  | nil => simp
  | cons m l ih =>
    obtain ⟨hk, hl⟩ := ih (max k m)
    rw [List.foldl_cons, List.forall_mem_cons]
    exact ⟨(Nat.le_max_left k m).trans hk, (Nat.le_max_right k m).trans hk, hl⟩

/-- The buffer that `fts_open` makes holds every root with its `NUL`. -/
theorem length_lt_buffer (env : Env ι) {argv : List Path} {arg : Path} (h : arg ∈ argv) :
    arg.length < (ftsPalloc env [] (max (ftsMaxarglen argv) 1024)).1.length := by
  have hle := (le_foldl_max (argv.map List.length) 0).2 arg.length (List.mem_map_of_mem h)
  simp [ftsPalloc, ftsMaxarglen]
  omega

/-- The stream after `fts_open`, and the first call of `fts_read`. -/
theorem ftsOpen_spec (env : Env ι) {argv : List Path} (hzero : ∀ arg ∈ argv, 0 ∉ arg) :
    ∃ s ps, ftsOpen env argv = some s ∧ AtRoots env s ps ∧ (ps.map FTSENT.name).Perm argv ∧
      (env.compar = none → ps.map FTSENT.name = argv) ∧
      ftsRead env s = ftsNext env s (if argv ≠ [] then [rootParent] else []) ps := by
  obtain ⟨ps, hroots, hperm, horder, hall⟩ :=
    ftsOpenRoots_spec env (ftsPalloc env [] (max (ftsMaxarglen argv) 1024)).1 argv
  have hroots : ftsOpenRoots env ⟨atFdcwd, iRingInit, [], []⟩ (ftsPalloc env [] (max (ftsMaxarglen argv) 1024)).1 argv =
      some ps := hroots
  refine ⟨_, ps, by simp only [ftsOpen, hroots, Option.bind_eq_bind, Option.bind_some]; rfl, ⟨rfl, rfl, ?_⟩, hperm,
    horder, rfl⟩
  intro p hp
  have hmem : p.name ∈ argv := hperm.subset (List.mem_map_of_mem hp)
  exact ⟨hall p hp, hzero p.name hmem, length_lt_buffer env hmem⟩

/-- A root that is no directory comes once. -/
theorem walkedRoots_map {args : List Path} (h : ∀ arg ∈ args, rootInfo env arg ≠ .d) :
    WalkedRoots env args (args.map fun arg => (arg, rootInfo env arg)) := by
  induction args with
  | nil => exact .nil
  | cons arg args ih =>
    have ih := ih fun a ha => h a (List.mem_cons_of_mem _ ha)
    have harg := h arg List.mem_cons_self
    rw [List.map_cons]
    cases hlookup : env.fs.lookup env.fs.cwd arg with
    | error e =>
      have hinfo : rootInfo env arg = .ns := by simp [rootInfo, hlookup]
      rw [hinfo]
      exact .missing hlookup ih
    | ok i =>
      have hkind : env.fs.kind i ≠ .dir := fun h => harg ((rootInfo_eq_d_iff arg).mpr ⟨i, hlookup, h⟩)
      exact .found hlookup (.leaf hkind harg (rootInfo_ne arg).1) ih

/-- With assertions and `FTS_NOCHDIR`, the calls of `fts_read` give the walk in depth first order, and then `NULL`, if and
only if there is a root and none is a directory. -/
theorem walks_iff (hopt : env.options.isNochdir = true) (hassert : env.ndebug = false) {argv : List Path}
    (hzero : ∀ arg ∈ argv, 0 ∉ arg) : Walks env argv ↔ argv ≠ [] ∧ ∀ arg ∈ argv, ¬ IsDir env arg := by
  obtain ⟨s, ps, hopen, hat, hperm, horder, hread⟩ := ftsOpen_spec env hzero
  constructor
  · rintro ⟨s', w, order, hopen', hends, -, -, -⟩
    rw [hopen] at hopen'
    cases hopen'
    have hne : argv ≠ [] := by
      rintro rfl
      obtain rfl : ps = [] := by simpa using hperm
      rw [hread] at hends
      obtain ⟨s', hpasses⟩ := hends
      cases hpasses
    refine ⟨hne, ?_⟩
    rintro arg harg hdir
    rw [hread, if_pos hne] at hends
    refine not_ends_roots hopt hassert hat ?_ w hends
    obtain ⟨p, hp, rfl⟩ := List.mem_map.mp (hperm.symm.subset harg)
    exact ⟨p, hp, (rootInfo_eq_d_iff p.name).mpr hdir⟩
  · rintro ⟨hne, hdir⟩
    have hinfo : ∀ arg ∈ ps.map FTSENT.name, rootInfo env arg ≠ .d :=
      fun arg harg h => hdir arg (hperm.subset harg) ((rootInfo_eq_d_iff arg).mp h)
    have hends := ends_roots hopt hassert hat fun p hp => hinfo p.name (List.mem_map_of_mem hp)
    refine ⟨s, _, ps.map FTSENT.name, hopen, ?_, hperm, horder, walkedRoots_map hinfo⟩
    rw [hread, if_pos hne, List.map_map]
    exact hends

end Roots

/-! ## A file and a directory -/

/-- A regular file `f`, and an empty directory under every name with another first letter. -/
def fileAndDir : FileSys Bool where
  cwd := true
  lookup _ path :=
    match path with
    | [] => .error .enoent
    | [102] => .ok false
    | 102 :: _ => .error .enotdir
    | _ => .ok true
  follow i := .ok i
  kind i := if i then .dir else .reg
  dev _ := 1
  ino i := if i then 2 else 3
  readdir i := if i then .ok [] else .error .enotdir
  lookup_nil _ := rfl
  lookup_slash _ p i hp h := by
    cases p with
    | nil => exact absurd rfl hp
    | cons c p =>
      by_cases hc : c = 102
      · subst hc
        cases p <;> simp at h
      · simp [hc] at h ⊢
        exact h
  follow_file _ _ := rfl

/-- A process that walks over it, with assertions. -/
def plainEnv (options : Options) : Env Bool where
  fs := fileAndDir
  options := options
  ndebug := false
  compar := none
  qsort _ l := l
  moves _ := false
  junk _ := 0
  newFd used := ((used.map Int.natAbs).max?.getD 0 : ℕ) + 1
  inodeSortUseful _ := false
  qsort_perm _ l := List.Perm.refl l
  newFd_nonneg _ := by omega
  newFd_fresh used hmem := by
    have hle := List.le_max?_getD_of_mem (k := 0) (List.mem_map_of_mem (f := Int.natAbs) hmem)
    omega

theorem walks_f : Walks (plainEnv (.nochdir false false)) [[102]] ↔
    [[102]] ≠ ([] : List Path) ∧ ∀ arg ∈ [[102]], ¬ IsDir (plainEnv (.nochdir false false)) arg :=
  walks_iff rfl rfl (by decide)

/-- The walk of the root `d`. -/
theorem not_walks_d : ¬ Walks (plainEnv (.nochdir false false)) [[100]] := by
  have hzero : ∀ arg ∈ [[100]], (0 : Byte) ∉ arg := by decide
  obtain ⟨s, ps, hopen, hat, hperm, -, hread⟩ := ftsOpen_spec (plainEnv (.nochdir false false)) hzero
  rintro ⟨s', w, order, hopen', hends, -, -, -⟩
  rw [hopen] at hopen'
  cases hopen'
  rw [hread] at hends
  refine not_ends_roots rfl rfl hat ?_ w hends
  obtain ⟨p, hp, hname⟩ := List.mem_map.mp (hperm.symm.subset (List.mem_singleton_self [100]))
  exact ⟨p, hp, by rw [hname]; rfl⟩

end CodingExercises.Coreutils.Fts
