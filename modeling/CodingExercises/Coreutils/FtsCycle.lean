import CodingExercises.Coreutils.FtsRoots
import CodingExercises.Coreutils.HashReads

/-!
# fts: cycles

`lib/fts-cycle.c`, in the lazy mode (with `lib/cycle-check.c`) and in the tight mode (with `lib/hash.c`), called in the
order in which `fts_read` and `fts_build` call it for a tree of files.

- The number in `lib/cycle-check.c` is not the one in `lib/fts-cycle.c`: the assertion of `cycle_check` fails at its first
  call.
- `AD_compare` is called with `NULL` for an empty bucket, and a new table has empty buckets only: the first call of
  `enter_dir` reads through `NULL`.

So neither mode gets past the first directory (`walk_iff`).
-/

namespace CodingExercises.Coreutils.FtsCycle

open Fts (Env FTSENT Stat CycleCheckState cycleCheckInit)

/-- `FTS_TIGHT_CYCLE_CHECK`. -/
inductive Mode
  | lazy
  | tight
deriving DecidableEq

/-- `struct Active_dir`, with its address and without `fts_ent`, which goes to an `fts_cycle` that nothing reads. -/
structure ActiveDir where
  addr : ℕ
  dev : ℕ
  ino : ℕ
deriving DecidableEq

/-- `AD_compare`. -/
def adCompare (ax : ActiveDir) : Option ActiveDir → Bool
  | some ay => ax.ino = ay.ino ∧ ax.dev = ay.dev
  | none => false

/-- `AD_hash`. -/
def adHash : Option ActiveDir → ℕ → ℕ
  | some ax, tableSize => ax.ino % tableSize
  | none, _ => 0

/-- The functions that `hash_initialize` is given. -/
def callbacks : Callbacks ActiveDir := ⟨adHash, adCompare, true⟩

/-- `fts_cycle` of the stream: `state` or `ht`, either of which may be `NULL`. -/
inductive Cycle
  | state (p : Option CycleCheckState)
  | ht (p : Option (Table ActiveDir))

/-- `fts_cycle` and the memory. -/
structure Walk where
  cycle : Cycle
  world : World ActiveDir

/-- `free_dir`. -/
def freeDir (s : Walk) : Walk :=
  match s.cycle with
  | .ht (some table) => { s with world := (hashFree callbacks table s.world).start }
  | _ => s

/-- `setup_dir`. -/
def setupDir (mode : Mode) (w : World ActiveDir) : Bool × Walk :=
  match mode with
  | .tight =>
    let (table, w) := hashInitialize single w 31 none
    (table.isSome, ⟨.ht table, w⟩)
  | .lazy =>
    match w.malloc with
    | (false, w) => (false, ⟨.state none, w⟩)
    | (true, w) => (true, ⟨.state (some cycleCheckInit), w⟩)

section Program

variable {ι : Type} (env : Env ι)

/-- `enter_dir`. -/
def enterDir (s : Walk) (ent : FTSENT) : Except Halt (Bool × FTSENT × Walk) :=
  match s.cycle with
  | .ht ht =>
    match s.world.malloc with
    | (false, w) => .ok (false, ent, { s with world := w })
    | (true, w) =>
      let ad : ActiveDir := ⟨w.asked, ent.stat.dev, ent.stat.ino⟩
      match ht with
      | none => .error .null
      | some table =>
        match hashed (hashInsert callbacks single table w ad) with
        | .error e => .error e
        | .ok ((adFromTable, table), w) =>
          if adFromTable ≠ some ad then
            if adFromTable = none then .ok (false, ent, ⟨.ht (some table), w⟩)
            else .ok (true, { ent with info := .dc }, ⟨.ht (some table), w⟩)
          else .ok (true, ent, ⟨.ht (some table), w⟩)
  | .state none => .error .null
  | .state (some state) =>
    match Fts.enterDir env state ent with
    | none => .error .abort
    | some (ent, state) => .ok (true, ent, { s with cycle := .state (some state) })

/-- `leave_dir`. -/
def leaveDir (s : Walk) (ent : FTSENT) (parent : Option FTSENT) : Except Halt Walk :=
  match s.cycle with
  | .ht none => .error .null
  | .ht (some table) =>
    match hashed (hashDelete callbacks single table s.world ⟨0, ent.stat.dev, ent.stat.ino⟩) with
    | .error e => .error e
    | .ok ((none, _), _) => .error .abort
    | .ok ((some _, table), w) => .ok ⟨.ht (some table), w⟩
  | .state none => .error .null
  | .state (some state) =>
    match Fts.leaveDir state ent parent with
    | none => .error .abort
    | some state => .ok { s with cycle := .state (some state) }

/-- What a walk finds: a file that is no directory, a directory that is left at once (one that is skipped or cannot be
read), or a directory with what is in it. `again` is what `fts_build` finds in the tight mode, once it has opened the
directory. -/
inductive Tree
  | file
  | skipped (stat : Stat)
  | dir (stat again : Stat) (children : List Tree)

/-- The entry of a directory. -/
def entryOf (stat : Stat) (level : ℤ) : FTSENT := { Fts.ftsAlloc [] with stat, level, info := .d }

/-- The part of `fts_build` with the tag "4", if there is a directory to be read. -/
def restat (mode : Mode) (s : Walk) (ent : FTSENT) (again : Stat) (parent : Option FTSENT) :
    Except Halt (Bool × FTSENT × Walk) :=
  match mode with
  | .lazy => .ok (true, ent, s)
  | .tight =>
    match leaveDir s ent parent with
    | .error e => .error e
    | .ok s => enterDir env s { ent with stat := again }

mutual

/-- `fts_read` from the place where a file is read to the one where what comes after it is; `false` where `enter_dir`
fails and the walk is over. -/
def visit (mode : Mode) (parent : Option FTSENT) (level : ℤ) : Tree → Walk → Except Halt (Bool × Walk)
  | .file, s => .ok (true, s)
  | .skipped stat, s =>
    match enterDir env s (entryOf stat level) with
    | .error e => .error e
    | .ok (false, _, s) => .ok (false, s)
    | .ok (true, ent, s) =>
      if ent.info = .dc then .ok (true, s)
      else
        match leaveDir s ent parent with
        | .error e => .error e
        | .ok s => .ok (true, s)
  | .dir stat again children, s =>
    match enterDir env s (entryOf stat level) with
    | .error e => .error e
    | .ok (false, _, s) => .ok (false, s)
    | .ok (true, ent, s) =>
      if ent.info = .dc then .ok (true, s)
      else
        match restat env mode s ent again parent with
        | .error e => .error e
        | .ok (false, _, s) => .ok (false, s)
        | .ok (true, ent, s) =>
          match visits mode (some ent) (level + 1) children s with
          | .error e => .error e
          | .ok (false, s) => .ok (false, s)
          | .ok (true, s) =>
            match leaveDir s ent parent with
            | .error e => .error e
            | .ok s => .ok (true, s)

/-- The files of a directory. -/
def visits (mode : Mode) (parent : Option FTSENT) (level : ℤ) : List Tree → Walk → Except Halt (Bool × Walk)
  | [], s => .ok (true, s)
  | tree :: trees, s =>
    match visit mode parent level tree s with
    | .error e => .error e
    | .ok (false, s) => .ok (false, s)
    | .ok (true, s) => visits mode parent level trees s

end

/-- The roots, each with a new `fts_cycle`; whether there is one is not tested. -/
def roots (mode : Mode) : List Tree → Walk → Except Halt Walk
  | [], s => .ok (freeDir s)
  | tree :: trees, s =>
    match visit env mode none 0 tree (setupDir mode (freeDir s).world).2 with
    | .error e => .error e
    | .ok (false, s) => .ok (freeDir s)
    | .ok (true, s) => roots mode trees s

/-- A walk from `fts_open` to `fts_close`. -/
def walk (mode : Mode) (answers : ℕ → Bool) (forest : List Tree) : Except Halt Walk :=
  match setupDir mode ⟨answers, 0, []⟩ with
  | (false, s) => .ok s
  | (true, s) => roots env mode forest s

/-! ## The first call of `enter_dir` -/

theorem comparator_iff (ax ay : ActiveDir) :
    callbacks.comparator ax (some ay) = true ↔ ax.ino = ay.ino ∧ ax.dev = ay.dev := by
  simp [callbacks, adCompare]

theorem callbacks_lawful : callbacks.Lawful := by
  constructor
  · intro ax n hn
    exact Nat.mod_lt ax.ino hn
  · simp only [comparator_iff]
    constructor
    · intro ax
      exact ⟨rfl, rfl⟩
    · rintro ax ay ⟨hino, hdev⟩
      exact ⟨hino.symm, hdev.symm⟩
    · rintro ax ay az ⟨hino, hdev⟩ ⟨hino', hdev'⟩
      exact ⟨hino.trans hino', hdev.trans hdev'⟩
  · intro ax ay n h
    obtain ⟨hino, -⟩ := (comparator_iff ax ay).mp h
    simp only [callbacks, adHash, hino]

/-- The table has buckets. -/
theorem size_ne_zero : computeBucketSize single 31 (defaultTuning single) ≠ 0 := by
  decide +kernel

/-- With memory, there is a table. -/
theorem hashInitialize_ample {w : World ActiveDir} (h : w.answers = fun _ => true) :
    ∃ table, hashInitialize single w 31 none = (some table, { w with asked := w.asked + 2 }) := by
  have hsome : ∃ table, (hashInitialize single w 31 none).1 = some table := by
    simp [hashInitialize, World.malloc, h, checkTuning, Table.tuned, size_ne_zero]
  obtain ⟨table, htable⟩ := hsome
  exact ⟨table, hashInitialize_eq htable⟩

/-- The world of a walk is still ample after `setup_dir`. -/
theorem setupDir_answers (mode : Mode) {w : World ActiveDir} (h : w.answers = fun _ => true) :
    (setupDir mode w).1 = true ∧ (setupDir mode w).2.world.answers = fun _ => true := by
  cases mode with
  | lazy =>
    simp [setupDir, World.malloc, h]
  | tight =>
    obtain ⟨table, htable⟩ := hashInitialize_ample h
    simp [setupDir, htable, h]

theorem foldl_answers {γ : Type} {f : World ActiveDir → γ → World ActiveDir} (h : ∀ w x, (f w x).answers = w.answers)
    (l : List γ) (w : World ActiveDir) : (l.foldl f w).answers = w.answers := by
  induction l generalizing w with
  | nil => rfl
  | cons x l ih => rw [List.foldl_cons, ih, h]

theorem freeDir_answers (s : Walk) : (freeDir s).world.answers = s.world.answers := by
  have hdata : ∀ (w : World ActiveDir) (b : Bucket ActiveDir),
      (freeData callbacks w (b.data :: b.next)).answers = w.answers := by
    intro w b
    apply foldl_answers
    intro w data
    rfl
  unfold freeDir
  split
  · unfold hashFree
    split
    · exact foldl_answers hdata _ _
    · rfl
  · rfl

/-- In the lazy mode, the assertion fails. -/
theorem enterDir_lazy (hdebug : env.ndebug = false) (w : World ActiveDir) (ent : FTSENT) :
    enterDir env (setupDir .lazy w).2 ent = .error (if w.answers w.asked then .abort else .null) := by
  cases h : w.answers w.asked with
  | false =>
    simp [setupDir, World.malloc, h, enterDir]
  | true =>
    simp [setupDir, World.malloc, h, enterDir, Fts.enterDir, Fts.cycleCheck, cycleCheckInit, hdebug]

/-- In the tight mode, an insertion into the new table reads through `NULL`, unless there is no memory for the entry. -/
theorem enterDir_tight (w : World ActiveDir) (ent : FTSENT) :
    let s := (setupDir .tight w).2
    enterDir env s ent =
      if s.world.answers s.world.asked then .error .null else .ok (false, ent, { s with world := s.world.malloc.2 }) := by
  intro s
  cases hanswer : s.world.answers s.world.asked with
  | false =>
    simp [s, setupDir] at hanswer
    simp [s, setupDir, enterDir, World.malloc, hanswer]
  | true =>
    have hmalloc : s.world.malloc = (true, { s.world with asked := s.world.asked + 1 }) := by rw [World.malloc, hanswer]
    rcases hinit : hashInitialize single w 31 none with ⟨_ | table, w'⟩
    · have hs : s = ⟨.ht none, w'⟩ := by simp [s, setupDir, hinit]
      rw [hs] at hmalloc ⊢
      simp [enterDir, hmalloc]
    · have hs : s = ⟨.ht (some table), w'⟩ := by simp [s, setupDir, hinit]
      rw [hs] at hmalloc ⊢
      simp [enterDir, hmalloc, hashed_insert (vacant_init hinit callbacks) callbacks_lawful]

/-! ## Walks -/

variable {env} {mode : Mode}

/-- A directory is not walked past a call of `enter_dir` that is stopped. -/
theorem visit_stops {tree : Tree} (hdir : tree ≠ .file) {s : Walk} {e : Halt} {parent : Option FTSENT} {level : ℤ}
    (h : ∀ ent, enterDir env s ent = .error e) : visit env mode parent level tree s = .error e := by
  cases tree with
  | file => exact absurd rfl hdir
  | skipped stat => simp only [visit, h]
  | dir stat again children => simp only [visit, h]

/-- Nor is it past one that fails. -/
theorem visit_fails {tree : Tree} (hdir : tree ≠ .file) {s s' : Walk} {parent : Option FTSENT} {level : ℤ}
    (h : ∀ ent, enterDir env s ent = .ok (false, ent, s')) : visit env mode parent level tree s = .ok (false, s') := by
  cases tree with
  | file => exact absurd rfl hdir
  | skipped stat => simp only [visit, h]
  | dir stat again children => simp only [visit, h]

/-- A root that is no directory is passed over. -/
theorem roots_file (forest : List Tree) (s : Walk) :
    roots env mode (.file :: forest) s = roots env mode forest (setupDir mode (freeDir s).world).2 := by
  simp only [roots, visit]

/-- Roots that are no directories are walked to the end. -/
theorem roots_files {forest : List Tree} (h : ∀ tree ∈ forest, tree = .file) (s : Walk) :
    ∃ s', roots env mode forest s = .ok s' := by
  induction forest generalizing s with
  | nil => exact ⟨freeDir s, rfl⟩
  | cons tree forest ih =>
    obtain rfl := h tree List.mem_cons_self
    rw [roots_file]
    apply ih
    intro tree htree
    exact h tree (List.mem_cons_of_mem _ htree)

/-- What stops a walk in a mode. -/
def Mode.halt : Mode → Halt
  | .lazy => .abort
  | .tight => .null

/-- With memory, the walk is stopped at the first root that is a directory. -/
theorem roots_stops (hdebug : env.ndebug = false) {forest : List Tree} (h : ∃ tree ∈ forest, tree ≠ .file) {s : Walk}
    (hanswers : s.world.answers = fun _ => true) : roots env mode forest s = .error mode.halt := by
  induction forest generalizing s with
  | nil =>
    obtain ⟨tree, htree, -⟩ := h
    cases htree
  | cons tree forest ih =>
    have hfree : (freeDir s).world.answers = fun _ => true := by rw [freeDir_answers, hanswers]
    obtain ⟨-, hset⟩ := setupDir_answers mode hfree
    by_cases hfile : tree = .file
    · subst hfile
      rw [roots_file]
      apply ih
      · simpa using h
      · exact hset
    · have henter : ∀ ent, enterDir env (setupDir mode (freeDir s).world).2 ent = .error mode.halt := by
        intro ent
        cases mode with
        | lazy => simp [enterDir_lazy env hdebug, hfree, Mode.halt]
        | tight => simp [enterDir_tight, hset, Mode.halt]
      simp only [roots, visit_stops hfile henter]

/-- In the tight mode, no walk comes to a call of `abort`. -/
theorem roots_tight (forest : List Tree) (s : Walk) : roots env .tight forest s ≠ .error .abort := by
  induction forest generalizing s with
  | nil => simp [roots]
  | cons tree forest ih =>
    by_cases hfile : tree = .file
    · subst hfile
      rw [roots_file]
      apply ih
    · have henter := enterDir_tight env (freeDir s).world
      rw [roots]
      generalize (setupDir .tight (freeDir s).world).2 = s' at henter ⊢
      cases hanswer : s'.world.answers s'.world.asked with
      | false =>
        simp only [hanswer, Bool.false_eq_true, if_false] at henter
        simp [visit_fails hfile henter]
      | true =>
        simp only [hanswer, if_true] at henter
        simp [visit_stops hfile henter]

theorem walk_stops (hdebug : env.ndebug = false) {forest : List Tree} (h : ∃ tree ∈ forest, tree ≠ .file) :
    walk env mode (fun _ => true) forest = .error mode.halt := by
  obtain ⟨hset, hanswers⟩ := setupDir_answers mode (w := ⟨fun _ => true, 0, []⟩) rfl
  unfold walk
  split
  · rename_i h'
    simp [h'] at hset
  · rename_i s h'
    rw [h'] at hanswers
    exact roots_stops hdebug h hanswers

/-- A walk, whatever memory there is, comes to its end if and only if none of its roots is a directory; otherwise an
assertion fails in the lazy mode, and in the tight mode the program reads through `NULL` before it comes to an assertion or
a call of `abort`. -/
theorem walk_iff (hdebug : env.ndebug = false) (mode : Mode) (forest : List Tree) :
    ((∀ answers, ∃ s, walk env mode answers forest = .ok s) ↔ ∀ tree ∈ forest, tree = .file) ∧
      ((∀ answers, walk env mode answers forest ≠ .error .abort) ↔ mode = .tight ∨ ∀ tree ∈ forest, tree = .file) := by
  have hfiles : (∀ tree ∈ forest, tree = .file) → ∀ answers, ∃ s, walk env mode answers forest = .ok s := by
    intro h answers
    unfold walk
    split
    · exact ⟨_, rfl⟩
    · exact roots_files h _
  have hstops : ¬ (∀ tree ∈ forest, tree = .file) → walk env mode (fun _ => true) forest = .error mode.halt :=
    fun h => walk_stops hdebug (by simpa using h)
  constructor
  · refine ⟨?_, hfiles⟩
    intro h
    by_contra hdir
    obtain ⟨s, hs⟩ := h fun _ => true
    rw [hstops hdir] at hs
    cases hs
  · constructor
    · intro h
      cases mode with
      | tight => exact .inl rfl
      | lazy =>
        right
        by_contra hdir
        exact h (fun _ => true) (hstops hdir)
    · rintro (rfl | h) answers
      · unfold walk
        split
        · simp
        · apply roots_tight
      · obtain ⟨s, hs⟩ := hfiles h answers
        simp [hs]

end Program

/-! ## One directory -/

theorem walk_one :
    ((∀ answers, ∃ s, walk (Fts.plainEnv .cwdfd) .lazy answers [.skipped ⟨some .dir, 1, 2⟩] = .ok s) ↔
        ∀ tree ∈ [Tree.skipped ⟨some .dir, 1, 2⟩], tree = .file) ∧
      ((∀ answers, walk (Fts.plainEnv .cwdfd) .lazy answers [.skipped ⟨some .dir, 1, 2⟩] ≠ .error .abort) ↔
        Mode.lazy = .tight ∨ ∀ tree ∈ [Tree.skipped ⟨some .dir, 1, 2⟩], tree = .file) :=
  walk_iff rfl .lazy _

/-- A walk over one directory, in both modes. -/
theorem walk_one_stops :
    walk (Fts.plainEnv .cwdfd) .lazy (fun _ => true) [.skipped ⟨some .dir, 1, 2⟩] = .error .abort ∧
      walk (Fts.plainEnv .cwdfd) .tight (fun _ => true) [.skipped ⟨some .dir, 1, 2⟩] = .error .null := by
  have hdir : ∃ tree ∈ [Tree.skipped ⟨some .dir, 1, 2⟩], tree ≠ .file := ⟨_, List.mem_cons_self, Tree.noConfusion⟩
  exact ⟨walk_stops rfl hdir, walk_stops rfl hdir⟩

end CodingExercises.Coreutils.FtsCycle
