import CodingExercises.Lib.Brent
import CodingExercises.Coreutils.FtsCycle

/-!
# fts: which directories are cycles

`enter_dir` and `leave_dir` of `lib/fts-cycle.c`, called in any order in which directories are left before those that they
are in.

- With assertions no call of `enter_dir` comes to its end, and in the tight mode none does at all.
- Without assertions the lazy mode finds each descent that goes round in time, as the recorded directory comes again.
  `CYCLE_CHECK_REFLECT_CHDIR_UP` records the directory that is left and not its parent. So a directory is reported that is
  no cycle just when the recorded one is entered again after it was left (`cycles_right_iff`).
-/

namespace CodingExercises.Coreutils.FtsCycle

open Lib
open Fts (Env FTSENT Stat CycleCheckState cycleCheckInit)

/-- A call of `enter_dir`, for a directory with this `stat`, or of `leave_dir`, for the last directory that was entered and
not left. -/
inductive Turn
  | enter (stat : Stat)
  | leave

/-- What `enter_dir` says of an entry: whether it is `FTS_DC`, and its `fts_cycle` then. With it come the directories that
were entered and not left. -/
structure Report where
  active : List FTSENT
  ent : FTSENT
  dc : Bool
  cycle : Option FTSENT

/-- The state of a walk, with the `fts_ent` of each `struct Active_dir`, by its address; the directories that were entered
and not left, the last of them first; and what was reported. -/
structure Trail where
  walk : Walk
  ftsEnt : ℕ → Option FTSENT
  active : List FTSENT
  reports : List Report

/-- `st_dev` and `st_ino`. -/
def devIno (stat : Stat) : ℕ × ℕ := (stat.dev, stat.ino)

section

variable {ι : Type} (env : Env ι)

/-- `fts_cycle`, where `enter_dir` sets it. -/
def ftsCycle (s : Trail) (ent : FTSENT) : Option FTSENT :=
  match s.walk.cycle with
  | .state _ => some ent
  | .ht none => none
  | .ht (some table) =>
    let w := s.walk.world.malloc.2
    match (hashInsert callbacks single table w ⟨w.asked, ent.stat.dev, ent.stat.ino⟩).1 with
    | some (some found, _) => s.ftsEnt found.addr
    | _ => none

/-- A call. Where nothing is left to leave, there is none. -/
def Trail.step (s : Trail) : Turn → Except Halt Trail
  | .enter stat =>
    match enterDir env s.walk (entryOf stat s.active.length) with
    | .error e => .error e
    | .ok (false, _, walk) => .ok { s with walk }
    | .ok (true, ent, walk) =>
      let dc : Bool := ent.info = .dc
      .ok {
        walk
        ftsEnt := fun addr => if addr = s.walk.world.malloc.2.asked then some ent else s.ftsEnt addr
        active := if dc then s.active else ent :: s.active
        reports := s.reports ++ [⟨s.active, ent, dc, if dc then ftsCycle s ent else none⟩] }
  | .leave =>
    match s.active with
    | [] => .ok s
    | ent :: up =>
      match leaveDir s.walk ent up.head? with
      | .error e => .error e
      | .ok walk => .ok { s with walk, active := up }

/-- The calls, one after the other. -/
def Trail.run : List Turn → Trail → Except Halt Trail
  | [], s => .ok s
  | turn :: turns, s =>
    match s.step env turn with
    | .error e => .error e
    | .ok s => Trail.run turns s

/-- After `setup_dir`, with as much memory as it takes. -/
def fresh (mode : Mode) : Trail := ⟨(setupDir mode ⟨fun _ => true, 0, []⟩).2, fun _ => none, [], []⟩

/-- What a report should say: in the tight mode whether the directory is one that was entered and not left, which
`fts_cycle` is; in the lazy mode that, if it is reported. -/
def Report.Right (mode : Mode) (r : Report) : Prop :=
  match mode with
  | .tight =>
    (r.dc ↔ ∃ ent ∈ r.active, devIno ent.stat = devIno r.ent.stat) ∧
      (r.dc → ∃ ent ∈ r.active, devIno ent.stat = devIno r.ent.stat ∧ r.cycle = some ent)
  | .lazy => r.dc → ∃ ent ∈ r.active, devIno ent.stat = devIno r.ent.stat

/-- The calls come to their end, and each report is right. -/
def Right (mode : Mode) (turns : List Turn) : Prop :=
  ∃ s, (fresh mode).run env turns = .ok s ∧ ∀ r ∈ s.reports, r.Right mode

/-- The directories `f 0`, `f 1`, … are entered, `n` of them. -/
def descent (f : ℕ → Stat) (n : ℕ) : List Turn := (List.range n).map fun i => .enter (f i)

/-- A cycle is reported in a descent, after `n` calls at most. -/
def Finds (mode : Mode) (f : ℕ → Stat) (n : ℕ) : Prop :=
  ∃ k ≤ n, ∃ s, (fresh mode).run env (descent f k) = .ok s ∧ ∃ r ∈ s.reports, r.dc

end

/-! ## What is recorded -/

/-- The directories that are entered and left, as numbers, with the one that is marked: the last one whose number among
them was a power of two. -/
structure Trip where
  mark : Mark (ℕ × ℕ)
  active : List (ℕ × ℕ)

/-- A directory that is entered gets the next number, unless it is the marked one. -/
def Trip.step (t : Trip) : Turn → Trip
  | .enter stat =>
    match t.mark.visit (devIno stat) with
    | (true, _) => t
    | (false, mark) => ⟨mark, devIno stat :: t.active⟩
  | .leave => { t with active := t.active.tail }

/-- The marked directory is entered although it was left. -/
def Trip.ComesBack (t : Trip) : Turn → Prop
  | .enter stat => t.mark.last = some (devIno stat) ∧ devIno stat ∉ t.active
  | .leave => False

/-- The directory that is marked is entered after it was left, at some of the calls. -/
def Trip.Returns : List Turn → Trip → Prop
  | [], _ => False
  | turn :: turns, t => t.ComesBack turn ∨ Trip.Returns turns (t.step turn)

/-! ## Calls that are stopped -/

section

variable {ι : Type} {env : Env ι}

/-- The first call of `enter_dir` is stopped. -/
theorem run_stops {s : Trail} (hactive : s.active = []) {e : Halt} (h : ∀ ent, enterDir env s.walk ent = .error e)
    {turns : List Turn} (hturns : ∃ stat, .enter stat ∈ turns) : s.run env turns = .error e := by
  induction turns with
  | nil => simp at hturns
  | cons turn turns ih =>
    rw [Trail.run]
    cases turn with
    | enter stat => simp only [Trail.step, h]
    | leave =>
      simp only [Trail.step, hactive]
      exact ih (by simpa using hturns)

/-- Without a call of `enter_dir` nothing is reported. -/
theorem run_leaves {s : Trail} (hactive : s.active = []) {turns : List Turn} (h : ∀ stat, .enter stat ∉ turns) :
    s.run env turns = .ok s := by
  induction turns with
  | nil => rfl
  | cons turn turns ih =>
    rw [Trail.run]
    cases turn with
    | enter stat => exact absurd List.mem_cons_self (h stat)
    | leave =>
      simp only [Trail.step, hactive]
      exact ih fun stat hmem => h stat (List.mem_cons_of_mem _ hmem)

theorem right_of_leaves {mode : Mode} {turns : List Turn} (h : ∀ stat, .enter stat ∉ turns) : Right env mode turns :=
  ⟨_, run_leaves rfl h, by simp [fresh]⟩

/-- The first call is stopped in the tight mode, and with assertions. -/
theorem fresh_stops {mode : Mode} (h : env.ndebug = false ∨ mode = .tight) :
    ∃ e, ∀ ent, enterDir env (fresh mode).walk ent = .error e := by
  obtain ⟨-, hanswers⟩ := setupDir_answers mode (w := ⟨fun _ => true, 0, []⟩) rfl
  cases mode with
  | tight =>
    refine ⟨.null, fun ent => ?_⟩
    have henter := enterDir_tight env ⟨fun _ => true, 0, []⟩ ent
    simpa [fresh, hanswers] using henter
  | lazy =>
    have hdebug : env.ndebug = false := h.resolve_right (by simp)
    refine ⟨.abort, fun ent => ?_⟩
    have henter := enterDir_lazy env hdebug ⟨fun _ => true, 0, []⟩ ent
    simpa [fresh] using henter

/-! ## The lazy mode without assertions -/

/-- The state has the marked directory, and the same directories were entered and not left. -/
structure Sim (s : Trail) (t : Trip) : Prop where
  cycle : ∃ state, s.walk.cycle = .state (some state) ∧ state.chdirCounter = t.mark.count ∧ state.devIno = t.mark.last
  active : t.active = s.active.map fun ent => devIno ent.stat
  last : t.mark.last = none ↔ t.mark.count = 0
  count : t.mark.count = 0 → t.active = []

/-- Nothing was entered. -/
def Trip.start : Trip := ⟨.start, []⟩

theorem sim_fresh : Sim (fresh .lazy) .start :=
  ⟨⟨cycleCheckInit, rfl, rfl, rfl⟩, rfl, by simp [Trip.start, Mark.start], fun _ => rfl⟩

/-- `cycle_check` looks for the marked directory. -/
theorem cycleCheck_eq (hdebug : env.ndebug = true) {state : CycleCheckState} {mark : Mark (ℕ × ℕ)}
    (hcount : state.chdirCounter = mark.count) (hdevIno : state.devIno = mark.last)
    (hlast : mark.last = none ↔ mark.count = 0) (sb : Stat) :
    ∃ state', Fts.cycleCheck env state sb = some ((mark.visit (devIno sb)).1, state') ∧
      state'.chdirCounter = (mark.visit (devIno sb)).2.count ∧ state'.devIno = (mark.visit (devIno sb)).2.last := by
  have hpow : (mark.count + 1) &&& (mark.count + 1 - 1) = 0 ↔ (mark.count + 1).isPowerOfTwo :=
    Nat.and_sub_one_eq_zero_iff_isPowerOfTwo (by omega)
  rw [Fts.cycleCheck, if_neg (by simp [hdebug])]
  by_cases h : mark.last = some (devIno sb)
  · have hne : mark.count ≠ 0 := fun hzero => by simp [hlast.mpr hzero] at h
    rw [if_pos ⟨by rwa [hcount], by rw [hdevIno, h]; rfl⟩, Mark.visit_last h]
    exact ⟨state, rfl, hcount, hdevIno⟩
  · have hnot : ¬(state.chdirCounter ≠ 0 ∧ some (sb.dev, sb.ino) = state.devIno) := by
      rintro ⟨-, heq⟩
      exact h (by rw [← hdevIno, ← heq]; rfl)
    rw [if_neg hnot, Mark.visit_new h]
    dsimp only
    rw [hcount]
    split
    · next hzero =>
      exact ⟨_, rfl, rfl, by rw [if_pos (hpow.mp hzero)]; rfl⟩
    · next hzero =>
      exact ⟨_, rfl, rfl, by rw [if_neg fun hp => hzero (hpow.mpr hp)]; exact hdevIno⟩

/-- What is reported at a call. -/
def Reported (s : Trail) (t : Trip) : Turn → List Report → Prop
  | .enter stat, l => ∃ r, l = [r] ∧ r.active = s.active ∧ r.ent.stat = stat ∧ r.dc = (t.mark.visit (devIno stat)).1
  | .leave, l => l = []

/-- One call. -/
theorem Sim.step (hdebug : env.ndebug = true) {s : Trail} {t : Trip} (h : Sim s t) (turn : Turn) :
    ∃ s' l, s.step env turn = .ok s' ∧ Sim s' (t.step turn) ∧ s'.reports = s.reports ++ l ∧ Reported s t turn l := by
  obtain ⟨state, hcycle, hcount, hdevIno⟩ := h.cycle
  cases turn with
  | enter stat =>
    obtain ⟨state', hcheck, hcount', hdevIno'⟩ := cycleCheck_eq hdebug hcount hdevIno h.last stat
    have henter : enterDir env s.walk (entryOf stat s.active.length) = .ok (true,
        (if (t.mark.visit (devIno stat)).1 then { entryOf stat s.active.length with info := .dc }
          else entryOf stat s.active.length), { s.walk with cycle := .state (some state') }) := by
      rw [enterDir, hcycle]
      dsimp only
      rw [Fts.enterDir, show (entryOf stat s.active.length).stat = stat from rfl, hcheck]
      rfl
    rw [Trail.step, henter]
    by_cases hlast : t.mark.last = some (devIno stat)
    · rw [Mark.visit_last hlast] at hcount' hdevIno' ⊢
      refine ⟨_, _, rfl, ?_, rfl, _, rfl, rfl, rfl, ?_⟩
      · rw [Trip.step, Mark.visit_last hlast]
        exact ⟨⟨state', rfl, hcount', hdevIno'⟩, h.active, h.last, h.count⟩
      · rw [Mark.visit_last hlast]
        rfl
    · rw [Mark.visit_new hlast] at hcount' hdevIno' ⊢
      refine ⟨_, _, rfl, ?_, rfl, _, rfl, rfl, rfl, ?_⟩
      · rw [Trip.step, Mark.visit_new hlast]
        refine ⟨⟨state', rfl, hcount', hdevIno'⟩, ?_, ?_, ?_⟩
        · rw [h.active]
          rfl
        · constructor
          · intro hnone
            dsimp only at hnone
            split at hnone
            · cases hnone
            · next hpow =>
              rw [h.last.mp hnone] at hpow
              exact absurd Nat.isPowerOfTwo_one hpow
          · intro hzero
            cases hzero
        · intro hzero
          cases hzero
      · rw [Mark.visit_new hlast]
        rfl
  | leave =>
    rw [Trail.step, Trip.step]
    cases hactive : s.active with
    | nil =>
      have hnil : t.active = [] := by rw [h.active, hactive]; rfl
      refine ⟨s, [], rfl, ?_, by simp, rfl⟩
      exact ⟨h.cycle, by rw [hnil, hactive]; rfl, h.last, fun _ => by rw [hnil]; rfl⟩
    | cons ent up =>
      have hne : state.chdirCounter ≠ 0 := by
        intro hzero
        have hnil := h.count (hcount ▸ hzero)
        rw [h.active, hactive] at hnil
        cases hnil
      have hleave : ∃ state', Fts.leaveDir state ent up.head? = some state' ∧
          state'.chdirCounter = state.chdirCounter ∧ state'.devIno = state.devIno := by
        unfold Fts.leaveDir
        simp only [if_neg hne]
        split
        · exact ⟨state, rfl, rfl, rfl⟩
        · split
          · split
            · next heq => exact ⟨_, rfl, rfl, heq.symm⟩
            · exact ⟨state, rfl, rfl, rfl⟩
          · exact ⟨state, rfl, rfl, rfl⟩
      obtain ⟨state', hleave, hcount', hdevIno'⟩ := hleave
      refine ⟨{ s with walk := { s.walk with cycle := .state (some state') }, active := up }, [], ?_, ?_, by simp, rfl⟩
      · simp only [leaveDir, hcycle, hleave]
      · refine ⟨⟨state', rfl, hcount'.trans hcount, hdevIno'.trans hdevIno⟩, ?_, h.last, ?_⟩
        · rw [h.active, hactive]
          rfl
        · intro hzero
          rw [h.count hzero]
          rfl

/-- A report is right unless the marked directory comes back. -/
theorem reported_right_iff {s : Trail} {t : Trip} (h : Sim s t) {turn : Turn} {l : List Report}
    (hl : Reported s t turn l) : (∀ r ∈ l, r.Right .lazy) ↔ ¬t.ComesBack turn := by
  cases turn with
  | leave =>
    cases hl
    simp [Trip.ComesBack]
  | enter stat =>
    obtain ⟨r, rfl, hactive, hstat, hdc⟩ := hl
    have hmem : (∃ ent ∈ r.active, devIno ent.stat = devIno r.ent.stat) ↔ devIno stat ∈ t.active := by
      rw [hactive, hstat, h.active, List.mem_map]
    simp only [List.mem_singleton, forall_eq, Report.Right, hdc, Mark.visit_fst_iff, hmem, Trip.ComesBack, not_and,
      not_not]

/-- All the calls come to their end, and the reports are right unless the marked directory comes back. -/
theorem run_lazy (hdebug : env.ndebug = true) (turns : List Turn) : ∀ {s : Trail} {t : Trip}, Sim s t →
    ∃ s', s.run env turns = .ok s' ∧ Sim s' (turns.foldl Trip.step t) ∧
      ((∀ r ∈ s'.reports, r.Right .lazy) ↔ (∀ r ∈ s.reports, r.Right .lazy) ∧ ¬Trip.Returns turns t) := by
  induction turns with
  | nil => exact fun {s t} h => ⟨s, rfl, h, by simp [Trip.Returns]⟩
  | cons turn turns ih =>
    intro s t h
    obtain ⟨s₁, l, hstep, hsim, hreports, hl⟩ := h.step hdebug turn
    obtain ⟨s', hrun, hsim', hright⟩ := ih hsim
    refine ⟨s', by rw [Trail.run, hstep]; exact hrun, hsim', ?_⟩
    rw [hright, hreports, Trip.Returns, not_or, ← reported_right_iff h hl]
    simp only [List.mem_append, or_imp, forall_and, and_assoc]

theorem right_lazy_iff (hdebug : env.ndebug = true) (turns : List Turn) :
    Right env .lazy turns ↔ ¬Trip.Returns turns .start := by
  obtain ⟨s', hrun, -, hright⟩ := run_lazy hdebug turns sim_fresh
  have hnil : ∀ r ∈ (fresh .lazy).reports, r.Right .lazy := by simp [fresh]
  constructor
  · rintro ⟨s, hs, hall⟩
    rw [hrun] at hs
    cases hs
    exact (hright.mp hall).2
  · intro h
    exact ⟨s', hrun, hright.mpr ⟨hnil, h⟩⟩

/-! ## Descents -/

theorem run_append (turns turns' : List Turn) (s : Trail) :
    s.run env (turns ++ turns') =
      match s.run env turns with
      | .error e => .error e
      | .ok s => s.run env turns' := by
  induction turns generalizing s with
  | nil => rfl
  | cons turn turns ih =>
    rw [List.cons_append, Trail.run, Trail.run]
    cases s.step env turn with
    | error e => rfl
    | ok s => exact ih s

theorem descent_succ (f : ℕ → Stat) (n : ℕ) : descent f (n + 1) = descent f n ++ [.enter (f n)] := by
  rw [descent, List.range_succ, List.map_append]
  rfl

/-- In a descent a cycle is reported, or what is marked is the value of the last power of two. -/
theorem run_descent (hdebug : env.ndebug = true) (f : ℕ → Stat) (n : ℕ) :
    ∃ s t, (fresh .lazy).run env (descent f n) = .ok s ∧ Sim s t ∧
      ((∃ r ∈ s.reports, r.dc) ∨ t.mark = .along (fun i => devIno (f i)) n) := by
  induction n with
  | zero => exact ⟨_, _, rfl, sim_fresh, .inr rfl⟩
  | succ n ih =>
    obtain ⟨s, t, hrun, hsim, hfound⟩ := ih
    obtain ⟨s', l, hstep, hsim', hreports, r, rfl, -, -, hdc⟩ := hsim.step hdebug (.enter (f n))
    refine ⟨s', _, ?_, hsim', ?_⟩
    · rw [descent_succ, run_append, hrun]
      simp only [Trail.run, hstep]
    · rcases hfound with ⟨r', hr', hdc'⟩ | hmark
      · exact .inl ⟨r', by rw [hreports]; exact List.mem_append_left _ hr', hdc'⟩
      · by_cases hlast : t.mark.last = some (devIno (f n))
        · rw [Mark.visit_last hlast] at hdc
          exact .inl ⟨r, by rw [hreports]; exact List.mem_append_right _ List.mem_cons_self, hdc⟩
        · right
          have hnext := Mark.visit_along (f := fun i => devIno (f i)) (n := n) (by rwa [← hmark])
          rw [← hmark] at hnext
          rw [← hnext, Trip.step, Mark.visit_new hlast]

/-- The marked value is reported when it comes again. -/
theorem finds_of_hit (hdebug : env.ndebug = true) {f : ℕ → Stat} {n : ℕ} (hn : n ≠ 0)
    (h : devIno (f n) = devIno (f (Mark.place n))) : Finds env .lazy f (n + 1) := by
  obtain ⟨s, t, hrun, hsim, hfound⟩ := run_descent hdebug f n
  rcases hfound with hfound | hmark
  · exact ⟨n, by omega, s, hrun, hfound⟩
  · obtain ⟨s', l, hstep, -, hreports, r, rfl, -, -, hdc⟩ := hsim.step hdebug (.enter (f n))
    have hlast : t.mark.last = some (devIno (f n)) := by
      rw [hmark, Mark.along, if_neg hn, h]
    rw [Mark.visit_last hlast] at hdc
    refine ⟨n + 1, by omega, s', ?_, r, by rw [hreports]; exact List.mem_append_right _ List.mem_cons_self, hdc⟩
    rw [descent_succ, run_append, hrun]
    simp only [Trail.run, hstep]

/-- With assertions nothing is reported. -/
theorem not_finds (hdebug : env.ndebug = false) (f : ℕ → Stat) (n : ℕ) : ¬Finds env .lazy f n := by
  rintro ⟨k, -, s, hrun, r, hr, -⟩
  obtain ⟨e, hstops⟩ : ∃ e, ∀ ent, enterDir env (fresh .lazy).walk ent = .error e := fresh_stops (.inl hdebug)
  cases k with
  | zero =>
    cases hrun
    simp [fresh] at hr
  | succ k =>
    rw [run_stops rfl hstops ⟨f k, by rw [descent_succ]; exact List.mem_append_right _ List.mem_cons_self⟩] at hrun
    cases hrun

/-- **When the reports are right**: when no directory is entered, or else without assertions, in the lazy mode, as long as
the marked directory is not entered after it was left. Without assertions each descent that goes round is found. -/
theorem cycles_right_iff (env : Env ι) :
    (∀ mode turns, Right env mode turns ↔
      (∀ stat, .enter stat ∉ turns) ∨ env.ndebug = true ∧ mode = .lazy ∧ ¬Trip.Returns turns .start) ∧
    ∀ (f : ℕ → Stat) (m p : ℕ), 0 < p → (∀ n, m ≤ n → devIno (f (n + p)) = devIno (f n)) →
      (Finds env .lazy f (2 * m + 3 * p + 1) ↔ env.ndebug = true) := by
  constructor
  · intro mode turns
    by_cases hnone : ∀ stat, .enter stat ∉ turns
    · exact ⟨fun _ => .inl hnone, fun _ => right_of_leaves hnone⟩
    · rw [or_iff_right hnone]
      by_cases hworks : env.ndebug = true ∧ mode = .lazy
      · obtain ⟨hdebug, rfl⟩ := hworks
        rw [right_lazy_iff hdebug]
        simp [hdebug]
      · have hstop : env.ndebug = false ∨ mode = .tight := by
          cases hdebug : env.ndebug <;> cases mode <;> simp_all
        obtain ⟨e, hstops⟩ := fresh_stops hstop
        constructor
        · rintro ⟨s, hs, -⟩
          rw [run_stops rfl hstops (by simpa using hnone)] at hs
          cases hs
        · rintro ⟨hdebug, hmode, -⟩
          exact absurd ⟨hdebug, hmode⟩ hworks
  · intro f m p hp hper
    constructor
    · intro hfinds
      cases hdebug : env.ndebug with
      | true => rfl
      | false => exact absurd hfinds (not_finds hdebug f _)
    · intro hdebug
      obtain ⟨n, hle, hn, hhit⟩ := Mark.exists_hit (f := fun i => devIno (f i)) hp hper
      obtain ⟨k, hk, hfound⟩ := finds_of_hit hdebug hn hhit
      exact ⟨k, by omega, hfound⟩

end

/-! ## Two directories -/

/-- A build without assertions. -/
def withoutAssertions : Env Bool := { Fts.plainEnv .cwdfd with ndebug := true }

/-- A descent that goes round three directories. -/
theorem finds_three : Finds withoutAssertions .lazy (fun n => ⟨some .dir, 1, n % 3⟩) 10 :=
  ((cycles_right_iff withoutAssertions).2 (fun n => ⟨some .dir, 1, n % 3⟩) 0 3 (by decide) (by simp)).mpr rfl

/-- The first directory is entered; and, without assertions, `a`, and `b` twice after one another: the second time it is a
cycle. -/
theorem cycles_wrong : ¬Right (Fts.plainEnv .cwdfd) .lazy [.enter ⟨some .dir, 1, 2⟩] ∧
    ¬Right (Fts.plainEnv .cwdfd) .tight [.enter ⟨some .dir, 1, 2⟩] ∧
    ¬Right withoutAssertions .lazy
      [.enter ⟨some .dir, 1, 2⟩, .enter ⟨some .dir, 1, 3⟩, .leave, .enter ⟨some .dir, 1, 3⟩] := by
  have hstops : ∀ mode, ¬Right (Fts.plainEnv .cwdfd) mode [.enter ⟨some .dir, 1, 2⟩] := by
    rintro mode ⟨s, hrun, -⟩
    obtain ⟨e, hstop⟩ : ∃ e, ∀ ent, enterDir (Fts.plainEnv .cwdfd) (fresh mode).walk ent = .error e :=
      fresh_stops (.inl rfl)
    rw [run_stops rfl hstop ⟨_, List.mem_cons_self⟩] at hrun
    cases hrun
  refine ⟨hstops .lazy, hstops .tight, fun h => ?_⟩
  apply (right_lazy_iff rfl _).mp h
  exact .inr (.inr (.inr (.inl ⟨by decide, by decide⟩)))

end CodingExercises.Coreutils.FtsCycle
