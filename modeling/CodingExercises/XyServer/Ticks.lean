import Mathlib.Algebra.Order.Ring.Int

/-!
# The clock of the game: sys_time.h

`TickToMs`, `MsToTick` and `Tick`. The loop of `Tick` calls `_proc` for every tick that is due, once and in order (`catchUp_calls`), but
none ever is: the constant of `MsToTick` is `20 / 1000`, a division of integers (`msToTick_eq`). So `currentTick` stays 0, and is what it
should be as long as the first tick is not due, 50 ms from the start (`scheduled_iff`).
-/

namespace CodingExercises.XyServer.Ticks

/-! ## The code -/

def longMin : ℤ := -2 ^ 63
def longMax : ℤ := 2 ^ 63 - 1
def intMin : ℤ := -2 ^ 31
def intMax : ℤ := 2 ^ 31 - 1

/-- A `long` or an `int` overflows. -/
inductive Fault
  | overflow

def cTickCountPerSecond : ℤ := 20
def oneSecondInMsecs : ℤ := 1000
def oneMsecondInUsecs : ℤ := 1000

/-- A product of two `long`s. -/
def longProduct (x y : ℤ) : Except Fault ℤ := if longMin ≤ x * y ∧ x * y ≤ longMax then .ok (x * y) else .error .overflow

/-- `TickToMs`. -/
def tickToMs (tick : ℤ) : Except Fault ℤ := longProduct tick (oneSecondInMsecs.tdiv cTickCountPerSecond)

/-- `MsToTick`. -/
def msToTick (ms : ℤ) : Except Fault ℤ := longProduct ms (cTickCountPerSecond.tdiv oneSecondInMsecs)

/-- `timeval`, as `gettimeofday` fills it. -/
structure Timeval where
  sec : ℤ
  usec : ℤ
  usec_range : 0 ≤ usec ∧ usec < 1000000

/-- The operators of `timeval`, which are not in the repository: `>=`, and the difference in microseconds. -/
structure Operators where
  ge : Timeval → Timeval → Bool
  sub : Timeval → Timeval → ℤ

/-- `TickData`. -/
structure TickData where
  systemStart : Timeval
  currentTimeVal : Timeval
  currentTick : ℤ

/-- The data, the state that `_proc` works on, and the ticks that it was called with. -/
structure World (σ : Type) where
  data : TickData
  state : σ
  calls : List ℤ

section

variable {σ : Type}

/-- The loop of `Tick`: `count`, and the world. -/
def catchUp (proc : ℤ → σ → ℤ × σ) (tickNow count : ℤ) (w : World σ) : Except Fault (ℤ × World σ) :=
  if w.data.currentTick < tickNow then
    let tick := w.data.currentTick + 1
    let (n, state) := proc tick w.state
    if intMin ≤ count + n ∧ count + n ≤ intMax then
      catchUp proc tickNow (count + n) ⟨{ w.data with currentTick := tick }, state, w.calls ++ [tick]⟩
    else .error .overflow
  else .ok (count, w)
termination_by (tickNow - w.data.currentTick).toNat

/-- `Tick`, at the reading `tmNow` of the clock: what is returned, and the world. -/
def tick (ops : Operators) (proc : ℤ → σ → ℤ × σ) (w : World σ) (tmNow : Timeval) : Except Fault (ℤ × World σ) :=
  if ops.ge tmNow w.data.currentTimeVal then do
    let data := { w.data with currentTimeVal := tmNow }
    let tickNow ← msToTick ((ops.sub data.currentTimeVal data.systemStart).tdiv oneMsecondInUsecs)
    catchUp proc tickNow 0 { w with data := data }
  else .ok (0, w)

end

/-! ## The conversions -/

/-- The constant of `MsToTick` is 0. -/
theorem msToTick_eq (ms : ℤ) : msToTick ms = .ok 0 := by
  have hzero : ms * cTickCountPerSecond.tdiv oneSecondInMsecs = 0 := Int.mul_zero ms
  rw [msToTick, longProduct, hzero]
  rfl

theorem tickToMs_ok {n : ℤ} (hn : longMin ≤ n * 50 ∧ n * 50 ≤ longMax) : tickToMs n = .ok (n * 50) := if_pos hn

/-! ## The loop -/

section

variable {σ : Type} {proc : ℤ → σ → ℤ × σ}

/-- The ticks from 1 to `n`. -/
def upTo (n : ℤ) : List ℤ := (List.range n.toNat).map fun k : ℕ => (k : ℤ) + 1

theorem upTo_succ {n : ℤ} (hn : 0 ≤ n) : upTo (n + 1) = upTo n ++ [n + 1] := by
  have hnat : (n + 1).toNat = n.toNat + 1 := by omega
  rw [upTo, hnat, List.range_succ, List.map_append, List.map_singleton, Int.toNat_of_nonneg hn]
  rfl

/-- `_proc` was called for all ticks up to the current one, in their order. -/
structure Caught (w : World σ) : Prop where
  nonneg : 0 ≤ w.data.currentTick
  calls : w.calls = upTo w.data.currentTick

/-- The loop calls `_proc` for each tick that is due. -/
theorem catchUp_calls {tickNow count count' : ℤ} {w w' : World σ} (h : Caught w)
    (hloop : catchUp proc tickNow count w = .ok (count', w')) : Caught w' ∧ w'.data.currentTick = max w.data.currentTick tickNow := by
  fun_induction catchUp proc tickNow count w with
  | case1 count w hlt next n state hproc hfits ih =>
    have hnext : Caught
        (⟨{ w.data with currentTick := w.data.currentTick + 1 }, state, w.calls ++ [w.data.currentTick + 1]⟩ : World σ) := by
      refine ⟨Int.le_trans h.nonneg (Int.le_of_lt (Int.lt_succ _)), ?_⟩
      show w.calls ++ [w.data.currentTick + 1] = upTo (w.data.currentTick + 1)
      rw [h.calls, upTo_succ h.nonneg]
    obtain ⟨hcaught, hmax⟩ := ih hnext hloop
    refine ⟨hcaught, hmax.trans ?_⟩
    show max (w.data.currentTick + 1) tickNow = _
    omega
  | case2 => cases hloop
  | case3 count w hle =>
    obtain ⟨-, rfl⟩ := Prod.mk.inj (Except.ok.inj hloop)
    exact ⟨h, by omega⟩

end

/-! ## Runs -/

/-- Microseconds. -/
def Timeval.micros (v : Timeval) : ℤ := v.sec * 1000000 + v.usec

/-- The operator compares times. -/
def Operators.Correct (ops : Operators) : Prop := ∀ a b, ops.ge a b = true ↔ b.micros ≤ a.micros

/-- `floor(elapsed milliseconds since start * C_TICK_COUNT_PER_SECOND / 1000)`, at the reading `now`. -/
def due (start now : Timeval) : ℤ := (now.micros - start.micros) / 1000 * cTickCountPerSecond / 1000

section

variable {σ : Type} {ops : Operators} {proc : ℤ → σ → ℤ × σ} {w : World σ}

/-- What is asked of a sequence of readings: behind each call the current tick is the one that is due, and `_proc` was called for all up
to it; where the clock goes backwards nothing happens. -/
def Scheduled (ops : Operators) (proc : ℤ → σ → ℤ × σ) : World σ → List Timeval → Prop
  | _, [] => True
  | w, now :: readings => ∃ count w', tick ops proc w now = .ok (count, w') ∧
      (w.data.currentTimeVal.micros ≤ now.micros →
        w'.data.currentTick = due w.data.systemStart now ∧ w'.calls = upTo w'.data.currentTick) ∧
      (now.micros < w.data.currentTimeVal.micros → count = 0 ∧ w' = w) ∧ Scheduled ops proc w' readings

/-- No reading that is not before the one that the clock has comes 50 ms from the start, or before it. -/
def Early (start : Timeval) : Timeval → List Timeval → Prop
  | _, [] => True
  | current, now :: readings =>
    if current.micros ≤ now.micros then start.micros ≤ now.micros ∧ now.micros < start.micros + 50000 ∧ Early start now readings
    else Early start current readings

instance decidableEarly (start : Timeval) : (current : Timeval) → (readings : List Timeval) → Decidable (Early start current readings)
  | _, [] => .isTrue trivial
  | current, now :: readings =>
    have := decidableEarly start now readings
    have := decidableEarly start current readings
    inferInstanceAs (Decidable (if current.micros ≤ now.micros then
      start.micros ≤ now.micros ∧ now.micros < start.micros + 50000 ∧ Early start now readings else Early start current readings))

/-- The world that a call leaves: only the clock moves. -/
def atTime (w : World σ) (now : Timeval) : World σ := { w with data := { w.data with currentTimeVal := now } }

/-- The first tick is not due within 50 ms, and only then. -/
theorem due_eq_zero_iff (start now : Timeval) : due start now = 0 ↔ start.micros ≤ now.micros ∧ now.micros < start.micros + 50000 := by
  rw [due, cTickCountPerSecond]
  omega

/-- A call processes nothing. -/
theorem tick_forward (proc : ℤ → σ → ℤ × σ) (hops : ops.Correct) {now : Timeval} (hw : w.data.currentTick = 0)
    (hnow : w.data.currentTimeVal.micros ≤ now.micros) : tick ops proc w now = .ok (0, atTime w now) := by
  rw [tick, if_pos ((hops _ _).mpr hnow)]
  simp only [msToTick_eq]
  show catchUp proc 0 0 (atTime w now) = _
  rw [catchUp, if_neg]
  exact Int.not_lt.mpr (Int.le_of_eq hw.symm)

theorem tick_backward (proc : ℤ → σ → ℤ × σ) (hops : ops.Correct) {now : Timeval} (hnow : now.micros < w.data.currentTimeVal.micros) :
    tick ops proc w now = .ok (0, w) :=
  if_neg (mt (hops _ _).mp (Int.not_le.mpr hnow))

/-- Whatever is due, a call goes through it. -/
theorem tick_caught {now : Timeval} {count : ℤ} {w' : World σ} (h : Caught w) (htick : tick ops proc w now = .ok (count, w')) :
    Caught w' := by
  rw [tick] at htick
  split at htick
  · simp only [msToTick_eq] at htick
    have hmoved : Caught (atTime w now) := ⟨h.nonneg, h.calls⟩
    exact (catchUp_calls hmoved htick).1
  · obtain ⟨-, rfl⟩ := Prod.mk.inj (Except.ok.inj htick)
    exact h

/-- Without a call yet. -/
structure Started (w : World σ) : Prop where
  currentTick : w.data.currentTick = 0
  calls : w.calls = []

theorem Started.caught (h : Started w) : Caught w := by
  refine ⟨Int.le_of_eq h.currentTick.symm, ?_⟩
  rw [h.calls, h.currentTick]
  rfl

/-- A run is as it is asked for as long as no tick is due. -/
theorem scheduled_iff (hops : ops.Correct) (hw : Started w) (readings : List Timeval) :
    Scheduled ops proc w readings ↔ Early w.data.systemStart w.data.currentTimeVal readings := by
  induction readings generalizing w with
  | nil => exact Iff.rfl
  | cons now readings ih =>
    rw [Scheduled, Early]
    by_cases hnow : w.data.currentTimeVal.micros ≤ now.micros
    · have htick := tick_forward proc hops hw.currentTick hnow
      have hrest := ih (w := atTime w now) ⟨hw.currentTick, hw.calls⟩
      rw [if_pos hnow]
      constructor
      · rintro ⟨count, w', hrun, hforward, -, hreadings⟩
        obtain ⟨rfl, rfl⟩ := Prod.mk.inj (Except.ok.inj (htick.symm.trans hrun))
        have hdue := (hforward hnow).1
        rw [show (atTime w now).data.currentTick = 0 from hw.currentTick] at hdue
        obtain ⟨hlo, hhi⟩ := (due_eq_zero_iff _ _).mp hdue.symm
        exact ⟨hlo, hhi, hrest.mp hreadings⟩
      · rintro ⟨hlo, hhi, hreadings⟩
        have hzero : (atTime w now).data.currentTick = 0 := hw.currentTick
        refine ⟨0, _, htick, fun _ => ⟨?_, (tick_caught hw.caught htick).calls⟩, fun hlt => by omega, hrest.mpr hreadings⟩
        rw [hzero, (due_eq_zero_iff _ _).mpr ⟨hlo, hhi⟩]
    · have htick := tick_backward proc hops (Int.not_le.mp hnow)
      rw [if_neg hnow, ← ih hw]
      constructor
      · rintro ⟨count, w', hrun, -, -, hreadings⟩
        obtain ⟨rfl, rfl⟩ := Prod.mk.inj (Except.ok.inj (htick.symm.trans hrun))
        exact hreadings
      · intro hreadings
        exact ⟨0, w, htick, fun hle => absurd hle hnow, fun _ => ⟨rfl, rfl⟩, hreadings⟩

end

/-- The runs without a tick that is due, and the conversions of 0. -/
theorem ticks_iff {σ : Type} (ops : Operators) (hops : ops.Correct) (proc : ℤ → σ → ℤ × σ) (w : World σ) (hw : Started w)
    (readings : List Timeval) (n : ℤ) (hn : longMin ≤ n * 50 ∧ n * 50 ≤ longMax) :
    Scheduled ops proc w readings ∧ tickToMs n >>= msToTick = .ok n ↔
      Early w.data.systemStart w.data.currentTimeVal readings ∧ n = 0 := by
  refine and_congr (scheduled_iff hops hw readings) ?_
  have hconvert : (tickToMs n >>= msToTick) = .ok 0 := by
    rw [tickToMs_ok hn]
    exact msToTick_eq _
  rw [hconvert, Except.ok.injEq]
  exact eq_comm

/-- Seconds first, then microseconds. -/
def lexicographic : Operators where
  ge a b := decide (b.sec < a.sec ∨ b.sec = a.sec ∧ b.usec ≤ a.usec)
  sub a b := (a.sec - b.sec) * 1000000 + (a.usec - b.usec)

theorem lexicographic_correct : lexicographic.Correct := by
  intro a b
  have ha := a.usec_range
  have hb := b.usec_range
  rw [Timeval.micros, Timeval.micros]
  show decide _ = true ↔ _
  rw [decide_eq_true_iff]
  omega

/-- A start at 0, with a `_proc` that returns 1. -/
def fresh : World Unit := ⟨⟨⟨0, 0, by decide⟩, ⟨0, 0, by decide⟩, 0⟩, (), []⟩

def one (_ : ℤ) (u : Unit) : ℤ × Unit := (1, u)

theorem ticks_fresh :
    Scheduled lexicographic one fresh [⟨0, 49999, by decide⟩, ⟨0, 20000, by decide⟩] ∧ tickToMs 0 >>= msToTick = .ok 0 :=
  (ticks_iff lexicographic lexicographic_correct one fresh ⟨rfl, rfl⟩ [⟨0, 49999, by decide⟩, ⟨0, 20000, by decide⟩] 0 (by decide)).mpr
    (by decide)

/-- One second from the start 20 ticks are due, and there is none; the milliseconds of one tick are none. -/
theorem not_ticks_second :
    ¬Scheduled lexicographic one fresh [⟨1, 0, by decide⟩] ∧ tickToMs 1 >>= msToTick = .ok 0 := by
  refine ⟨?_, rfl⟩
  rintro ⟨count, w', hrun, hforward, -⟩
  have htick : tick lexicographic one fresh ⟨1, 0, by decide⟩ = .ok (0, atTime fresh ⟨1, 0, by decide⟩) :=
    tick_forward one lexicographic_correct rfl (by decide)
  obtain ⟨rfl, rfl⟩ := Prod.mk.inj (Except.ok.inj (htick.symm.trans hrun))
  exact absurd (hforward (by decide)).1 (by decide)

end CodingExercises.XyServer.Ticks
