import Mathlib.Data.Set.Finite.List
import CodingExercises.Coreutils.Xalloc
import CodingExercises.Lib.Draws

/-!
# coreutils: random integers

`randint_genmax` of `lib/randint.c`, where `randint` has 64 bits. The bytes that `randread` gives are a list.

A run of calls is followed along the branches that it takes (`run`): how many bytes it reads, and what `randmax` becomes,
depends on them alone. As long as no byte is appended to a number that loses its top bits unevenly (`Lossless`), the values and
the number retained come from as many strings of bytes as any others would (`randintGenmax_fair`).
-/

namespace CodingExercises.Coreutils.Randint

/-- `RANDINT_MAX`. -/
def randintMax : ℕ := 2 ^ 64 - 1

/-- `UCHAR_MAX`. -/
def ucharMax : ℕ := 255

/-- `randnum` and `randmax` of a `struct randint_source`. -/
structure Source where
  randnum : ℕ
  randmax : ℕ
deriving DecidableEq

/-- `shift_left`. -/
def shiftLeft (x : ℕ) : ℕ := x * 256 % 2 ^ 64

/-- The bytes that are needed: the loop over `rmax`, which eight turns end (`refill_reaches`). -/
def needed (genmax : ℕ) : ℕ → ℕ → ℕ
  | 0, _ => 0
  | fuel + 1, rmax =>
    let rmax := shiftLeft rmax + ucharMax
    if rmax < genmax then needed genmax fuel rmax + 1 else 1

/-- The loop that appends the bytes of `buf`. -/
def appendBytes (genmax : ℕ) : List Byte → Source → Source
  | [], s => s
  | b :: buf, s =>
    let s : Source := ⟨shiftLeft s.randnum + b.toNat, shiftLeft s.randmax + ucharMax⟩
    if s.randmax < genmax then appendBytes genmax buf s else s

/-- The bytes are read and appended, if there are not enough choices. Without a value, `source` has not that many bytes. -/
def refill (genmax : ℕ) (s : Source) (source : List Byte) : Option (Source × List Byte) :=
  if s.randmax < genmax then
    let i := needed genmax 8 s.randmax
    if source.length < i then none else some (appendBytes genmax (source.take i) s, source.drop i)
  else some (s, source)

/-- The branch that a turn takes: there are just as many choices, `randnum` is usable, or it is not. -/
inductive Branch
  | exact
  | accept
  | reject
deriving DecidableEq

/-- What a turn does with the number: the branch, the number that is returned if the turn is the last, and `randnum` and
`randmax` after it. -/
def choose (genmax : ℕ) (s : Source) : Branch × ℕ × Source :=
  let choices := genmax + 1
  if s.randmax = genmax then (.exact, s.randnum, ⟨0, 0⟩)
  else
    let excessChoices := s.randmax - genmax
    let unusableChoices := excessChoices % choices
    let lastUsableChoice := s.randmax - unusableChoices
    let reducedRandnum := s.randnum % choices
    if s.randnum ≤ lastUsableChoice then (.accept, reducedRandnum, ⟨s.randnum / choices, excessChoices / choices⟩)
    else (.reject, reducedRandnum, ⟨reducedRandnum, (unusableChoices + 2 ^ 64 - 1) % 2 ^ 64⟩)

/-- One turn of the loop, and the bytes that are left. -/
def turn (genmax : ℕ) (s : Source) (source : List Byte) : Option ((Branch × ℕ × Source) × List Byte) :=
  (refill genmax s source).map fun r => (choose genmax r.1, r.2)

/-- The calls with these values of `genmax`, along these branches and reading all of these bytes: the values that are returned,
and the source afterwards. -/
def run : List Branch → Source → List ℕ → List Byte → Option (List ℕ × Source)
  | [], s, [], [] => some ([], s)
  | [], _, _, _ => none
  | _ :: _, _, [], _ => none
  | branch :: history, s, genmax :: calls, source =>
    match turn genmax s source with
    | none => none
    | some ((branch', value, s'), source) =>
      if branch' ≠ branch then none
      else if branch = .reject then run history s' (genmax :: calls) source
      else (run history s' calls source).map fun r => (value :: r.1, r.2)

/-- `randint_new`. -/
def randintNew : Source := ⟨0, 0⟩

/-! ## Losing bits -/

/-- A byte can be appended: the number has room for it, or it fills the other 56 bits evenly. -/
def Room (randmax : ℕ) : Prop := randmax < 2 ^ 56 ∨ 2 ^ 56 ∣ randmax + 1

instance (randmax : ℕ) : Decidable (Room randmax) := inferInstanceAs (Decidable (_ ∨ _))

/-- Every byte that a turn appends can be. -/
def RoomFrom (genmax : ℕ) : ℕ → ℕ → Prop
  | 0, _ => True
  | fuel + 1, randmax =>
    Room randmax ∧ (shiftLeft randmax + ucharMax < genmax → RoomFrom genmax fuel (shiftLeft randmax + ucharMax))

instance decidableRoomFrom (genmax : ℕ) : ∀ fuel randmax, Decidable (RoomFrom genmax fuel randmax)
  | 0, _ => isTrue trivial
  | fuel + 1, randmax =>
    have := decidableRoomFrom genmax fuel (shiftLeft randmax + ucharMax)
    inferInstanceAs (Decidable (_ ∧ (_ → _)))

/-- `randmax` once the bytes are appended. -/
def maxFrom (genmax : ℕ) : ℕ → ℕ → ℕ
  | 0, randmax => randmax
  | fuel + 1, randmax =>
    let randmax := shiftLeft randmax + ucharMax
    if randmax < genmax then maxFrom genmax fuel randmax else randmax

/-- `randmax` after the test whether there are enough choices. -/
def refillMax (genmax randmax : ℕ) : ℕ := if randmax < genmax then maxFrom genmax 8 randmax else randmax

/-- Every byte that is appended along these branches can be. -/
def Lossless : List Branch → ℕ → List ℕ → Prop
  | [], _, _ => True
  | _ :: _, _, [] => True
  | branch :: history, randmax, genmax :: calls =>
    (randmax < genmax → RoomFrom genmax 8 randmax) ∧
    match branch with
    | .exact => Lossless history 0 calls
    | .accept => Lossless history ((refillMax genmax randmax - genmax) / (genmax + 1)) calls
    | .reject => Lossless history ((refillMax genmax randmax - genmax) % (genmax + 1) - 1) (genmax :: calls)

instance decidableLossless : ∀ history randmax calls, Decidable (Lossless history randmax calls)
  | [], _, _ => isTrue trivial
  | _ :: _, _, [] => isTrue trivial
  | .exact :: history, _, _ :: calls =>
    have := decidableLossless history 0 calls
    inferInstanceAs (Decidable ((_ → _) ∧ _))
  | .accept :: history, randmax, genmax :: calls =>
    have := decidableLossless history ((refillMax genmax randmax - genmax) / (genmax + 1)) calls
    inferInstanceAs (Decidable ((_ → _) ∧ _))
  | .reject :: history, randmax, genmax :: calls =>
    have := decidableLossless history ((refillMax genmax randmax - genmax) % (genmax + 1) - 1) (genmax :: calls)
    inferInstanceAs (Decidable ((_ → _) ∧ _))

/-! ## Reading bytes -/

theorem needed_le (genmax fuel randmax : ℕ) : needed genmax fuel randmax ≤ fuel := by
  induction fuel generalizing randmax with
  | zero => exact Nat.le_refl _
  | succ fuel ih =>
    rw [needed]
    split
    · exact Nat.succ_le_succ (ih _)
    · omega

/-- Appending fills eight bits at a time. -/
theorem dvd_shiftLeft {k randmax : ℕ} (hk : k < 8) (h : 256 ^ k ∣ randmax + 1) : 256 ^ (k + 1) ∣ shiftLeft randmax + ucharMax + 1 := by
  have hmul : 256 ^ (k + 1) ∣ randmax * 256 + 256 := by
    rw [Nat.pow_succ]
    obtain ⟨j, hj⟩ := h
    refine ⟨j, ?_⟩
    have : randmax * 256 + 256 = (randmax + 1) * 256 := by omega
    rw [this, hj, Nat.mul_right_comm]
  have hword : 256 ^ (k + 1) ∣ 2 ^ 64 := by
    have : (2 : ℕ) ^ 64 = 256 ^ 8 := by decide
    rw [this]
    exact Nat.pow_dvd_pow 256 hk
  have hsplit := Nat.div_add_mod (randmax * 256) (2 ^ 64)
  have heq : shiftLeft randmax + ucharMax + 1 = randmax * 256 + 256 - 2 ^ 64 * (randmax * 256 / 2 ^ 64) := by
    unfold shiftLeft ucharMax
    omega
  rw [heq]
  exact Nat.dvd_sub hmul (Dvd.dvd.mul_right hword _)

/-- Eight bytes are enough choices. -/
theorem maxFrom_ge {genmax : ℕ} (hg : genmax < randintMax) (fuel randmax : ℕ) (hfuel : fuel ≤ 8) (hfuel0 : 0 < fuel)
    (h : 256 ^ (8 - fuel) ∣ randmax + 1) : genmax ≤ maxFrom genmax fuel randmax := by
  induction fuel generalizing randmax with
  | zero => omega
  | succ fuel ih =>
    have hdvd := dvd_shiftLeft (by omega) h
    rw [maxFrom]
    split
    · next hlt =>
      rcases Nat.eq_zero_or_pos fuel with rfl | hpos
      · -- the last byte fills the word
        have hfull : 2 ^ 64 ≤ shiftLeft randmax + ucharMax + 1 := by
          have : (2 : ℕ) ^ 64 = 256 ^ (8 - (0 + 1) + 1) := by decide
          rw [this]
          exact Nat.le_of_dvd (Nat.succ_pos _) hdvd
        unfold randintMax at hg
        omega
      · refine ih _ (by omega) hpos ?_
        have : 8 - fuel = 8 - (fuel + 1) + 1 := by omega
        rw [this]
        exact hdvd
    · next hge => omega

theorem refillMax_ge {genmax : ℕ} (hg : genmax < randintMax) (randmax : ℕ) : genmax ≤ refillMax genmax randmax := by
  rw [refillMax]
  split
  · exact maxFrom_ge hg 8 randmax (Nat.le_refl _) (by decide) (Nat.one_dvd _)
  · next h => omega

/-- What `appendBytes` makes of `randmax`. -/
theorem appendBytes_randmax (genmax fuel : ℕ) (s : Source) (source : List Byte)
    (h : needed genmax fuel s.randmax ≤ source.length) :
    (appendBytes genmax (source.take (needed genmax fuel s.randmax)) s).randmax = maxFrom genmax fuel s.randmax := by
  induction fuel generalizing s source with
  | zero => rfl
  | succ fuel ih =>
    rw [needed] at h ⊢
    rw [maxFrom]
    cases source with
    | nil => split at h <;> simp at h
    | cons b source =>
      split at h
      · next hlt =>
        rw [if_pos hlt, if_pos hlt, List.take_succ_cons, appendBytes]
        dsimp only
        rw [if_pos hlt]
        exact ih ⟨_, _⟩ source (Nat.le_of_succ_le_succ h)
      · next hge =>
        rw [if_neg hge, if_neg hge, List.take_succ_cons, appendBytes]
        dsimp only
        rw [if_neg hge]

theorem shiftLeft_eq (x : ℕ) : shiftLeft x = x % 2 ^ 56 * 256 := Nat.mul_mod_mul_right 256 x (2 ^ 56)

/-- A number that is not above `randmax` stays so when a byte can be appended. -/
theorem append_le {n m : ℕ} (hroom : Room m) (hn : n ≤ m) (b : Byte) :
    shiftLeft n + b.toNat ≤ shiftLeft m + ucharMax := by
  have hmod := Lib.mod_le_mod (by decide) hroom hn
  have hb := b.toNat_lt
  rw [shiftLeft_eq, shiftLeft_eq]
  unfold ucharMax
  omega

theorem appendBytes_randnum_le (genmax fuel : ℕ) (s : Source) (source : List Byte)
    (h : needed genmax fuel s.randmax ≤ source.length) (hroom : RoomFrom genmax fuel s.randmax) (hs : s.randnum ≤ s.randmax) :
    (appendBytes genmax (source.take (needed genmax fuel s.randmax)) s).randnum ≤ maxFrom genmax fuel s.randmax := by
  induction fuel generalizing s source with
  | zero => exact hs
  | succ fuel ih =>
    obtain ⟨hroom, hnext⟩ := hroom
    rw [needed] at h ⊢
    rw [maxFrom]
    cases source with
    | nil => split at h <;> simp at h
    | cons b source =>
      have hb := append_le hroom hs b
      split at h
      · next hlt =>
        rw [if_pos hlt, if_pos hlt, List.take_succ_cons, appendBytes]
        dsimp only
        rw [if_pos hlt]
        exact ih ⟨_, _⟩ source (Nat.le_of_succ_le_succ h) (hnext hlt) hb
      · next hge =>
        rw [if_neg hge, if_neg hge, List.take_succ_cons, appendBytes]
        dsimp only
        rw [if_neg hge]
        exact hb

/-- There are bytes enough, and the number made with them and what is left of them satisfy `T`. -/
def Appended (genmax fuel m : ℕ) (T : ℕ → List Byte → Prop) (n : ℕ) (source : List Byte) : Prop :=
  needed genmax fuel m ≤ source.length ∧
    T (appendBytes genmax (source.take (needed genmax fuel m)) ⟨n, m⟩).randnum (source.drop (needed genmax fuel m))

theorem appended_more {genmax fuel m : ℕ} (hlt : shiftLeft m + ucharMax < genmax) (T : ℕ → List Byte → Prop) (n : ℕ)
    (source : List Byte) : Appended genmax (fuel + 1) m T n source ↔ ∃ b rest, source = b :: rest ∧
      Appended genmax fuel (shiftLeft m + ucharMax) T (shiftLeft n + b.toNat) rest := by
  have hneed : needed genmax (fuel + 1) m = needed genmax fuel (shiftLeft m + ucharMax) + 1 := by
    rw [needed]
    exact if_pos hlt
  rw [Appended, hneed]
  cases source with
  | nil => simp
  | cons b source =>
    have hstep : ∀ buf, appendBytes genmax (b :: buf) ⟨n, m⟩
        = appendBytes genmax buf ⟨shiftLeft n + b.toNat, shiftLeft m + ucharMax⟩ := by
      intro buf
      rw [appendBytes]
      exact if_pos hlt
    rw [List.take_succ_cons, hstep, List.drop_succ_cons, List.length_cons, Nat.succ_le_succ_iff]
    simp [Appended]

theorem appended_last {genmax fuel m : ℕ} (hlt : ¬shiftLeft m + ucharMax < genmax) (T : ℕ → List Byte → Prop) (n : ℕ)
    (source : List Byte) : Appended genmax (fuel + 1) m T n source ↔ ∃ b rest, source = b :: rest ∧
      T (shiftLeft n + b.toNat) rest := by
  have hneed : needed genmax (fuel + 1) m = 1 := by
    rw [needed]
    exact if_neg hlt
  rw [Appended, hneed]
  cases source with
  | nil => simp
  | cons b source => simp [appendBytes, hlt]

/-- Appending bytes multiplies the ways by a number that depends on `randmax` alone. -/
theorem draws_appended (genmax fuel m : ℕ) (hroom : RoomFrom genmax fuel m) : ∃ k, 0 < k ∧ ∀ T : ℕ → List Byte → Prop,
    Lib.draws m (Appended genmax fuel m T) = k * Lib.draws (maxFrom genmax fuel m) T := by
  induction fuel generalizing m with
  | zero =>
    refine ⟨1, Nat.one_pos, fun T => ?_⟩
    rw [Nat.one_mul]
    exact Lib.draws_congr fun n _ source => by simp [Appended, needed, appendBytes]
  | succ fuel ih =>
    obtain ⟨hroom, hnext⟩ := hroom
    have hdigit : ∀ T : ℕ → List Byte → Prop,
        Lib.draws m (fun n source => ∃ b rest, source = b :: rest ∧ T (shiftLeft n + UInt8.toNat b) rest)
          = (m / 2 ^ 56 + 1) * Lib.draws (shiftLeft m + ucharMax) T :=
      fun T => Lib.draws_digit (by decide) (by decide) (fun b => b.toNat_lt) (fun _ _ h => UInt8.toNat_inj.1 h)
        (fun i hi => ⟨UInt8.ofNat i, UInt8.toNat_ofNat_of_lt' hi⟩) hroom T
    by_cases hlt : shiftLeft m + ucharMax < genmax
    · obtain ⟨k, hpos, hk⟩ := ih (shiftLeft m + ucharMax) (hnext hlt)
      refine ⟨(m / 2 ^ 56 + 1) * k, Nat.mul_pos (Nat.succ_pos _) hpos, fun T => ?_⟩
      have hmax : maxFrom genmax (fuel + 1) m = maxFrom genmax fuel (shiftLeft m + ucharMax) := by
        rw [maxFrom]
        exact if_pos hlt
      rw [hmax, Nat.mul_assoc, ← hk T, ← hdigit]
      exact Lib.draws_congr fun n _ source => appended_more hlt T n source
    · refine ⟨m / 2 ^ 56 + 1, Nat.succ_pos _, fun T => ?_⟩
      have hmax : maxFrom genmax (fuel + 1) m = shiftLeft m + ucharMax := by
        rw [maxFrom]
        exact if_neg hlt
      rw [hmax, ← hdigit]
      exact Lib.draws_congr fun n _ source => appended_last hlt T n source

/-- What `refill` leaves: enough choices, and a number among them. -/
theorem refill_some {genmax : ℕ} {s : Source} {source : List Byte} {r : Source × List Byte}
    (h : refill genmax s source = some r) : r.1.randmax = refillMax genmax s.randmax ∧
      ((s.randmax < genmax → RoomFrom genmax 8 s.randmax) → s.randnum ≤ s.randmax → r.1.randnum ≤ refillMax genmax s.randmax) ∧
      source.length ≤ r.2.length + 8 := by
  rw [refill] at h
  rw [refillMax]
  split at h
  · next hlt =>
    dsimp only at h
    rw [if_pos hlt]
    split at h
    · cases h
    · next hlen =>
      have hlen' := Nat.le_of_not_lt hlen
      have hneed := needed_le genmax 8 s.randmax
      obtain rfl := Option.some.inj h
      exact ⟨appendBytes_randmax genmax 8 s source hlen',
        fun hroom hs => appendBytes_randnum_le genmax 8 s source hlen' (hroom hlt) hs, by simp only [List.length_drop]; omega⟩
  · next hge =>
    rw [if_neg hge]
    obtain rfl := Option.some.inj h
    exact ⟨rfl, fun _ hs => hs, Nat.le_add_right _ _⟩

/-- Reading bytes multiplies the ways by a number that depends on `randmax` alone. -/
theorem draws_refill (genmax m : ℕ) (hroom : m < genmax → RoomFrom genmax 8 m) : ∃ k, 0 < k ∧ ∀ T : Source × List Byte → Prop,
    Lib.draws m (fun n source => ∃ r, refill genmax ⟨n, m⟩ source = some r ∧ T r)
      = k * Lib.draws (refillMax genmax m) (fun n rest => T (⟨n, refillMax genmax m⟩, rest)) := by
  rw [refillMax]
  by_cases hlt : m < genmax
  · obtain ⟨k, hpos, hk⟩ := draws_appended genmax 8 m (hroom hlt)
    refine ⟨k, hpos, fun T => ?_⟩
    rw [if_pos hlt, ← hk]
    refine Lib.draws_congr fun n _ source => ?_
    rw [Appended, refill, if_pos hlt]
    dsimp only
    by_cases hlen : source.length < needed genmax 8 m
    · rw [if_pos hlen]
      exact iff_of_false (fun ⟨r, h, _⟩ => by cases h) fun h => absurd h.1 (Nat.not_le_of_lt hlen)
    · have hlen' := Nat.le_of_not_lt hlen
      have hsource : appendBytes genmax (source.take (needed genmax 8 m)) ⟨n, m⟩
          = ⟨(appendBytes genmax (source.take (needed genmax 8 m)) ⟨n, m⟩).randnum, maxFrom genmax 8 m⟩ := by
        rw [← appendBytes_randmax genmax 8 ⟨n, m⟩ source hlen']
      rw [if_neg hlen]
      constructor
      · rintro ⟨r, h, hT⟩
        obtain rfl := Option.some.inj h
        exact ⟨hlen', hsource ▸ hT⟩
      · rintro ⟨-, hT⟩
        exact ⟨_, rfl, by rw [hsource]; exact hT⟩
  · refine ⟨1, Nat.one_pos, fun T => ?_⟩
    rw [if_neg hlt, Nat.one_mul]
    refine Lib.draws_congr fun n _ source => ?_
    rw [refill, if_neg hlt]
    constructor
    · rintro ⟨r, h, hT⟩
      obtain rfl := Option.some.inj h
      exact hT
    · exact fun hT => ⟨_, rfl, hT⟩

/-! ## One turn -/

variable {genmax : ℕ} {calls : List ℕ} {history : List Branch} {values : List ℕ}

/-- What follows the bytes of a turn. -/
def Follows (genmax : ℕ) (calls : List ℕ) (branch : Branch) (history : List Branch) (values : List ℕ) (s' : Source)
    (r : Source × List Byte) : Prop :=
  (choose genmax r.1).1 = branch ∧
    if branch = .reject then run history (choose genmax r.1).2.2 (genmax :: calls) r.2 = some (values, s')
    else ∃ values', values = (choose genmax r.1).2.1 :: values' ∧ run history (choose genmax r.1).2.2 calls r.2 = some (values', s')

theorem run_cons (branch : Branch) (s s' : Source) (source : List Byte) :
    run (branch :: history) s (genmax :: calls) source = some (values, s') ↔
      ∃ r, refill genmax s source = some r ∧ Follows genmax calls branch history values s' r := by
  rw [run, turn]
  cases refill genmax s source with
  | none => simp
  | some r =>
    simp only [Option.map_some, Option.some.injEq, exists_eq_left', Follows]
    by_cases hbranch : (choose genmax r.1).1 = branch
    · rw [if_neg (not_not.2 hbranch)]
      by_cases hreject : branch = .reject
      · simp [hbranch, hreject]
      · rw [if_neg hreject, if_neg hreject, Option.map_eq_some_iff]
        constructor
        · rintro ⟨⟨values', s''⟩, h, heq⟩
          cases heq
          exact ⟨hbranch, values', rfl, h⟩
        · rintro ⟨-, values', rfl, h⟩
          exact ⟨(values', s'), h, rfl⟩
    · simp [hbranch]

/-- The branches of a turn with as many choices as `genmax` asks for, or more. -/
theorem choose_exact {s : Source} (h : s.randmax = genmax) : choose genmax s = (.exact, s.randnum, ⟨0, 0⟩) := if_pos h

theorem choose_more {s : Source} (h : genmax < s.randmax) :
    choose genmax s = if s.randnum < (s.randmax + 1) / (genmax + 1) * (genmax + 1) then
        (.accept, s.randnum % (genmax + 1), ⟨s.randnum / (genmax + 1), (s.randmax + 1) / (genmax + 1) - 1⟩)
      else (.reject, s.randnum % (genmax + 1),
        ⟨s.randnum % (genmax + 1), ((s.randmax + 1) % (genmax + 1) + 2 ^ 64 - 1) % 2 ^ 64⟩) := by
  have hexcess : s.randmax + 1 = s.randmax - genmax + (genmax + 1) := by omega
  have hmod : (s.randmax + 1) % (genmax + 1) = (s.randmax - genmax) % (genmax + 1) := by
    rw [hexcess, Nat.add_mod_right]
  have hdiv : (s.randmax + 1) / (genmax + 1) = (s.randmax - genmax) / (genmax + 1) + 1 := by
    rw [hexcess, Nat.add_div_right _ (Nat.succ_pos _)]
  have hsplit := Nat.div_add_mod' (s.randmax + 1) (genmax + 1)
  have husable : s.randnum ≤ s.randmax - (s.randmax - genmax) % (genmax + 1) ↔
      s.randnum < (s.randmax + 1) / (genmax + 1) * (genmax + 1) := by
    have hlt := Nat.mod_le (s.randmax - genmax) (genmax + 1)
    rw [← hmod] at hlt ⊢
    omega
  rw [choose, if_neg (by omega : ¬s.randmax = genmax)]
  simp only [husable]
  rw [hmod, hdiv, Nat.add_sub_cancel]

/-- The values are among those asked for. -/
abbrev Valid (values calls : List ℕ) : Prop := List.Forall₂ (· ≤ ·) values calls

/-- In how many ways a number up to `randmax` and bytes make a run end so. -/
noncomputable def waysFrom (history : List Branch) (randmax : ℕ) (calls values : List ℕ) (s' : Source) : ℕ :=
  Lib.draws randmax fun n source => run history ⟨n, randmax⟩ calls source = some (values, s')

theorem draws_exact {v : ℕ} (hv : v ≤ genmax) (s' : Source) :
    Lib.draws genmax (fun n rest => Follows genmax calls .exact history (v :: values) s' (⟨n, genmax⟩, rest))
      = waysFrom history 0 calls values s' := by
  have hfollows : ∀ n rest, Follows genmax calls .exact history (v :: values) s' (⟨n, genmax⟩, rest) ↔
      n = v ∧ run history ⟨0, 0⟩ calls rest = some (values, s') := by
    intro n rest
    have hchoose := choose_exact (s := ⟨n, genmax⟩) rfl
    simp only [Follows, hchoose, reduceCtorEq, if_false, true_and, List.cons.injEq]
    constructor
    · rintro ⟨values', ⟨rfl, rfl⟩, h⟩
      exact ⟨rfl, h⟩
    · rintro ⟨rfl, h⟩
      exact ⟨values, ⟨rfl, rfl⟩, h⟩
  rw [Lib.draws_congr fun n _ rest => hfollows n rest, Lib.draws_point hv]
  refine Lib.draws_congr fun n hn rest => ?_
  rw [Nat.le_zero.1 hn]

theorem follows_accept {v m : ℕ} (hm : genmax < m) (s' : Source) (n : ℕ) (rest : List Byte) :
    Follows genmax calls .accept history (v :: values) s' (⟨n, m⟩, rest) ↔
      n < (m + 1) / (genmax + 1) * (genmax + 1) ∧ n % (genmax + 1) = v ∧
        run history ⟨n / (genmax + 1), (m + 1) / (genmax + 1) - 1⟩ calls rest = some (values, s') := by
  have hchoose := choose_more (s := ⟨n, m⟩) hm
  by_cases hn : n < (m + 1) / (genmax + 1) * (genmax + 1)
  · rw [if_pos hn] at hchoose
    simp only [Follows, hchoose, reduceCtorEq, if_false, true_and, List.cons.injEq]
    constructor
    · rintro ⟨values', ⟨rfl, rfl⟩, h⟩
      exact ⟨hn, rfl, h⟩
    · rintro ⟨-, rfl, h⟩
      exact ⟨values, ⟨rfl, rfl⟩, h⟩
  · rw [if_neg hn] at hchoose
    simp only [Follows, hchoose, reduceCtorEq, false_and, hn]

theorem draws_accept {v m : ℕ} (hv : v ≤ genmax) (hm : genmax < m) (s' : Source) :
    Lib.draws m (fun n rest => Follows genmax calls .accept history (v :: values) s' (⟨n, m⟩, rest))
      = waysFrom history ((m + 1) / (genmax + 1) - 1) calls values s' := by
  rw [Lib.draws_congr fun n _ rest => follows_accept hm s' n rest, Lib.draws_div (Nat.lt_succ_of_le hv) (by omega)
    fun q rest => run history ⟨q, (m + 1) / (genmax + 1) - 1⟩ calls rest = some (values, s')]
  rfl

theorem follows_reject {m : ℕ} (hm : genmax < m) (s' : Source) (n : ℕ) (rest : List Byte) :
    Follows genmax calls .reject history values s' (⟨n, m⟩, rest) ↔
      (m + 1) / (genmax + 1) * (genmax + 1) ≤ n ∧ run history
        ⟨n % (genmax + 1), ((m + 1) % (genmax + 1) + 2 ^ 64 - 1) % 2 ^ 64⟩ (genmax :: calls) rest = some (values, s') := by
  have hchoose := choose_more (s := ⟨n, m⟩) hm
  by_cases hn : n < (m + 1) / (genmax + 1) * (genmax + 1)
  · rw [if_pos hn] at hchoose
    simp only [Follows, hchoose, reduceCtorEq, false_and, Nat.not_le_of_lt hn]
  · rw [if_neg hn] at hchoose
    simp only [Follows, hchoose, if_true, true_and, Nat.le_of_not_lt hn]

/-- Retrying, with the number that was not usable. -/
theorem draws_reject {m : ℕ} (hg : genmax < randintMax) (hm : genmax < m) (s' : Source) :
    Lib.draws m (fun n rest => Follows genmax calls .reject history values s' (⟨n, m⟩, rest))
      = if (m + 1) % (genmax + 1) = 0 then 0
        else waysFrom history ((m + 1) % (genmax + 1) - 1) (genmax :: calls) values s' := by
  have hlt : (m + 1) % (genmax + 1) < 2 ^ 64 := by
    have hmod : (m + 1) % (genmax + 1) < genmax + 1 := Nat.mod_lt _ (Nat.succ_pos _)
    unfold randintMax at hg
    omega
  rw [Lib.draws_congr fun n _ rest => follows_reject hm s' n rest]
  by_cases hzero : (m + 1) % (genmax + 1) = 0
  · rw [if_pos hzero, Lib.draws_tail_zero hzero
      fun n rest => run history ⟨n, ((m + 1) % (genmax + 1) + 2 ^ 64 - 1) % 2 ^ 64⟩ (genmax :: calls) rest = some (values, s')]
  · have hmax : ((m + 1) % (genmax + 1) + 2 ^ 64 - 1) % 2 ^ 64 = (m + 1) % (genmax + 1) - 1 := by omega
    rw [if_neg hzero, hmax, Lib.draws_tail (Nat.succ_pos genmax) hzero
      fun n rest => run history ⟨n, (m + 1) % (genmax + 1) - 1⟩ (genmax :: calls) rest = some (values, s')]
    rfl

/-- The ways of a run are those of its first turn. -/
theorem waysFrom_cons {m : ℕ} (hroom : m < genmax → RoomFrom genmax 8 m) (branch : Branch) : ∃ k, 0 < k ∧ ∀ values s',
    waysFrom (branch :: history) m (genmax :: calls) values s' = k * Lib.draws (refillMax genmax m)
      (fun n rest => Follows genmax calls branch history values s' (⟨n, refillMax genmax m⟩, rest)) := by
  obtain ⟨k, hpos, hk⟩ := draws_refill genmax m hroom
  refine ⟨k, hpos, fun values s' => ?_⟩
  rw [← hk]
  exact Lib.draws_congr fun n _ source => run_cons branch ⟨n, m⟩ s' source

/-- No turn takes the other branches when there are just as many choices. -/
theorem draws_same {branch : Branch} (h : branch ≠ .exact) (s' : Source) :
    Lib.draws genmax (fun n rest => Follows genmax calls branch history values s' (⟨n, genmax⟩, rest)) = 0 := by
  refine Lib.draws_eq_zero fun n _ rest hf => h ?_
  rw [← hf.1]
  exact congrArg Prod.fst (choose_exact (s := ⟨n, genmax⟩) rfl)

theorem draws_more {m : ℕ} (hm : genmax < m) (s' : Source) :
    Lib.draws m (fun n rest => Follows genmax calls .exact history values s' (⟨n, m⟩, rest)) = 0 := by
  refine Lib.draws_eq_zero fun n _ rest hf => ?_
  have hbranch := hf.1
  rw [choose_more (s := ⟨n, m⟩) hm] at hbranch
  split at hbranch <;> cases hbranch

/-- The end of a run. -/
theorem waysFrom_nil {randmax : ℕ} {s : Source} (hs : s.randnum ≤ s.randmax) :
    waysFrom [] randmax [] [] s = if s.randmax = randmax then Lib.draws 0 (fun _ source => source = ([] : List Byte)) else 0 := by
  have hrun : ∀ n (source : List Byte), run [] ⟨n, randmax⟩ [] source = some ([], s) ↔ s = ⟨n, randmax⟩ ∧ source = [] := by
    intro n source
    cases source with
    | nil => simp [run, eq_comm]
    | cons b source => simp [run]
  rw [waysFrom, Lib.draws_congr fun n _ source => hrun n source]
  split
  · next hmax =>
    subst hmax
    rw [← Lib.draws_point hs]
    refine Lib.draws_congr fun n _ source => and_congr_left fun _ => ?_
    exact ⟨fun h => (congrArg Source.randnum h).symm, fun h => by rw [h]⟩
  · next hmax => exact Lib.draws_eq_zero fun n _ source h => hmax (congrArg Source.randmax h.1)

/-- All values and all numbers retained are made in as many ways. -/
theorem waysFrom_eq {randmax : ℕ} (h : Lossless history randmax calls) (hcalls : ∀ g ∈ calls, g < randintMax)
    {values₁ values₂ : List ℕ} (hv₁ : Valid values₁ calls) (hv₂ : Valid values₂ calls) {s₁ s₂ : Source}
    (hs₁ : s₁.randnum ≤ s₁.randmax) (hs₂ : s₂.randnum ≤ s₂.randmax) (hmax : s₁.randmax = s₂.randmax) :
    waysFrom history randmax calls values₁ s₁ = waysFrom history randmax calls values₂ s₂ := by
  induction history generalizing randmax calls values₁ values₂ with
  | nil =>
    cases calls with
    | nil =>
      cases hv₁
      cases hv₂
      rw [waysFrom_nil hs₁, waysFrom_nil hs₂, hmax]
    | cons genmax calls =>
      have hnone : ∀ values s, waysFrom [] randmax (genmax :: calls) values s = 0 := fun values s =>
        Lib.draws_eq_zero fun n _ source hrun => by cases hrun
      rw [hnone, hnone]
  | cons branch history ih =>
    cases calls with
    | nil =>
      have hnone : ∀ values s, waysFrom (branch :: history) randmax [] values s = 0 := fun values s =>
        Lib.draws_eq_zero fun n _ source hrun => by cases hrun
      rw [hnone, hnone]
    | cons genmax calls =>
      obtain ⟨hroom, hnext⟩ := h
      have hg := hcalls genmax List.mem_cons_self
      have hcalls' := fun g hg => hcalls g (List.mem_cons_of_mem genmax hg)
      obtain ⟨k, -, hk⟩ := waysFrom_cons hroom branch
      rw [hk, hk]
      refine congrArg (k * ·) ?_
      have hge := refillMax_ge hg randmax
      generalize refillMax genmax randmax = m at hnext hge
      rcases Nat.eq_or_lt_of_le hge with rfl | hm
      · by_cases hbranch : branch = .exact
        · subst hbranch
          cases hv₁ with
          | cons hv₁ hvs₁ =>
          cases hv₂ with
          | cons hv₂ hvs₂ =>
          rw [draws_exact hv₁, draws_exact hv₂]
          exact ih hnext hcalls' hvs₁ hvs₂
        · rw [draws_same hbranch, draws_same hbranch]
      · have hexcess : m + 1 = m - genmax + (genmax + 1) := by omega
        cases branch with
        | exact => rw [draws_more hm, draws_more hm]
        | accept =>
          cases hv₁ with
          | cons hv₁ hvs₁ =>
          cases hv₂ with
          | cons hv₂ hvs₂ =>
          have hdiv : (m + 1) / (genmax + 1) - 1 = (m - genmax) / (genmax + 1) := by
            rw [hexcess, Nat.add_div_right _ (Nat.succ_pos _), Nat.succ_sub_one]
          rw [draws_accept hv₁ hm, draws_accept hv₂ hm, hdiv]
          exact ih hnext hcalls' hvs₁ hvs₂
        | reject =>
          have hmod : (m + 1) % (genmax + 1) = (m - genmax) % (genmax + 1) := by
            rw [hexcess, Nat.add_mod_right]
          rw [draws_reject hg hm, draws_reject hg hm, hmod]
          split
          · rfl
          · exact ih hnext hcalls hv₁ hv₂

/-! ## Runs -/

/-- A run along these branches reads eight bytes a turn at most. -/
theorem length_le_of_run {s s' : Source} {source : List Byte} (h : run history s calls source = some (values, s')) :
    source.length ≤ 8 * history.length := by
  induction history generalizing s calls source values with
  | nil =>
    cases calls with
    | nil =>
      cases source with
      | nil => exact Nat.zero_le _
      | cons b source => cases h
    | cons genmax calls => cases h
  | cons branch history ih =>
    cases calls with
    | nil => cases h
    | cons genmax calls =>
      obtain ⟨r, hr, hf⟩ := (run_cons branch s s' source).1 h
      have hread := (refill_some hr).2.2
      have hrest : r.2.length ≤ 8 * history.length := by
        obtain ⟨-, hf⟩ := hf
        split at hf
        · exact ih hf
        · obtain ⟨values', -, hf⟩ := hf
          exact ih hf
      rw [List.length_cons]
      omega

/-- The number retained stays below its bound, and the values are among those asked for. -/
theorem run_bounds {s s' : Source} {source : List Byte} (hl : Lossless history s.randmax calls)
    (hcalls : ∀ g ∈ calls, g < randintMax) (hs : s.randnum ≤ s.randmax)
    (h : run history s calls source = some (values, s')) : s'.randnum ≤ s'.randmax ∧ Valid values calls := by
  induction history generalizing s calls source values with
  | nil =>
    cases calls with
    | nil =>
      cases source with
      | nil =>
        cases h
        exact ⟨hs, .nil⟩
      | cons b source => cases h
    | cons genmax calls => cases h
  | cons branch history ih =>
    cases calls with
    | nil => cases h
    | cons genmax calls =>
      obtain ⟨hroom, hnext⟩ := hl
      have hg := hcalls genmax List.mem_cons_self
      have hcalls' := fun g hg => hcalls g (List.mem_cons_of_mem genmax hg)
      obtain ⟨⟨⟨n, m⟩, rest⟩, hr, hbranch, hf⟩ := (run_cons branch s s' source).1 h
      obtain ⟨hmax, hnum, -⟩ := refill_some hr
      have hm : m = refillMax genmax s.randmax := hmax
      have hn : n ≤ m := by
        rw [hm]
        exact hnum hroom hs
      have hge : genmax ≤ m := by
        rw [hm]
        exact refillMax_ge hg s.randmax
      rw [← hm] at hnext
      simp only at hbranch hf
      rcases Nat.eq_or_lt_of_le hge with rfl | hm
      · have hchoose := choose_exact (s := ⟨n, genmax⟩) rfl
        rw [hchoose] at hbranch hf
        subst hbranch
        obtain ⟨values', rfl, hf⟩ := hf
        obtain ⟨hs', hv⟩ := ih (s := ⟨0, 0⟩) hnext hcalls' (Nat.le_refl _) hf
        exact ⟨hs', .cons hn hv⟩
      · have hchoose := choose_more (s := ⟨n, m⟩) hm
        have hexcess : m + 1 = m - genmax + (genmax + 1) := by omega
        by_cases hlt : n < (m + 1) / (genmax + 1) * (genmax + 1)
        · rw [hchoose, if_pos hlt] at hbranch hf
          subst hbranch
          obtain ⟨values', rfl, hf⟩ := hf
          have hdiv : (m + 1) / (genmax + 1) - 1 = (m - genmax) / (genmax + 1) := by
            rw [hexcess, Nat.add_div_right _ (Nat.succ_pos _), Nat.succ_sub_one]
          have hquot : n / (genmax + 1) ≤ (m + 1) / (genmax + 1) - 1 :=
            Nat.le_sub_one_of_lt ((Nat.div_lt_iff_lt_mul (Nat.succ_pos _)).2 hlt)
          obtain ⟨hs', hv⟩ := ih (s := ⟨n / (genmax + 1), (m + 1) / (genmax + 1) - 1⟩) (by rwa [hdiv]) hcalls' hquot hf
          exact ⟨hs', .cons (Nat.le_of_lt_succ (Nat.mod_lt _ (Nat.succ_pos _))) hv⟩
        · rw [hchoose, if_neg hlt] at hbranch hf
          subst hbranch
          have hmod : (m + 1) % (genmax + 1) = (m - genmax) % (genmax + 1) := by
            rw [hexcess, Nat.add_mod_right]
          have hrem : (m + 1) % (genmax + 1) < genmax + 1 := Nat.mod_lt _ (Nat.succ_pos _)
          have hsplit := Nat.div_add_mod' (m + 1) (genmax + 1)
          have hle := Nat.le_of_not_lt hlt
          have hred := Lib.mod_of_tail (show 0 < genmax + 1 from Nat.succ_pos genmax) hle hn
          have hword : ((m + 1) % (genmax + 1) + 2 ^ 64 - 1) % 2 ^ 64 = (m + 1) % (genmax + 1) - 1 := by
            unfold randintMax at hg
            omega
          rw [hword] at hf
          simp only [if_true] at hf
          exact ih (s := ⟨_, _⟩) (by rw [hmod]; exact hnext) hcalls (by simp only [hred]; omega) hf

/-- The strings of bytes with which the calls, from a new source, take these branches and end so. -/
def Producing (history : List Branch) (calls values : List ℕ) (s : Source) : Set (List Byte) :=
  {source | run history randintNew calls source = some (values, s)}

/-- The number retained is never above its bound, every value is among those asked for, and along the same branches all values
and all numbers retained come from as many strings of bytes. -/
theorem randintGenmax_fair {history : List Branch} {calls : List ℕ} (hcalls : ∀ g ∈ calls, g < randintMax)
    (h : Lossless history 0 calls) :
    (∀ source values s, run history randintNew calls source = some (values, s) →
      s.randnum ≤ s.randmax ∧ Valid values calls) ∧
    (∀ values s, (Producing history calls values s).Finite) ∧
    ∀ values₁ values₂ randmax n₁ n₂, Valid values₁ calls → Valid values₂ calls → n₁ ≤ randmax → n₂ ≤ randmax →
      (Producing history calls values₁ ⟨n₁, randmax⟩).ncard = (Producing history calls values₂ ⟨n₂, randmax⟩).ncard := by
  have hways : ∀ values s, (Producing history calls values s).ncard = waysFrom history 0 calls values s := fun values s =>
    (Lib.draws_zero fun n source => run history ⟨n, 0⟩ calls source = some (values, s)).symm
  refine ⟨fun source values s hrun => run_bounds h hcalls (Nat.le_refl _) hrun, fun values s => ?_, ?_⟩
  · have : Finite Byte := Finite.of_injective UInt8.toFin fun _ _ h => UInt8.toFin_inj.1 h
    exact (List.finite_length_le Byte (8 * history.length)).subset fun source hrun => length_le_of_run hrun
  · intro values₁ values₂ randmax n₁ n₂ hv₁ hv₂ hn₁ hn₂
    rw [hways, hways]
    exact waysFrom_eq h hcalls hv₁ hv₂ hn₁ hn₂ rfl

theorem randintGenmax_fair_die : (Producing [.accept] [5] [0] ⟨0, 41⟩).ncard = (Producing [.accept] [5] [3] ⟨17, 41⟩).ncard := by
  have hfive : ∀ g ∈ [5], g < randintMax := List.forall_mem_singleton.2 (by decide)
  have hv : ∀ v ≤ 5, Valid [v] [5] := fun v hv => .cons hv .nil
  exact (randintGenmax_fair hfive (by decide)).2.2 [0] [3] 41 0 17 (hv 0 (by decide)) (hv 3 (by decide)) (by decide) (by decide)

end CodingExercises.Coreutils.Randint
