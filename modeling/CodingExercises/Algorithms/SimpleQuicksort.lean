import CodingExercises.Algorithms.Arrays

/-!
# Sorting: simple_quicksort.c

`partition`, `partition_swap` and `quicksort`, which calls the second one. The scans of both go towards each other, and the pivot is
at the left one in between: `partition_swap` puts it there, where `partition` has a hole. So the elements before the left scan are
at most the pivot and those behind the right one at least (`Between`), each round keeps this and moves the left scan on
(`round_spec`), and the two procedures do the same round by round (`loops_agree`).
-/

namespace CodingExercises.Algorithms.SimpleQuicksort

open Lib.Segments

/-! ## The code -/

/-- `while(i < j && a[j] >= pivotValue) {j--;}` -/
def scanDown (r : Range) (a : Elements) (pivotValue i j : ℤ) : Except Fault ℤ :=
  if i < j then do
    if (← get r a j) ≥ pivotValue then scanDown r a pivotValue i (j - 1) else return j
  else return j
termination_by (j - i).toNat

/-- `while(i < j && a[i] <= pivotValue) {i++;}` -/
def scanUp (r : Range) (a : Elements) (pivotValue j i : ℤ) : Except Fault ℤ :=
  if i < j then do
    if (← get r a i) ≤ pivotValue then scanUp r a pivotValue j (i + 1) else return i
  else return i
termination_by (j - i).toNat

/-- The outer loop of `partition`. -/
def partitionLoop (r : Range) (pivotValue : ℤ) : ℕ → Elements → ℤ → ℤ → Except Fault (ℤ × Elements)
  | 0, _, _, _ => .error .fuel
  | fuel + 1, a, i, j =>
    if i < j then do
      let j ← scanDown r a pivotValue i j
      let a ← set r a i (← get r a j)
      let i ← scanUp r a pivotValue j i
      let a ← set r a j (← get r a i)
      partitionLoop r pivotValue fuel a i j
    else return (i, a)

/-- `partition`: the index that is returned, and the array. -/
def partition (fuel : ℕ) (r : Range) (a : Elements) (low high : ℤ) : Except Fault (ℤ × Elements) := do
  let pivotIndex := low
  let pivotValue ← get r a pivotIndex
  let (i, a) ← partitionLoop r pivotValue fuel a low high
  let a ← set r a i pivotValue
  return (i, a)

/-- The outer loop of `partition_swap`. -/
def partitionSwapLoop (r : Range) (pivotValue : ℤ) : ℕ → Elements → ℤ → ℤ → ℤ → Except Fault (ℤ × Elements)
  | 0, _, _, _, _ => .error .fuel
  | fuel + 1, a, i, j, pivotIndex =>
    if i < j then do
      let j ← scanDown r a pivotValue i j
      let a ← swap r a j pivotIndex
      let pivotIndex := j
      let i ← scanUp r a pivotValue j i
      let a ← swap r a i pivotIndex
      let pivotIndex := i
      partitionSwapLoop r pivotValue fuel a i j pivotIndex
    else return (i, a)

/-- `partition_swap`. -/
def partitionSwap (fuel : ℕ) (r : Range) (a : Elements) (low high : ℤ) : Except Fault (ℤ × Elements) := do
  let pivotIndex := low
  let pivotValue ← get r a pivotIndex
  partitionSwapLoop r pivotValue fuel a low high pivotIndex

/-- `quicksort`, but for what it prints. -/
def quicksort : ℕ → Range → Elements → ℤ → ℤ → Except Fault Elements
  | 0, _, _, _, _ => .error .fuel
  | fuel + 1, r, a, low, high =>
    if high = low then return a
    else do
      let (pivotLoc, a) ← partitionSwap (fuel + 1) r a low high
      let a ← if pivotLoc > low then quicksort fuel r a low (pivotLoc - 1) else pure a
      if pivotLoc < high then quicksort fuel r a (pivotLoc + 1) high else return a

/-! ## The scans -/

section

variable {r : Range} {a b : Elements} {pivotValue i j : ℤ}

theorem scanDown_end (r : Range) (a : Elements) (pivotValue i : ℤ) : scanDown r a pivotValue i i = .ok i := by
  rw [scanDown, if_neg (Int.lt_irrefl i)]
  rfl

theorem scanUp_end (r : Range) (a : Elements) (pivotValue i : ℤ) : scanUp r a pivotValue i i = .ok i := by
  rw [scanUp, if_neg (Int.lt_irrefl i)]
  rfl

theorem scanDown_step (hij : i < j) (hj : r.lo ≤ j ∧ j ≤ r.hi) :
    scanDown r a pivotValue i j = if a j ≥ pivotValue then scanDown r a pivotValue i (j - 1) else .ok j := by
  rw [scanDown, if_pos hij, get_ok hj]
  rfl

theorem scanUp_step (hij : i < j) (hi : r.lo ≤ i ∧ i ≤ r.hi) :
    scanUp r a pivotValue j i = if a i ≤ pivotValue then scanUp r a pivotValue j (i + 1) else .ok i := by
  rw [scanUp, if_pos hij, get_ok hi]
  rfl

/-- The right scan stops at the left one or at a smaller element. -/
theorem scanDown_spec (r : Range) (a : Elements) (pivotValue : ℤ) {i j : ℤ} (hij : i ≤ j) (hlo : r.lo ≤ i) (hhi : j ≤ r.hi) :
    ∃ j', scanDown r a pivotValue i j = .ok j' ∧ i ≤ j' ∧ j' ≤ j ∧ (∀ k, j' < k → k ≤ j → pivotValue ≤ a k) ∧
      (j' = i ∨ a j' < pivotValue) := by
  obtain ⟨n, rfl⟩ : ∃ n : ℕ, j = i + n := ⟨(j - i).toNat, by omega⟩
  induction n with
  | zero =>
    rw [Int.natCast_zero, Int.add_zero]
    exact ⟨i, scanDown_end r a pivotValue i, Int.le_refl i, Int.le_refl i, fun k hk hk' => by omega, .inl rfl⟩
  | succ n ih =>
    have hprev : i + ((n + 1 : ℕ) : ℤ) - 1 = i + n := by omega
    rw [scanDown_step (by omega) ⟨by omega, hhi⟩, hprev]
    by_cases hge : a (i + ((n + 1 : ℕ) : ℤ)) ≥ pivotValue
    · obtain ⟨j', hscan, hle, hle', hbehind, hstop⟩ := ih (by omega) (by omega)
      refine ⟨j', by rw [if_pos hge, hscan], hle, by omega, ?_, hstop⟩
      intro k hk hk'
      rcases Int.lt_or_eq_of_le hk' with hlt | rfl
      · exact hbehind k hk (by omega)
      · exact hge
    · exact ⟨_, if_neg hge, by omega, Int.le_refl _, fun k hk hk' => by omega, .inr (Int.lt_of_not_ge hge)⟩

/-- The left scan stops at the right one or at a greater element. -/
theorem scanUp_spec (r : Range) (a : Elements) (pivotValue : ℤ) {i j : ℤ} (hij : i ≤ j) (hlo : r.lo ≤ i) (hhi : j ≤ r.hi) :
    ∃ i', scanUp r a pivotValue j i = .ok i' ∧ i ≤ i' ∧ i' ≤ j ∧ (∀ k, i ≤ k → k < i' → a k ≤ pivotValue) ∧
      (i' = j ∨ pivotValue < a i') := by
  obtain ⟨n, hn⟩ : ∃ n : ℕ, j = i + n := ⟨(j - i).toNat, by omega⟩
  induction n generalizing i with
  | zero =>
    obtain rfl : i = j := by omega
    exact ⟨i, scanUp_end r a pivotValue i, Int.le_refl i, Int.le_refl i, fun k hk hk' => by omega, .inl rfl⟩
  | succ n ih =>
    rw [scanUp_step (by omega) ⟨hlo, by omega⟩]
    by_cases hle : a i ≤ pivotValue
    · obtain ⟨i', hscan, hlt, hle', hbefore, hstop⟩ := @ih (i + 1) (by omega) (by omega) (by omega)
      refine ⟨i', by rw [if_pos hle, hscan], by omega, hle', ?_, hstop⟩
      intro k hk hk'
      rcases Int.lt_or_eq_of_le hk with hlt' | rfl
      · exact hbefore k (by omega) hk'
      · exact hle
    · exact ⟨i, if_neg hle, Int.le_refl i, hij, fun k hk hk' => by omega, .inr (Int.lt_of_not_ge hle)⟩

/-- A scan looks at the elements on its way. -/
theorem scanDown_congr (hij : i ≤ j) (hlo : r.lo ≤ i) (hhi : j ≤ r.hi) (hab : ∀ k, i < k → k ≤ j → a k = b k) :
    scanDown r a pivotValue i j = scanDown r b pivotValue i j := by
  obtain ⟨n, rfl⟩ : ∃ n : ℕ, j = i + n := ⟨(j - i).toNat, by omega⟩
  induction n with
  | zero => rw [Int.natCast_zero, Int.add_zero, scanDown_end, scanDown_end]
  | succ n ih =>
    have hprev : i + ((n + 1 : ℕ) : ℤ) - 1 = i + n := by omega
    rw [scanDown_step (by omega) ⟨by omega, hhi⟩, scanDown_step (by omega) ⟨by omega, hhi⟩, hab _ (by omega) (Int.le_refl _), hprev,
      ih (by omega) (by omega) fun k hk hk' => hab k hk (by omega)]

theorem scanUp_congr (hij : i ≤ j) (hlo : r.lo ≤ i) (hhi : j ≤ r.hi) (hab : ∀ k, i ≤ k → k < j → a k = b k) :
    scanUp r a pivotValue j i = scanUp r b pivotValue j i := by
  obtain ⟨n, hn⟩ : ∃ n : ℕ, j = i + n := ⟨(j - i).toNat, by omega⟩
  induction n generalizing i with
  | zero =>
    obtain rfl : i = j := by omega
    rw [scanUp_end, scanUp_end]
  | succ n ih =>
    rw [scanUp_step (by omega) ⟨hlo, by omega⟩, scanUp_step (by omega) ⟨hlo, by omega⟩, hab i (Int.le_refl i) (by omega)]
    exact if_congr Iff.rfl (@ih (i + 1) (by omega) (by omega) (fun k hk hk' => hab k (by omega) hk') (by omega)) rfl

end

/-! ## A round -/

section

variable {r : Range} {low high pivotValue i j i' j' : ℤ} {a a' b : Elements}

/-- What holds when a round begins: the pivot is at the left scan, and outside of the scans each element is on its side. -/
structure Between (low high pivotValue : ℤ) (a : Elements) (i j : ℤ) : Prop where
  low_le : low ≤ i
  le : i ≤ j
  le_high : j ≤ high
  pivot : a i = pivotValue
  before : ∀ k, low ≤ k → k < i → a k ≤ pivotValue
  behind : ∀ k, j < k → k ≤ high → pivotValue ≤ a k

/-- The array behind a round of `partition_swap`, where the scans have stopped at `j'` and `i'`. -/
def afterRound (a : Elements) (i j' i' : ℤ) : Elements := (a ∘ Equiv.swap j' i) ∘ Equiv.swap i' j'

/-- The scans of a round stop, the left one further on, and everything is on its side again. -/
theorem round_spec (h : Between low high pivotValue a i j) (hij : i < j) (hlo : r.lo ≤ low) (hhi : high ≤ r.hi) :
    ∃ j' i', scanDown r a pivotValue i j = .ok j' ∧ scanUp r (a ∘ Equiv.swap j' i) pivotValue j' i = .ok i' ∧
      j' - i' < j - i ∧ i ≤ i' ∧ i' ≤ j' ∧ j' ≤ j ∧ Between low high pivotValue (afterRound a i j' i') i' j' := by
  obtain ⟨hlow, hle, hhigh, hpivot, hbefore, hbehind⟩ := h
  obtain ⟨j', hdown, hij', hj', hgreater, hstop⟩ :=
    scanDown_spec r a pivotValue hle (Int.le_trans hlo hlow) (Int.le_trans hhigh hhi)
  obtain ⟨i', hup, hi', hmeet, hsmaller, hstop'⟩ :=
    scanUp_spec r (a ∘ Equiv.swap j' i) pivotValue hij' (Int.le_trans hlo hlow) (by omega)
  have hbehind' : ∀ k, j' < k → k ≤ high → pivotValue ≤ a k := by
    intro k hk hk'
    by_cases hkj : k ≤ j
    · exact hgreater k hk hkj
    · exact hbehind k (by omega) hk'
  refine ⟨j', i', hdown, hup, ?_, hi', hmeet, hj', ?_⟩
  · rcases hstop with rfl | hless
    · omega
    · -- the smaller element is at the left scan now
      have hleft : (a ∘ Equiv.swap j' i) i < pivotValue := by rwa [swap_right]
      have hne : i' ≠ i := by
        rintro rfl
        rcases hstop' with rfl | hgt
        · rw [hpivot] at hless
          exact Int.lt_irrefl _ hless
        · omega
      omega
  · refine ⟨Int.le_trans hlow hi', hmeet, Int.le_trans hj' hhigh, ?_, ?_, ?_⟩
    · rw [afterRound, swap_left, swap_left, hpivot]
    · intro k hk hk'
      rw [afterRound, swap_other _ (by omega) (by omega)]
      by_cases hki : i ≤ k
      · exact hsmaller k hki hk'
      · rw [swap_other _ (by omega) (by omega)]
        exact hbefore k hk (by omega)
    · intro k hk hk'
      rw [afterRound, swap_other _ (by omega) (by omega), swap_other _ (by omega) (by omega)]
      exact hbehind' k hk hk'

theorem afterRound_rearranged (a : Elements) (hlow : low ≤ i) (hi : i ≤ i') (hij : i' ≤ j') (hhigh : j' ≤ high) :
    Rearranged low high a (afterRound a i j' i') :=
  (rearranged_swap a ⟨by omega, hlow⟩ ⟨hhigh, by omega⟩).trans (rearranged_swap _ ⟨by omega, by omega⟩ ⟨by omega, hhigh⟩)

/-- A round of `partition_swap`. -/
theorem partitionSwapLoop_round (hij : i < j) (hdown : scanDown r a pivotValue i j = .ok j')
    (hup : scanUp r (a ∘ Equiv.swap j' i) pivotValue j' i = .ok i') (hlo : r.lo ≤ i) (hi : i ≤ i') (hmeet : i' ≤ j')
    (hhi : j' ≤ r.hi) (fuel : ℕ) :
    partitionSwapLoop r pivotValue (fuel + 1) a i j i = partitionSwapLoop r pivotValue fuel (afterRound a i j' i') i' j' i' := by
  rw [partitionSwapLoop, if_pos hij, hdown]
  simp only [bind, Except.bind]
  rw [swap_ok ⟨by omega, hhi⟩ ⟨hlo, by omega⟩]
  simp only
  rw [hup]
  simp only
  rw [swap_ok ⟨by omega, by omega⟩ ⟨by omega, hhi⟩]
  rfl

/-- The two arrays agree but for the hole at `i`. -/
def Hole (i : ℤ) (a b : Elements) : Prop := ∀ k, k ≠ i → a k = b k

/-- A round of `partition`, on an array with a hole. -/
theorem partitionLoop_round (hhole : Hole i a' a) (hij : i < j) (hdown : scanDown r a pivotValue i j = .ok j')
    (hup : scanUp r (a ∘ Equiv.swap j' i) pivotValue j' i = .ok i') (hlo : r.lo ≤ i) (hi : i ≤ i') (hmeet : i' ≤ j')
    (hj' : j' ≤ j) (hhi : j ≤ r.hi) :
    ∃ b, Hole i' b (afterRound a i j' i') ∧
      ∀ fuel, partitionLoop r pivotValue (fuel + 1) a' i j = partitionLoop r pivotValue fuel b i' j' := by
  have hdown' : scanDown r a' pivotValue i j = .ok j' := by
    rw [scanDown_congr (by omega) hlo hhi fun k hk _ => hhole k (by omega), hdown]
  -- the hole is at `j'` now
  have hmoved : Hole j' (Function.update a' i (a' j')) (a ∘ Equiv.swap j' i) := by
    intro k hk
    by_cases hki : k = i
    · subst hki
      rw [Function.update_self, swap_right, hhole j' (by omega)]
    · rw [Function.update_of_ne hki, swap_other a hk hki, hhole k hki]
  have hup' : scanUp r (Function.update a' i (a' j')) pivotValue j' i = .ok i' := by
    rw [scanUp_congr (by omega) hlo (by omega) fun k _ hk => hmoved k (by omega), hup]
  refine ⟨Function.update (Function.update a' i (a' j')) j' (Function.update a' i (a' j') i'), ?_, ?_⟩
  · intro k hk
    by_cases hkj : k = j'
    · subst hkj
      rw [Function.update_self, afterRound, swap_right, hmoved i' (by omega)]
    · rw [Function.update_of_ne hkj, afterRound, swap_other _ hk hkj, hmoved k hkj]
  · intro fuel
    rw [partitionLoop, if_pos hij, hdown']
    simp only [bind, Except.bind]
    rw [get_ok ⟨by omega, by omega⟩]
    simp only
    rw [set_ok ⟨hlo, by omega⟩]
    simp only
    rw [hup']
    simp only
    rw [get_ok ⟨by omega, by omega⟩]
    simp only
    rw [set_ok ⟨by omega, by omega⟩]

/-- Round by round, both loops come to the same index, and to arrays that agree but for the hole at it. -/
theorem loops_agree (fuel : ℕ) (h : Between low high pivotValue a i j) (hhole : Hole i a' a) (hfuel : j - i < fuel)
    (hlo : r.lo ≤ low) (hhi : high ≤ r.hi) :
    ∃ p b b', partitionSwapLoop r pivotValue fuel a i j i = .ok (p, b) ∧ partitionLoop r pivotValue fuel a' i j = .ok (p, b') ∧
      Hole p b' b ∧ Between low high pivotValue b p p ∧ Rearranged low high a b := by
  induction fuel generalizing a a' i j with
  | zero =>
    have := h.le
    omega
  | succ fuel ih =>
    by_cases hij : i < j
    · have hlow := h.low_le
      have hhigh := h.le_high
      obtain ⟨j', i', hdown, hup, hless, hi, hij', hj', hround⟩ := round_spec h hij hlo hhi
      obtain ⟨c, hhole', hstep⟩ := partitionLoop_round hhole hij hdown hup (by omega) hi hij' hj' (by omega)
      obtain ⟨p, b, b', hswap, hpart, hend, hbetween, hrearranged⟩ := ih hround hhole' (by omega)
      refine ⟨p, b, b', ?_, ?_, hend, hbetween, (afterRound_rearranged a hlow hi hij' (by omega)).trans hrearranged⟩
      · rw [partitionSwapLoop_round hij hdown hup (by omega) hi hij' (by omega), hswap]
      · rw [hstep, hpart]
    · obtain rfl : j = i := by
        have := h.le
        omega
      refine ⟨j, a, a', ?_, ?_, hhole, h, .refl _ _ a⟩
      · rw [partitionSwapLoop, if_neg hij]
        rfl
      · rw [partitionLoop, if_neg hij]
        rfl

/-- Both procedures: the same index and the same array, with the pivot where it divides the segment. -/
theorem partitions_spec (a : Elements) (fuel : ℕ) (hle : low ≤ high) (hfuel : high - low < fuel) (hlo : r.lo ≤ low)
    (hhi : high ≤ r.hi) :
    ∃ p b, partitionSwap fuel r a low high = .ok (p, b) ∧ partition fuel r a low high = .ok (p, b) ∧
      Rearranged low high a b ∧ Split low high p b := by
  have hstart : Between low high (a low) a low high :=
    ⟨Int.le_refl _, hle, Int.le_refl _, rfl, fun k hk hk' => by omega, fun k hk hk' => by omega⟩
  obtain ⟨p, b, b', hswap, hpart, hhole, ⟨hlow, -, hhigh, hpivot, hbefore, hbehind⟩, hrearranged⟩ :=
    loops_agree fuel hstart (fun _ _ => rfl) hfuel hlo hhi
  refine ⟨p, b, ?_, ?_, hrearranged, ⟨hlow, hhigh, by rwa [hpivot], by rwa [hpivot]⟩⟩
  · rw [partitionSwap, get_ok ⟨hlo, by omega⟩]
    exact hswap
  · have hfill : Function.update b' p (a low) = b := by
      funext k
      by_cases hk : k = p
      · rw [hk, Function.update_self, hpivot]
      · rw [Function.update_of_ne hk, hhole k hk]
    rw [partition, get_ok ⟨hlo, by omega⟩]
    simp only [bind, Except.bind]
    rw [hpart]
    simp only
    rw [set_ok ⟨by omega, by omega⟩, hfill]
    rfl

end

/-! ## quicksort -/

section

variable {r : Range} {low high p : ℤ} {a b c d : Elements} {fuel : ℕ}

/-- What a call does where its parts have results: a side without elements is left out. -/
theorem quicksort_step (hne : high ≠ low) (hpartition : partitionSwap (fuel + 1) r a low high = .ok (p, b))
    (hleft : if p > low then quicksort fuel r b low (p - 1) = .ok c else c = b)
    (hright : if p < high then quicksort fuel r c (p + 1) high = .ok d else d = c) : quicksort (fuel + 1) r a low high = .ok d := by
  rw [quicksort, if_neg hne, hpartition]
  simp only [bind, Except.bind]
  have hlast : (if p < high then quicksort fuel r c (p + 1) high else pure c) = .ok d := by
    split_ifs at hright ⊢
    · exact hright
    · rw [hright]
      rfl
  by_cases hp : p > low
  · rw [if_pos hp] at hleft ⊢
    rw [hleft]
    exact hlast
  · rw [if_neg hp] at hleft ⊢
    rw [← hleft]
    exact hlast

/-- The whole segment is sorted. -/
theorem quicksort_spec (fuel : ℕ) (a : Elements) (hle : low ≤ high) (hfuel : high - low < fuel) (hlo : r.lo ≤ low)
    (hhi : high ≤ r.hi) : ∃ b, quicksort fuel r a low high = .ok b ∧ Rearranged low high a b ∧ Sorted low high b := by
  induction fuel generalizing a low high with
  | zero => omega
  | succ fuel ih =>
    by_cases hone : high = low
    · subst hone
      refine ⟨a, ?_, .refl _ _ a, sorted_of_le (Int.le_refl _) a⟩
      rw [quicksort, if_pos rfl]
      rfl
    · obtain ⟨p, b, hpartition, -, hab, hsplit⟩ := partitions_spec (r := r) a (fuel + 1) hle hfuel hlo hhi
      obtain ⟨hlow, hhigh⟩ : low ≤ p ∧ p ≤ high := ⟨hsplit.lo_le, hsplit.le_hi⟩
      obtain ⟨c, hleft, hbc, hc⟩ : ∃ c, (if p > low then quicksort fuel r b low (p - 1) = .ok c else c = b) ∧
          Rearranged low (p - 1) b c ∧ Sorted low (p - 1) c := by
        by_cases hp : p > low
        · simp only [if_pos hp]
          exact ih b (by omega) (by omega) hlo (by omega)
        · simp only [if_neg hp]
          exact ⟨b, rfl, .refl _ _ b, sorted_of_le (by omega) b⟩
      obtain ⟨d, hright, hcd, hd⟩ : ∃ d, (if p < high then quicksort fuel r c (p + 1) high = .ok d else d = c) ∧
          Rearranged (p + 1) high c d ∧ Sorted (p + 1) high d := by
        by_cases hp : p < high
        · simp only [if_pos hp]
          exact ih c (by omega) (by omega) (by omega) hhi
        · simp only [if_neg hp]
          exact ⟨c, rfl, .refl _ _ c, sorted_of_le (by omega) c⟩
      refine ⟨d, quicksort_step hone hpartition hleft hright, ?_, sorted_of_split hsplit hbc hc hcd hd⟩
      exact (hab.trans (hbc.mono (Int.le_refl _) (by omega))).trans (hcd.mono (by omega) (Int.le_refl _))

end

/-- `partition_swap` divides the segment, and `quicksort` sorts it; no other element is touched. -/
theorem simple_quicksort (a : Elements) (low high : ℤ) (fuel : ℕ) (hle : low ≤ high) (hfuel : high - low < fuel) :
    (∃ p b, partitionSwap fuel ⟨low, high⟩ a low high = .ok (p, b) ∧ Rearranged low high a b ∧ Split low high p b) ∧
    ∃ b, quicksort fuel ⟨low, high⟩ a low high = .ok b ∧ Rearranged low high a b ∧ Sorted low high b := by
  obtain ⟨p, b, hpartition, -, hab, hsplit⟩ :=
    partitions_spec (r := ⟨low, high⟩) a fuel hle hfuel (Int.le_refl _) (Int.le_refl _)
  exact ⟨⟨p, b, hpartition, hab, hsplit⟩, quicksort_spec fuel a hle hfuel (Int.le_refl _) (Int.le_refl _)⟩

/-- The numbers of a comment in `main`. -/
def numbers (i : ℤ) : ℤ := [49, 38, 65, 97, 76, 13, 27, 49].getD i.toNat 0

theorem simple_quicksort_numbers :
    (∃ p b, partitionSwap 8 ⟨0, 7⟩ numbers 0 7 = .ok (p, b) ∧ Rearranged 0 7 numbers b ∧ Split 0 7 p b) ∧
    ∃ b, quicksort 8 ⟨0, 7⟩ numbers 0 7 = .ok b ∧ Rearranged 0 7 numbers b ∧ Sorted 0 7 b :=
  simple_quicksort numbers 0 7 8 (by decide) (by decide)

/-- Both procedures give the same index and the same array. -/
theorem partitions_agree (a : Elements) (low high : ℤ) (fuel : ℕ) (hle : low ≤ high) (hfuel : high - low < fuel) :
    ∃ p b, partition fuel ⟨low, high⟩ a low high = .ok (p, b) ∧ partitionSwap fuel ⟨low, high⟩ a low high = .ok (p, b) := by
  obtain ⟨p, b, hswap, hpartition, -⟩ := partitions_spec (r := ⟨low, high⟩) a fuel hle hfuel (Int.le_refl _) (Int.le_refl _)
  exact ⟨p, b, hpartition, hswap⟩

theorem partitions_agree_numbers :
    ∃ p b, partition 8 ⟨0, 7⟩ numbers 0 7 = .ok (p, b) ∧ partitionSwap 8 ⟨0, 7⟩ numbers 0 7 = .ok (p, b) :=
  partitions_agree numbers 0 7 8 (by decide) (by decide)

end CodingExercises.Algorithms.SimpleQuicksort
