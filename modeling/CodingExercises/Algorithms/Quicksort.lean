import CodingExercises.Algorithms.Arrays

/-!
# Sorting: quicksort.c

`quicksort` with `media3`. The scans have no test of bounds: the left one stops at the pivot, which `media3` puts before the last
element, and the right one at the first element. That is so for three elements or more (`split_spec`); of two elements, the pivot is
the first, so that the right scan goes on before it, and the two come out in the wrong order (`split_pair`). So an array is sorted if no
range of two different elements is come to, and none at the left end (`Fits`, `quicksort_iff`).
-/

namespace CodingExercises.Algorithms.Quicksort

open Lib.Segments

/-! ## The code -/

def intMax : ℤ := 2 ^ 31 - 1

/-- `if(a[i] > a[j]) swap(&a[i], &a[j]);` -/
def swapIfGreater (r : Range) (a : Elements) (i j : ℤ) : Except Fault Elements := do
  if (← get r a i) > (← get r a j) then swap r a i j else return a

/-- `media3`: the pivot that is returned, and the array. -/
def media3 (r : Range) (a : Elements) (left right : ℤ) : Except Fault (ℤ × Elements) :=
  if intMax < left + right then .error .overflow
  else do
    let center := (left + right).tdiv 2
    let a ← swapIfGreater r a left center
    let a ← swapIfGreater r a left right
    let a ← swapIfGreater r a center right
    let a ← swap r a center (right - 1)
    return (← get r a (right - 1), a)

theorem inside_of_get {r : Range} {a : Elements} {i x : ℤ} (h : get r a i = .ok x) : r.lo ≤ i ∧ i ≤ r.hi := by
  by_contra hout
  rw [get_outside hout] at h
  cases h

/-- `while(a[++i] < pivot) {}` -/
def scanUp (r : Range) (a : Elements) (pivot i : ℤ) : Except Fault ℤ :=
  match h : get r a (i + 1) with
  | .error fault => .error fault
  | .ok x => if x < pivot then scanUp r a pivot (i + 1) else .ok (i + 1)
termination_by (r.hi - i).toNat
decreasing_by
  have hinside := inside_of_get h
  omega

/-- `while(a[--j] > pivot) {}` -/
def scanDown (r : Range) (a : Elements) (pivot j : ℤ) : Except Fault ℤ :=
  match h : get r a (j - 1) with
  | .error fault => .error fault
  | .ok x => if x > pivot then scanDown r a pivot (j - 1) else .ok (j - 1)
termination_by (j - r.lo).toNat
decreasing_by
  have hinside := inside_of_get h
  omega

/-- The left scan moves on, within the range. -/
theorem scanUp_lt {r : Range} {a : Elements} {pivot i i' : ℤ} (h : scanUp r a pivot i = .ok i') : i < i' ∧ i' ≤ r.hi := by
  fun_induction scanUp r a pivot i with
  | case1 => cases h
  | case2 i x hget _ ih =>
    have := ih h
    omega
  | case3 i x hget _ =>
    have := inside_of_get hget
    cases h
    omega

/-- The loop: `i` behind it, and the array. -/
def partitionLoop (r : Range) (pivot : ℤ) (a : Elements) (i j : ℤ) : Except Fault (ℤ × Elements) :=
  match h : scanUp r a pivot i with
  | .error fault => .error fault
  | .ok i' => do
    let j ← scanDown r a pivot j
    if i' < j then
      let a ← swap r a i' j
      partitionLoop r pivot a i' j
    else return (i', a)
termination_by (r.hi - i).toNat
decreasing_by
  have hlt := scanUp_lt h
  omega

/-- `quicksort` before it calls itself: `i`, and the array. -/
def split (r : Range) (a : Elements) (left right : ℤ) : Except Fault (ℤ × Elements) := do
  let (pivot, a) ← media3 r a left right
  let (i, a) ← partitionLoop r pivot a left (right - 1)
  let a ← swap r a i (right - 1)
  return (i, a)

/-- `quicksort`. -/
def quicksort : ℕ → Range → Elements → ℤ → ℤ → Except Fault Elements
  | 0, _, _, _, _ => .error .fuel
  | fuel + 1, r, a, left, right =>
    if right = left then return a
    else do
      let (i, a) ← split r a left right
      let a ← if i > left then quicksort fuel r a left (i - 1) else pure a
      if right > i then quicksort fuel r a (i + 1) right else return a

/-! ## The scans -/

section

variable {r : Range} {a c : Elements} {pivot i j m : ℤ}

theorem scanUp_step (hi : r.lo ≤ i + 1 ∧ i + 1 ≤ r.hi) :
    scanUp r a pivot i = if a (i + 1) < pivot then scanUp r a pivot (i + 1) else .ok (i + 1) := by
  rw [scanUp]
  split
  · next fault hget =>
    rw [get_ok hi] at hget
    cases hget
  · next x hget =>
    rw [get_ok hi] at hget
    cases hget
    rfl

theorem scanDown_step (hj : r.lo ≤ j - 1 ∧ j - 1 ≤ r.hi) :
    scanDown r a pivot j = if a (j - 1) > pivot then scanDown r a pivot (j - 1) else .ok (j - 1) := by
  rw [scanDown]
  split
  · next fault hget =>
    rw [get_ok hj] at hget
    cases hget
  · next x hget =>
    rw [get_ok hj] at hget
    cases hget
    rfl

theorem scanDown_outside (hj : ¬(r.lo ≤ j - 1 ∧ j - 1 ≤ r.hi)) : scanDown r a pivot j = .error .outside := by
  rw [scanDown]
  split
  · next fault hget =>
    rw [get_outside hj] at hget
    cases hget
    rfl
  · next x hget =>
    rw [get_outside hj] at hget
    cases hget

/-- The left scan stops at `m` at the latest, if this element is not smaller: in every array with these elements. -/
theorem scanUp_spec (him : i < m) (hlo : r.lo ≤ i + 1) (hhi : m ≤ r.hi) (hstop : pivot ≤ a m) :
    ∃ i', i < i' ∧ i' ≤ m ∧ (∀ k, i < k → k < i' → a k < pivot) ∧ pivot ≤ a i' ∧
      ∀ c, SameIn (i + 1) m a c → scanUp r c pivot i = .ok i' := by
  obtain ⟨n, hn⟩ : ∃ n : ℕ, m = i + 1 + n := ⟨(m - (i + 1)).toNat, by omega⟩
  induction n generalizing i with
  | zero =>
    obtain rfl : m = i + 1 := by omega
    refine ⟨i + 1, him, Int.le_refl _, fun k hk hk' => by omega, hstop, ?_⟩
    intro c hsame
    rw [scanUp_step ⟨hlo, hhi⟩, hsame _ (Int.le_refl _) (Int.le_refl _), if_neg (Int.not_lt.mpr hstop)]
  | succ n ih =>
    by_cases hless : a (i + 1) < pivot
    · obtain ⟨i', hlt, hle, hbefore, hge, hscan⟩ := @ih (i + 1) (by omega) (by omega) (by omega)
      refine ⟨i', by omega, hle, ?_, hge, ?_⟩
      · intro k hk hk'
        rcases Int.lt_or_eq_of_le (show i + 1 ≤ k from hk) with hk'' | rfl
        · exact hbefore k hk'' hk'
        · exact hless
      · intro c hsame
        rw [scanUp_step ⟨hlo, by omega⟩, hsame _ (Int.le_refl _) him, if_pos hless]
        exact hscan c (hsame.mono (by omega) (Int.le_refl _))
    · refine ⟨i + 1, by omega, him, fun k hk hk' => by omega, Int.not_lt.mp hless, ?_⟩
      intro c hsame
      rw [scanUp_step ⟨hlo, by omega⟩, hsame _ (Int.le_refl _) him, if_neg hless]

/-- The right scan, in the same way. -/
theorem scanDown_spec (hmj : m < j) (hlo : r.lo ≤ m) (hhi : j - 1 ≤ r.hi) (hstop : a m ≤ pivot) :
    ∃ j', m ≤ j' ∧ j' < j ∧ (∀ k, j' < k → k < j → pivot < a k) ∧ a j' ≤ pivot ∧
      ∀ c, SameIn m (j - 1) a c → scanDown r c pivot j = .ok j' := by
  obtain ⟨n, hn⟩ : ∃ n : ℕ, j = m + 1 + n := ⟨(j - (m + 1)).toNat, by omega⟩
  induction n generalizing j with
  | zero =>
    obtain rfl : m = j - 1 := by omega
    refine ⟨j - 1, Int.le_refl _, hmj, fun k hk hk' => by omega, hstop, ?_⟩
    intro c hsame
    rw [scanDown_step ⟨hlo, hhi⟩, hsame _ (Int.le_refl _) (Int.le_refl _), if_neg (Int.not_lt.mpr hstop)]
  | succ n ih =>
    by_cases hgreater : a (j - 1) > pivot
    · obtain ⟨j', hle, hlt, hbehind, hle', hscan⟩ := @ih (j - 1) (by omega) (by omega) (by omega)
      refine ⟨j', hle, by omega, ?_, hle', ?_⟩
      · intro k hk hk'
        rcases Int.lt_or_eq_of_le (Int.le_sub_one_of_lt hk') with hk'' | rfl
        · exact hbehind k hk hk''
        · exact hgreater
      · intro c hsame
        rw [scanDown_step ⟨by omega, hhi⟩, hsame _ (by omega) (Int.le_refl _), if_pos hgreater]
        exact hscan c (hsame.mono (Int.le_refl _) (by omega))
    · refine ⟨j - 1, by omega, by omega, fun k hk hk' => by omega, Int.not_lt.mp hgreater, ?_⟩
      intro c hsame
      rw [scanDown_step ⟨by omega, hhi⟩, hsame _ (by omega) (Int.le_refl _), if_neg hgreater]

end

/-! ## The pivot -/

section

variable {r : Range} {a c : Elements} {i j left right : ℤ}

/-- The exchange that puts two elements in their order. -/
def order (a : Elements) (i j : ℤ) : Equiv.Perm ℤ := if a i > a j then Equiv.swap i j else Equiv.refl ℤ

theorem order_inside (hi : left ≤ i ∧ i ≤ right) (hj : left ≤ j ∧ j ≤ right) : Inside left right (order a i j) := by
  rw [order]
  split
  · exact .swap hi hj
  · exact .refl left right

theorem order_left (a : Elements) (i j : ℤ) : (a ∘ order a i j) i = min (a i) (a j) := by
  rw [order]
  split
  · next h => rw [swap_left, Int.min_eq_right (Int.le_of_lt h)]
  · next h => exact (Int.min_eq_left (Int.not_lt.mp h)).symm

theorem order_right (a : Elements) (i j : ℤ) : (a ∘ order a i j) j = max (a i) (a j) := by
  rw [order]
  split
  · next h => rw [swap_right, Int.max_eq_left (Int.le_of_lt h)]
  · next h => exact (Int.max_eq_right (Int.not_lt.mp h)).symm

theorem order_other (a : Elements) {k : ℤ} (hi : k ≠ i) (hj : k ≠ j) : (a ∘ order a i j) k = a k := by
  rw [order]
  split
  · exact swap_other a hi hj
  · rfl

theorem swapIfGreater_ok (hi : r.lo ≤ i ∧ i ≤ r.hi) (hj : r.lo ≤ j ∧ j ≤ r.hi) (hci : c i = a i) (hcj : c j = a j) :
    swapIfGreater r c i j = .ok (c ∘ order a i j) := by
  rw [swapIfGreater, get_ok hi, get_ok hj]
  simp only [bind, Except.bind]
  rw [hci, hcj, order]
  split
  · exact swap_ok hi hj
  · rfl

/-- The three exchanges of `media3` that put the elements at `i`, `j` and `k` in their order. -/
def orders (a : Elements) (i j k : ℤ) : Equiv.Perm ℤ :=
  let a₁ := a ∘ order a i j
  let a₂ := a₁ ∘ order a₁ i k
  (order a₂ j k).trans ((order a₁ i k).trans (order a i j))

theorem orders_inside {k : ℤ} (hi : left ≤ i ∧ i ≤ right) (hj : left ≤ j ∧ j ≤ right) (hk : left ≤ k ∧ k ≤ right) :
    Inside left right (orders a i j k) :=
  ((order_inside hi hj).trans (order_inside hi hk)).trans (order_inside hj hk)

/-- The least of the three is first and the greatest last, also where the first two are one. -/
theorem orders_le (a : Elements) {k : ℤ} (hij : i ≤ j) (hjk : j < k) :
    (a ∘ orders a i j k) i ≤ (a ∘ orders a i j k) j ∧ (a ∘ orders a i j k) j ≤ (a ∘ orders a i j k) k := by
  obtain ⟨a₁, ha₁⟩ : ∃ a₁, a₁ = a ∘ order a i j := ⟨_, rfl⟩
  obtain ⟨a₂, ha₂⟩ : ∃ a₂, a₂ = a₁ ∘ order a₁ i k := ⟨_, rfl⟩
  have ha₃ : a ∘ orders a i j k = a₂ ∘ order a₂ j k := by
    rw [ha₂, ha₁]
    rfl
  have hj : (a₂ ∘ order a₂ j k) j = min (a₂ j) (a₂ k) := order_left a₂ j k
  have hk : (a₂ ∘ order a₂ j k) k = max (a₂ j) (a₂ k) := order_right a₂ j k
  rw [ha₃]
  refine ⟨?_, by omega⟩
  rcases Int.lt_or_eq_of_le hij with hlt | rfl
  · have hi : (a₂ ∘ order a₂ j k) i = a₂ i := order_other a₂ (by omega) (by omega)
    have hj₁ : a₁ j = max (a i) (a j) := by rw [ha₁, order_right]
    have hi₁ : a₁ i = min (a i) (a j) := by rw [ha₁, order_left]
    have hi₂ : a₂ i = min (a₁ i) (a₁ k) := by rw [ha₂, order_left]
    have hk₂ : a₂ k = max (a₁ i) (a₁ k) := by rw [ha₂, order_right]
    have hj₂ : a₂ j = a₁ j := by rw [ha₂, order_other a₁ (by omega) (by omega)]
    omega
  · exact Int.le_refl _

/-- The median of the three is before the last element, and the other two at the ends. -/
theorem media3_spec (a : Elements) (hlt : left < right) (hleft : 0 ≤ left) (hsum : left + right ≤ intMax) (hlo : r.lo ≤ left)
    (hhi : right ≤ r.hi) :
    ∃ σ, Inside left right σ ∧ (a ∘ σ) left ≤ (a ∘ σ) (right - 1) ∧ (a ∘ σ) (right - 1) ≤ (a ∘ σ) right ∧
      ∀ c, SameIn left right a c → media3 r c left right = .ok ((c ∘ σ) (right - 1), c ∘ σ) := by
  obtain ⟨center, hcenter⟩ : ∃ center, center = (left + right).tdiv 2 := ⟨_, rfl⟩
  obtain ⟨hleft', hright', hpair⟩ : left ≤ center ∧ center < right ∧ (left = center → right - 1 = center) := by
    rw [Int.tdiv_eq_ediv_of_nonneg (by omega)] at hcenter
    omega
  have horders : Inside left right (orders a left center right) := orders_inside (by omega) (by omega) (by omega)
  have hswap : Inside left right (Equiv.swap center (right - 1)) := .swap (by omega) (by omega)
  obtain ⟨hle, hle'⟩ := orders_le a hleft' hright'
  refine ⟨(Equiv.swap center (right - 1)).trans (orders a left center right), horders.trans hswap, ?_, ?_, ?_⟩
  · rw [Equiv.coe_trans, ← Function.comp_assoc, swap_right]
    by_cases hc : left = center
    · rw [hpair hc, swap_self]
      exact hle
    · rw [swap_other _ hc (by omega)]
      exact hle
  · rw [Equiv.coe_trans, ← Function.comp_assoc, swap_right, swap_other _ (by omega) (by omega)]
    exact hle'
  · intro c hsame
    have hfirst : swapIfGreater r c left center = .ok (c ∘ order a left center) :=
      swapIfGreater_ok (by omega) (by omega) (hsame _ (by omega) (by omega)) (hsame _ (by omega) (by omega))
    have hsame₁ := hsame.comp (order_inside (a := a) (i := left) (j := center) (by omega) (by omega))
    have hsecond := swapIfGreater_ok (r := r) (i := left) (j := right) (by omega) (by omega)
      (hsame₁ _ (by omega) (by omega)) (hsame₁ _ (by omega) (by omega))
    have hsame₂ := hsame₁.comp (order_inside (a := a ∘ order a left center) (i := left) (j := right) (by omega) (by omega))
    have hthird := swapIfGreater_ok (r := r) (i := center) (j := right) (by omega) (by omega)
      (hsame₂ _ (by omega) (by omega)) (hsame₂ _ (by omega) (by omega))
    rw [media3, if_neg (by omega), ← hcenter]
    simp only [bind, Except.bind]
    rw [hfirst]
    simp only
    rw [hsecond]
    simp only
    rw [hthird]
    simp only
    rw [swap_ok (by omega) (by omega)]
    simp only
    rw [get_ok (by omega)]
    rfl

end

/-! ## A range -/

section

variable {r : Range} {a b c : Elements} {pivot left right i j : ℤ}

/-- What holds when a round begins: the pivot is before the last element, and up to the left scan and from the right one on each
element is on its side. -/
structure Between (left right pivot : ℤ) (a : Elements) (i j : ℤ) : Prop where
  left_le : left ≤ i
  lt : i < j
  lt_right : j ≤ right - 1
  last : a (right - 1) = pivot
  before : ∀ k, left ≤ k → k ≤ i → a k ≤ pivot
  behind : ∀ k, j ≤ k → k ≤ right → pivot ≤ a k

/-- The code of a round, where the left scan has stopped. -/
theorem partitionLoop_round {i' : ℤ} (hup : scanUp r c pivot i = .ok i') :
    partitionLoop r pivot c i j = scanDown r c pivot j >>= fun j' =>
      if i' < j' then swap r c i' j' >>= fun c => partitionLoop r pivot c i' j' else .ok (i', c) := by
  rw [partitionLoop]
  split
  · next fault hscan =>
    rw [hup] at hscan
    cases hscan
  · next i'' hscan =>
    rw [hup] at hscan
    cases hscan
    rfl

/-- The loop ends at the first element of the right side, by the same exchanges in every array with these elements. -/
theorem partitionLoop_spec (h : Between left right pivot a i j) (hlo : r.lo ≤ left) (hhi : right ≤ r.hi) :
    ∃ p σ, Inside left right σ ∧ left < p ∧ p ≤ right - 1 ∧ (a ∘ σ) (right - 1) = pivot ∧
      (∀ k, left ≤ k → k < p → (a ∘ σ) k ≤ pivot) ∧ (∀ k, p ≤ k → k ≤ right → pivot ≤ (a ∘ σ) k) ∧
      ∀ c, SameIn left right a c → partitionLoop r pivot c i j = .ok (p, c ∘ σ) := by
  obtain ⟨n, hn⟩ : ∃ n : ℕ, n = (j - i).toNat := ⟨_, rfl⟩
  induction n using Nat.strongRecOn generalizing a i j with
  | ind n ih =>
    obtain ⟨hleft, hij, hright, hpivot, hbefore, hbehind⟩ := h
    obtain ⟨i', hi', hmeet, hless, hge, hup⟩ :=
      scanUp_spec (r := r) hij (by omega) (by omega) (hbehind j (Int.le_refl _) (by omega))
    obtain ⟨j', hij', hj', hgreater, hle, hdown⟩ :=
      scanDown_spec (r := r) hij (by omega) (by omega) (hbefore i hleft (Int.le_refl _))
    have hround : ∀ c, SameIn left right a c → partitionLoop r pivot c i j =
        if i' < j' then swap r c i' j' >>= fun c => partitionLoop r pivot c i' j' else .ok (i', c) := by
      intro c hsame
      rw [partitionLoop_round (hup c (hsame.mono (by omega) (by omega))), hdown c (hsame.mono hleft (by omega))]
      rfl
    have hsmall : ∀ k, left ≤ k → k < i' → a k ≤ pivot := by
      intro k hk hk'
      by_cases hki : k ≤ i
      · exact hbefore k hk hki
      · exact Int.le_of_lt (hless k (by omega) hk')
    have hgreat : ∀ k, j' < k → k ≤ right → pivot ≤ a k := by
      intro k hk hk'
      by_cases hkj : j ≤ k
      · exact hbehind k hkj hk'
      · exact Int.le_of_lt (hgreater k hk (by omega))
    by_cases hcross : i' < j'
    · have hswap : Inside left right (Equiv.swap i' j') := .swap (by omega) (by omega)
      have hnext : Between left right pivot (a ∘ Equiv.swap i' j') i' j' := by
        refine ⟨by omega, hcross, by omega, by rw [swap_other _ (by omega) (by omega), hpivot], ?_, ?_⟩
        · intro k hk hk'
          rcases Int.lt_or_eq_of_le hk' with hlt | rfl
          · rw [swap_other _ (by omega) (by omega)]
            exact hsmall k hk hlt
          · rwa [swap_left]
        · intro k hk hk'
          rcases Int.lt_or_eq_of_le hk with hlt | rfl
          · rw [swap_other _ (by omega) (by omega)]
            exact hgreat k hlt hk'
          · rwa [swap_right]
      obtain ⟨p, σ, hσ, hp, hp', hend, hside, hside', hrun⟩ := ih _ (by omega) hnext rfl
      refine ⟨p, σ.trans (Equiv.swap i' j'), hswap.trans hσ, hp, hp', hend, hside, hside', ?_⟩
      intro c hsame
      rw [hround c hsame, if_pos hcross, swap_ok (by omega) (by omega)]
      exact hrun _ (hsame.comp hswap)
    · refine ⟨i', Equiv.refl ℤ, .refl left right, by omega, by omega, hpivot, hsmall, ?_, ?_⟩
      · intro k hk hk'
        rcases Int.lt_or_eq_of_le hk with hlt | rfl
        · exact hgreat k (by omega) hk'
        · exact hge
      · intro c hsame
        rw [hround c hsame, if_neg hcross]
        rfl

/-- The code of `split`, where its parts have results. -/
theorem split_ok {p : ℤ} (hmedia : media3 r a left right = .ok (pivot, b))
    (hloop : partitionLoop r pivot b left (right - 1) = .ok (p, c)) :
    split r a left right = swap r c p (right - 1) >>= fun c => .ok (p, c) := by
  rw [split, hmedia]
  simp only [bind, Except.bind]
  rw [hloop]
  rfl

/-- Three elements or more: the pivot divides the range, by the same exchanges in every array with these elements. -/
theorem split_spec (a : Elements) (hmore : left + 2 ≤ right) (hleft : 0 ≤ left) (hsum : left + right ≤ intMax) (hlo : r.lo ≤ left)
    (hhi : right ≤ r.hi) :
    ∃ p σ, Inside left right σ ∧ left < p ∧ p < right ∧ Split left right p (a ∘ σ) ∧
      ∀ c, SameIn left right a c → split r c left right = .ok (p, c ∘ σ) := by
  obtain ⟨σ, hσ, hmin, hmax, hmedia⟩ := media3_spec (r := r) a (show left < right by omega) hleft hsum hlo hhi
  have hstart : Between left right ((a ∘ σ) (right - 1)) (a ∘ σ) left (right - 1) := by
    refine ⟨Int.le_refl _, by omega, Int.le_refl _, rfl, ?_, ?_⟩
    · intro k hk hk'
      obtain rfl : k = left := by omega
      exact hmin
    · intro k hk hk'
      obtain rfl | rfl : k = right - 1 ∨ k = right := by omega
      · exact Int.le_refl _
      · exact hmax
  obtain ⟨p, τ, hτ, hp, hp', hend, hside, hside', hloop⟩ := partitionLoop_spec hstart hlo hhi
  have hswap : Inside left right (Equiv.swap p (right - 1)) := .swap (by omega) (by omega)
  refine ⟨p, (Equiv.swap p (right - 1)).trans (τ.trans σ), (hσ.trans hτ).trans hswap, hp, by omega, ?_, ?_⟩
  · rw [Equiv.coe_trans, ← Function.comp_assoc, Equiv.coe_trans, ← Function.comp_assoc]
    refine ⟨by omega, by omega, ?_, ?_⟩
    · intro k hk hk'
      rw [swap_left, hend, swap_other _ (by omega) (by omega)]
      exact hside k hk hk'
    · intro k hk hk'
      rw [swap_left, hend]
      by_cases hlast : k = right - 1
      · rw [hlast, swap_right]
        exact hside' p (Int.le_refl _) (by omega)
      · rw [swap_other _ (by omega) hlast]
        exact hside' k (by omega) hk'
  · intro c hsame
    have hpivot : (c ∘ σ) (right - 1) = (a ∘ σ) (right - 1) := hsame.comp hσ _ (by omega) (by omega)
    rw [split_ok (hmedia c hsame) (by rw [hpivot]; exact hloop _ (hsame.comp hσ)), swap_ok (by omega) (by omega)]
    rfl

theorem media3_overflow (hsum : ¬left + right ≤ intMax) : media3 r a left right = .error .overflow :=
  if_pos (by omega)

theorem split_overflow (hsum : ¬left + right ≤ intMax) : split r a left right = .error .overflow := by
  rw [split, media3_overflow hsum]
  rfl

/-- Of two elements, the smaller one is the pivot, and the left scan stops at the other one. -/
theorem split_two (a : Elements) (hleft : 0 ≤ left) (hsum : left + (left + 1) ≤ intMax) (hlo : r.lo ≤ left) (hhi : left + 1 ≤ r.hi) :
    ∃ b, Rearranged left (left + 1) a b ∧ b left ≤ b (left + 1) ∧
      split r a left (left + 1) = (scanDown r b (b left) left >>= fun j' =>
        if left + 1 < j' then swap r b (left + 1) j' >>= fun c => partitionLoop r (b left) c (left + 1) j' else .ok (left + 1, b)) >>=
          fun (i, c) => swap r c i left >>= fun c => .ok (i, c) := by
  obtain ⟨σ, hσ, hmin, hmax, hmedia⟩ := media3_spec (r := r) a (show left < left + 1 by omega) hleft hsum hlo hhi
  rw [Int.add_sub_cancel] at hmin hmax hmedia
  refine ⟨a ∘ σ, hσ.rearranged a, hmax, ?_⟩
  have hup : scanUp r (a ∘ σ) ((a ∘ σ) left) left = .ok (left + 1) := by
    rw [scanUp_step ⟨by omega, hhi⟩, if_neg (Int.not_lt.mpr hmax)]
  rw [split, hmedia a (.refl _ _ a), Int.add_sub_cancel, ← partitionLoop_round hup]
  rfl

/-- Two elements at the left end: the right scan goes on before it. -/
theorem split_pair_outside (a : Elements) (hleft : 0 ≤ left) (hlo : r.lo = left) (hhi : left + 1 ≤ r.hi) :
    ∃ fault, split r a left (left + 1) = .error fault := by
  by_cases hsum : left + (left + 1) ≤ intMax
  · obtain ⟨b, -, -, hsplit⟩ := split_two (r := r) a hleft hsum (by omega) hhi
    rw [hsplit, scanDown_outside (by omega)]
    exact ⟨_, rfl⟩
  · exact ⟨_, split_overflow hsum⟩

/-- Two elements elsewhere: the greater one comes first. -/
theorem split_pair (hleft : 0 ≤ left) (hsum : left + (left + 1) ≤ intMax) (hlo : r.lo < left) (hhi : left + 1 ≤ r.hi)
    (hguard : ∀ k, left ≤ k → k ≤ left + 1 → a (left - 1) ≤ a k) :
    ∃ b, split r a left (left + 1) = .ok (left + 1, b) ∧ Rearranged left (left + 1) a b ∧ b (left + 1) ≤ b left := by
  obtain ⟨b, hab, hle, hsplit⟩ := split_two (r := r) a hleft hsum (by omega) hhi
  have hstop : ¬b (left - 1) > b left := by
    rw [hab.outside (by omega)]
    exact Int.not_lt.mpr (hab.forall (P := (a (left - 1) ≤ ·)) hguard left (Int.le_refl _) (by omega))
  refine ⟨b ∘ Equiv.swap (left + 1) left, ?_, hab.trans (rearranged_swap b (by omega) (by omega)), ?_⟩
  · rw [hsplit, scanDown_step (by omega), if_neg hstop]
    simp only [bind, Except.bind]
    rw [if_neg (by omega)]
    simp only
    rw [swap_ok (by omega) (by omega)]
  · rw [swap_left, swap_right]
    exact hle

end

/-! ## quicksort -/

section

variable {r : Range} {a b c d : Elements} {left right : ℤ} {fuel : ℕ}

/-- The recursion comes to no range of two different elements, none of two at the left end, and none whose ends add up to more than an
`int`. -/
inductive Fits (r : Range) : Elements → ℤ → ℤ → Prop
  | one (a : Elements) (left : ℤ) : Fits r a left left
  | pair {a : Elements} {left : ℤ} (hleft : left ≠ r.lo) (heq : a left = a (left + 1)) (hsum : left + (left + 1) ≤ intMax) :
      Fits r a left (left + 1)
  | more {a b : Elements} {left right p : ℤ} (hmore : left + 2 ≤ right) (hsum : left + right ≤ intMax)
      (hsplit : split r a left right = .ok (p, b)) (hbefore : Fits r b left (p - 1)) (hbehind : Fits r b (p + 1) right) :
      Fits r a left right

/-- The element before the range is at most any of it: there the right scan stops. -/
def Guarded (r : Range) (a : Elements) (left right : ℤ) : Prop :=
  left = r.lo ∨ r.lo < left ∧ ∀ k, left ≤ k → k ≤ right → a (left - 1) ≤ a k

/-- The range before the pivot is guarded as the whole one is. -/
theorem Guarded.before {p : ℤ} (h : Guarded r a left right) (hab : Rearranged left right a b) (hp : p ≤ right) :
    Guarded r b left (p - 1) := by
  rcases h with hend | ⟨hlo, hguard⟩
  · exact .inl hend
  · refine .inr ⟨hlo, ?_⟩
    intro k hk hk'
    rw [hab.outside (by omega)]
    exact hab.forall (P := (a (left - 1) ≤ ·)) hguard k hk (by omega)

/-- The range behind the pivot is guarded by the pivot. -/
theorem Guarded.behind {p : ℤ} (hsplit : Split left right p b) (hlo : r.lo ≤ left) (hbc : Rearranged left (p - 1) b c) :
    Guarded r c (p + 1) right := by
  have hp := hsplit.lo_le
  refine .inr ⟨by omega, ?_⟩
  intro k hk hk'
  rw [Int.add_sub_cancel, hbc.outside (by omega), hbc.outside (by omega)]
  exact hsplit.behind k hk hk'

theorem quicksort_one (fuel : ℕ) (r : Range) (a : Elements) (left : ℤ) : quicksort (fuel + 1) r a left left = .ok a := if_pos rfl

/-- What a call does where there are elements on both sides of the pivot. -/
theorem quicksort_step {p : ℤ} (hsplit : split r a left right = .ok (p, b)) (hp : left < p) (hp' : p < right) :
    quicksort (fuel + 1) r a left right =
      quicksort fuel r b left (p - 1) >>= fun c => quicksort fuel r c (p + 1) right := by
  rw [quicksort, if_neg (by omega), hsplit]
  simp only [bind, Except.bind]
  rw [if_pos hp]
  simp only [if_pos (show right > p from hp')]

theorem quicksort_calls {p : ℤ} (hsplit : split r a left right = .ok (p, b)) (hp : left < p) (hp' : p < right)
    (hrun : quicksort (fuel + 1) r a left right = .ok d) :
    ∃ c, quicksort fuel r b left (p - 1) = .ok c ∧ quicksort fuel r c (p + 1) right = .ok d := by
  rw [quicksort_step hsplit hp hp'] at hrun
  cases hcall : quicksort fuel r b left (p - 1) with
  | error fault =>
    rw [hcall] at hrun
    cases hrun
  | ok c =>
    rw [hcall] at hrun
    exact ⟨c, rfl, hrun⟩

theorem quicksort_error {fault : Fault} (hne : right ≠ left) (hsplit : split r a left right = .error fault) :
    quicksort (fuel + 1) r a left right = .error fault := by
  rw [quicksort, if_neg hne, hsplit]
  rfl

/-- Two elements that are come to elsewhere than at the left end: they come out in the other order. -/
theorem quicksort_pair (hne : left ≠ r.lo) (hguard : Guarded r a left (left + 1)) (hleft : 0 ≤ left)
    (hsum : left + (left + 1) ≤ intMax) (hhi : left + 1 ≤ r.hi) (fuel : ℕ) :
    ∃ b, quicksort (fuel + 1) r a left (left + 1) = quicksort fuel r b left left ∧ Rearranged left (left + 1) a b ∧
      b (left + 1) ≤ b left := by
  rcases hguard with hend | ⟨hlo, hguard⟩
  · exact absurd hend hne
  · obtain ⟨b, hsplit, hab, hle⟩ := split_pair hleft hsum hlo hhi hguard
    refine ⟨b, ?_, hab, hle⟩
    rw [quicksort, if_neg (by omega), hsplit]
    simp only [bind, Except.bind]
    rw [if_pos (by omega), Int.add_sub_cancel]
    simp only [if_neg (Int.lt_irrefl _)]
    cases quicksort fuel r b left left with
    | error fault => rfl
    | ok c => rfl

/-- Two equal elements, in any order. -/
theorem sorted_of_eq (hcd : Rearranged left (left + 1) c d) (heq : c left = c (left + 1)) : Sorted left (left + 1) d := by
  have hall : ∀ k, left ≤ k → k ≤ left + 1 → d k = c left := by
    apply hcd.forall (P := (· = c left))
    intro k hk hk'
    obtain rfl | rfl : k = left ∨ k = left + 1 := by omega
    · rfl
    · exact heq.symm
  intro i j hi hij hj
  rw [hall i hi (by omega), hall j (by omega) hj]

/-- Two elements that are in their order and in the other one are equal, and were so before. -/
theorem eq_of_sorted (hcd : Rearranged left (left + 1) c d) (hle : d (left + 1) ≤ d left) (hsorted : Sorted left (left + 1) d) :
    c left = c (left + 1) := by
  have hall : ∀ k, left ≤ k → k ≤ left + 1 → c k = d left := by
    apply hcd.symm.forall (P := (· = d left))
    intro k hk hk'
    obtain rfl | rfl : k = left ∨ k = left + 1 := by omega
    · rfl
    · exact Int.le_antisymm hle (hsorted left (left + 1) (Int.le_refl _) (by omega) (Int.le_refl _))
  rw [hall left (Int.le_refl _) (by omega), hall (left + 1) (by omega) (Int.le_refl _)]

/-- A range that fits is sorted, in every array with these elements. -/
theorem quicksort_of_fits (hfits : Fits r a left right) (hleft : 0 ≤ left) (hlo : r.lo ≤ left) (hhi : right ≤ r.hi)
    (hfuel : right - left < fuel) (hsame : SameIn left right a c) (hguard : Guarded r c left right) :
    ∃ d, quicksort fuel r c left right = .ok d ∧ Rearranged left right c d ∧ Sorted left right d := by
  induction hfits generalizing fuel c with
  | one a left =>
    obtain ⟨fuel, rfl⟩ : ∃ n, fuel = n + 1 := ⟨fuel - 1, by omega⟩
    exact ⟨c, quicksort_one fuel r c left, .refl _ _ c, sorted_of_le (Int.le_refl _) c⟩
  | @pair a left hne heq hsum =>
    obtain ⟨fuel, rfl⟩ : ∃ n, fuel = n + 2 := ⟨fuel - 2, by omega⟩
    obtain ⟨d, hrun, hcd, -⟩ := quicksort_pair hne hguard hleft hsum hhi (fuel + 1)
    refine ⟨d, hrun.trans (quicksort_one fuel r d left), hcd, ?_⟩
    apply sorted_of_eq hcd
    rw [hsame left (Int.le_refl _) (by omega), hsame (left + 1) (by omega) (Int.le_refl _), heq]
  | @more a b left right p hmore hsum hsplit hbefore hbehind ihbefore ihbehind =>
    obtain ⟨fuel, rfl⟩ : ∃ n, fuel = n + 1 := ⟨fuel - 1, by omega⟩
    obtain ⟨p', σ, hσ, hp, hp', hdivide, hrun⟩ := split_spec (r := r) a hmore hleft hsum hlo hhi
    obtain ⟨rfl, rfl⟩ : p' = p ∧ a ∘ σ = b := by
      have := (hrun a (.refl _ _ a)).symm.trans hsplit
      simpa using this
    have hdivide' : Split left right p' (c ∘ σ) := by
      have hcomp := hsame.comp hσ
      refine ⟨by omega, by omega, ?_, ?_⟩
      · intro k hk hk'
        rw [hcomp k hk (by omega), hcomp p' (by omega) (by omega)]
        exact hdivide.before k hk hk'
      · intro k hk hk'
        rw [hcomp k (by omega) hk', hcomp p' (by omega) (by omega)]
        exact hdivide.behind k hk hk'
    obtain ⟨d, hleftRun, hcd, hd⟩ := @ihbefore _ fuel hleft hlo (by omega) (by omega)
      ((hsame.comp hσ).mono (Int.le_refl _) (by omega)) (hguard.before (hσ.rearranged c) (by omega))
    have hsame' : SameIn (p' + 1) right (a ∘ σ) d :=
      ((hsame.comp hσ).mono (by omega) (Int.le_refl _)).rearranged hcd (by omega)
    obtain ⟨e, hrightRun, hde, he⟩ := @ihbehind _ fuel (by omega) (by omega) hhi (by omega) hsame'
      (.behind hdivide' hlo hcd)
    refine ⟨e, ?_, ?_, sorted_of_split hdivide' hcd hd hde he⟩
    · rw [quicksort_step (hrun c hsame) hp hp', hleftRun]
      exact hrightRun
    · exact ((hσ.rearranged c).trans (hcd.mono (Int.le_refl _) (by omega))).trans (hde.mono (by omega) (Int.le_refl _))

/-- A call that returns has rearranged the range; and if it is sorted then, it fits, in every array with these elements. -/
theorem fits_of_quicksort (hle : left ≤ right) (hleft : 0 ≤ left) (hlo : r.lo ≤ left) (hhi : right ≤ r.hi)
    (hsame : SameIn left right a c) (hguard : Guarded r c left right) (hrun : quicksort fuel r c left right = .ok d) :
    Rearranged left right c d ∧ (Sorted left right d → Fits r a left right) := by
  induction fuel generalizing a c d left right with
  | zero => cases hrun
  | succ fuel ih =>
    rcases show right = left ∨ right = left + 1 ∨ left + 2 ≤ right by omega with rfl | rfl | hmore
    · obtain rfl : c = d := by
        rw [quicksort_one] at hrun
        exact Except.ok.inj hrun
      exact ⟨.refl _ _ c, fun _ => .one a right⟩
    · by_cases hsum : left + (left + 1) ≤ intMax
      · by_cases hend : left = r.lo
        · obtain ⟨fault, hsplit⟩ := split_pair_outside (r := r) c hleft hend.symm hhi
          rw [quicksort_error (by omega) hsplit] at hrun
          cases hrun
        · obtain ⟨b, hpair, hcb, hle'⟩ := quicksort_pair hend hguard hleft hsum hhi fuel
          rw [hpair] at hrun
          obtain rfl : b = d := by
            cases fuel with
            | zero => cases hrun
            | succ fuel =>
              rw [quicksort_one] at hrun
              exact Except.ok.inj hrun
          refine ⟨hcb, fun hsorted => .pair hend ?_ hsum⟩
          rw [← hsame left (Int.le_refl _) (by omega), ← hsame (left + 1) (by omega) (Int.le_refl _)]
          exact eq_of_sorted hcb hle' hsorted
      · rw [quicksort_error (by omega) (split_overflow hsum)] at hrun
        cases hrun
    · by_cases hsum : left + right ≤ intMax
      · obtain ⟨p, σ, hσ, hp, hp', hdivide, hsplit⟩ := split_spec (r := r) c hmore hleft hsum hlo hhi
        have hback : SameIn left right c a := fun k hk hk' => (hsame k hk hk').symm
        obtain ⟨e, hleftRun, hrightRun⟩ := quicksort_calls (hsplit c (.refl _ _ c)) hp hp' hrun
        obtain ⟨hce, hfits⟩ := ih (by omega) hleft hlo (by omega) ((hsame.comp hσ).mono (Int.le_refl _) (by omega))
          (hguard.before (hσ.rearranged c) (by omega)) hleftRun
        have hsame' : SameIn (p + 1) right (a ∘ σ) e :=
          ((hsame.comp hσ).mono (by omega) (Int.le_refl _)).rearranged hce (by omega)
        obtain ⟨hed, hfits'⟩ := ih (by omega) (by omega) (by omega) hhi hsame' (.behind hdivide hlo hce) hrightRun
        refine ⟨((hσ.rearranged c).trans (hce.mono (Int.le_refl _) (by omega))).trans (hed.mono (by omega) (Int.le_refl _)), ?_⟩
        intro hsorted
        refine .more hmore hsum (hsplit a hback) (hfits ?_) (hfits' (hsorted.mono (by omega) (Int.le_refl _)))
        exact (hsorted.mono (Int.le_refl _) (by omega)).congr fun k hk hk' => (hed.outside (by omega)).symm
      · rw [quicksort_error (by omega) (split_overflow hsum)] at hrun
        cases hrun

/-- Three elements: the median comes between the other two. -/
theorem fits_three (a : Elements) (hleft : 0 ≤ left) (hsum : left + (left + 2) ≤ intMax) (hlo : r.lo ≤ left)
    (hhi : left + 2 ≤ r.hi) : Fits r a left (left + 2) := by
  obtain ⟨p, σ, -, hp, hp', -, hsplit⟩ := split_spec (r := r) a (Int.le_refl _) hleft hsum hlo hhi
  obtain rfl : p = left + 1 := by omega
  refine .more (Int.le_refl _) hsum (hsplit a (.refl _ _ a)) ?_ ?_
  · rw [Int.add_sub_cancel]
    exact .one _ left
  · rw [Int.add_assoc]
    exact .one _ (left + 2)

end

/-- Termination, no access outside, and a sorted permutation, where the range fits; there is no other case with all three. -/
theorem quicksort_iff (a : Elements) (left right : ℤ) (hleft : 0 ≤ left) (hle : left ≤ right) :
    (∃ fuel b, quicksort fuel ⟨left, right⟩ a left right = .ok b ∧ Rearranged left right a b ∧ Sorted left right b) ↔
      Fits ⟨left, right⟩ a left right := by
  constructor
  · rintro ⟨fuel, b, hrun, -, hsorted⟩
    exact (fits_of_quicksort hle hleft (Int.le_refl _) (Int.le_refl _) (.refl _ _ a) (.inl rfl) hrun).2 hsorted
  · intro hfits
    have hfuel : right - left < ((right - left).toNat + 1 : ℕ) := by omega
    obtain ⟨b, hrun⟩ := quicksort_of_fits hfits hleft (Int.le_refl _) (Int.le_refl _) hfuel (.refl _ _ a) (.inl rfl)
    exact ⟨_, b, hrun⟩

theorem quicksort_three :
    ∃ fuel b, quicksort fuel ⟨0, 2⟩ (fun k => 3 - k) 0 2 = .ok b ∧ Rearranged 0 2 (fun k => 3 - k) b ∧ Sorted 0 2 b :=
  (quicksort_iff (fun k => 3 - k) 0 2 (by decide) (by decide)).mpr (fits_three _ (by decide) (by decide) (by decide) (by decide))

/-- Of the array 1, 2, the element before the first one is read. -/
theorem not_quicksort_two :
    ¬∃ fuel b, quicksort fuel ⟨0, 1⟩ (fun k => k + 1) 0 1 = .ok b ∧ Rearranged 0 1 (fun k => k + 1) b ∧ Sorted 0 1 b := by
  rintro ⟨fuel, b, hrun, -⟩
  obtain ⟨fault, hsplit⟩ : ∃ fault, split ⟨0, 1⟩ (fun k => k + 1) 0 1 = .error fault :=
    split_pair_outside _ (Int.le_refl 0) rfl (Int.le_refl 1)
  cases fuel with
  | zero => cases hrun
  | succ fuel =>
    rw [quicksort_error (by decide) hsplit] at hrun
    cases hrun

end CodingExercises.Algorithms.Quicksort
