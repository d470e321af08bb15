import Mathlib.Order.Lattice
import Mathlib.Order.Basic
import Mathlib.Data.List.Count

/-!
# Comparing two sorted lists

`matchUp s t` goes through two lists at once, always takes the smaller one of the heads, and takes equal heads together.

- What is taken from a list is the list (`firsts_matchUp`, `seconds_matchUp`), sorted or not;
- if the lists are sorted, what is taken is sorted (`matchUp_sorted`), no value is left over in both lists
  (`not_first_and_second`), and so a value that is `m` times in the one and `n` times in the other is taken `min m n`
  times together (`count_both`, `count_first`, `count_second`).
-/

namespace CodingExercises.Lib

/-- Where a value was taken from. -/
inductive Found
  | first
  | second
  | both
deriving DecidableEq

variable {α : Type*}

/-- What was taken from the first list. -/
def firsts (r : List (Found × α)) : List α := (r.filter fun x => x.1 ≠ .second).map Prod.snd

/-- What was taken from the second list. -/
def seconds (r : List (Found × α)) : List α := (r.filter fun x => x.1 ≠ .first).map Prod.snd

@[simp]
theorem firsts_cons (c : Found) (v : α) (r : List (Found × α)) :
    firsts ((c, v) :: r) = if c = .second then firsts r else v :: firsts r := by
  unfold firsts
  split <;> simp [*]

@[simp]
theorem seconds_cons (c : Found) (v : α) (r : List (Found × α)) :
    seconds ((c, v) :: r) = if c = .first then seconds r else v :: seconds r := by
  unfold seconds
  split <;> simp [*]

variable [LinearOrder α]

/-- The values of two lists, each with the lists it was taken from. -/
def matchUp : List α → List α → List (Found × α)
  | [], [] => []
  | a :: s, [] => (.first, a) :: matchUp s []
  | [], b :: t => (.second, b) :: matchUp [] t
  | a :: s, b :: t =>
    if a < b then (.first, a) :: matchUp s (b :: t)
    else if b < a then (.second, b) :: matchUp (a :: s) t
    else (.both, b) :: matchUp s t
termination_by s t => s.length + t.length

theorem firsts_matchUp (s t : List α) : firsts (matchUp s t) = s := by
  induction s, t using matchUp.induct with
  | case1 => rw [matchUp]; rfl
  | case2 a s ih => simpa [matchUp] using ih
  | case3 b t ih => simpa [matchUp] using ih
  | case4 a s b t h ih => simpa [matchUp, h] using ih
  | case5 a s b t h h' ih => simpa [matchUp, h, h'] using ih
  | case6 a s b t h h' ih =>
    have : b = a := le_antisymm (not_lt.mp h) (not_lt.mp h')
    simpa [matchUp, this] using ih

theorem seconds_matchUp (s t : List α) : seconds (matchUp s t) = t := by
  induction s, t using matchUp.induct with
  | case1 => rw [matchUp]; rfl
  | case2 a s ih => simpa [matchUp] using ih
  | case3 b t ih => simpa [matchUp] using ih
  | case4 a s b t h ih => simpa [matchUp, h] using ih
  | case5 a s b t h h' ih => simpa [matchUp, h, h'] using ih
  | case6 a s b t h h' ih => simpa [matchUp, h, h'] using ih

/-- Every value taken is in one of the lists. -/
theorem mem_of_mem_matchUp {s t : List α} {x : Found × α} (hx : x ∈ matchUp s t) : x.2 ∈ s ∨ x.2 ∈ t := by
  by_cases hside : x.1 = .second
  · right
    rw [← seconds_matchUp s t]
    exact List.mem_map_of_mem (List.mem_filter.mpr ⟨hx, by simp [hside]⟩)
  · left
    rw [← firsts_matchUp s t]
    exact List.mem_map_of_mem (List.mem_filter.mpr ⟨hx, by simp [hside]⟩)

/-- What is taken after the heads is no smaller than a bound of the heads. -/
theorem le_of_mem_matchUp {s t : List α} {a : α} (hs : ∀ x ∈ s, a ≤ x) (ht : ∀ x ∈ t, a ≤ x) {x : Found × α}
    (hx : x ∈ matchUp s t) : a ≤ x.2 := by
  rcases mem_of_mem_matchUp hx with h | h
  · exact hs _ h
  · exact ht _ h

/-- Two sorted lists are taken in order. -/
theorem matchUp_sorted {s t : List α} (hs : s.Pairwise (· ≤ ·)) (ht : t.Pairwise (· ≤ ·)) :
    (matchUp s t).Pairwise fun x y => x.2 ≤ y.2 := by
  induction s, t using matchUp.induct with
  | case1 => rw [matchUp]; exact List.Pairwise.nil
  | case2 a s ih =>
    rw [matchUp, List.pairwise_cons]
    obtain ⟨ha, hs⟩ := List.pairwise_cons.mp hs
    exact ⟨fun x hx => le_of_mem_matchUp ha (by simp) hx, ih hs ht⟩
  | case3 b t ih =>
    rw [matchUp, List.pairwise_cons]
    obtain ⟨hb, ht⟩ := List.pairwise_cons.mp ht
    exact ⟨fun x hx => le_of_mem_matchUp (by simp) hb hx, ih hs ht⟩
  | case4 a s b t h ih =>
    rw [matchUp, if_pos h, List.pairwise_cons]
    obtain ⟨ha, hs⟩ := List.pairwise_cons.mp hs
    have hb : ∀ x ∈ b :: t, a ≤ x := by
      intro x hx
      rcases List.mem_cons.mp hx with rfl | hx
      · exact h.le
      · exact h.le.trans ((List.pairwise_cons.mp ht).1 x hx)
    exact ⟨fun x hx => le_of_mem_matchUp ha hb hx, ih hs ht⟩
  | case5 a s b t h h' ih =>
    rw [matchUp, if_neg h, if_pos h', List.pairwise_cons]
    obtain ⟨hb, ht⟩ := List.pairwise_cons.mp ht
    have ha : ∀ x ∈ a :: s, b ≤ x := by
      intro x hx
      rcases List.mem_cons.mp hx with rfl | hx
      · exact h'.le
      · exact h'.le.trans ((List.pairwise_cons.mp hs).1 x hx)
    exact ⟨fun x hx => le_of_mem_matchUp ha hb hx, ih hs ht⟩
  | case6 a s b t h h' ih =>
    obtain rfl : a = b := le_antisymm (not_lt.mp h') (not_lt.mp h)
    rw [matchUp, if_neg h, if_neg h', List.pairwise_cons]
    obtain ⟨ha, hs⟩ := List.pairwise_cons.mp hs
    obtain ⟨hb, ht⟩ := List.pairwise_cons.mp ht
    exact ⟨fun x hx => le_of_mem_matchUp ha hb hx, ih hs ht⟩

theorem mem_of_first {s t : List α} {v : α} (h : (Found.first, v) ∈ matchUp s t) : v ∈ s := by
  rw [← firsts_matchUp s t]
  exact List.mem_map.mpr ⟨_, List.mem_filter.mpr ⟨h, by simp⟩, rfl⟩

theorem mem_of_second {s t : List α} {v : α} (h : (Found.second, v) ∈ matchUp s t) : v ∈ t := by
  rw [← seconds_matchUp s t]
  exact List.mem_map.mpr ⟨_, List.mem_filter.mpr ⟨h, by simp⟩, rfl⟩

/-- A value that is left over in the one list is not left over in the other. -/
theorem not_first_and_second {s t : List α} (hs : s.Pairwise (· ≤ ·)) (ht : t.Pairwise (· ≤ ·)) {v : α}
    (h₁ : (Found.first, v) ∈ matchUp s t) (h₂ : (Found.second, v) ∈ matchUp s t) : False := by
  induction s, t using matchUp.induct with
  | case1 => simp [matchUp] at h₁
  | case2 a s ih => cases mem_of_second h₂
  | case3 b t ih => cases mem_of_first h₁
  | case4 a s b t h ih =>
    rw [matchUp, if_pos h] at h₁ h₂
    have h₂' : (Found.second, v) ∈ matchUp s (b :: t) := by simpa using h₂
    rcases List.mem_cons.mp h₁ with h₁ | h₁
    · -- The second list starts behind `a`.
      obtain rfl : v = a := congrArg Prod.snd h₁
      rcases List.mem_cons.mp (mem_of_second h₂') with rfl | hv
      · exact lt_irrefl _ h
      · exact absurd ((List.pairwise_cons.mp ht).1 _ hv) (not_le.mpr h)
    · exact ih (List.pairwise_cons.mp hs).2 ht h₁ h₂'
  | case5 a s b t h h' ih =>
    rw [matchUp, if_neg h, if_pos h'] at h₁ h₂
    have h₁' : (Found.first, v) ∈ matchUp (a :: s) t := by simpa using h₁
    rcases List.mem_cons.mp h₂ with h₂ | h₂
    · obtain rfl : v = b := congrArg Prod.snd h₂
      rcases List.mem_cons.mp (mem_of_first h₁') with rfl | hv
      · exact lt_irrefl _ h'
      · exact absurd ((List.pairwise_cons.mp hs).1 _ hv) (not_le.mpr h')
    · exact ih hs (List.pairwise_cons.mp ht).2 h₁' h₂
  | case6 a s b t h h' ih =>
    rw [matchUp, if_neg h, if_neg h'] at h₁ h₂
    exact ih (List.pairwise_cons.mp hs).2 (List.pairwise_cons.mp ht).2 (by simpa using h₁) (by simpa using h₂)

/-! ## Counting -/

theorem count_firsts (r : List (Found × α)) (v : α) :
    (firsts r).count v = r.count (.first, v) + r.count (.both, v) := by
  induction r with
  | nil => rfl
  | cons x r ih =>
    obtain ⟨c, w⟩ := x
    cases c <;> simp [List.count_cons, ih] <;> omega

theorem count_seconds (r : List (Found × α)) (v : α) :
    (seconds r).count v = r.count (.second, v) + r.count (.both, v) := by
  induction r with
  | nil => rfl
  | cons x r ih =>
    obtain ⟨c, w⟩ := x
    cases c <;> simp [List.count_cons, ih] <;> omega

/-- How often a value is taken from the one list, from the other and from both. -/
structure Counts (r : List (Found × α)) (s t : List α) : Prop where
  both : ∀ v, r.count (.both, v) = min (s.count v) (t.count v)
  first : ∀ v, r.count (.first, v) = s.count v - min (s.count v) (t.count v)
  second : ∀ v, r.count (.second, v) = t.count v - min (s.count v) (t.count v)

/-- What is taken from two sorted lists. -/
theorem counts_matchUp {s t : List α} (hs : s.Pairwise (· ≤ ·)) (ht : t.Pairwise (· ≤ ·)) :
    Counts (matchUp s t) s t := by
  have key : ∀ v, (matchUp s t).count (.first, v) + (matchUp s t).count (.both, v) = s.count v ∧
      (matchUp s t).count (.second, v) + (matchUp s t).count (.both, v) = t.count v ∧
      ((matchUp s t).count (.first, v) = 0 ∨ (matchUp s t).count (.second, v) = 0) := by
    intro v
    refine ⟨?_, ?_, ?_⟩
    · rw [← count_firsts, firsts_matchUp]
    · rw [← count_seconds, seconds_matchUp]
    · rw [List.count_eq_zero, List.count_eq_zero, ← not_and_or]
      rintro ⟨h₁, h₂⟩
      exact not_first_and_second hs ht h₁ h₂
  constructor
  · intro v; obtain ⟨h₁, h₂, h₃⟩ := key v; omega
  · intro v; obtain ⟨h₁, h₂, h₃⟩ := key v; omega
  · intro v; obtain ⟨h₁, h₂, h₃⟩ := key v; omega

variable {r r' : List (Found × α)} {s t : List α}

/-- However the values are arranged, the counts say what was taken from the first list. -/
theorem Counts.firsts_perm (h : Counts r s t) : (firsts r).Perm s := by
  rw [List.perm_iff_count]
  intro v
  have h₁ := h.first v
  have h₂ := h.both v
  rw [count_firsts]
  omega

theorem Counts.seconds_perm (h : Counts r s t) : (seconds r).Perm t := by
  rw [List.perm_iff_count]
  intro v
  have h₁ := h.second v
  have h₂ := h.both v
  rw [count_seconds]
  omega

/-- The counts determine the values up to their order. -/
theorem Counts.perm (h : Counts r s t) (h' : Counts r' s t) : r.Perm r' := by
  rw [List.perm_iff_count]
  rintro ⟨c, v⟩
  cases c with
  | first => rw [h.first, h'.first]
  | second => rw [h.second, h'.second]
  | both => rw [h.both, h'.both]

end CodingExercises.Lib
