import Mathlib.Order.Lattice
import Mathlib.Logic.Equiv.Basic
import Mathlib.Order.Basic

/-!
# Segments of an array

An array is a function of its indices. It is rearranged between two indices by a permutation that moves no other ones
(`Rearranged`): so what holds of all elements between them still does (`Rearranged.forall`), and the others are what they were
(`Rearranged.outside`). One permutation does the same in two arrays with the same elements there (`SameIn.comp`). Around an element
that all before are below of and all behind above, the two sides are sorted one after the other (`sorted_of_split`).
-/

namespace CodingExercises.Lib.Segments

variable {α : Type*} {lo hi : ℤ} {a b c : ℤ → α}

/-! ## Permutations of a segment -/

/-- The permutation moves the indices from `lo` to `hi` only. -/
def Inside (lo hi : ℤ) (σ : Equiv.Perm ℤ) : Prop := ∀ k, k < lo ∨ hi < k → σ k = k

variable {σ τ : Equiv.Perm ℤ}

theorem Inside.refl (lo hi : ℤ) : Inside lo hi (Equiv.refl ℤ) := fun _ _ => rfl

theorem Inside.swap {i j : ℤ} (hi' : lo ≤ i ∧ i ≤ hi) (hj : lo ≤ j ∧ j ≤ hi) : Inside lo hi (Equiv.swap i j) := by
  intro k hk
  apply Equiv.swap_apply_of_ne_of_ne <;> omega

/-- First `σ`, then `τ`. -/
theorem Inside.trans (hσ : Inside lo hi σ) (hτ : Inside lo hi τ) : Inside lo hi (τ.trans σ) := by
  intro k hk
  rw [Equiv.trans_apply, hτ k hk, hσ k hk]

theorem Inside.maps (hσ : Inside lo hi σ) {k : ℤ} (hk : lo ≤ k ∧ k ≤ hi) : lo ≤ σ k ∧ σ k ≤ hi := by
  by_contra hout
  have hfix : σ (σ k) = σ k := hσ _ (by omega)
  have := σ.injective hfix
  omega

/-- `b` is `a` with the elements from `lo` to `hi` in another order. -/
def Rearranged (lo hi : ℤ) (a b : ℤ → α) : Prop :=
  ∃ σ : Equiv.Perm ℤ, (∀ k, k < lo ∨ hi < k → σ k = k) ∧ b = a ∘ σ

theorem Inside.rearranged (hσ : Inside lo hi σ) (a : ℤ → α) : Rearranged lo hi a (a ∘ σ) := ⟨σ, hσ, rfl⟩

theorem Rearranged.refl (lo hi : ℤ) (a : ℤ → α) : Rearranged lo hi a a :=
  (Inside.refl lo hi).rearranged a

theorem Rearranged.trans (hab : Rearranged lo hi a b) (hbc : Rearranged lo hi b c) : Rearranged lo hi a c := by
  obtain ⟨σ, hσ, rfl⟩ := hab
  obtain ⟨τ, hτ, rfl⟩ := hbc
  exact Inside.rearranged (Inside.trans hσ hτ) a

/-- Back to the order there was. -/
theorem Rearranged.symm (h : Rearranged lo hi a b) : Rearranged lo hi b a := by
  obtain ⟨σ, hσ, rfl⟩ := h
  refine ⟨σ.symm, ?_, ?_⟩
  · intro k hk
    rw [Equiv.symm_apply_eq, hσ k hk]
  · rw [Function.comp_assoc, Equiv.self_comp_symm, Function.comp_id]

/-- A wider segment. -/
theorem Rearranged.mono {lo' hi' : ℤ} (h : Rearranged lo hi a b) (hlo : lo' ≤ lo) (hhi : hi ≤ hi') : Rearranged lo' hi' a b := by
  obtain ⟨σ, hσ, rfl⟩ := h
  refine ⟨σ, ?_, rfl⟩
  intro k hk
  apply hσ
  omega

/-- Two elements change places. -/
theorem rearranged_swap {i j : ℤ} (a : ℤ → α) (hlo : lo ≤ i ∧ lo ≤ j) (hhi : i ≤ hi ∧ j ≤ hi) :
    Rearranged lo hi a (a ∘ Equiv.swap i j) :=
  Inside.rearranged (.swap ⟨hlo.1, hhi.1⟩ ⟨hlo.2, hhi.2⟩) a

/-- The other elements are what they were. -/
theorem Rearranged.outside (h : Rearranged lo hi a b) {k : ℤ} (hk : k < lo ∨ hi < k) : b k = a k := by
  obtain ⟨σ, hσ, rfl⟩ := h
  rw [Function.comp_apply, hσ k hk]

/-- An element of the segment was one before. -/
theorem Rearranged.exists (h : Rearranged lo hi a b) {k : ℤ} (hlo : lo ≤ k) (hhi : k ≤ hi) : ∃ m, lo ≤ m ∧ m ≤ hi ∧ b k = a m := by
  obtain ⟨σ, hσ, rfl⟩ := h
  have hmaps := Inside.maps hσ ⟨hlo, hhi⟩
  exact ⟨σ k, hmaps.1, hmaps.2, rfl⟩

/-- What holds of all elements of the segment. -/
theorem Rearranged.forall {P : α → Prop} (h : Rearranged lo hi a b) (ha : ∀ k, lo ≤ k → k ≤ hi → P (a k)) :
    ∀ k, lo ≤ k → k ≤ hi → P (b k) := by
  intro k hlo hhi
  obtain ⟨m, hm, hm', heq⟩ := h.exists hlo hhi
  rw [heq]
  exact ha m hm hm'

/-! ## The same segment in two arrays -/

/-- From `lo` to `hi`, `b` has the elements of `a`. -/
def SameIn (lo hi : ℤ) (a b : ℤ → α) : Prop := ∀ k, lo ≤ k → k ≤ hi → b k = a k

theorem SameIn.refl (lo hi : ℤ) (a : ℤ → α) : SameIn lo hi a a := fun _ _ _ => rfl

theorem SameIn.mono {lo' hi' : ℤ} (h : SameIn lo hi a b) (hlo : lo ≤ lo') (hhi : hi' ≤ hi) : SameIn lo' hi' a b :=
  fun k hk hk' => h k (Int.le_trans hlo hk) (Int.le_trans hk' hhi)

/-- The same permutation of both. -/
theorem SameIn.comp (h : SameIn lo hi a b) (hσ : Inside lo hi σ) : SameIn lo hi (a ∘ σ) (b ∘ σ) := by
  intro k hk hk'
  have hmaps := hσ.maps ⟨hk, hk'⟩
  exact h (σ k) hmaps.1 hmaps.2

/-- What is before or behind the segment that is rearranged. -/
theorem SameIn.rearranged {lo' hi' : ℤ} (h : SameIn lo hi a b) (hbc : Rearranged lo' hi' b c) (hside : hi < lo' ∨ hi' < lo) :
    SameIn lo hi a c := by
  intro k hk hk'
  rw [hbc.outside (by omega), h k hk hk']

/-! ## Order -/

section

variable [LinearOrder α]

/-- The elements from `lo` to `hi` are in their order. -/
def Sorted (lo hi : ℤ) (a : ℤ → α) : Prop := ∀ i j, lo ≤ i → i ≤ j → j ≤ hi → a i ≤ a j

/-- The element at `p` divides the segment: all before are at most what it is, and all behind at least. -/
structure Split (lo hi p : ℤ) (a : ℤ → α) : Prop where
  lo_le : lo ≤ p
  le_hi : p ≤ hi
  before : ∀ k, lo ≤ k → k < p → a k ≤ a p
  behind : ∀ k, p < k → k ≤ hi → a p ≤ a k

theorem sorted_of_le (hle : hi ≤ lo) (a : ℤ → α) : Sorted lo hi a := by
  intro i j hi' hij hj
  obtain rfl : i = j := by omega
  exact le_refl _

theorem Sorted.mono {lo' hi' : ℤ} (h : Sorted lo hi a) (hlo : lo ≤ lo') (hhi : hi' ≤ hi) : Sorted lo' hi' a :=
  fun i j hi' hij hj => h i j (Int.le_trans hlo hi') hij (Int.le_trans hj hhi)

theorem Sorted.congr (h : Sorted lo hi a) (hab : ∀ k, lo ≤ k → k ≤ hi → b k = a k) : Sorted lo hi b := by
  intro i j hi' hij hj
  rw [hab i hi' (by omega), hab j (by omega) hj]
  exact h i j hi' hij hj

/-- The side before the dividing element is rearranged. -/
theorem Split.rearranged_before {p : ℤ} (h : Split lo hi p a) (hab : Rearranged lo (p - 1) a b) : Split lo hi p b := by
  have hp : b p = a p := hab.outside (by omega)
  refine ⟨h.lo_le, h.le_hi, ?_, ?_⟩
  · intro k hlo hk
    rw [hp]
    exact hab.forall (P := (· ≤ a p)) (fun k hlo hk => h.before k hlo (by omega)) k hlo (by omega)
  · intro k hk hhi
    rw [hp, hab.outside (by omega)]
    exact h.behind k hk hhi

/-- The side behind the dividing element is rearranged. -/
theorem Split.rearranged_behind {p : ℤ} (h : Split lo hi p a) (hab : Rearranged (p + 1) hi a b) : Split lo hi p b := by
  have hp : b p = a p := hab.outside (by omega)
  refine ⟨h.lo_le, h.le_hi, ?_, ?_⟩
  · intro k hlo hk
    rw [hp, hab.outside (by omega)]
    exact h.before k hlo hk
  · intro k hk hhi
    rw [hp]
    exact hab.forall (P := (a p ≤ ·)) (fun k hk hhi => h.behind k (by omega) hhi) k (by omega) hhi

/-- Both sides are sorted. -/
theorem Split.sorted {p : ℤ} (h : Split lo hi p a) (hbefore : Sorted lo (p - 1) a) (hbehind : Sorted (p + 1) hi a) :
    Sorted lo hi a := by
  intro i j hi' hij hj
  rcases Int.lt_trichotomy i p with hip | rfl | hip
  · rcases Int.lt_trichotomy j p with hjp | rfl | hjp
    · exact hbefore i j hi' hij (by omega)
    · exact h.before i hi' hip
    · exact (h.before i hi' hip).trans (h.behind j hjp hj)
  · rcases Int.le_iff_eq_or_lt.mp hij with rfl | hlt
    · exact le_refl _
    · exact h.behind j hlt hj
  · exact hbehind i j (by omega) hij hj

/-- Around a dividing element, one side is sorted after the other. -/
theorem sorted_of_split {p : ℤ} {d : ℤ → α} (hsplit : Split lo hi p b) (hbc : Rearranged lo (p - 1) b c)
    (hc : Sorted lo (p - 1) c) (hcd : Rearranged (p + 1) hi c d) (hd : Sorted (p + 1) hi d) : Sorted lo hi d := by
  refine ((hsplit.rearranged_before hbc).rearranged_behind hcd).sorted (hc.congr ?_) hd
  intro k _ hk
  exact hcd.outside (by omega)

end

end CodingExercises.Lib.Segments
