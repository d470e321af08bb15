import Mathlib.Data.List.Basic
import Mathlib.Data.Nat.Count

/-!
# Line terminators of a text

A line may end with a carriage return `cr`, a line feed `lf`, or both. The pairs are counted at their second character, so that
a character more changes each count by what it is and what stood before it (`pairs_snoc`, `lfAlone_snoc`), but for a `cr` that a
character behind it may turn into one of a pair: there are `crAlone_add_pairs` of them. A line is longer than `len` if some
position is more than `len` characters behind the last terminator, or the start (`Long`).
-/

namespace CodingExercises.Lib.LineEnds

variable {α : Type*} {cr lf a u : α} {us : List α}

/-! ## Counts -/

section

variable [DecidableEq α]

/-- The number of `lf` with a `cr` directly before. -/
def pairs (cr lf : α) (us : List α) : ℕ :=
  Nat.count (fun i => us[i]? = some lf ∧ 0 < i ∧ us[i - 1]? = some cr) us.length

/-- The number of `lf` without a `cr` directly before. -/
def lfAlone (cr lf : α) (us : List α) : ℕ :=
  Nat.count (fun i => us[i]? = some lf ∧ ¬(0 < i ∧ us[i - 1]? = some cr)) us.length

/-- The number of `cr` without a `lf` directly behind. -/
def crAlone (cr lf : α) (us : List α) : ℕ :=
  Nat.count (fun i => us[i]? = some cr ∧ us[i + 1]? ≠ some lf) us.length

end

theorem count_congr {p q : ℕ → Prop} [DecidablePred p] [DecidablePred q] {n : ℕ} (h : ∀ i < n, (p i ↔ q i)) :
    Nat.count p n = Nat.count q n :=
  Nat.le_antisymm (Nat.count_mono_left fun i hi => (h i hi).mp) (Nat.count_mono_left fun i hi => (h i hi).mpr)

/-- What is counted is counted with `q` or without. -/
theorem count_split (p q : ℕ → Prop) [DecidablePred p] [DecidablePred q] (n : ℕ) :
    Nat.count (fun i => p i ∧ ¬q i) n + Nat.count (fun i => p i ∧ q i) n = Nat.count p n := by
  induction n with
  | zero => rfl
  | succ n ih =>
    rw [Nat.count_succ, Nat.count_succ, Nat.count_succ, ← ih]
    by_cases hp : p n <;> by_cases hq : q n <;> simp only [hp, hq, not_true, not_false_iff, and_true, and_false, if_true, if_false]
    all_goals omega

/-- A count of positions that depends on what is before them: one more character. -/
theorem count_snoc (p : List α → ℕ → Prop) [∀ us, DecidablePred (p us)] {q : Prop} [Decidable q]
    (hp : ∀ i < us.length, (p (us ++ [u]) i ↔ p us i)) (hq : p (us ++ [u]) us.length ↔ q) :
    Nat.count (p (us ++ [u])) (us ++ [u]).length = Nat.count (p us) us.length + if q then 1 else 0 := by
  rw [List.length_append, List.length_singleton, Nat.count_succ, count_congr hp]
  exact congrArg _ (if_congr hq rfl rfl)

theorem getElem?_snoc_lt {i : ℕ} (hi : i < us.length) : (us ++ [u])[i]? = us[i]? := List.getElem?_append_left hi

theorem getElem?_snoc_last : (us ++ [u])[us.length]? = some u := by
  rw [List.getElem?_append_right (Nat.le_refl _), Nat.sub_self]
  rfl

/-- What is before the last position. -/
theorem before_snoc : (0 < us.length ∧ (us ++ [u])[us.length - 1]? = some a) ↔ us.getLast? = some a := by
  rw [List.getLast?_eq_getElem?]
  constructor
  · rintro ⟨hlen, h⟩
    rwa [getElem?_snoc_lt (Nat.sub_lt hlen Nat.one_pos)] at h
  · intro h
    have hlen : 0 < us.length := Nat.zero_lt_of_lt (List.getElem?_eq_some_iff.mp h).1
    exact ⟨hlen, by rwa [getElem?_snoc_lt (Nat.sub_lt hlen Nat.one_pos)]⟩

section

variable [DecidableEq α]

theorem pairs_snoc : pairs cr lf (us ++ [u]) = pairs cr lf us + if u = lf ∧ us.getLast? = some cr then 1 else 0 := by
  refine count_snoc (fun us i => us[i]? = some lf ∧ 0 < i ∧ us[i - 1]? = some cr) ?_ ?_
  · intro i hi
    rw [getElem?_snoc_lt hi, getElem?_snoc_lt (by omega)]
  · rw [getElem?_snoc_last, before_snoc, Option.some.injEq]

theorem lfAlone_snoc : lfAlone cr lf (us ++ [u]) = lfAlone cr lf us + if u = lf ∧ us.getLast? ≠ some cr then 1 else 0 := by
  refine count_snoc (fun us i => us[i]? = some lf ∧ ¬(0 < i ∧ us[i - 1]? = some cr)) ?_ ?_
  · intro i hi
    rw [getElem?_snoc_lt hi, getElem?_snoc_lt (by omega)]
  · rw [getElem?_snoc_last, before_snoc, Option.some.injEq]

theorem list_count_snoc (a u : α) (us : List α) : (us ++ [u]).count a = us.count a + if u = a then 1 else 0 := by
  rw [List.count_append, List.count_singleton]
  simp only [beq_iff_eq]

theorem count_positions (a : α) (us : List α) : Nat.count (fun i => us[i]? = some a) us.length = us.count a := by
  induction us using List.reverseRecOn with
  | nil => rfl
  | append_singleton us u ih =>
    rw [list_count_snoc, ← ih]
    refine count_snoc (fun us i => us[i]? = some a) (fun i hi => by rw [getElem?_snoc_lt hi]) ?_
    rw [getElem?_snoc_last, Option.some.injEq]

theorem lfAlone_add_pairs (cr lf : α) (us : List α) : lfAlone cr lf us + pairs cr lf us = us.count lf := by
  rw [← count_positions]
  exact count_split (fun i => us[i]? = some lf) (fun i => 0 < i ∧ us[i - 1]? = some cr) us.length

/-- A pair may be counted at its first character as well. -/
theorem pairs_first (cr lf : α) (us : List α) :
    Nat.count (fun i => us[i]? = some cr ∧ us[i + 1]? = some lf) us.length = pairs cr lf us := by
  rw [pairs]
  obtain hlen | ⟨n, hn⟩ : us.length = 0 ∨ ∃ n, us.length = n + 1 := by
    cases us.length with
    | zero => exact .inl rfl
    | succ n => exact .inr ⟨n, rfl⟩
  · rw [hlen]
    rfl
  · have hend : us[n + 1]? = none := List.getElem?_eq_none (Nat.le_of_eq hn)
    rw [hn, Nat.count_succ, Nat.count_succ', hend, if_neg (by rintro ⟨-, h⟩; cases h),
      if_neg (by rintro ⟨-, h, -⟩; exact Nat.lt_irrefl 0 h)]
    refine congrArg (· + 0) (count_congr ?_)
    intro i _
    rw [Nat.add_sub_cancel, and_comm]
    exact and_congr_right fun _ => (and_iff_right (Nat.succ_pos i)).symm

theorem crAlone_add_pairs (cr lf : α) (us : List α) : crAlone cr lf us + pairs cr lf us = us.count cr := by
  rw [← count_positions, ← pairs_first]
  exact count_split (fun i => us[i]? = some cr) (fun i => us[i + 1]? = some lf) us.length

end

/-! ## Long lines -/

/-- Some position is more than `len` characters behind the last terminator, or the start. -/
def Long (isEnd : α → Bool) (len : ℕ) (us : List α) : Prop :=
  ∃ i < us.length, len ≤ i ∧ ∀ j ≤ i, us[j]?.any isEnd → j + len < i

instance (isEnd : α → Bool) (len : ℕ) (us : List α) : Decidable (Long isEnd len us) := by
  unfold Long
  infer_instance

/-- `last` is the last terminator. -/
def LastEnd (isEnd : α → Bool) (us : List α) (last : ℕ) : Prop :=
  us[last]?.any isEnd ∧ ∀ j, us[j]?.any isEnd → j ≤ last

/-- There is no terminator. -/
def NoEnd (isEnd : α → Bool) (us : List α) : Prop := ∀ j : ℕ, us[j]?.any isEnd = false

variable {isEnd : α → Bool} {len last : ℕ}

theorem any_snoc (us : List α) (u : α) (j : ℕ) :
    (us ++ [u])[j]?.any isEnd ↔ us[j]?.any isEnd ∨ j = us.length ∧ isEnd u := by
  rcases Nat.lt_trichotomy j us.length with hlt | rfl | hlt
  · rw [getElem?_snoc_lt hlt]
    exact ⟨.inl, fun h => h.resolve_right fun h => absurd h.1 (Nat.ne_of_lt hlt)⟩
  · rw [getElem?_snoc_last, List.getElem?_eq_none (Nat.le_refl _)]
    simp only [Option.any_some, Option.any_none, true_and, Bool.false_eq_true, false_or]
  · rw [List.getElem?_eq_none (by rw [List.length_append]; exact hlt), List.getElem?_eq_none (Nat.le_of_lt hlt)]
    simp only [Option.any_none, Bool.false_eq_true, false_or, false_iff]
    exact fun h => absurd h.1 (Nat.ne_of_gt hlt)

theorem LastEnd.lt (h : LastEnd isEnd us last) : last < us.length := by
  by_contra hge
  have hend := h.1
  rw [List.getElem?_eq_none (Nat.le_of_not_lt hge)] at hend
  cases hend

/-- A terminator more is the last one. -/
theorem lastEnd_snoc (hu : isEnd u = true) : LastEnd isEnd (us ++ [u]) us.length := by
  refine ⟨(any_snoc us u _).mpr (.inr ⟨rfl, hu⟩), ?_⟩
  intro j hj
  rcases (any_snoc us u j).mp hj with h | ⟨rfl, -⟩
  · by_contra hlt
    rw [List.getElem?_eq_none (by omega)] at h
    cases h
  · exact Nat.le_refl _

/-- Any other character changes nothing. -/
theorem LastEnd.snoc (h : LastEnd isEnd us last) (hu : isEnd u = false) : LastEnd isEnd (us ++ [u]) last := by
  refine ⟨(any_snoc us u last).mpr (.inl h.1), ?_⟩
  intro j hj
  rcases (any_snoc us u j).mp hj with hj | ⟨-, hend⟩
  · exact h.2 j hj
  · rw [hu] at hend
    cases hend

theorem NoEnd.snoc (h : NoEnd isEnd us) (hu : isEnd u = false) : NoEnd isEnd (us ++ [u]) := by
  intro j
  rw [← Bool.not_eq_true, any_snoc, h j, hu]
  rintro (hj | ⟨-, hj⟩) <;> cases hj

theorem long_snoc : Long isEnd len (us ++ [u]) ↔
    Long isEnd len us ∨ len ≤ us.length ∧ ∀ j, (us ++ [u])[j]?.any isEnd → j + len < us.length := by
  constructor
  · rintro ⟨i, hi, hlen, hall⟩
    rw [List.length_append, List.length_singleton] at hi
    rcases Nat.lt_or_eq_of_le (Nat.le_of_lt_succ hi) with hlt | rfl
    · refine .inl ⟨i, hlt, hlen, ?_⟩
      intro j hj hend
      exact hall j hj ((any_snoc us u j).mpr (.inl hend))
    · refine .inr ⟨hlen, ?_⟩
      intro j hend
      refine hall j ?_ hend
      by_contra hgt
      rw [List.getElem?_eq_none (by rw [List.length_append, List.length_singleton]; omega)] at hend
      cases hend
  · rintro (⟨i, hi, hlen, hall⟩ | ⟨hlen, hall⟩)
    · refine ⟨i, ?_, hlen, ?_⟩
      · rw [List.length_append]
        omega
      · intro j hj hend
        rw [getElem?_snoc_lt (Nat.lt_of_le_of_lt hj hi)] at hend
        exact hall j hj hend
    · refine ⟨us.length, ?_, hlen, fun j _ => hall j⟩
      rw [List.length_append, List.length_singleton]
      exact Nat.lt_succ_self _

/-- Behind the last terminator, the distance to it decides. -/
theorem LastEnd.long_snoc (h : LastEnd isEnd (us ++ [u]) last) :
    Long isEnd len (us ++ [u]) ↔ Long isEnd len us ∨ last + len < us.length := by
  rw [LineEnds.long_snoc]
  refine or_congr_right ⟨fun hlong => hlong.2 last h.1, ?_⟩
  intro hlt
  refine ⟨by omega, ?_⟩
  intro j hj
  have := h.2 j hj
  omega

/-- Without a terminator, the distance to the start decides. -/
theorem NoEnd.long_snoc (h : NoEnd isEnd (us ++ [u])) : Long isEnd len (us ++ [u]) ↔ Long isEnd len us ∨ len ≤ us.length := by
  rw [LineEnds.long_snoc]
  refine or_congr_right (and_iff_left ?_)
  intro j hj
  rw [h j] at hj
  cases hj

end CodingExercises.Lib.LineEnds
