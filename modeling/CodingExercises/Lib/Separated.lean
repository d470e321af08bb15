import Mathlib.Data.List.DropRight

/-!
# Lists with separators

A list is cut into parts by runs of a separator. The parts are known by where they end: `partsBefore` lists the beginnings of a
list that end with a part that others follow, and `lastPart` is the part that a list ends with. Separators at the beginning
belong to the first part, and separators at the end to none.
-/

namespace CodingExercises.Lib

variable {α : Type*} [DecidableEq α] (sep : α)

/-- The part that a list ends with. -/
def lastPart (pre : List α) : List α :=
  if sep ∈ pre.dropWhile (· = sep) then pre.rtakeWhile (· ≠ sep) else pre

/-- The list ends with a part. -/
def EndsWithPart (pre : List α) : Prop := ∃ l c, pre = l ++ [c] ∧ c ≠ sep

/-- A part ends between `pre` and `post`, and others follow. -/
def partEnds (pre post : List α) : Bool :=
  pre.getLast?.any (· ≠ sep) && post.head?.any (· = sep) && post.any (· ≠ sep)

/-- The beginnings of `pre ++ post`, at least as long as `pre`, that end with a part that others follow. -/
def partsBefore : List α → List α → List (List α)
  | _, [] => []
  | pre, c :: post =>
    if partEnds sep pre (c :: post) then pre :: partsBefore (pre ++ [c]) post else partsBefore (pre ++ [c]) post

/-- Where the last part begins. -/
def lastPartAt (l : List α) : ℕ := (l.rdropWhile (· = sep)).length - (lastPart sep (l.rdropWhile (· = sep))).length

variable {sep} {pre post : List α} {c d : α}

/-! ## The last part -/

theorem dropWhile_eq_nil (h : ∀ c ∈ pre, c = sep) : pre.dropWhile (· = sep) = [] := by
  rw [List.dropWhile_eq_nil_iff]
  intro c hc
  simpa using h c hc

theorem EndsWithPart.dropWhile_ne_nil (h : ∃ c ∈ pre, c ≠ sep) : pre.dropWhile (· = sep) ≠ [] := by
  obtain ⟨c, hc, hne⟩ := h
  rw [Ne, List.dropWhile_eq_nil_iff]
  intro hall
  exact hne (by simpa using hall c hc)

/-- The first part, with the separators in front of it. -/
theorem lastPart_first (h : ∀ c ∈ pre, c = sep) (hc : c ≠ sep) : lastPart sep (pre ++ [c]) = pre ++ [c] := by
  have hdrop : (pre ++ [c]).dropWhile (· = sep) = [c] := by
    rw [List.dropWhile_append, dropWhile_eq_nil h]
    simp [hc]
  rw [lastPart, hdrop, if_neg]
  simpa using hc.symm

/-- A part that goes on. -/
theorem lastPart_concat (hd : d ≠ sep) (hc : c ≠ sep) :
    lastPart sep (pre ++ [d] ++ [c]) = lastPart sep (pre ++ [d]) ++ [c] := by
  have hne : (pre ++ [d]).dropWhile (· = sep) ≠ [] := EndsWithPart.dropWhile_ne_nil ⟨d, by simp, hd⟩
  have hdrop : (pre ++ [d] ++ [c]).dropWhile (· = sep) = (pre ++ [d]).dropWhile (· = sep) ++ [c] := by
    rw [List.dropWhile_append, if_neg (by simpa using hne)]
  have hmem : sep ∈ (pre ++ [d]).dropWhile (· = sep) ++ [c] ↔ sep ∈ (pre ++ [d]).dropWhile (· = sep) := by
    simp [hc.symm]
  have htake : (pre ++ [d] ++ [c]).rtakeWhile (· ≠ sep) = (pre ++ [d]).rtakeWhile (· ≠ sep) ++ [c] := by
    rw [List.rtakeWhile_concat_pos _ _ _ (by simpa using hc)]
  unfold lastPart
  rw [hdrop, htake]
  by_cases h : sep ∈ (pre ++ [d]).dropWhile (· = sep)
  · rw [if_pos (hmem.mpr h), if_pos h]
  · rw [if_neg fun h' => h (hmem.mp h'), if_neg h]

/-- A new part after a separator. -/
theorem lastPart_next (h : ∃ c ∈ pre, c ≠ sep) (hc : c ≠ sep) : lastPart sep (pre ++ [sep] ++ [c]) = [c] := by
  have hdrop : (pre ++ [sep] ++ [c]).dropWhile (· = sep) = pre.dropWhile (· = sep) ++ [sep] ++ [c] := by
    rw [List.append_assoc, List.dropWhile_append, if_neg (by simpa using EndsWithPart.dropWhile_ne_nil h), List.append_assoc]
  have htake : (pre ++ [sep] ++ [c]).rtakeWhile (· ≠ sep) = [c] := by
    rw [List.rtakeWhile_concat_pos _ _ _ (by simpa using hc), List.rtakeWhile_concat_neg _ _ _ (by simp)]
    rfl
  rw [lastPart, hdrop, htake, if_pos (by simp)]

/-! ## Where the last part begins -/

theorem lastPartAt_of_all (h : ∀ c ∈ pre, c = sep) : lastPartAt sep pre = 0 := by
  have hnil : pre.rdropWhile (· = sep) = [] := by
    rw [List.rdropWhile_eq_nil_iff]
    intro c hc
    simpa using h c hc
  rw [lastPartAt, hnil]
  rfl

theorem rdropWhile_append_seps {seps : List α} (hpre : EndsWithPart sep pre) (h : ∀ c ∈ seps, c = sep) :
    (pre ++ seps).rdropWhile (· = sep) = pre := by
  obtain ⟨l, c, rfl, hc⟩ := hpre
  rw [List.rdropWhile, List.reverse_append, List.dropWhile_append,
    dropWhile_eq_nil (fun x hx => h x (List.mem_reverse.mp hx))]
  simp [hc]

theorem lastPartAt_append {seps : List α} (hpre : EndsWithPart sep pre) (h : ∀ c ∈ seps, c = sep) {k : ℕ}
    (hk : k ≤ pre.length) (hlast : lastPart sep pre = pre.drop k) : lastPartAt sep (pre ++ seps) = k := by
  rw [lastPartAt, rdropWhile_append_seps hpre h, hlast, List.length_drop]
  omega

/-! ## The parts before -/

theorem partsBefore_cons_of_ne (h : c ≠ sep) : partsBefore sep pre (c :: post) = partsBefore sep (pre ++ [c]) post := by
  rw [partsBefore, if_neg]
  simp [partEnds, h]

theorem partsBefore_cons_of_all (h : ∀ c ∈ pre, c = sep) :
    partsBefore sep pre (c :: post) = partsBefore sep (pre ++ [c]) post := by
  have hlast : pre.getLast?.any (· ≠ sep) = false := by
    cases hl : pre.getLast? with
    | none => rfl
    | some d => simpa using h d (List.mem_of_getLast? hl)
  rw [partsBefore, if_neg]
  simp only [partEnds, hlast, Bool.false_and, Bool.false_eq_true, not_false_eq_true]

theorem partsBefore_cons_sep : partsBefore sep (pre ++ [sep]) (c :: post) = partsBefore sep (pre ++ [sep] ++ [c]) post := by
  rw [partsBefore, if_neg]
  simp [partEnds]

theorem partsBefore_cons_end (h : EndsWithPart sep pre) :
    partsBefore sep pre (sep :: post) =
      (if post.any (· ≠ sep) then [pre] else []) ++ partsBefore sep (pre ++ [sep]) post := by
  obtain ⟨l, c, rfl, hc⟩ := h
  have hends : partEnds sep (l ++ [c]) (sep :: post) = post.any (· ≠ sep) := by simp [partEnds, hc]
  rw [partsBefore, hends]
  split <;> rfl

/-- The beginnings are those that end with a part that others follow. -/
theorem mem_partsBefore {x : List α} :
    x ∈ partsBefore sep pre post ↔ ∃ y z, post = y ++ z ∧ x = pre ++ y ∧ partEnds sep x z = true := by
  induction post generalizing pre with
  | nil =>
    constructor
    · intro h
      cases h
    · rintro ⟨y, z, hpost, -, hends⟩
      obtain ⟨-, rfl⟩ := List.append_eq_nil_iff.mp hpost.symm
      simp [partEnds] at hends
  | cons c post ih =>
    have hsplit : x ∈ partsBefore sep pre (c :: post) ↔
        x = pre ∧ partEnds sep pre (c :: post) = true ∨ x ∈ partsBefore sep (pre ++ [c]) post := by
      rw [partsBefore]
      split <;> rename_i h <;> simp [h]
    rw [hsplit, ih]
    constructor
    · rintro (⟨rfl, hends⟩ | ⟨y, z, rfl, rfl, hends⟩)
      · exact ⟨[], c :: post, rfl, by simp, hends⟩
      · exact ⟨c :: y, z, rfl, by simp, hends⟩
    · rintro ⟨y, z, hpost, rfl, hends⟩
      cases y with
      | nil =>
        obtain rfl : c :: post = z := hpost
        exact .inl ⟨by simp, by simpa using hends⟩
      | cons d y =>
        rw [List.cons_append, List.cons.injEq] at hpost
        obtain ⟨rfl, rfl⟩ := hpost
        exact .inr ⟨y, z, rfl, by simp, hends⟩

end CodingExercises.Lib
