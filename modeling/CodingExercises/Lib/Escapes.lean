import Mathlib.Data.List.Basic

/-!
# Escaped characters

A scan from left to right in which some characters take the next one literally: `marks` says of every character whether it
is taken so, and `within` whether the scan ends in the middle of an escape. Cutting at one separator, and each piece at
another, finds the entries of a text (`fields`).

A text made of `key = value :` entries is read back just when no key and no value ends in the middle of an escape
(`fields_joined_iff`).
-/

namespace CodingExercises.Lib

variable {α : Type*} (esc : α → Bool)

/-- Every character, and whether it is taken literally. -/
def marks : Bool → List α → List (α × Bool)
  | _, [] => []
  | true, c :: s => (c, true) :: marks false s
  | false, c :: s => (c, false) :: marks (esc c) s

/-- The next character would be taken literally. -/
def within : Bool → List α → Bool
  | b, [] => b
  | true, _ :: s => within false s
  | false, c :: s => within (esc c) s

theorem marks_append (b : Bool) (s t : List α) : marks esc b (s ++ t) = marks esc b s ++ marks esc (within esc b s) t := by
  induction s generalizing b with
  | nil => cases b <;> rfl
  | cons c s ih => cases b <;> simp [marks, within, ih]

@[simp] theorem map_fst_marks (b : Bool) (s : List α) : (marks esc b s).map Prod.fst = s := by
  induction s generalizing b with
  | nil => cases b <;> rfl
  | cons c s ih => cases b <;> simp [marks, ih]

variable [DecidableEq α]

/-- The character `sep`, not taken literally. -/
def bare (sep : α) (x : α × Bool) : Bool := x.1 = sep && !x.2

/-- The fields of the entries: cut at every `sep`, and then at every `eq`, that is not taken literally. -/
def fields (sep eq : α) (s : List α) : List (List (List α)) :=
  ((marks esc false s).splitOnP (bare sep)).map fun piece => (piece.splitOnP (bare eq)).map (·.map Prod.fst)

/-- No separator is left bare. -/
def Clean (sep eq : α) (s : List α) : Prop := ∀ x ∈ marks esc false s, bare sep x = false ∧ bare eq x = false

/-- The entries one after another. -/
def joined (sep eq : α) (es : List (List α × List α)) : List α := es.flatMap fun e => e.1 ++ eq :: e.2 ++ [sep]

/-! ## The first field -/

/-- A list is cut first where the separator is met first. -/
theorem head_splitOnP {β : Type*} (p : β → Bool) (m : List β) : ∃ ps, m.splitOnP p = m.takeWhile (!p ·) :: ps := by
  induction m with
  | nil => exact ⟨[], rfl⟩
  | cons c m ih =>
    obtain ⟨ps, ih⟩ := ih
    rw [List.splitOnP_cons_eq_if_modifyHead, ih]
    by_cases hc : p c = true
    · exact ⟨m.takeWhile (!p ·) :: ps, by simp [hc]⟩
    · exact ⟨ps, by simp [hc]⟩

theorem takeWhile_clean {β : Type*} {p : β → Bool} {m : List β} (hm : ∀ x ∈ m, p x = false) (n : List β) :
    (m ++ n).takeWhile (!p ·) = m ++ n.takeWhile (!p ·) :=
  List.takeWhile_append_of_pos fun x hx => by simp [hm x hx]

variable {esc} {sep eq : α}

/-- A key that ends in the middle of an escape takes the character behind it into the first field. -/
theorem fields_key_within {k : List α} (hk : Clean esc sep eq k) (hw : within esc false k = true) (s : List α) (f : List (List α))
    (fs : List (List (List α))) : fields esc sep eq (k ++ eq :: s) ≠ (k :: f) :: fs := by
  intro h
  obtain ⟨ps, hps⟩ := head_splitOnP (bare sep) (marks esc false (k ++ eq :: s))
  obtain ⟨qs, hqs⟩ := head_splitOnP (bare eq) ((marks esc false (k ++ eq :: s)).takeWhile (!bare sep ·))
  rw [fields, hps, List.map_cons, hqs, List.map_cons, List.cons.injEq, List.cons.injEq] at h
  have hfirst := congrArg List.length h.1.1
  rw [marks_append, hw, takeWhile_clean fun x hx => (hk x hx).1, takeWhile_clean fun x hx => (hk x hx).2] at hfirst
  simp [marks, bare] at hfirst

/-- The same of a value, which is the second field. -/
theorem fields_value_within {k v : List α} (hk : Clean esc sep eq k) (hkw : within esc false k = false)
    (hv : Clean esc sep eq v) (hvw : within esc false v = true) (heq : esc eq = false) (hne : eq ≠ sep) (s : List α)
    (f : List (List α)) (fs : List (List (List α))) :
    fields esc sep eq (k ++ eq :: v ++ sep :: s) ≠ (k :: v :: f) :: fs := by
  intro h
  obtain ⟨ps, hps⟩ := head_splitOnP (bare sep) (marks esc false (k ++ eq :: v ++ sep :: s))
  have hmarks : marks esc false (k ++ eq :: v ++ sep :: s)
      = marks esc false k ++ (eq, false) :: (marks esc false v ++ (sep, true) :: marks esc false s) := by
    rw [List.append_assoc, marks_append, hkw, List.cons_append, marks, heq, marks_append, hvw, marks]
  have hpiece : (marks esc false (k ++ eq :: v ++ sep :: s)).takeWhile (!bare sep ·)
      = marks esc false k ++ (eq, false) :: (marks esc false v ++ (sep, true) :: (marks esc false s).takeWhile (!bare sep ·)) := by
    rw [hmarks, takeWhile_clean fun x hx => (hk x hx).1, List.takeWhile_cons_of_pos (by simp [bare, hne]),
      takeWhile_clean fun x hx => (hv x hx).1, List.takeWhile_cons_of_pos (by simp [bare])]
  obtain ⟨qs, hqs⟩ := head_splitOnP (bare eq) (marks esc false v ++ (sep, true) :: (marks esc false s).takeWhile (!bare sep ·))
  rw [fields, hps, List.map_cons, hpiece,
    List.splitOnP_append_cons_of_forall_mem (fun x hx => (hk x hx).2) (eq, false) (by simp [bare]), hqs] at h
  simp only [List.map_cons, List.cons.injEq] at h
  have hsecond := congrArg List.length h.1.2.1
  rw [takeWhile_clean fun x hx => (hv x hx).2] at hsecond
  simp [bare] at hsecond

/-! ## Reading entries back -/

/-- An entry that ends outside escapes is read as it was written. -/
theorem fields_entry {k v : List α} (hk : Clean esc sep eq k) (hkw : within esc false k = false) (hv : Clean esc sep eq v)
    (hvw : within esc false v = false) (heq : esc eq = false) (hsep : esc sep = false) (hne : eq ≠ sep) (s : List α) :
    fields esc sep eq (k ++ eq :: v ++ sep :: s) = [k, v] :: fields esc sep eq s := by
  have hmarks : marks esc false (k ++ eq :: v ++ sep :: s)
      = (marks esc false k ++ (eq, false) :: marks esc false v) ++ (sep, false) :: marks esc false s := by
    rw [List.append_assoc, marks_append, hkw, List.cons_append, marks, heq, marks_append, hvw, marks, hsep,
      List.append_assoc, List.cons_append]
  have hclean : ∀ x ∈ marks esc false k ++ (eq, false) :: marks esc false v, bare sep x = false := by
    intro x hx
    rcases List.mem_append.1 hx with hx | hx
    · exact (hk x hx).1
    · rcases List.mem_cons.1 hx with rfl | hx
      · simp [bare, hne]
      · exact (hv x hx).1
  have hfields : (marks esc false k ++ (eq, false) :: marks esc false v).splitOnP (bare eq)
      = [marks esc false k, marks esc false v] := by
    rw [List.splitOnP_append_cons_of_forall_mem (fun x hx => (hk x hx).2) (eq, false) (by simp [bare]),
      List.splitOnP_eq_singleton fun x hx => (hv x hx).2]
  rw [fields, hmarks, List.splitOnP_append_cons_of_forall_mem hclean (sep, false) (by simp [bare]), List.map_cons, hfields]
  simp [fields]

/-- Entries are read back, all of them, when none ends in the middle of an escape, and only then. -/
theorem fields_joined_iff (heq : esc eq = false) (hsep : esc sep = false) (hne : eq ≠ sep) {es : List (List α × List α)}
    (hclean : ∀ e ∈ es, Clean esc sep eq e.1 ∧ Clean esc sep eq e.2) :
    fields esc sep eq (joined sep eq es) = es.map (fun e => [e.1, e.2]) ++ [[[]]] ↔
      ∀ e ∈ es, within esc false e.1 = false ∧ within esc false e.2 = false := by
  induction es with
  | nil => simp [joined, fields, marks]
  | cons e es ih =>
    obtain ⟨k, v⟩ := e
    obtain ⟨hk, hv⟩ := hclean (k, v) List.mem_cons_self
    have hjoined : joined sep eq ((k, v) :: es) = k ++ eq :: v ++ sep :: joined sep eq es := by
      simp [joined]
    rw [hjoined, List.map_cons, List.cons_append, List.forall_mem_cons]
    cases hkw : within esc false k with
    | true =>
      refine iff_of_false ?_ (by simp)
      rw [List.append_assoc, List.cons_append]
      exact fields_key_within hk hkw _ _ _
    | false =>
      cases hvw : within esc false v with
      | true => exact iff_of_false (fields_value_within hk hkw hv hvw heq hne _ _ _) (by simp)
      | false =>
        rw [fields_entry hk hkw hv hvw heq hsep hne, List.cons.injEq,
          ih fun e he => hclean e (List.mem_cons_of_mem _ he)]
        simp

end CodingExercises.Lib
