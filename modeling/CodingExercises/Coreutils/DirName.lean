import Mathlib.Data.FinEnum
import CodingExercises.Coreutils.FileName
import CodingExercises.Lib.Words

/-!
# coreutils: directory and base name

`dir_len` of `lib/dirname-lgpl.c` and `base_name` of `lib/lib-basename.c`, together with `strip_trailing_slashes`. How they
fit together is said with the components of a name (`fileName_parts`).
-/

namespace CodingExercises.Coreutils

/-- `IS_ABSOLUTE_FILE_NAME`. -/
def isAbsoluteFileName (file : List Byte) : Bool := file[0]? = some slash

/-- The loop of `dir_len`. -/
def dirLenFrom (file : List Byte) (prefixLength : ℕ) : ℕ → ℕ
  | 0 => 0
  | length + 1 =>
    if prefixLength < length + 1 then
      if file[length]? ≠ some slash then length + 1 else dirLenFrom file prefixLength length
    else length + 1

/-- `dir_len`. -/
def dirLen (file : List Byte) : ℕ :=
  let prefixLength := if file[0]? = some slash then 1 else 0
  dirLenFrom file prefixLength (file.length - (lastComponent file).length)

/-- `base_name`. -/
def baseName (name : List Byte) : List Byte :=
  let base := lastComponent name
  if base = [] then name.take (baseLen name)
  else
    let length := baseLen base
    let length := if base[length]? = some slash then length + 1 else length
    base.take length

/-- The components of a name. -/
def comps (file : List Byte) : List (List Byte) := Lib.words (· = slash) file

/-! ## Components -/

theorem comps_slash (x y : List Byte) : comps (x ++ slash :: y) = comps x ++ comps y := by
  simp [comps, Lib.words_append_sep]

@[simp] theorem comps_nil : comps [] = [] := Lib.words_nil _

theorem comps_name {c : List Byte} (hne : c ≠ []) (hno : slash ∉ c) : comps c = [c] :=
  Lib.words_eq_singleton (fun _ hb => decide_eq_false fun heq => hno (heq ▸ hb)) hne

/-- Slashes at the end do not matter. -/
theorem comps_append_replicate (x : List Byte) (k : ℕ) : comps (x ++ List.replicate k slash) = comps x := by
  induction k with
  | zero => simp
  | succ k ih =>
    rw [List.replicate_succ', ← List.append_assoc, comps_slash, ih]
    simp

theorem comps_replicate (k : ℕ) : comps (List.replicate k slash) = [] := by
  simpa using comps_append_replicate [] k

section

variable {name pre comp : List Byte} {k : ℕ}

theorem Parts.comps (h : Parts name pre comp k) : comps name = comps pre ++ [comp] := by
  rw [h.eq, comps_append_replicate]
  rcases h.pre with rfl | ⟨x, rfl⟩
  · simp [comps_name h.ne h.noSlash]
  · rw [List.append_assoc, List.singleton_append, comps_slash, comps_name h.ne h.noSlash, comps_slash]
    simp

/-! ## `dir_len` -/

/-- What the loop of `dir_len` leaves out are slashes. -/
structure Stripped (file : List Byte) (prefixLength n r : ℕ) : Prop where
  ge : prefixLength ≤ r
  le : r ≤ n
  slashes : ∀ i, r ≤ i → i < n → file[i]? = some slash
  stop : r = prefixLength ∨ ∃ m, r = m + 1 ∧ file[m]? ≠ some slash

theorem stripped_dirLenFrom (file : List Byte) {p n : ℕ} (h : p ≤ n) : Stripped file p n (dirLenFrom file p n) := by
  induction n with
  | zero => exact ⟨h, le_rfl, fun i hi hlt => absurd hlt (by omega), .inl (Nat.le_zero.mp h).symm⟩
  | succ n ih =>
    rw [dirLenFrom]
    split
    · next hlt =>
      split
      · next hno => exact ⟨h, le_rfl, fun i hi hlt => absurd hlt (by omega), .inr ⟨n, rfl, hno⟩⟩
      · next hslash =>
        obtain ⟨hge, hle, hslashes, hstop⟩ := ih (by omega)
        refine ⟨hge, by omega, fun i hi hlt => ?_, hstop⟩
        rcases Nat.lt_succ_iff_lt_or_eq.mp hlt with hlt | rfl
        · exact hslashes i hi hlt
        · exact not_not.mp hslash
    · exact ⟨by omega, le_rfl, fun i hi hlt => absurd hlt (by omega), .inl (by omega)⟩

theorem Stripped.take {file : List Byte} {p n r : ℕ} (h : Stripped file p n r) (hn : n ≤ file.length) :
    file.take n = file.take r ++ List.replicate (n - r) slash := by
  have hle := h.le
  apply List.ext_getElem?
  intro i
  rcases Nat.lt_or_ge i r with hi | hi
  · rw [List.getElem?_append_left (by simp; omega), List.getElem?_take_of_lt (by omega), List.getElem?_take_of_lt hi]
  · rw [List.getElem?_append_right (by simp; omega), List.getElem?_replicate]
    rcases Nat.lt_or_ge i n with hi' | hi'
    · rw [List.getElem?_take_of_lt hi', h.slashes i hi hi', if_pos]
      simp
      omega
    · rw [List.getElem?_eq_none (by simp; omega), if_neg]
      simp
      omega

/-- Where the last component begins. -/
def baseStart (name : List Byte) : ℕ := name.length - (lastComponent name).length

theorem Parts.baseStart (h : Parts name pre comp k) : baseStart name = pre.length := by
  have hlen := congrArg List.length h.eq
  simp only [List.length_append, List.length_replicate] at hlen
  rw [Coreutils.baseStart, h.lastComponent]
  simp only [List.length_append, List.length_replicate]
  omega

theorem baseStart_replicate (k : ℕ) : baseStart (List.replicate k slash) = k := by
  simp [baseStart, lastComponent_replicate]

/-- A slash at the beginning is not in the last component. -/
theorem le_baseStart (name : List Byte) : (if name[0]? = some slash then 1 else 0) ≤ baseStart name := by
  split
  · next habs =>
    rcases exists_parts name with ⟨k, rfl⟩ | ⟨pre, comp, k, h⟩
    · rw [baseStart_replicate]
      cases k with
      | zero => simp at habs
      | succ k => omega
    · rw [h.baseStart]
      by_contra hpre
      obtain rfl : pre = [] := List.length_eq_zero_iff.mp (by omega)
      obtain ⟨c, comp', rfl⟩ := List.exists_cons_of_ne_nil h.ne
      have hno := h.noSlash
      simp only [h.eq, List.nil_append, List.cons_append, List.getElem?_cons_zero, Option.some.injEq] at habs
      simp [habs] at hno
  · exact Nat.zero_le _

/-- What `dir_len` leaves out before the last component are slashes. -/
theorem stripped_dirLen (name : List Byte) :
    Stripped name (if name[0]? = some slash then 1 else 0) (baseStart name) (dirLen name) :=
  stripped_dirLenFrom name (le_baseStart name)

theorem dirLen_le (name : List Byte) : dirLen name ≤ name.length :=
  (stripped_dirLen name).le.trans (Nat.sub_le _ _)

/-- The components in front of the last one. -/
theorem comps_dir (name : List Byte) : comps (name.take (dirLen name)) = comps (name.take (baseStart name)) := by
  rw [(stripped_dirLen name).take (Nat.sub_le _ _), comps_append_replicate]

/-- What is in front of the last component ends in a slash only if it is the root. -/
theorem dir_root {name : List Byte} (h : [slash] <:+ name.take (dirLen name)) : name.take (dirLen name) = [slash] := by
  have hle := dirLen_le name
  rcases (stripped_dirLen name).stop with hstop | ⟨m, hm, hno⟩
  · rw [hstop] at h ⊢
    split at h
    · next habs =>
      rw [if_pos habs]
      cases name with
      | nil => simp at habs
      | cons c name => simpa using habs
    · simp at h
  · obtain ⟨x, hx⟩ := h
    have hlen := congrArg List.length hx
    have hlast := congrArg (·[m]?) hx
    simp only [List.length_append, List.length_singleton, List.length_take] at hlen
    rw [hm] at hlast hlen hle
    rw [List.getElem?_append_right (by omega), List.getElem?_take_of_lt (by omega)] at hlast
    rw [show m - x.length = 0 by omega] at hlast
    exact absurd hlast.symm hno

/-! ## `base_name` -/

theorem baseLen_append {c : List Byte} (hne : c ≠ []) (hno : slash ∉ c) (k : ℕ) :
    baseLen (c ++ List.replicate k slash) = c.length := by
  have hlen := baseLenFrom_append (r := []) hne hno k
  simpa [baseLen] using hlen

/-- A last component comes with one of the slashes behind it, if there are any. -/
theorem Parts.baseName (h : Parts name pre comp k) : baseName name = comp ++ List.replicate (min k 1) slash := by
  have hbase := h.lastComponent
  have hne : comp ++ List.replicate k slash ≠ [] := by simp [h.ne]
  simp only [Coreutils.baseName, hbase, if_neg hne, baseLen_append h.ne h.noSlash]
  rw [List.getElem?_append_right le_rfl, Nat.sub_self]
  cases k with
  | zero => simp
  | succ k =>
    rw [if_pos (by simp), List.take_append, List.take_of_length_le (by omega)]
    simp [List.replicate_succ]

theorem baseName_replicate (k : ℕ) : baseName (List.replicate k slash) = List.replicate (min k 1) slash := by
  have hstrip := strip_replicate k
  have hlen : (stripTrailingSlashes (List.replicate k slash)).2
      = (List.replicate k slash).take (baseLen (List.replicate k slash)) := by
    simp [stripTrailingSlashes, lastComponent_replicate]
  rw [Coreutils.baseName, if_pos (lastComponent_replicate k), ← hlen, hstrip]

end

/-- Two slashes in a row at the end. -/
theorem not_two_slashes {c : List Byte} (hno : slash ∉ c) {k : ℕ} (hk : k ≤ 1) :
    ¬ [slash, slash] <:+ c ++ List.replicate k slash := by
  rintro ⟨x, hx⟩
  have hcount := congrArg (List.count slash) hx
  simp only [List.count_append, List.count_eq_zero.mpr hno, List.count_replicate_self] at hcount
  simp at hcount
  omega

/-! ## `strip_trailing_slashes` -/

/-- The name that `strip_trailing_slashes` leaves. -/
abbrev stripped (file : List Byte) : List Byte := (stripTrailingSlashes file).2

theorem Parts.pre_comp {name pre comp : List Byte} {k : ℕ} (h : Parts name pre comp k) : Parts (pre ++ comp) pre comp 0 :=
  ⟨by simp, h.ne, h.noSlash, h.pre⟩

theorem comps_stripped (file : List Byte) : comps (stripped file) = comps file := by
  rcases exists_parts file with ⟨k, rfl⟩ | ⟨pre, comp, k, h⟩
  · rw [stripped, strip_replicate, comps_replicate, comps_replicate]
  · rw [stripped, h.strip, h.comps, h.pre_comp.comps]

theorem absolute_stripped (file : List Byte) : isAbsoluteFileName (stripped file) = isAbsoluteFileName file := by
  rcases exists_parts file with ⟨k, rfl⟩ | ⟨pre, comp, k, h⟩
  · rw [stripped, strip_replicate]
    cases k with
    | zero => rfl
    | succ k => simp [isAbsoluteFileName]
  · have hne : 0 < (pre ++ comp).length := by
      have := List.length_pos_iff.mpr h.ne
      simp only [List.length_append]
      omega
    rw [stripped, h.strip, isAbsoluteFileName, isAbsoluteFileName, h.eq, List.getElem?_append_left hne]

theorem stripped_stripped (file : List Byte) : stripped (stripped file) = stripped file := by
  rcases exists_parts file with ⟨k, rfl⟩ | ⟨pre, comp, k, h⟩
  · rw [stripped, stripped, strip_replicate, strip_replicate]
    simp
  · rw [stripped, stripped, h.strip, h.pre_comp.strip]

/-- No slash is left at the end, unless there are only slashes. -/
theorem stripped_end (file : List Byte) :
    if file ≠ [] ∧ ∀ c ∈ file, c = slash then stripped file = [slash] else ¬ [slash] <:+ stripped file := by
  split
  · next hall =>
    obtain ⟨hne, hall⟩ := hall
    rw [eq_replicate hall, stripped, strip_replicate, Nat.min_eq_right (List.length_pos_iff.mpr hne)]
    rfl
  · next hall =>
    rcases exists_parts file with ⟨k, rfl⟩ | ⟨pre, comp, k, h⟩
    · cases k with
      | zero =>
        rw [stripped, strip_replicate]
        simp
      | succ k => exact absurd ⟨by simp, fun c hc => (List.mem_replicate.mp hc).2⟩ hall
    · rw [stripped, h.strip]
      exact h.not_slash_end

/-! ## All together -/

/-- For every file name: its directory part and its base name have its components, the base name at most one, and each ends
in no more slashes than it should; and stripping the slashes at the end changes nothing else, and is done once. -/
theorem fileName_parts (f : List Byte) :
    (dirLen f ≤ f.length ∧ comps (f.take (dirLen f)) ++ comps (baseName f) = comps f ∧
      ([slash] <:+ f.take (dirLen f) → f.take (dirLen f) = [slash])) ∧
    ((comps (baseName f)).length ≤ 1 ∧ ¬ [slash, slash] <:+ baseName f) ∧
    comps (stripped f) = comps f ∧ isAbsoluteFileName (stripped f) = isAbsoluteFileName f ∧
    stripped (stripped f) = stripped f ∧
    if f ≠ [] ∧ ∀ c ∈ f, c = slash then stripped f = [slash] else ¬ [slash] <:+ stripped f := by
  refine ⟨⟨dirLen_le f, ?_, dir_root⟩, ?_, comps_stripped f, absolute_stripped f, stripped_stripped f, stripped_end f⟩
  · rw [comps_dir]
    rcases exists_parts f with ⟨k, rfl⟩ | ⟨pre, comp, k, h⟩
    · rw [baseStart_replicate, baseName_replicate, comps_replicate, comps_replicate, List.take_of_length_le (by simp),
        comps_replicate]
      rfl
    · rw [h.baseStart, h.baseName, h.comps, comps_append_replicate, comps_name h.ne h.noSlash, h.eq, List.append_assoc,
        List.take_left]
  · rcases exists_parts f with ⟨k, rfl⟩ | ⟨pre, comp, k, h⟩
    · rw [baseName_replicate, comps_replicate]
      exact ⟨by simp, not_two_slashes (c := []) (by simp) (by omega)⟩
    · rw [h.baseName, comps_append_replicate, comps_name h.ne h.noSlash]
      exact ⟨by simp, not_two_slashes h.noSlash (by omega)⟩

end CodingExercises.Coreutils
