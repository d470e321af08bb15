import Mathlib.Data.List.DropRight
import CodingExercises.Coreutils.Xalloc

/-!
# coreutils: parts of file names

`last_component` and `base_len` of `lib/basename-lgpl.c`, `strip_trailing_slashes` of `lib/stripslash.h`, `dot_or_dotdot` of
`lib/system.h`. No file system has prefixes or a root `//` of its own (`lib/dirname.h`).

A name is slashes only, or it has a last component: what stands behind the last slash when the slashes at its end are
left out (`lastName`). That is what `last_component` finds once they are stripped (`lastComponent_strip`).
-/

namespace CodingExercises.Coreutils

/-- `'/'`. -/
def slash : Byte := 47

/-- `'.'`. -/
def dot : Byte := 46

/-- The loop of `last_component` over `p`. -/
def lastComponentFrom (base : List Byte) : Bool → List Byte → List Byte
  | _, [] => base
  | sawSlash, c :: p =>
    if c = slash then lastComponentFrom base true p
    else if sawSlash then lastComponentFrom (c :: p) false p
    else lastComponentFrom base sawSlash p

/-- `last_component`. -/
def lastComponent (name : List Byte) : List Byte :=
  let base := name.dropWhile (· = slash)
  lastComponentFrom base false base

/-- The loop of `base_len`. -/
def baseLenFrom (name : List Byte) : ℕ → ℕ
  | 0 => 0
  | 1 => 1
  | len + 2 => if name[len + 1]? = some slash then baseLenFrom name (len + 1) else len + 2

/-- `base_len`. -/
def baseLen (name : List Byte) : ℕ := baseLenFrom name name.length

/-- `strip_trailing_slashes`: whether there was a slash, and the file name then. -/
def stripTrailingSlashes (file : List Byte) : Bool × List Byte :=
  let base := lastComponent file
  let base := if base = [] then file else base
  let baseLim := file.length - base.length + baseLen base
  (decide (baseLim < file.length), file.take baseLim)

/-- `dot_or_dotdot`. -/
def dotOrDotdot (filename : List Byte) : Bool :=
  if filename[0]? = some dot then
    match filename[(if filename[1]? = some dot then 1 else 0) + 1]? with
    | none => true
    | some sep => sep = slash
  else false

/-! ## The last component -/

/-- The last component of a name without the slashes at its end. -/
def lastName (name : List Byte) : List Byte :=
  (name.rdropWhile (· = slash)).rtakeWhile (· ≠ slash)

/-- A name that is not slashes only, cut at its last component. -/
structure Parts (name pre comp : List Byte) (k : ℕ) : Prop where
  eq : name = pre ++ comp ++ List.replicate k slash
  ne : comp ≠ []
  noSlash : slash ∉ comp
  pre : pre = [] ∨ ∃ x, pre = x ++ [slash]

theorem eq_replicate {l : List Byte} (h : ∀ c ∈ l, c = slash) : l = List.replicate l.length slash :=
  List.eq_replicate_iff.mpr ⟨rfl, h⟩

/-- Every name is slashes only, or has a last component. -/
theorem exists_parts (name : List Byte) :
    (∃ k, name = List.replicate k slash) ∨ ∃ pre comp k, Parts name pre comp k := by
  have hend := List.rdropWhile_append_rtakeWhile (p := fun c => decide (c = slash)) (l := name)
  have hslashes := eq_replicate (l := name.rtakeWhile (· = slash)) fun c hc => by
    simpa using List.mem_rtakeWhile_imp hc
  by_cases hbody : name.rdropWhile (· = slash) = []
  · left
    rw [hbody, List.nil_append] at hend
    exact ⟨_, by rw [← hend]; exact hslashes⟩
  · right
    have hlast := List.rdropWhile_last_not _ _ hbody
    have hbody' := List.rdropWhile_append_rtakeWhile (p := fun c => decide (c ≠ slash))
      (l := name.rdropWhile (· = slash))
    refine ⟨(name.rdropWhile (· = slash)).rdropWhile (· ≠ slash),
      (name.rdropWhile (· = slash)).rtakeWhile (· ≠ slash), (name.rtakeWhile (· = slash)).length, ?_, ?_, ?_, ?_⟩
    · rw [hbody', ← hslashes, hend]
    · intro hnil
      rw [List.rtakeWhile_eq_nil_iff] at hnil
      exact hnil hbody (by simpa using hlast)
    · intro hmem
      simpa using List.mem_rtakeWhile_imp hmem
    · by_cases hpre : (name.rdropWhile (· = slash)).rdropWhile (· ≠ slash) = []
      · exact .inl hpre
      · right
        have hs := List.rdropWhile_last_not _ _ hpre
        have hlast' : List.getLast _ hpre = slash := by simpa using hs
        have hcut := List.dropLast_concat_getLast hpre
        rw [hlast'] at hcut
        exact ⟨_, hcut.symm⟩

section

variable {name pre comp : List Byte} {k : ℕ}

/-- Without the slashes behind it, the name ends in its last component, so in no slash. -/
theorem Parts.not_slash_end (h : Parts name pre comp k) : ¬[slash] <:+ pre ++ comp := by
  rintro ⟨x, hx⟩
  have hlast : (pre ++ comp).getLast? = some slash := by
    rw [← hx]
    exact List.getLast?_concat
  rw [List.getLast?_append_of_ne_nil _ h.ne] at hlast
  exact h.noSlash (List.mem_of_getLast? hlast)

theorem Parts.lastName (h : Parts name pre comp k) : lastName name = comp := by
  obtain ⟨rfl, hne, hno, hpre⟩ := h
  have hstrip : ∀ n, (pre ++ comp ++ List.replicate n slash).rdropWhile (· = slash) = pre ++ comp := by
    intro n
    induction n with
    | zero =>
      simp only [List.replicate_zero, List.append_nil, List.rdropWhile_eq_self_iff, decide_eq_true_eq]
      intro hl heq
      rw [List.getLast_append_of_ne_nil _ hne] at heq
      exact hno (heq ▸ List.getLast_mem hne)
    | succ n ih =>
      rw [List.replicate_succ', ← List.append_assoc, List.rdropWhile_concat_pos _ _ _ (by simp)]
      exact ih
  have htake : ∀ c : List Byte, slash ∉ c → (pre ++ c).rtakeWhile (· ≠ slash) = c := by
    intro c
    induction c using List.reverseRecOn with
    | nil =>
      intro _
      rcases hpre with rfl | ⟨x, rfl⟩ <;> simp
    | append_singleton c b ih =>
      intro hc
      simp only [List.mem_append, List.mem_singleton, not_or] at hc
      rw [← List.append_assoc, List.rtakeWhile_concat_pos _ _ _ (by simpa using Ne.symm hc.2), ih hc.1]
  rw [Coreutils.lastName, hstrip, htake comp hno]

theorem lastName_replicate (k : ℕ) : lastName (List.replicate k slash) = [] := by
  have h : (List.replicate k slash).rdropWhile (· = slash) = [] := by
    simp [List.rdropWhile_eq_nil_iff]
  simp [lastName, h]

/-! ## `last_component` -/

theorem lastComponentFrom_replicate (base : List Byte) (b : Bool) (k : ℕ) :
    lastComponentFrom base b (List.replicate k slash) = base := by
  induction k generalizing b with
  | zero => rfl
  | succ k ih => simp [List.replicate_succ, lastComponentFrom, ih]

theorem lastComponentFrom_append {base c : List Byte} (hc : slash ∉ c) (r : List Byte) :
    lastComponentFrom base false (c ++ r) = lastComponentFrom base false r := by
  induction c with
  | nil => rfl
  | cons b c ih =>
    simp only [List.mem_cons, not_or] at hc
    simp [lastComponentFrom, Ne.symm hc.1, ih hc.2]

theorem lastComponentFrom_slash (base : List Byte) (b : Bool) (x q : List Byte) :
    ∃ base', lastComponentFrom base b (x ++ slash :: q) = lastComponentFrom base' true q := by
  induction x generalizing base b with
  | nil => exact ⟨base, by simp [lastComponentFrom]⟩
  | cons c x ih =>
    rw [List.cons_append, lastComponentFrom]
    split
    · exact ih _ _
    · split
      · exact ih _ _
      · exact ih _ _

/-- Behind a slash, or at the start, the last component is found. -/
theorem Parts.lastComponent (h : Parts name pre comp k) :
    lastComponent name = comp ++ List.replicate k slash := by
  obtain ⟨rfl, hne, hno, hpre⟩ := h
  obtain ⟨c, comp, rfl⟩ := List.exists_cons_of_ne_nil hne
  simp only [List.mem_cons, not_or] at hno
  have hc := Ne.symm hno.1
  have hdrop : (c :: comp ++ List.replicate k slash).dropWhile (· = slash) = c :: comp ++ List.replicate k slash := by
    simp [hc]
  have hstart : lastComponentFrom (c :: comp ++ List.replicate k slash) false
      (c :: comp ++ List.replicate k slash) = c :: comp ++ List.replicate k slash := by
    rw [lastComponentFrom_append (by simp [hno.1, hno.2]), lastComponentFrom_replicate]
  rcases hpre with rfl | ⟨x, rfl⟩
  · simp only [List.nil_append, Coreutils.lastComponent, hdrop, hstart]
  · have hassoc : x ++ [slash] ++ c :: comp ++ List.replicate k slash
        = x ++ slash :: (c :: comp ++ List.replicate k slash) := by simp
    rw [hassoc, Coreutils.lastComponent]
    by_cases hx : ∀ b ∈ x, b = slash
    · have hskip : (x ++ slash :: (c :: comp ++ List.replicate k slash)).dropWhile (· = slash)
          = c :: comp ++ List.replicate k slash := by
        rw [List.dropWhile_append_of_pos (by simpa using hx), List.dropWhile_cons_of_pos (by simp), hdrop]
      simp only [hskip, hstart]
    · have hkeep : (x ++ slash :: (c :: comp ++ List.replicate k slash)).dropWhile (· = slash)
          = x.dropWhile (· = slash) ++ slash :: (c :: comp ++ List.replicate k slash) := by
        rw [List.dropWhile_append]
        simp [hx]
      obtain ⟨base', hbase'⟩ := lastComponentFrom_slash
        (x.dropWhile (· = slash) ++ slash :: (c :: comp ++ List.replicate k slash)) false
        (x.dropWhile (· = slash)) (c :: comp ++ List.replicate k slash)
      simp only [hkeep, hbase']
      rw [List.cons_append, lastComponentFrom, if_neg hc, if_pos rfl, lastComponentFrom_append hno.2,
        lastComponentFrom_replicate]

theorem lastComponent_replicate (k : ℕ) : lastComponent (List.replicate k slash) = [] := by
  have h : (List.replicate k slash).dropWhile (· = slash) = [] := by simp
  simp [lastComponent, h, lastComponentFrom]

/-! ## `strip_trailing_slashes` -/

theorem baseLenFrom_append {c r : List Byte} (hne : c ≠ []) (hno : slash ∉ c) (n : ℕ) :
    baseLenFrom (c ++ List.replicate n slash ++ r) (c.length + n) = c.length := by
  have hpos : 0 < c.length := List.length_pos_iff.mpr hne
  induction n generalizing r with
  | zero =>
    have hlast : (c ++ r)[c.length - 1]? ≠ some slash := by
      rw [List.getElem?_append_left (by omega)]
      intro h
      exact hno (List.mem_of_getElem? h)
    match hlen : c.length, hpos with
    | 1, _ => rfl
    | m + 2, _ =>
      rw [hlen] at hlast
      simp only [Nat.reduceSubDiff] at hlast
      simp [baseLenFrom, hlast]
  | succ n ih =>
    have hslash : (c ++ List.replicate (n + 1) slash ++ r)[c.length + n]? = some slash := by
      rw [List.append_assoc, List.getElem?_append_right (by omega), List.getElem?_append_left (by simp)]
      simp
    have hrest : c ++ List.replicate (n + 1) slash ++ r = c ++ List.replicate n slash ++ (slash :: r) := by
      simp [List.replicate_succ']
    obtain ⟨m, hm⟩ : ∃ m, c.length + n = m + 1 := ⟨c.length + n - 1, by omega⟩
    rw [show c.length + (n + 1) = m + 2 by omega, baseLenFrom, ← hm, if_pos hslash, hrest]
    exact ih

theorem Parts.strip (h : Parts name pre comp k) : (stripTrailingSlashes name).2 = pre ++ comp := by
  have hbase := h.lastComponent
  have hne : comp ++ List.replicate k slash ≠ [] := by simp [h.ne]
  have hlen : baseLen (comp ++ List.replicate k slash) = comp.length := by
    have := baseLenFrom_append (r := []) h.ne h.noSlash k
    simpa [baseLen] using this
  simp only [stripTrailingSlashes, hbase, if_neg hne, hlen]
  have htake : name.length - (comp ++ List.replicate k slash).length + comp.length = (pre ++ comp).length := by
    rw [h.eq]
    simp only [List.length_append]
    omega
  rw [htake, h.eq, List.take_left]

theorem strip_replicate (k : ℕ) : (stripTrailingSlashes (List.replicate k slash)).2 = List.replicate (min k 1) slash := by
  have hlen : ∀ n, baseLenFrom (List.replicate k slash) n = min n 1 ∨ k < n := by
    intro n
    induction n using baseLenFrom.induct (List.replicate k slash) with
    | case1 => exact .inl rfl
    | case2 => exact .inl rfl
    | case3 n h ih =>
      by_cases hk : k < n + 2
      · exact .inr hk
      · left
        rw [baseLenFrom, if_pos h]
        rcases ih with ih | ih
        · rw [ih]
          omega
        · omega
    | case4 n h =>
      right
      have hout : ¬ n + 1 < k := fun hlt => h (by simp [hlt])
      omega
  have hbase : baseLen (List.replicate k slash) = min k 1 := by
    rcases hlen k with h | h
    · simpa [baseLen] using h
    · exact absurd h (Nat.lt_irrefl k)
  simp [stripTrailingSlashes, lastComponent_replicate, hbase, List.take_replicate]

end

/-- With the slashes at its end stripped, the last component of a name is found. -/
theorem lastComponent_strip (name : List Byte) : lastComponent (stripTrailingSlashes name).2 = lastName name := by
  rcases exists_parts name with ⟨k, rfl⟩ | ⟨pre, comp, k, h⟩
  · rw [strip_replicate, lastComponent_replicate, lastName_replicate]
  · have hcomp : Parts (pre ++ comp) pre comp 0 := ⟨by simp, h.ne, h.noSlash, h.pre⟩
    rw [h.strip, h.lastName, hcomp.lastComponent]
    simp

/-- On names without a slash. -/
theorem dotOrDotdot_iff {name : List Byte} (h : slash ∉ name) :
    dotOrDotdot name = true ↔ name = [dot] ∨ name = [dot, dot] := by
  match name with
  | [] => simp [dotOrDotdot]
  | [a] => simp [dotOrDotdot]
  | [a, b] =>
    by_cases hb : b = dot
    · simp [dotOrDotdot, hb]
    · simp only [List.mem_cons, not_or] at h
      simp [dotOrDotdot, hb, Ne.symm h.2.1]
  | a :: b :: c :: name =>
    simp only [List.mem_cons, not_or] at h
    by_cases hb : b = dot
    · simp [dotOrDotdot, hb, Ne.symm h.2.2.1]
    · simp [dotOrDotdot, hb, Ne.symm h.2.1]

end CodingExercises.Coreutils
