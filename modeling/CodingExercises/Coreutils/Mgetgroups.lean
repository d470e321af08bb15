import Mathlib.Data.List.Destutter
import Mathlib.Logic.Function.Basic

/-!
# mgetgroups: the list of groups

The pass at the end of `mgetgroups` in `lib/mgetgroups.c` that reduces the number of duplicates, in place. It leaves out what is
the first group or the one before it in the list (`mgetgroups_reduce`), and more it does not promise.
-/

namespace CodingExercises.Coreutils.Mgetgroups

variable {Gid : Type} [DecidableEq Gid]

/-- The array, the index `g` of the last group that is kept, the number of groups, and what was written: each index with that of
`next`. -/
structure Groups (Gid : Type) where
  array : ℕ → Gid
  g : ℕ
  ng : ℕ
  writes : List (ℕ × ℕ)

/-- The body of the loop. -/
def reduceStep (first : Gid) (next : ℕ) (s : Groups Gid) : Groups Gid :=
  if s.array next = first ∨ s.array next = s.array s.g then { s with ng := s.ng - 1 }
  else
    { s with
      array := Function.update s.array (s.g + 1) (s.array next)
      g := s.g + 1
      writes := (s.g + 1, next) :: s.writes }

/-- The loop, `k` turns from the end of the groups. -/
def reduceLoop (first : Gid) : ℕ → ℕ → Groups Gid → Groups Gid
  | 0, _, s => s
  | k + 1, next, s => reduceLoop first k (next + 1) (reduceStep first next s)

/-- The pass of `mgetgroups` over `ng` groups. -/
def reduce (array : ℕ → Gid) (ng : ℕ) : Groups Gid :=
  if ng > 1 then reduceLoop (array 0) (ng - 1) 1 ⟨array, 0, ng, []⟩ else ⟨array, 0, ng, []⟩

section

variable {Gid : Type} {array : ℕ → Gid} {n i : ℕ}

/-- The first groups of an array. -/
def groups (array : ℕ → Gid) (n : ℕ) : List Gid := (List.range n).map array

/-- The groups from `next` on. -/
def behind (array : ℕ → Gid) (next k : ℕ) : List Gid := (List.range' next k).map array

theorem groups_succ : groups array (n + 1) = groups array n ++ [array n] := by
  rw [groups, List.range_succ, List.map_append, List.map_singleton, groups]

theorem groups_update (x : Gid) (h : n ≤ i) : groups (Function.update array i x) n = groups array n := by
  refine List.map_congr_left ?_
  intro j hj
  have hlt := List.mem_range.mp hj
  exact Function.update_of_ne (by omega) _ _

theorem behind_update {next k : ℕ} (x : Gid) (h : i < next) :
    behind (Function.update array i x) next k = behind array next k := by
  refine List.map_congr_left ?_
  intro j hj
  have hle := (List.mem_range'_1.mp hj).1
  exact Function.update_of_ne (by omega) _ _

end

/-! ## The loop -/

variable {first : Gid} {s : Groups Gid} {next k : ℕ}

/-- What is not the first group, without neighbours that are equal, and in front of it the last group so far. -/
def kept (first last : Gid) (l : List Gid) : List Gid := (l.filter (· ≠ first)).destutter' (· ≠ ·) last

theorem kept_first {last : Gid} {l : List Gid} : kept first last (first :: l) = kept first last l := by
  rw [kept, List.filter_cons_of_neg (by simp), kept]

theorem kept_last {last : Gid} {l : List Gid} : kept first last (last :: l) = kept first last l := by
  by_cases h : last = first
  · rw [h, kept_first]
  · rw [kept, List.filter_cons_of_pos (by simpa using h), List.destutter'_cons_neg _ (by simp), kept]

theorem kept_other {last x : Gid} {l : List Gid} (hfirst : x ≠ first) (hlast : x ≠ last) :
    kept first last (x :: l) = last :: kept first x l := by
  rw [kept, List.filter_cons_of_pos (by simpa using hfirst), List.destutter'_cons_pos _ hlast.symm, kept]

/-- The loop puts behind the groups that are kept what is kept of those behind, and writes no further than it has read. -/
theorem reduceLoop_spec (hg : s.g < next) (hng : s.ng = s.g + 1 + k) (hwrites : ∀ w ∈ s.writes, w.1 ≤ w.2) :
    groups (reduceLoop first k next s).array (reduceLoop first k next s).ng =
        groups s.array s.g ++ kept first (s.array s.g) (behind s.array next k) ∧
      ∀ w ∈ (reduceLoop first k next s).writes, w.1 ≤ w.2 := by
  induction k generalizing next s with
  | zero =>
    refine ⟨?_, hwrites⟩
    rw [reduceLoop, hng]
    exact groups_succ
  | succ k ih =>
    have hbehind : behind s.array next (k + 1) = s.array next :: behind s.array (next + 1) k := rfl
    rw [reduceLoop, hbehind, reduceStep]
    by_cases hleaves : s.array next = first ∨ s.array next = s.array s.g
    · have hkept : kept first (s.array s.g) (s.array next :: behind s.array (next + 1) k) =
          kept first (s.array s.g) (behind s.array (next + 1) k) := by
        rcases hleaves with hfirst | hlast
        · rw [hfirst, kept_first]
        · rw [hlast, kept_last]
      rw [if_pos hleaves, hkept]
      exact ih (s := { s with ng := s.ng - 1 }) (Nat.lt_succ_of_lt hg) (by simp only; omega) hwrites
    · obtain ⟨hfirst, hlast⟩ := not_or.mp hleaves
      rw [if_neg hleaves, kept_other hfirst hlast]
      have hwrites' : ∀ w ∈ (s.g + 1, next) :: s.writes, w.1 ≤ w.2 := List.forall_mem_cons.mpr ⟨hg, hwrites⟩
      have hg' : s.g + 1 < next + 1 := Nat.succ_lt_succ hg
      obtain ⟨hgroups, hall⟩ := ih (s := ⟨Function.update s.array (s.g + 1) (s.array next), s.g + 1, s.ng,
        (s.g + 1, next) :: s.writes⟩) hg' (by simp only; omega) hwrites'
      refine ⟨hgroups.trans ?_, hall⟩
      dsimp only
      rw [groups_update _ le_rfl, groups_succ, Function.update_self, behind_update _ (by omega), List.append_assoc]
      rfl

theorem mem_destutter' {a x : Gid} {l : List Gid} : x ∈ l.destutter' (· ≠ ·) a ↔ x = a ∨ x ∈ l := by
  induction l generalizing a with
  | nil => simp
  | cons b l ih =>
    by_cases h : a = b
    · rw [List.destutter'_cons_neg _ (by simpa using h), ih, List.mem_cons, h]
      tauto
    · rw [List.destutter'_cons_pos _ h, List.mem_cons, ih, List.mem_cons]

theorem destutter'_eq_cons (a : Gid) (l : List Gid) : ∃ t, l.destutter' (· ≠ ·) a = a :: t ∧ t.Sublist l := by
  induction l generalizing a with
  | nil => exact ⟨[], rfl, .slnil⟩
  | cons b l ih =>
    by_cases h : a = b
    · obtain ⟨t, ht, hsub⟩ := ih a
      refine ⟨t, ?_, hsub.cons b⟩
      rw [List.destutter'_cons_neg _ (by simpa using h), ht]
    · obtain ⟨t, ht, hsub⟩ := ih b
      refine ⟨b :: t, ?_, hsub.cons_cons b⟩
      rw [List.destutter'_cons_pos _ h, ht]

/-- The groups that `mgetgroups` returns are the first one and then what is not the first, each once where it comes several times
in a row: the same groups in the same order. -/
theorem mgetgroups_reduce (array : ℕ → Gid) (ng : ℕ) (h : 1 < ng) :
    ∃ l, groups (reduce array ng).array (reduce array ng).ng = l ∧
      l = (array 0 :: (behind array 1 (ng - 1)).filter (· ≠ array 0)).destutter (· ≠ ·) ∧
      l.Sublist (groups array ng) ∧ (∀ x, x ∈ l ↔ x ∈ groups array ng) ∧ l.head? = some (array 0) ∧
      l.IsChain (· ≠ ·) ∧ array 0 ∉ l.tail ∧
      ∀ w ∈ (reduce array ng).writes, w.1 ≤ w.2 := by
  have hall : groups array ng = array 0 :: behind array 1 (ng - 1) := by
    obtain ⟨n, rfl⟩ : ∃ n, ng = n + 1 := ⟨ng - 1, by omega⟩
    rw [groups, List.range_eq_range', List.range'_succ, List.map_cons, behind, Nat.zero_add, Nat.add_sub_cancel]
  obtain ⟨hgroups, hwrites⟩ :
      groups (reduce array ng).array (reduce array ng).ng = kept (array 0) (array 0) (behind array 1 (ng - 1)) ∧
        ∀ w ∈ (reduce array ng).writes, w.1 ≤ w.2 := by
    rw [reduce, if_pos h]
    exact reduceLoop_spec Nat.zero_lt_one (by simp only; omega) (by simp)
  obtain ⟨t, ht, hsub⟩ := destutter'_eq_cons (array 0) ((behind array 1 (ng - 1)).filter (· ≠ array 0))
  rw [kept, ht] at hgroups
  refine ⟨array 0 :: t, hgroups, ht.symm, ?_, ?_, rfl, ?_, ?_, hwrites⟩
  · rw [hall]
    exact (hsub.trans List.filter_sublist).cons_cons _
  · intro x
    rw [← ht, mem_destutter', hall, List.mem_cons, List.mem_filter]
    by_cases hx : x = array 0 <;> simp [hx]
  · rw [← ht]
    exact List.isChain_destutter' _ _ _
  · intro hmem
    have hne := List.of_mem_filter (hsub.subset hmem)
    simp at hne

theorem mgetgroups_reduce_six : ∃ l, groups (reduce (fun i => [5, 5, 3, 3, 5, 3].getD i 0) 6).array
    (reduce (fun i => [5, 5, 3, 3, 5, 3].getD i 0) 6).ng = l ∧ l = [5, 3] := by
  obtain ⟨l, hl, hspec, -⟩ := mgetgroups_reduce (fun i => [5, 5, 3, 3, 5, 3].getD i 0) 6 (by decide)
  exact ⟨l, hl, hspec.trans (by decide)⟩

end CodingExercises.Coreutils.Mgetgroups
