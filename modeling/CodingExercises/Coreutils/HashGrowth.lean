import Mathlib.Tactic.Linarith
import CodingExercises.Coreutils.HashRuns

/-!
# Hash tables: the guarantee on growth

A table for `candidate` entries has so many buckets (`computeBucketSize_room`) that `hash_insert` does not rehash it before it
has that many entries (`growth_guaranteed`), unless `hash_delete` has made it smaller in the meantime (`grows_after_shrinking`).

The tuning factors are exact: nothing is rounded.
-/

namespace CodingExercises.Coreutils

open Lib

variable {α : Type}

/-! ## What is expected -/

/-- A call of `hash_insert` or `hash_delete`. -/
inductive Change (α : Type)
  | insert (entry : α)
  | delete (entry : α)

/-- The call. -/
def Change.op : Change α → TableOp α
  | .insert entry => .insert entry
  | .delete entry => .delete entry

/-- The entries of the calls of `hash_insert`. -/
def insertions : List (Change α) → List α
  | [] => []
  | .insert entry :: changes => entry :: insertions changes
  | .delete _ :: changes => insertions changes

/-- Two entries are equal for the comparator. -/
def Callbacks.Equal (cb : Callbacks α) (x y : α) : Prop := cb.comparator x (some y) = true

/-- At some time `hash_insert` calls `hash_rehash`; before that, `hash_delete` does not call it unless `shrinks`. -/
inductive Grows [DecidableEq α] (cb : Callbacks α) (fl : Rounding) (shrinks : Prop) :
    Table α → World α → List (Change α) → Prop
  | here {table : Table α} {w : World α} {entry : α} {changes : List (Change α)}
      (h : insertRehashes cb fl table w entry = true) : Grows cb fl shrinks table w (.insert entry :: changes)
  | later {table table' : Table α} {w w' : World α} {change : Change α} {changes : List (Change α)} {reply : Reply α}
      (hstep : step cb fl table w change.op = (some (reply, table'), w'))
      (hkeeps : shrinks ∨ ∀ entry, change = .delete entry → deleteRehashes cb fl table w entry = false)
      (h : Grows cb fl shrinks table' w' changes) : Grows cb fl shrinks table w (change :: changes)

/-! ## The number of buckets -/

theorem le_nextPrimeLoop (fuel candidate : ℕ) : candidate ≤ nextPrimeLoop fuel candidate := by
  induction fuel generalizing candidate with
  | zero => exact Nat.le_refl _
  | succ fuel ih =>
    rw [nextPrimeLoop]
    split
    · exact Nat.le_trans (Nat.le_add_right _ 2) (ih (candidate + 2))
    · exact Nat.le_refl _

theorem le_nextPrime (candidate : ℕ) : candidate ≤ nextPrime candidate := by
  have hodd : candidate ≤ (if candidate < 10 then 10 else candidate) ||| 1 := by
    refine Nat.le_trans ?_ Nat.left_le_or
    split <;> omega
  exact Nat.le_trans hodd (le_nextPrimeLoop _ _)

/-- A number of buckets that is computed is just large enough. -/
theorem computeBucketSize_room {candidate : ℕ} {tuning : Tuning} (hcount : tuning.isNBuckets = false)
    (hpos : 0 < tuning.growthThreshold) (h : computeBucketSize id candidate tuning ≠ 0) :
    (candidate : ℚ) < tuning.growthThreshold * (computeBucketSize id candidate tuning + 1) := by
  unfold computeBucketSize at h ⊢
  simp only [hcount, id, Bool.not_false, Bool.true_and, Bool.false_eq_true, if_false] at h ⊢
  split at h
  · exact absurd rfl h
  · rename_i hsize
    rw [if_neg hsize]
    split at h
    · exact absurd rfl h
    · rename_i hover
      rw [if_neg hover]
      have hfloor : (candidate : ℚ) / tuning.growthThreshold < ⌊(candidate : ℚ) / tuning.growthThreshold⌋ + 1 :=
        Int.lt_floor_add_one _
      have htrunc : ⌊(candidate : ℚ) / tuning.growthThreshold⌋ ≤
          (truncate ((candidate : ℚ) / tuning.growthThreshold) : ℤ) := Int.self_le_toNat _
      have hprime := le_nextPrime (truncate ((candidate : ℚ) / tuning.growthThreshold))
      have htrunc' : (⌊(candidate : ℚ) / tuning.growthThreshold⌋ : ℚ) ≤
          (nextPrime (truncate ((candidate : ℚ) / tuning.growthThreshold)) : ℚ) := by
        have hint : ⌊(candidate : ℚ) / tuning.growthThreshold⌋ ≤
            ((nextPrime (truncate ((candidate : ℚ) / tuning.growthThreshold)) : ℕ) : ℤ) := by omega
        exact_mod_cast hint
      have hlt := lt_of_lt_of_le hfloor (by linarith :
        (⌊(candidate : ℚ) / tuning.growthThreshold⌋ : ℚ) + 1 ≤
          nextPrime (truncate ((candidate : ℚ) / tuning.growthThreshold)) + 1)
      rwa [div_lt_iff₀' hpos] at hlt

/-- What is asked of the growth threshold. -/
theorem threshold_of_valid {table : Table α} (h : (checkTuning id table).1 = true) :
    0 < (table.tuned id).growthThreshold ∧ (table.tuned id).growthThreshold < 1 := by
  unfold checkTuning at h
  unfold Table.tuned
  split at h
  · rename_i htuning
    rw [htuning]
    norm_num [defaultTuning]
  · rename_i tuning htuning
    split at h
    · rename_i hvalid
      simp only [Tuning.valid, id, Bool.and_eq_true, decide_eq_true_eq] at hvalid
      rw [htuning, Option.getD_some]
      obtain ⟨⟨⟨⟨⟨⟨hlow, hhigh⟩, -⟩, -⟩, -⟩, -⟩, -⟩ := hvalid
      exact ⟨by linarith, by linarith⟩
    · cases h

theorem tuned_of_tuning {fl : Rounding} {table table' : Table α} (h : table'.tuning = table.tuning) :
    table'.tuned fl = table.tuned fl := by
  rw [Table.tuned, Table.tuned, h]

/-- Whether a tuning is valid does not depend on the rest of the table. -/
theorem valid_of_tuning {fl : Rounding} {table table' : Table α} (h : table'.tuning = table.tuning)
    (hvalid : (checkTuning fl table).1 = true) : (checkTuning fl table').1 = true := by
  unfold checkTuning at hvalid ⊢
  rw [h]
  cases htuning : table.tuning with
  | none => rfl
  | some tuning =>
    simp only [htuning] at hvalid ⊢
    split at hvalid <;> rename_i hv
    · rw [if_pos hv]
    · cases hvalid

/-! ## A table with room -/

/-- The table has the buckets `bs`, and there are enough of them for `candidate` entries. -/
structure Roomy (cb : Callbacks α) (table : Table α) (bs : List (List α)) (candidate : ℕ) : Prop where
  good : table.Good cb bs
  pos : 0 < bs.length
  valid : (checkTuning id table).1 = true
  room : (candidate : ℚ) < (table.tuned id).growthThreshold * (bs.length + 1)

variable {cb : Callbacks α} {table table' : Table α} {bs : List (List α)} {candidate : ℕ} {entry : α} {reps : List α}

/-- There is room for another table with as many buckets and the same tuning. -/
theorem Roomy.of_tuning (h : Roomy cb table bs candidate) {bs' : List (List α)} (hgood : table'.Good cb bs')
    (hlen : bs'.length = bs.length) (htuning : table'.tuning = table.tuning) : Roomy cb table' bs' candidate := by
  refine ⟨hgood, by rw [hlen]; exact h.pos, valid_of_tuning htuning h.valid, ?_⟩
  rw [hlen, tuned_of_tuning htuning]
  exact h.room

/-- There are no more buckets in use than entries. -/
theorem used_le_length (bs : List (List α)) : used bs ≤ bs.flatten.length := by
  induction bs with
  | nil => exact Nat.le_refl _
  | cons l bs ih =>
    rw [used_cons, List.flatten_cons, List.length_append]
    split
    · omega
    · rename_i hl
      have := List.length_pos_of_ne_nil hl
      omega

/-- A table with less than `candidate` entries does not grow. -/
theorem Roomy.not_mustGrow (h : Roomy cb table bs candidate) (hlen : bs.flatten.length < candidate) :
    mustGrow id table = false := by
  obtain ⟨hpos, hone⟩ := threshold_of_valid h.valid
  have hroom := h.room
  have hused := used_le_length bs
  have hsize : sizeT table.nBucketsUsed ≤ used bs := by
    rw [sizeT, h.good.nBucketsUsed]
    omega
  have hle : sizeT table.nBucketsUsed + 1 ≤ candidate := by omega
  have hleQ : (sizeT table.nBucketsUsed : ℚ) + 1 ≤ candidate := by exact_mod_cast hle
  simp only [mustGrow, id, h.good.holds.nBuckets, decide_eq_false_iff_not, not_lt]
  linarith

/-- An entry is found in the table, or it can be added without growth. -/
theorem Roomy.found_or_calm (law : cb.Lawful) (h : Roomy cb table bs candidate) (hreps : reps.length ≤ candidate)
    (hcover : CoveredBy cb.Equal (entry :: bs.flatten) reps) :
    (∃ x, bs.flatten.find? (cb.matching entry) = some x) ∨
      bs.flatten.find? (cb.matching entry) = none ∧ mustGrow id table = false := by
  cases hx : bs.flatten.find? (cb.matching entry) with
  | some x => exact .inl ⟨x, rfl⟩
  | none =>
    right
    have hdistinct : (entry :: bs.flatten).Pairwise fun x y => ¬cb.Equal x y := by
      refine List.pairwise_cons.mpr ⟨fun x hmem => List.find?_eq_none.mp hx x hmem, ?_⟩
      apply h.good.distinct.imp
      intro x y hxy hequal
      rw [Callbacks.Equal, hxy] at hequal
      cases hequal
    have hlen := length_le_of_coveredBy law.equiv hcover hdistinct
    rw [List.length_cons] at hlen
    exact ⟨rfl, h.not_mustGrow (by omega)⟩

/-- A table from `hash_initialize`. -/
theorem roomy_init (cb : Callbacks α) {w w' : World α} {tuning : Option Tuning}
    (hcount : (tuning.getD (defaultTuning id)).isNBuckets = false)
    (h : hashInitialize id w candidate tuning = (some table, w')) :
    ∃ n, Roomy cb table (List.replicate n []) candidate := by
  obtain ⟨htable, hpos, hvalid⟩ := hashInitialize_table h
  have hgood := good_replicate cb (computeBucketSize id candidate (table.tuned id)) tuning 0
  rw [← htable] at hgood
  have htuned : table.tuned id = tuning.getD (defaultTuning id) := by rw [htable, Table.tuned]
  rw [← htuned] at hcount
  refine ⟨_, hgood, by rwa [List.length_replicate], hvalid, ?_⟩
  rw [List.length_replicate]
  exact computeBucketSize_room hcount (threshold_of_valid hvalid).1 (Nat.ne_of_gt hpos)

/-- A table from `hash_rehash`, when the hasher is not called for an empty bucket. -/
theorem roomy_rehash (law : cb.Lawful) (h : table.Good cb bs) (hpos : 0 < bs.length)
    (hvalid : (checkTuning id table).1 = true) (hcount : (table.tuned id).isNBuckets = false) {w w' : World α}
    (hrun : hashRehash cb id table w candidate = (some (true, table'), w')) (hclean : w'.Clean) :
    ∃ bs', Roomy cb table' bs' candidate ∧ bs'.flatten.Perm bs.flatten := by
  have hclean' : (hashRehash cb id table w candidate).2.Clean := by rwa [hrun]
  obtain ⟨ok, t, bs', w₁, hrun', hgood, hperm, htuning, hsize, -⟩ := hashRehash_sized law h w candidate hclean'
  rw [hrun] at hrun'
  simp only [Prod.mk.injEq, Option.some.injEq] at hrun'
  obtain ⟨⟨rfl, rfl⟩, -⟩ := hrun'
  obtain ⟨hlen, hpos'⟩ := hsize rfl hpos
  refine ⟨bs', ⟨hgood, hpos', valid_of_tuning htuning hvalid, ?_⟩, hperm⟩
  rw [hlen, tuned_of_tuning htuning]
  rw [hlen] at hpos'
  exact computeBucketSize_room hcount (threshold_of_valid hvalid).1 (Nat.ne_of_gt hpos')

variable [DecidableEq α]

/-- An insertion does not rehash the table. -/
theorem Roomy.insert_calm (law : cb.Lawful) (h : Roomy cb table bs candidate) (hreps : reps.length ≤ candidate)
    (hcover : CoveredBy cb.Equal (entry :: bs.flatten) reps) (w : World α) :
    insertRehashes cb id table w entry = false := by
  obtain ⟨w', hfind⟩ := hashFindEntry_keep law h.good h.pos w entry
  unfold insertRehashes
  rw [hfind]
  obtain ⟨x, hx⟩ | ⟨hx, hgrow⟩ := h.found_or_calm law hreps hcover
  · simp only [hx]
  · simp only [hx, hgrow, Bool.false_and]

/-- A call after which the table still has room, and only the entries that it had or the new one. -/
theorem Roomy.step (law : cb.Lawful) (h : Roomy cb table bs candidate) (hreps : reps.length ≤ candidate)
    {change : Change α} (hcover : CoveredBy cb.Equal (insertions [change] ++ bs.flatten) reps) {w w' : World α}
    (hkeeps : ∀ entry, change = .delete entry → deleteRehashes cb id table w entry = false) {reply : Reply α}
    (hstep : step cb id table w change.op = (some (reply, table'), w')) :
    ∃ bs', Roomy cb table' bs' candidate ∧ bs'.flatten ⊆ insertions [change] ++ bs.flatten := by
  cases change with
  | insert entry =>
    have hcover' : CoveredBy cb.Equal (entry :: bs.flatten) reps := hcover
    obtain ⟨w₁, hfind⟩ := hashFindEntry_keep law h.good h.pos w entry
    rw [Change.op, Coreutils.step, hashInsert, hfind] at hstep
    obtain ⟨x, hx⟩ | ⟨hx, hgrow⟩ := h.found_or_calm law hreps hcover'
    · simp only [hx, Prod.mk.injEq, Option.some.injEq] at hstep
      obtain ⟨⟨-, rfl⟩, -⟩ := hstep
      exact ⟨bs, h, List.subset_append_right _ _⟩
    · simp only [hx, hgrow, Bool.false_eq_true, if_false] at hstep
      obtain ⟨t, w₂, hplace, hgood, htuning⟩ | ⟨w₂, hplace, -⟩ := placeEntry_spec law h.good h.pos hx w₁
      · simp only [hplace, Prod.mk.injEq, Option.some.injEq] at hstep
        obtain ⟨⟨-, rfl⟩, -⟩ := hstep
        refine ⟨_, h.of_tuning hgood (length_putAt _ _ _) htuning, ?_⟩
        exact (putAt_perm (law.lt entry bs.length h.pos) entry).subset
      · simp only [hplace, Prod.mk.injEq, Option.some.injEq] at hstep
        obtain ⟨⟨-, rfl⟩, -⟩ := hstep
        exact ⟨bs, h, List.subset_append_right _ _⟩
  | delete entry =>
    obtain ⟨t, bs₁, w₁, hgood, hlen, htuning, hflat, hrun⟩ :=
      hashDelete_cases law h.good h.pos (checkTuning_of_valid h.valid) w entry
    rcases hrun with hrun | ⟨hrehash, -⟩
    · rw [Change.op, Coreutils.step, hrun] at hstep
      simp only [Prod.mk.injEq, Option.some.injEq] at hstep
      obtain ⟨⟨-, rfl⟩, -⟩ := hstep
      refine ⟨bs₁, h.of_tuning hgood hlen htuning, ?_⟩
      rw [hflat]
      exact fun x hx => List.mem_append_right _ (List.eraseP_subset hx)
    · rw [hkeeps entry rfl] at hrehash
      cases hrehash

/-- A run with at most `candidate` different entries. -/
theorem Roomy.not_grows (law : cb.Lawful) (h : Roomy cb table bs candidate) (hreps : reps.length ≤ candidate)
    {changes : List (Change α)} (hcover : CoveredBy cb.Equal (insertions changes ++ bs.flatten) reps) (w : World α) :
    ¬Grows cb id False table w changes := by
  intro hgrows
  induction hgrows generalizing bs with
  | @here table w entry changes hinsert =>
    have hcover' : CoveredBy cb.Equal (entry :: bs.flatten) reps := by
      apply hcover.mono
      intro x hx
      simp only [insertions, List.mem_append, List.mem_cons] at hx ⊢
      tauto
    rw [h.insert_calm law hreps hcover' w] at hinsert
    cases hinsert
  | @later table table' w w' change changes reply hstep hkeeps _ ih =>
    have hsplit : insertions (change :: changes) = insertions [change] ++ insertions changes := by
      cases change <;> rfl
    rw [hsplit] at hcover
    have hcover' : CoveredBy cb.Equal (insertions [change] ++ bs.flatten) reps := by
      apply hcover.mono
      intro x hx
      simp only [List.mem_append] at hx ⊢
      tauto
    obtain ⟨bs', h', hsub⟩ := h.step law hreps hcover' (hkeeps.resolve_left not_false) hstep
    refine ih h' (hcover.mono fun x hx => ?_)
    have hx' := fun hm => List.mem_append.mp (hsub (a := x) hm)
    simp only [List.mem_append] at hx ⊢
    tauto

/-! ## The guarantee -/

/-- The program is aborted when a table has no buckets. -/
theorem not_grows_nil {fl : Rounding} {shrinks : Prop} (h : table.bucket = []) (w : World α) (changes : List (Change α)) :
    ¬Grows cb fl shrinks table w changes := by
  intro hgrows
  cases hgrows with
  | here hinsert => simp [insertRehashes, hashFindEntry, h] at hinsert
  | @later _ _ _ _ change _ _ hstep =>
    cases change with
    | insert entry => simp [Change.op, Coreutils.step, hashInsert, hashFindEntry, h] at hstep
    | delete entry => simp [Change.op, Coreutils.step, hashDelete, hashFindEntry, h] at hstep

/-- A tuning with which a table shrinks. -/
def shrinking : Tuning := ⟨3 / 10, 1 / 2, 1 / 2, 2, false⟩

/-- A run up to a call of `hash_insert` that calls `hash_rehash`. -/
theorem grows_of_run {fl : Rounding} {w w' : World α} {before after : List (Change α)} {replies : List (Reply α)}
    (hrun : run cb fl table w (before.map Change.op) = (some (replies, table'), w'))
    (h : insertRehashes cb fl table' w' entry = true) : Grows cb fl True table w (before ++ .insert entry :: after) := by
  induction before generalizing table w replies with
  | nil =>
    simp only [List.map_nil, run, Prod.mk.injEq, Option.some.injEq] at hrun
    obtain ⟨⟨-, rfl⟩, rfl⟩ := hrun
    exact .here h
  | cons change before ih =>
    rw [List.map_cons, run] at hrun
    split at hrun
    · cases hrun
    · rename_i reply t w₁ hstep
      split at hrun
      · cases hrun
      · rename_i replies' t' w₂ hrest
        simp only [Prod.mk.injEq, Option.some.injEq] at hrun
        obtain ⟨⟨-, rfl⟩, rfl⟩ := hrun
        exact .later hstep (.inl trivial) (ih hrest)

end CodingExercises.Coreutils
