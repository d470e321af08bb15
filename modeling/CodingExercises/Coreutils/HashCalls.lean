import CodingExercises.Coreutils.HashRuns

/-!
# Hash tables: what the user's functions are called with

A call of `hash_insert` or `hash_delete` for an empty bucket calls the comparator with `NULL`, since the test for an empty
bucket is one for a pointer that is never `NULL`. A new table has empty buckets only, so that a run calls the user's
functions with entries alone exactly if nothing is ever put into the table, and no entry looked for in order to delete it
(`knownRun_iff`).
-/

namespace CodingExercises.Coreutils

open Lib

variable {α : Type}

/-- What a call is given. -/
def Call.args : Call α → List (Option α)
  | .hasher data => [data]
  | .comparator entry data => [some entry, data]
  | .dataFreer data => [data]

/-- The entry that a function is called with. -/
def TableOp.argument : TableOp α → Option α
  | .insert entry => some entry
  | .delete entry => some entry
  | .lookup entry => some entry
  | .getNext entry => some entry
  | .clear => none
  | .rehash _ => none

/-- The user's functions are called with entries of the table and the argument of the function alone. -/
def Known (table : Table α) (argument : Option α) (calls : List (Call α)) : Prop :=
  ∀ c ∈ calls, ∀ data ∈ c.args, ∃ x, data = some x ∧ (x ∈ table.entries ∨ argument = some x)

/-- No call has been recorded yet. -/
def World.start (w : World α) : World α := { w with calls := [] }

/-- In all calls of a run, and when the table is freed after them, the user's functions are called with entries of the
table and the argument of the call alone. -/
def KnownRun [DecidableEq α] (cb : Callbacks α) (fl : Rounding) : Table α → World α → List (TableOp α) → Prop
  | table, w, [] => Known table none (hashFree cb table w.start).calls
  | table, w, op :: ops =>
    Known table op.argument (step cb fl table w.start op).2.calls ∧
      match step cb fl table w.start op with
      | (none, _) => True
      | (some (_, table), w) => KnownRun cb fl table w ops

/-- Nothing is inserted or deleted, and no rehash comes to a table with new buckets. -/
def Quiet (fl : Rounding) (tuning : Tuning) (answers : ℕ → Bool) : ℕ → List (TableOp α) → Prop
  | _, [] => True
  | _, .insert _ :: _ => False
  | _, .delete _ :: _ => False
  | asked, .lookup _ :: ops => Quiet fl tuning answers asked ops
  | asked, .getNext _ :: ops => Quiet fl tuning answers asked ops
  | asked, .clear :: ops => Quiet fl tuning answers asked ops
  | asked, .rehash candidate :: ops =>
    if computeBucketSize fl candidate tuning = 0 then Quiet fl tuning answers asked ops
    else answers asked = false ∧ Quiet fl tuning answers (asked + 1) ops

/-! ## Tables without entries -/

/-- A table without entries. -/
structure Vacant (table : Table α) : Prop where
  bucket : ∃ n, 0 < n ∧ table.bucket = List.replicate n ⟨none, []⟩
  nEntries : table.nEntries = 0

section Vacant

variable {cb : Callbacks α} {fl : Rounding} {table : Table α}

theorem known_nil (table : Table α) (argument : Option α) : Known table argument [] := by
  intro c hc
  cases hc

/-- A call with `NULL`. -/
theorem not_known {argument : Option α} {calls : List (Call α)} {c : Call α} (hc : c ∈ calls) (hnone : none ∈ c.args) :
    ¬ Known table argument calls := by
  intro h
  obtain ⟨x, hx, -⟩ := h c hc none hnone
  cases hx

theorem Vacant.nBuckets_pos (h : Vacant table) : 0 < table.nBuckets := by
  obtain ⟨n, hpos, hbucket⟩ := h.bucket
  rwa [Table.nBuckets, hbucket, List.length_replicate]

theorem Vacant.getElem? (h : Vacant table) (law : cb.Lawful) (entry : α) :
    table.bucket[cb.hasher (some entry) table.nBuckets]? = some ⟨none, []⟩ := by
  obtain ⟨n, hpos, hbucket⟩ := h.bucket
  have hn : table.nBuckets = n := by rw [Table.nBuckets, hbucket, List.length_replicate]
  rw [hn, hbucket, List.getElem?_replicate, if_pos (law.lt entry n hpos)]

/-- The comparator is called with `NULL`. -/
theorem Vacant.find [DecidableEq α] (h : Vacant table) (law : cb.Lawful) (w : World α) (entry : α) (delete : Bool) :
    Call.comparator entry none ∈ (hashFindEntry cb table w entry delete).2.calls := by
  have hne : some entry ≠ none := Option.some_ne_none entry
  have hsame : same cb (w.log (.hasher (some entry))) entry none =
      (cb.comparator entry none, (w.log (.hasher (some entry))).log (.comparator entry none)) := by
    rw [same, if_neg hne]
  unfold hashFindEntry
  dsimp only
  rw [h.getElem? law entry]
  dsimp only
  rw [hsame]
  cases cb.comparator entry none <;> cases delete <;> exact List.mem_cons_self

/-- The hasher is called with `NULL`. -/
theorem Vacant.rehash (h : Vacant table) (cb : Callbacks α) {candidate : ℕ}
    (hsize : computeBucketSize fl candidate (table.tuned fl) ≠ 0) (w : World α) (hanswer : w.answers w.asked = true) :
    Call.hasher none ∈ (hashRehash cb fl table w candidate).2.calls := by
  by_contra hclean
  obtain ⟨n, hpos, hbucket⟩ := h.bucket
  have hzero : 0 ≠ table.nBuckets := Nat.ne_of_lt h.nBuckets_pos
  have hfirst := clean_firstPass hclean hsize hzero hanswer
  obtain ⟨m, rfl⟩ := Nat.exists_eq_succ_of_ne_zero (Nat.pos_iff_ne_zero.mp hpos)
  unfold transferEntries at hfirst
  rw [hbucket, List.replicate_succ] at hfirst
  have hloop := not_clean_transferLoop_nil cb (table.next fl candidate) { w with asked := w.asked + 1 }
    (List.replicate m ⟨none, []⟩)
  apply hloop
  split at hfirst <;> rename_i h' <;> rw [ofList, h'] <;> exact hfirst

/-- Without memory for the new buckets, nothing is called. -/
theorem Vacant.rehash_fails (h : Vacant table) (cb : Callbacks α) {candidate : ℕ}
    (hsize : computeBucketSize fl candidate (table.tuned fl) ≠ 0) (w : World α) (hanswer : w.answers w.asked = false) :
    hashRehash cb fl table w candidate = (some (false, table), { w with asked := w.asked + 1 }) := by
  have hmalloc : w.malloc = (false, { w with asked := w.asked + 1 }) := by rw [World.malloc, hanswer]
  have hzero : 0 ≠ table.nBuckets := Nat.ne_of_lt h.nBuckets_pos
  unfold hashRehash
  dsimp only
  rw [if_neg hsize, if_neg hsize, if_neg hzero, hmalloc]

theorem Vacant.lookup [DecidableEq α] (h : Vacant table) (law : cb.Lawful) (w : World α) (entry : α) :
    hashLookup cb table w entry = (some none, w.log (.hasher (some entry))) := by
  unfold hashLookup
  dsimp only
  rw [h.getElem? law entry]
  rfl

theorem Vacant.getNext [DecidableEq α] (h : Vacant table) (law : cb.Lawful) (w : World α) (entry : α) :
    ∃ data, hashGetNext cb table w entry = (some data, w.log (.hasher (some entry))) := by
  unfold hashGetNext
  dsimp only
  rw [h.getElem? law entry]
  exact ⟨_, rfl⟩

theorem Vacant.clear (h : Vacant table) (cb : Callbacks α) (w : World α) :
    ∃ table', hashClear cb table w = (table', w) ∧ Vacant table' ∧ table'.tuning = table.tuning := by
  obtain ⟨n, hpos, hbucket⟩ := h.bucket
  have hloop : ∀ n, clearLoop cb w (List.replicate n ⟨none, []⟩) = ((List.replicate n ⟨none, []⟩, 0), w) := by
    intro n
    induction n with
    | zero => rfl
    | succ n ih =>
      rw [List.replicate_succ, clearLoop]
      simp only [Option.isSome_none, Bool.false_eq_true, if_false, ih]
  unfold hashClear
  rw [hbucket, hloop]
  exact ⟨_, rfl, ⟨⟨n, hpos, rfl⟩, rfl⟩, rfl⟩

theorem known_argument (table : Table α) (entry : α) : Known table (some entry) [.hasher (some entry)] := by
  intro c hc data hdata
  obtain rfl := List.mem_singleton.mp hc
  obtain rfl := List.mem_singleton.mp hdata
  exact ⟨entry, rfl, .inr rfl⟩

theorem Vacant.free (h : Vacant table) (w : World α) : hashFree cb table w = w := by
  have hzero : sizeT table.nEntries = 0 := by
    rw [h.nEntries]
    rfl
  unfold hashFree
  simp [hzero]

/-- A run from a table without entries. -/
theorem Vacant.known_iff_quiet [DecidableEq α] (h : Vacant table) (law : cb.Lawful) (w : World α)
    (ops : List (TableOp α)) :
    KnownRun cb fl table w ops ↔ Quiet fl (table.tuned fl) w.answers w.asked ops := by
  induction ops generalizing table w with
  | nil =>
    rw [KnownRun, Quiet, h.free, iff_true]
    exact known_nil table none
  | cons op ops ih =>
    rw [KnownRun]
    cases op with
    | insert entry =>
      rw [Quiet, iff_false]
      intro hknown
      have hstep : (step cb fl table w.start (.insert entry)).2 = (hashInsert cb fl table w.start entry).2 := by
        rw [step]
        split <;> rename_i h' <;> rw [h']
      have hmem := (hashInsert_extends cb fl table w.start entry).calls.subset (h.find law w.start entry false)
      rw [← hstep] at hmem
      exact not_known hmem (by simp [Call.args]) hknown.1
    | delete entry =>
      rw [Quiet, iff_false]
      intro hknown
      have hstep : (step cb fl table w.start (.delete entry)).2 = (hashDelete cb fl table w.start entry).2 := by
        rw [step]
        split <;> rename_i h' <;> rw [h']
      have hmem := (hashDelete_extends cb fl table w.start entry).calls.subset (h.find law w.start entry true)
      rw [← hstep] at hmem
      exact not_known hmem (by simp [Call.args]) hknown.1
    | lookup entry =>
      rw [Quiet, step, h.lookup law]
      dsimp only
      rw [ih h]
      exact and_iff_right (known_argument table entry)
    | getNext entry =>
      obtain ⟨data, hrun⟩ := h.getNext law w.start entry
      rw [Quiet, step, hrun]
      dsimp only
      rw [ih h]
      exact and_iff_right (known_argument table entry)
    | clear =>
      obtain ⟨table', hrun, h', htuning⟩ := h.clear cb w.start
      have htuned : table'.tuned fl = table.tuned fl := by rw [Table.tuned, Table.tuned, htuning]
      rw [Quiet, step, hrun]
      dsimp only
      rw [ih h', htuned]
      exact and_iff_right (known_nil table none)
    | rehash candidate =>
      rw [Quiet]
      by_cases hsize : computeBucketSize fl candidate (table.tuned fl) = 0
      · have hrun : hashRehash cb fl table w.start candidate = (some (false, table), w.start) := by
          rw [hashRehash, if_pos hsize]
        rw [if_pos hsize, step, hrun]
        dsimp only
        rw [ih h]
        exact and_iff_right (known_nil table none)
      · rw [if_neg hsize]
        cases hanswer : w.answers w.asked with
        | false =>
          have hrun := h.rehash_fails cb hsize w.start hanswer
          rw [step, hrun]
          dsimp only
          rw [ih h, and_iff_right rfl]
          exact and_iff_right (known_nil table none)
        | true =>
          have hstep : (step cb fl table w.start (.rehash candidate)).2 = (hashRehash cb fl table w.start candidate).2 := by
            rw [step]
            split <;> rename_i h' <;> rw [h']
          have hmem := h.rehash cb hsize w.start hanswer
          rw [← hstep] at hmem
          simp only [Bool.true_eq_false, false_and, iff_false]
          intro hknown
          exact not_known hmem (by simp [Call.args]) hknown.1

theorem vacant_init {w w₁ : World α} {candidate : ℕ} {tuning : Option Tuning}
    (hinit : hashInitialize fl w candidate tuning = (some table, w₁)) (cb : Callbacks α) : Vacant table := by
  obtain ⟨n, hpos, hgood, -⟩ := hashInitialize_spec cb hinit
  refine ⟨⟨n, hpos, ?_⟩, ?_⟩
  · rw [hgood.holds, List.map_replicate]
    rfl
  · rw [hgood.nEntries]
    simp

end Vacant

/-- In a run from a new table, and when the table is freed after it, the user's functions are called with entries of the
table and the argument of the call alone if and only if nothing is inserted or deleted and no rehash comes to a table with
new buckets. -/
theorem knownRun_iff [DecidableEq α] {cb : Callbacks α} (law : cb.Lawful) {fl : Rounding} {w w₁ : World α}
    {candidate : ℕ} {tuning : Option Tuning} {table : Table α}
    (hinit : hashInitialize fl w candidate tuning = (some table, w₁)) (ops : List (TableOp α)) :
    KnownRun cb fl table w₁ ops ↔ Quiet fl (table.tuned fl) w₁.answers w₁.asked ops :=
  (vacant_init hinit cb).known_iff_quiet law w₁ ops

theorem knownRun_lookups :
    KnownRun (remainders 0) single eleven { ample with asked := 2 } [.lookup 5, .getNext 7, .clear, .lookup 7] :=
  (knownRun_iff (remainders_lawful 0) initialize_eleven _).mpr trivial

/-- The first entry of all is compared to `NULL`. -/
theorem not_knownRun_insert : (remainders 0).Lawful ∧
    hashInitialize single ample 11 (some halved) = (some eleven, { ample with asked := 2 }) ∧
      ¬ KnownRun (remainders 0) single eleven { ample with asked := 2 } [.insert 5] := by
  refine ⟨remainders_lawful 0, initialize_eleven, ?_⟩
  intro hknown
  have hmem : Call.comparator 5 none ∈
      (step (remainders 0) single eleven (World.start { ample with asked := 2 }) (.insert 5)).2.calls := by
    decide +kernel
  exact not_known hmem (by simp [Call.args]) hknown.1

end CodingExercises.Coreutils
