import CodingExercises.Coreutils.HashRehash

/-!
# Hash tables: the operations on a table that keeps its invariant

What `hash_lookup`, `hash_find_entry`, `hash_insert`, `hash_delete` and `hash_clear` do with the chained buckets. The entry
that matches is the same in every order of the entries, so that it can be looked for in all of them at once.
-/

namespace CodingExercises.Coreutils

open Lib

variable {α : Type}

/-- Whether an entry of the table matches `entry`. -/
def Callbacks.matching (cb : Callbacks α) (entry : α) (x : α) : Bool := cb.comparator entry (some x)

section Matching

variable {cb : Callbacks α} (law : cb.Lawful) {bs : List (List α)}

include law in
theorem matching_self (x : α) : cb.matching x x = true := law.equiv.refl x

include law in
theorem place_of_matching {entry x : α} (n : ℕ) (h : cb.matching entry x) : cb.place n x = cb.place n entry :=
  (law.compatible entry x n h).symm

include law in
/-- At most one entry matches. -/
theorem matching_once {l : List α} (h : l.Pairwise fun x y => cb.comparator x (some y) = false) (entry : α) :
    l.Pairwise fun x y => cb.matching entry x → cb.matching entry y → False := by
  apply h.imp
  intro x y hxy hx hy
  have hyx : cb.comparator x (some y) = true := law.equiv.trans (law.equiv.symm hx) hy
  rw [hxy] at hyx
  cases hyx

include law in
/-- An entry that is stored is the one that matches it. -/
theorem find?_matching {l : List α} (h : l.Pairwise fun x y => cb.comparator x (some y) = false) {x : α} (hx : x ∈ l) :
    l.find? (cb.matching x) = some x := by
  induction l with
  | nil => cases hx
  | cons y l ih =>
    obtain ⟨hy, hl⟩ := List.pairwise_cons.mp h
    rcases List.mem_cons.mp hx with rfl | hx
    · exact List.find?_cons_of_pos (matching_self law x)
    · have hne : ¬ cb.matching x y := by
        have hsymm : cb.comparator x (some y) = false := law.symm (hy x hx)
        rw [Callbacks.matching, hsymm]
        simp
      rw [List.find?_cons_of_neg hne]
      exact ih hl hx

end Matching

/-! ## One bucket -/

section Bucket

variable {cb : Callbacks α} {fl : Rounding} {table : Table α} {bs : List (List α)}

/-- The bucket of an entry. -/
theorem Table.Good.bucket (law : cb.Lawful) (h : table.Good cb bs) (hpos : 0 < bs.length) (entry : α) :
    ∃ l, bs[cb.place bs.length entry]? = some l ∧
      table.bucket[cb.hasher (some entry) table.nBuckets]? = some (ofList l) ∧
      bs.flatten.find? (cb.matching entry) = l.find? (cb.matching entry) ∧
      (bs.set (cb.place bs.length entry) (l.eraseP (cb.matching entry))).flatten =
        bs.flatten.eraseP (cb.matching entry) := by
  obtain ⟨l, hl, hget⟩ := h.holds.getElem? (law.lt entry bs.length hpos)
  have hplace : ∀ x ∈ bs.flatten, cb.matching entry x → cb.place bs.length x = cb.place bs.length entry :=
    fun x _ hx => place_of_matching law bs.length hx
  refine ⟨l, hl, ?_, h.placed.find?_flatten hl hplace, h.placed.eraseP_flatten hl hplace⟩
  rw [h.holds.nBuckets]
  exact hget

/-- A bucket that is put back. -/
theorem setBucket_self (h : table.Holds bs) {i : ℕ} {l : List α} (hi : bs[i]? = some l) :
    table.setBucket i (ofList l) = table := by
  have hget : table.bucket[i]? = some (ofList l) := by rw [h, List.getElem?_map, hi, Option.map_some]
  obtain ⟨hlt, hget⟩ := List.getElem?_eq_some_iff.mp hget
  unfold Table.setBucket
  rw [← hget, List.set_getElem_self]

/-- The table after `hash_find_entry` has replaced the bucket with the number `i`, with a number of free cells. -/
def Table.found (table : Table α) (i : ℕ) (l : List α) (free : ℕ) : Table α :=
  { table.setBucket i (ofList l) with freeEntryList := free }

theorem Table.found_self (h : table.Holds bs) {i : ℕ} {l : List α} (hi : bs[i]? = some l) :
    table.found i l table.freeEntryList = table := by
  rw [Table.found, setBucket_self h hi]

/-- A table without the entry that matches. -/
theorem Table.Good.erase (law : cb.Lawful) (h : table.Good cb bs) {entry : α} {l : List α}
    (hl : bs[cb.place bs.length entry]? = some l) {table' : Table α}
    (hholds : table'.Holds (bs.set (cb.place bs.length entry) (l.eraseP (cb.matching entry))))
    (hentries : table'.nEntries = (bs.flatten.eraseP (cb.matching entry)).length)
    (hused : table'.nBucketsUsed = used (bs.set (cb.place bs.length entry) (l.eraseP (cb.matching entry)))) :
    table'.Good cb (bs.set (cb.place bs.length entry) (l.eraseP (cb.matching entry))) := by
  have hplace : ∀ x ∈ bs.flatten, cb.matching entry x → cb.place bs.length x = cb.place bs.length entry :=
    fun x _ hx => place_of_matching law bs.length hx
  have hflat := h.placed.eraseP_flatten hl hplace
  refine ⟨hholds, ?_, ?_, hused, ?_⟩
  · rw [List.length_set]
    apply h.placed.set
    intro x hx
    exact h.placed _ l hl x (List.eraseP_subset hx)
  · rw [hentries, hflat]
  · rw [hflat]
    exact h.distinct.sublist List.eraseP_sublist

/-! ## Initialisation and clean-up -/

/-- A tuning that is valid is kept. -/
theorem checkTuning_of_valid (h : (checkTuning fl table).1 = true) : (checkTuning fl table).2 = table := by
  unfold checkTuning at h ⊢
  split
  · rfl
  · rename_i tuning htuning
    rw [htuning] at h
    dsimp only at h
    split
    · rfl
    · rename_i hvalid
      rw [if_neg hvalid] at h
      cases h

/-- The tuning is as good as it was. -/
theorem checkTuning_of_tuning {table' : Table α} (htuned : (checkTuning fl table).2 = table)
    (h : table'.tuning = table.tuning) : (checkTuning fl table').2 = table' := by
  unfold checkTuning at htuned ⊢
  rw [h]
  split
  · rfl
  · rename_i tuning htuning
    rw [htuning] at htuned
    dsimp only at htuned
    split
    · rfl
    · rename_i hvalid
      rw [if_neg hvalid] at htuned
      have : (none : Option Tuning) = some tuning := by rw [← htuning, ← htuned]
      cases this

/-- A table without entries. -/
theorem good_replicate (cb : Callbacks α) (n : ℕ) (tuning : Option Tuning) (free : ℕ) :
    Table.Good cb ⟨List.replicate n ⟨none, []⟩, 0, 0, tuning, free⟩ (List.replicate n ([] : List α)) := by
  constructor
  · rw [Table.Holds, List.map_replicate]
    rfl
  · exact placed_replicate _ n
  · simp
  · rw [used_replicate]
    rfl
  · simp

/-- `hash_clear` leaves as many buckets as before. -/
theorem clearLoop_spec (cb : Callbacks α) (w : World α) (bs : List (List α)) :
    ∃ freed w', clearLoop cb w (bs.map ofList) = ((List.replicate bs.length ⟨none, []⟩, freed), w') := by
  induction bs generalizing w with
  | nil => exact ⟨0, w, rfl⟩
  | cons l bs ih =>
    rw [List.map_cons, clearLoop, List.length_cons, List.replicate_succ]
    cases l with
    | nil =>
      obtain ⟨freed, w', hrun⟩ := ih w
      refine ⟨freed, w', ?_⟩
      simp only [ofList_data_isSome, List.isEmpty_nil, Bool.not_true, Bool.false_eq_true, if_false, hrun]
      rfl
    | cons x l =>
      obtain ⟨freed, w', hrun⟩ := ih (freeData cb w ((ofList (x :: l)).next ++ [(ofList (x :: l)).data]))
      refine ⟨(ofList (x :: l)).next.length + freed, w', ?_⟩
      simp only [ofList_data_isSome, List.isEmpty_cons, Bool.not_false, if_true, hrun]

theorem freeData_extends (cb : Callbacks α) (w : World α) (cells : List (Option α)) : w.Extends (freeData cb w cells) := by
  unfold freeData
  split
  · induction cells generalizing w with
    | nil => exact World.Extends.refl w
    | cons data rest ih => exact (w.extends_log (.dataFreer data)).trans (ih _)
  · exact World.Extends.refl w

theorem clearLoop_extends (cb : Callbacks α) (w : World α) (buckets : List (Bucket α)) :
    w.Extends (clearLoop cb w buckets).2 := by
  induction buckets generalizing w with
  | nil => exact World.Extends.refl w
  | cons bucket rest ih =>
    rw [clearLoop]
    split
    · exact (freeData_extends cb w _).trans (ih _)
    · exact ih w

/-- `hash_clear`. -/
theorem hashClear_spec (h : table.Good cb bs) (w : World α) :
    ∃ table' w', hashClear cb table w = (table', w') ∧ table'.Good cb (List.replicate bs.length []) ∧
      table'.tuning = table.tuning := by
  obtain ⟨freed, w', hrun⟩ := clearLoop_spec cb w bs
  refine ⟨_, w', ?_, good_replicate cb bs.length table.tuning (table.freeEntryList + freed), rfl⟩
  unfold hashClear
  rw [h.holds, hrun]

/-- `hash_initialize` asks for two allocations. -/
theorem hashInitialize_eq {w : World α} {candidate : ℕ} {tuning : Option Tuning}
    (h : (hashInitialize fl w candidate tuning).1 = some table) :
    hashInitialize fl w candidate tuning = (some table, { w with asked := w.asked + 2 }) := by
  unfold hashInitialize at h ⊢
  cases ha : w.answers w.asked with
  | false => simp [World.malloc, ha] at h
  | true =>
    cases ha' : w.answers (w.asked + 1) with
    | false =>
      simp only [World.malloc, ha, ha'] at h
      split at h
      · cases h
      · split at h <;> cases h
    | true =>
      simp only [World.malloc, ha, ha'] at h ⊢
      split at h
      · cases h
      · rename_i hvalid
        rw [if_neg hvalid]
        split at h
        · cases h
        · rename_i hsize
          rw [if_neg hsize]
          exact congrArg (fun t => (t, _)) h

/-- The table that `hash_initialize` makes. -/
theorem hashInitialize_table {w w' : World α} {candidate : ℕ} {tuning : Option Tuning}
    (h : hashInitialize fl w candidate tuning = (some table, w')) :
    table = ⟨List.replicate (computeBucketSize fl candidate (table.tuned fl)) ⟨none, []⟩, 0, 0, tuning, 0⟩ ∧
      0 < computeBucketSize fl candidate (table.tuned fl) ∧ (checkTuning fl table).1 = true := by
  unfold hashInitialize at h
  split at h
  · cases h
  · rename_i w₁ _
    dsimp only at h
    split at h
    · cases h
    · rename_i hvalid
      split at h
      · cases h
      · rename_i hsize
        split at h
        · cases h
        · obtain ⟨rfl, rfl⟩ : _ = table ∧ _ = w' := by simpa using h
          refine ⟨rfl, Nat.pos_of_ne_zero hsize, ?_⟩
          have hempty : (checkTuning fl (⟨[], 0, 0, tuning, 0⟩ : Table α)).1 = true := by simpa using hvalid
          unfold checkTuning at hempty ⊢
          split <;> rename_i htuning <;> simp only at htuning <;> subst htuning
          · rfl
          · simp only at hempty
            split <;> rename_i hv
            · rfl
            · rw [if_neg hv] at hempty
              cases hempty

/-- A table from `hash_initialize`. -/
theorem hashInitialize_spec (cb : Callbacks α) {w w' : World α} {candidate : ℕ} {tuning : Option Tuning}
    (h : hashInitialize fl w candidate tuning = (some table, w')) :
    ∃ n, 0 < n ∧ table.Good cb (List.replicate n []) ∧ (checkTuning fl table).2 = table := by
  obtain ⟨htable, hpos, hvalid⟩ := hashInitialize_table h
  have hgood := good_replicate cb (computeBucketSize fl candidate (table.tuned fl)) tuning 0
  rw [← htable] at hgood
  exact ⟨_, hpos, hgood, checkTuning_of_valid hvalid⟩

/-! ## Putting an entry into its bucket -/

theorem placeEntry_extends (table : Table α) (w : World α) (entry : α) (i : ℕ) :
    w.Extends (placeEntry table w entry i).2 := by
  unfold placeEntry
  split
  · exact World.Extends.refl w
  · split
    · have := allocateEntry_extends table w
      split <;> rename_i h <;> rwa [h] at this
    · exact World.Extends.refl w

/-- An entry that nothing matches is put into its bucket, or there is no cell for it. -/
theorem placeEntry_spec (law : cb.Lawful) (h : table.Good cb bs) (hpos : 0 < bs.length) {entry : α}
    (hnone : bs.flatten.find? (cb.matching entry) = none) (w : World α) :
    (∃ table' w', placeEntry table w entry (cb.place bs.length entry) = (some (some entry, table'), w') ∧
        table'.Good cb (putAt entry (cb.place bs.length entry) bs) ∧ table'.tuning = table.tuning) ∨
      ∃ w', placeEntry table w entry (cb.place bs.length entry) = (some (none, table), w') ∧
        w'.asked = w.asked + 1 ∧ w.answers w.asked = false := by
  have hlt : cb.place bs.length entry < bs.length := law.lt entry bs.length hpos
  obtain ⟨l, hl, hget⟩ := h.holds.getElem? hlt
  have hperm := putAt_perm hlt entry
  have hused := used_putAt hl entry
  -- What is to be shown of the table with the entry, apart from its buckets.
  have hgood : ∀ table' : Table α, Counted table bs table' (putAt entry (cb.place bs.length entry) bs) →
      Table.Good cb { table' with nEntries := table'.nEntries + 1 } (putAt entry (cb.place bs.length entry) bs) := by
    intro table' hc
    constructor
    · exact hc.holds
    · rw [length_putAt]
      exact h.placed.putAt entry
    · have hlen := hperm.length_eq
      rw [List.length_cons] at hlen
      rw [hlen, hc.same.nEntries, h.nEntries]
      push_cast
      rfl
    · have := hc.used
      have := h.nBucketsUsed
      simp only
      omega
    · apply distinct_of_perm law hperm
      refine List.pairwise_cons.mpr ⟨?_, h.distinct⟩
      intro x hx
      exact Bool.eq_false_iff.mpr (List.find?_eq_none.mp hnone x hx)
  unfold placeEntry
  rw [hget]
  simp only [ofList_data_isSome]
  by_cases hnil : l = []
  · left
    subst hnil
    have hc := counted_head h.holds hl entry table.freeEntryList
    exact ⟨_, w, rfl, hgood _ hc, rfl⟩
  · have hne : l.isEmpty = false := by simpa using hnil
    rw [hne, Bool.not_false, if_pos rfl]
    obtain ⟨free, w', halloc, -⟩ | ⟨w', halloc, -, hasked, ha⟩ := allocateEntry_cases table w
    · left
      rw [halloc]
      have hd : Table.Holds { table with freeEntryList := free } bs := h.holds
      have hc := counted_overflow hd hl hnil entry
      exact ⟨_, w', rfl, hgood _ ⟨hc.holds, hc.used, hc.same.nEntries, hc.same.tuning⟩, rfl⟩
    · right
      rw [halloc]
      exact ⟨w', rfl, hasked, ha⟩

/-- What keeps an entry from being added: the table is to grow but would become too large, or an allocation between the
two worlds fails. -/
def NoRoom (fl : Rounding) (table : Table α) (w w' : World α) : Prop :=
  (mustGrow fl table ∧ (fl sizeMax ≤ growthCandidate fl table ∨
      computeBucketSize fl (truncate (growthCandidate fl table)) (table.tuned fl) = 0)) ∨
    ∃ i, w.asked ≤ i ∧ i < w'.asked ∧ w.answers i = false

theorem noRoom_of_alloc {w w₁ : World α} (hext : w.Extends w₁) (w' : World α) (hasked : w'.asked = w₁.asked + 1)
    (ha : w₁.answers w₁.asked = false) : NoRoom fl table w w' :=
  .inr ⟨w₁.asked, hext.asked, by omega, by rwa [← hext.answers]⟩

/-- What `hash_insert` returns, and the entries that are left. -/
structure Inserted (cb : Callbacks α) (entry : α) (noRoom : Prop) (before : List α) (r : Option α) (after : List α) :
    Prop where
  present : ∀ x, before.find? (cb.matching entry) = some x → r = some x ∧ after.Perm before
  absent : before.find? (cb.matching entry) = none →
    (r = some entry ∧ after.Perm (entry :: before)) ∨ (noRoom ∧ r = none ∧ after.Perm before)

/-- The end of `hash_insert`, for a table that has the entries `before` in some order. -/
theorem placeEntry_inserted (law : cb.Lawful) (h : table.Good cb bs) (hpos : 0 < bs.length) {entry : α}
    {before : List α} (hperm : bs.flatten.Perm before) (hnone : before.find? (cb.matching entry) = none) (w : World α)
    {noRoom : World α → Prop} (hroom : ∀ w', w'.asked = w.asked + 1 → w.answers w.asked = false → noRoom w') :
    ∃ r table' bs' w', placeEntry table w entry (cb.place bs.length entry) = (some (r, table'), w') ∧
      table'.Good cb bs' ∧ 0 < bs'.length ∧ table'.tuning = table.tuning ∧
      Inserted cb entry (noRoom w') before r bs'.flatten := by
  have hnone' : bs.flatten.find? (cb.matching entry) = none := by
    rw [List.find?_eq_none] at hnone ⊢
    exact fun x hx => hnone x (hperm.subset hx)
  obtain ⟨table', w', hrun, hgood, htuning⟩ | ⟨w', hrun, hasked, ha⟩ := placeEntry_spec law h hpos hnone' w
  · refine ⟨some entry, table', _, w', hrun, hgood, by rwa [length_putAt], htuning, by simp [hnone], fun _ => .inl ?_⟩
    exact ⟨rfl, (putAt_perm (law.lt entry bs.length hpos) entry).trans (hperm.cons entry)⟩
  · refine ⟨none, table, bs, w', hrun, h, hpos, rfl, by simp [hnone], fun _ => .inr ?_⟩
    exact ⟨hroom w' hasked ha, rfl, hperm⟩

end Bucket

section Program

variable [DecidableEq α] {cb : Callbacks α} {fl : Rounding} (law : cb.Lawful) {table : Table α} {bs : List (List α)}

/-! ## Looking for an entry -/

include law in
/-- The comparison of two pointers first makes no difference. -/
theorem same_some (w : World α) (entry x : α) : ∃ w', same cb w entry (some x) = (cb.matching entry x, w') := by
  unfold same
  split
  · rename_i h
    obtain rfl := Option.some.inj h
    rw [matching_self law]
    exact ⟨w, rfl⟩
  · exact ⟨_, rfl⟩

include law in
theorem lookupLoop_spec (entry : α) (l : List α) (w : World α) :
    ∃ w', lookupLoop cb entry w (l.map some) = (l.find? (cb.matching entry), w') := by
  induction l generalizing w with
  | nil => exact ⟨w, rfl⟩
  | cons x l ih =>
    obtain ⟨w₁, hsame⟩ := same_some law w entry x
    rw [List.map_cons, lookupLoop, hsame]
    cases hx : cb.matching entry x with
    | true =>
      rw [List.find?_cons_of_pos hx]
      exact ⟨w₁, rfl⟩
    | false =>
      rw [List.find?_cons_of_neg (by rw [hx]; simp)]
      exact ih w₁

include law in
/-- `hash_lookup` returns the entry that matches. -/
theorem hashLookup_spec (h : table.Good cb bs) (hpos : 0 < bs.length) (w : World α) (entry : α) :
    ∃ w', hashLookup cb table w entry = (some (bs.flatten.find? (cb.matching entry)), w') := by
  obtain ⟨l, -, hget, hfind, -⟩ := h.bucket law hpos entry
  unfold hashLookup
  dsimp only
  rw [hget, hfind]
  cases l with
  | nil => exact ⟨_, rfl⟩
  | cons x l =>
    obtain ⟨w', hloop⟩ := lookupLoop_spec law entry (x :: l) (w.log (.hasher (some entry)))
    have hcells : (ofList (x :: l)).data :: (ofList (x :: l)).next = (x :: l).map some := rfl
    have hdata : (ofList (x :: l)).data ≠ none := Option.some_ne_none x
    dsimp only
    rw [if_neg hdata, hcells, hloop]
    exact ⟨w', rfl⟩

/-- `hash_get_next` returns. -/
theorem hashGetNext_spec (law : cb.Lawful) (h : table.Good cb bs) (hpos : 0 < bs.length) (w : World α) (entry : α) :
    ∃ data w', hashGetNext cb table w entry = (some data, w') := by
  obtain ⟨l, -, hget, -⟩ := h.bucket law hpos entry
  unfold hashGetNext
  dsimp only
  rw [hget]
  dsimp only
  split
  · exact ⟨_, _, rfl⟩
  · exact ⟨_, _, rfl⟩

include law in
theorem scanOverflow_spec (entry : α) (delete : Bool) (l : List α) (w : World α) :
    ∃ w', scanOverflow cb entry delete w (l.map some) =
      (((l.find? (cb.matching entry)).map some, (if delete then l.eraseP (cb.matching entry) else l).map some), w') := by
  induction l generalizing w with
  | nil => exact ⟨w, by cases delete <;> rfl⟩
  | cons x l ih =>
    obtain ⟨w₁, hsame⟩ := same_some law w entry x
    rw [List.map_cons, scanOverflow, hsame]
    cases hx : cb.matching entry x with
    | true =>
      rw [List.find?_cons_of_pos hx, List.eraseP_cons_of_pos hx]
      exact ⟨w₁, by cases delete <;> rfl⟩
    | false =>
      obtain ⟨w₂, hscan⟩ := ih w₁
      have hne : ¬ cb.matching entry x := by rw [hx]; simp
      rw [List.find?_cons_of_neg hne, List.eraseP_cons_of_neg hne]
      dsimp only
      rw [hscan]
      exact ⟨w₂, by cases delete <;> rfl⟩

include law in
/-- `hash_find_entry` in the bucket of the entry. -/
theorem hashFindEntry_bucket (h : table.Holds bs) {l : List α} {entry : α}
    (hl : bs[cb.place bs.length entry]? = some l) (w : World α) (delete : Bool) :
    ∃ free w', hashFindEntry cb table w entry delete = (some (l.find? (cb.matching entry), cb.place bs.length entry,
        table.found (cb.place bs.length entry) (if delete then l.eraseP (cb.matching entry) else l) free), w') ∧
      (delete = false → free = table.freeEntryList) := by
  have hplace : cb.hasher (some entry) table.nBuckets = cb.place bs.length entry := by rw [h.nBuckets]; rfl
  have hget : table.bucket[cb.place bs.length entry]? = some (ofList l) := by
    rw [h, List.getElem?_map, hl, Option.map_some]
  have hself := Table.found_self h hl
  generalize hw : w.log (.hasher (some entry)) = w₁
  generalize cb.place bs.length entry = i at hplace hget hself hl ⊢
  unfold hashFindEntry
  simp only [hplace, hget, hw]
  cases l with
  | nil =>
    -- The bucket is empty; whatever the comparator says of `NULL`, nothing is found.
    cases hsame : same cb w₁ entry (ofList ([] : List α)).data with
    | mk r w₂ =>
      refine ⟨table.freeEntryList, w₂, ?_, fun _ => rfl⟩
      cases r with
      | true =>
        cases delete with
        | true => rfl
        | false =>
          simp only [Bool.false_eq_true, if_false, hself]
          rfl
      | false => cases delete <;> rfl
  | cons x l =>
    obtain ⟨w₂, hsame⟩ := same_some law w₁ entry x
    have hdata : (ofList (x :: l)).data = some x := rfl
    have hnext : (ofList (x :: l)).next = l.map some := rfl
    simp only [hdata, hnext, hsame]
    cases hx : cb.matching entry x with
    | true =>
      rw [List.find?_cons_of_pos hx, List.eraseP_cons_of_pos hx]
      cases delete with
      | true =>
        cases l with
        | nil => exact ⟨table.freeEntryList, w₂, rfl, fun h => by cases h⟩
        | cons y l => exact ⟨table.freeEntryList + 1, w₂, rfl, fun h => by cases h⟩
      | false =>
        refine ⟨table.freeEntryList, w₂, ?_, fun _ => rfl⟩
        simp only [Bool.false_eq_true, if_false, hself]
    | false =>
      obtain ⟨w₃, hscan⟩ := scanOverflow_spec law entry delete l w₂
      have hne : ¬ cb.matching entry x := by rw [hx]; simp
      rw [List.find?_cons_of_neg hne, List.eraseP_cons_of_neg hne]
      simp only [hscan]
      have hjoin : ((l.find? (cb.matching entry)).map some).join = l.find? (cb.matching entry) := by
        cases l.find? (cb.matching entry) <;> rfl
      rw [hjoin]
      cases delete with
      | true => exact ⟨_, w₃, rfl, fun h => by cases h⟩
      | false => exact ⟨_, w₃, rfl, fun _ => rfl⟩

include law in
/-- `hash_find_entry` without deletion. -/
theorem hashFindEntry_keep (h : table.Good cb bs) (hpos : 0 < bs.length) (w : World α) (entry : α) :
    ∃ w', hashFindEntry cb table w entry false =
      (some (bs.flatten.find? (cb.matching entry), cb.place bs.length entry, table), w') := by
  obtain ⟨l, hl, -, hfind, -⟩ := h.bucket law hpos entry
  obtain ⟨free, w', hrun, hfree⟩ := hashFindEntry_bucket law h.holds hl w false
  rw [hfree rfl, if_neg Bool.false_ne_true, Table.found_self h.holds hl] at hrun
  rw [hfind]
  exact ⟨w', hrun⟩

/-! ## Calls -/

theorem same_extends (cb : Callbacks α) (w : World α) (entry : α) (data : Option α) :
    w.Extends (same cb w entry data).2 := by
  unfold same
  split
  · exact World.Extends.refl w
  · exact w.extends_log _

theorem scanOverflow_extends (cb : Callbacks α) (entry : α) (delete : Bool) (w : World α) (cells : List (Option α)) :
    w.Extends (scanOverflow cb entry delete w cells).2 := by
  induction cells generalizing w with
  | nil => exact World.Extends.refl w
  | cons data rest ih =>
    have hsame := same_extends cb w entry data
    rw [scanOverflow]
    split
    · rename_i h
      rwa [h] at hsame
    · rename_i w₁ h
      rw [h] at hsame
      exact hsame.trans (ih w₁)

theorem hashFindEntry_extends (cb : Callbacks α) (table : Table α) (w : World α) (entry : α) (delete : Bool) :
    w.Extends (hashFindEntry cb table w entry delete).2 := by
  have hlog := w.extends_log (.hasher (some entry))
  unfold hashFindEntry
  dsimp only
  split
  · exact hlog
  · rename_i bucket _
    have hsame := same_extends cb (w.log (.hasher (some entry))) entry bucket.data
    split
    · rename_i w₁ h
      rw [h] at hsame
      have hext := hlog.trans hsame
      split
      · split <;> exact hext
      · exact hext
    · rename_i w₁ h
      rw [h] at hsame
      exact (hlog.trans hsame).trans (scanOverflow_extends cb entry delete w₁ bucket.next)

theorem lookupLoop_extends (cb : Callbacks α) (entry : α) (w : World α) (cells : List (Option α)) :
    w.Extends (lookupLoop cb entry w cells).2 := by
  induction cells generalizing w with
  | nil => exact World.Extends.refl w
  | cons data rest ih =>
    have hsame := same_extends cb w entry data
    rw [lookupLoop]
    split
    · rename_i h
      rwa [h] at hsame
    · rename_i w₁ h
      rw [h] at hsame
      exact hsame.trans (ih w₁)

theorem hashLookup_extends (cb : Callbacks α) (table : Table α) (w : World α) (entry : α) :
    w.Extends (hashLookup cb table w entry).2 := by
  have hlog := w.extends_log (.hasher (some entry))
  unfold hashLookup
  dsimp only
  split
  · exact hlog
  · split
    · exact hlog
    · exact hlog.trans (lookupLoop_extends cb entry _ _)

theorem hashGetNext_extends (cb : Callbacks α) (table : Table α) (w : World α) (entry : α) :
    w.Extends (hashGetNext cb table w entry).2 := by
  have hlog := w.extends_log (.hasher (some entry))
  unfold hashGetNext
  dsimp only
  split
  · exact hlog
  · split <;> exact hlog

theorem hashInsert_extends (cb : Callbacks α) (fl : Rounding) (table : Table α) (w : World α) (entry : α) :
    (hashFindEntry cb table w entry false).2.Extends (hashInsert cb fl table w entry).2 := by
  unfold hashInsert
  split
  · rename_i h
    rw [h]
    exact World.Extends.refl _
  · rename_i h
    rw [h]
    exact World.Extends.refl _
  · rename_i i table₁ w₁ h
    have hplace := placeEntry_extends (checkTuning fl table₁).2 w₁ entry i
    rw [h]
    split
    · dsimp only
      split
      · split
        · exact World.Extends.refl w₁
        · have hrehash := hashRehash_extends cb fl (checkTuning fl table₁).2 w₁
            (truncate (growthCandidate fl (checkTuning fl table₁).2))
          split
          · rename_i h'
            rwa [h'] at hrehash
          · rename_i h'
            rwa [h'] at hrehash
          · rename_i table₂ w₂ h'
            rw [h'] at hrehash
            have hagain := hrehash.trans (hashFindEntry_extends cb table₂ w₂ entry false)
            split
            · rename_i h''
              rw [h''] at hagain
              exact hagain.trans (placeEntry_extends _ _ _ _)
            · rename_i h''
              rwa [h''] at hagain
      · exact hplace
    · exact placeEntry_extends _ _ _ _

theorem hashDelete_extends (cb : Callbacks α) (fl : Rounding) (table : Table α) (w : World α) (entry : α) :
    (hashFindEntry cb table w entry true).2.Extends (hashDelete cb fl table w entry).2 := by
  unfold hashDelete
  split
  · rename_i h
    rw [h]
    exact World.Extends.refl _
  · rename_i h
    rw [h]
    exact World.Extends.refl _
  · rename_i data i table₁ w₁ h
    rw [h]
    dsimp only
    split
    · exact World.Extends.refl w₁
    · split
      · exact World.Extends.refl w₁
      · split
        · split
          · generalize (checkTuning fl _).2 = table₂
            have hrehash := hashRehash_extends cb fl table₂ w₁ (shrinkCandidate fl table₂)
            split <;> rename_i h' <;> rwa [h'] at hrehash
          · exact World.Extends.refl w₁
        · exact World.Extends.refl w₁

/-! ## `hash_insert` -/

include law in
/-- `hash_insert`. -/
theorem hashInsert_spec (h : table.Good cb bs) (hpos : 0 < bs.length) (htuned : (checkTuning fl table).2 = table)
    (w : World α) (entry : α) (hclean : (hashInsert cb fl table w entry).2.Clean) :
    ∃ r table' bs' w', hashInsert cb fl table w entry = (some (r, table'), w') ∧ table'.Good cb bs' ∧ 0 < bs'.length ∧
      table'.tuning = table.tuning ∧ Inserted cb entry (NoRoom fl table w w') bs.flatten r bs'.flatten := by
  obtain ⟨w₁, hfind⟩ := hashFindEntry_keep law h hpos w entry
  have hext := hashFindEntry_extends cb table w entry false
  unfold hashInsert at hclean ⊢
  rw [hfind] at hclean hext ⊢
  cases hnone : bs.flatten.find? (cb.matching entry) with
  | some x =>
    refine ⟨some x, table, bs, w₁, rfl, h, hpos, rfl, ?_, by simp [hnone]⟩
    intro y hy
    exact ⟨hnone.symm.trans hy, List.Perm.refl _⟩
  | none =>
    rw [hnone] at hclean
    simp only [htuned] at hclean ⊢
    by_cases hgrow : mustGrow fl table
    · rw [if_pos hgrow, if_pos hgrow] at hclean ⊢
      by_cases hlarge : fl sizeMax ≤ growthCandidate fl table
      · rw [if_pos hlarge]
        refine ⟨none, table, bs, w₁, rfl, h, hpos, rfl, by simp [hnone], fun _ => .inr ?_⟩
        exact ⟨.inl ⟨hgrow, .inl hlarge⟩, rfl, List.Perm.refl _⟩
      · rw [if_neg hlarge] at hclean ⊢
        generalize hsize : truncate (growthCandidate fl table) = size at hclean ⊢
        have hclean₁ : (hashRehash cb fl table w₁ size).2.Clean := by
          split at hclean
          · rename_i h'
            rwa [h']
          · rename_i h'
            rwa [h']
          · rename_i table₁ w₂ h'
            rw [h']
            have hext₁ := hashFindEntry_extends cb table₁ w₂ entry false
            split at hclean
            · rename_i h''
              rw [h''] at hext₁
              exact hclean.mono (hext₁.trans (placeEntry_extends _ _ _ _))
            · rename_i h''
              rw [h''] at hext₁
              exact hclean.mono hext₁
        obtain ⟨ok, table₁, bs₁, w₂, hrehash, hgood₁, hperm₁, htuning₁, hpos₁, hfail⟩ :=
          hashRehash_spec law h w₁ size hclean₁
        have hext₁ := hashRehash_extends cb fl table w₁ size
        rw [hrehash] at hext₁ ⊢
        cases ok with
        | false =>
          refine ⟨none, table₁, bs₁, w₂, rfl, hgood₁, hpos₁ hpos, htuning₁, by simp [hnone], fun _ => .inr ?_⟩
          refine ⟨?_, rfl, hperm₁⟩
          obtain hzero | ⟨i, hle, hlt, hans⟩ := (hfail rfl).2
          · exact .inl ⟨hgrow, .inr (by rw [hsize]; exact hzero)⟩
          · exact .inr ⟨i, Nat.le_trans hext.asked hle, hlt, by rwa [← hext.answers]⟩
        | true =>
          obtain ⟨w₃, hfind₁⟩ := hashFindEntry_keep law hgood₁ (hpos₁ hpos) w₂ entry
          have hext₂ := hashFindEntry_extends cb table₁ w₂ entry false
          have hnone₁ : bs₁.flatten.find? (cb.matching entry) = none := by
            rw [List.find?_eq_none] at hnone ⊢
            exact fun x hx => hnone x (hperm₁.subset hx)
          rw [hnone₁] at hfind₁
          rw [hfind₁] at hext₂
          have hext₃ := (hext.trans hext₁).trans hext₂
          dsimp only
          rw [hfind₁]
          obtain ⟨r, table', bs', w', hrun, hgood', hpos', htuning', hins⟩ :=
            placeEntry_inserted law hgood₁ (hpos₁ hpos) hperm₁ hnone w₃ (noRoom_of_alloc hext₃)
          exact ⟨r, table', bs', w', hrun, hgood', hpos', htuning'.trans htuning₁, hins⟩
    · rw [if_neg hgrow]
      exact placeEntry_inserted law h hpos (List.Perm.refl _) hnone w₁ (noRoom_of_alloc hext)

/-! ## `hash_delete` -/

include law in
/-- `hash_delete` unlinks the entry, and then it rehashes the table or not. -/
theorem hashDelete_cases (h : table.Good cb bs) (hpos : 0 < bs.length) (htuned : (checkTuning fl table).2 = table)
    (w : World α) (entry : α) :
    ∃ t bs₁ w₁, t.Good cb bs₁ ∧ bs₁.length = bs.length ∧ t.tuning = table.tuning ∧
      bs₁.flatten = bs.flatten.eraseP (cb.matching entry) ∧
      (hashDelete cb fl table w entry = (some (bs.flatten.find? (cb.matching entry), t), w₁) ∨
        deleteRehashes cb fl table w entry = true ∧ hashDelete cb fl table w entry =
          match hashRehash cb fl t w₁ (shrinkCandidate fl t) with
          | (none, w) => (none, w)
          | (some (true, table), w) => (some (bs.flatten.find? (cb.matching entry), table), w)
          | (some (false, table), w) =>
            (some (bs.flatten.find? (cb.matching entry), { table with freeEntryList := 0 }), w)) := by
  obtain ⟨l, hl, -, hfind, hflat⟩ := h.bucket law hpos entry
  obtain ⟨free, w₁, hrun, -⟩ := hashFindEntry_bucket law h.holds hl w true
  have hused := used_set hl (l.eraseP (cb.matching entry))
  have hholds := h.holds.setBucket (cb.place bs.length entry) (l.eraseP (cb.matching entry))
  have hlt := (List.getElem?_eq_some_iff.mp hl).1
  have herase : ∀ table' : Table α, table'.Holds (bs.set (cb.place bs.length entry) (l.eraseP (cb.matching entry))) →
      table'.nEntries = (bs.flatten.eraseP (cb.matching entry)).length →
      table'.nBucketsUsed = used (bs.set (cb.place bs.length entry) (l.eraseP (cb.matching entry))) →
      table'.Good cb (bs.set (cb.place bs.length entry) (l.eraseP (cb.matching entry))) := fun _ => h.erase law hl
  generalize cb.place bs.length entry = i at *
  have hlen : (bs.set i (l.eraseP (cb.matching entry))).length = bs.length := List.length_set
  rw [if_pos rfl, ← hfind] at hrun
  unfold hashDelete deleteRehashes
  rw [hrun, ← hflat]
  cases hx : bs.flatten.find? (cb.matching entry) with
  | none =>
    have hnone : l.eraseP (cb.matching entry) = l :=
      List.eraseP_of_forall_not (List.find?_eq_none.mp (hfind.symm.trans hx))
    have hnone' : bs.flatten.eraseP (cb.matching entry) = bs.flatten :=
      List.eraseP_of_forall_not (List.find?_eq_none.mp hx)
    refine ⟨table.found i (l.eraseP (cb.matching entry)) free, _, w₁, herase _ hholds ?_ ?_, hlen, rfl, rfl, .inl rfl⟩
    · rw [hnone']
      exact h.nEntries
    · rw [hnone] at hused ⊢
      have hcount : used (bs.set i l) = used bs := by omega
      rw [hcount]
      exact h.nBucketsUsed
  | some x =>
    have hmem : x ∈ bs.flatten := List.mem_of_find?_eq_some hx
    have hlength : (bs.flatten.eraseP (cb.matching entry)).length + 1 = bs.flatten.length := by
      rw [List.length_eraseP_of_mem hmem (List.find?_some hx)]
      exact Nat.succ_pred_eq_of_pos (List.length_pos_of_mem hmem)
    have hl' : l ≠ [] := by
      rintro rfl
      rw [hfind] at hx
      cases hx
    have hget : (table.found i (l.eraseP (cb.matching entry)) free).bucket[i]? =
        some (ofList (l.eraseP (cb.matching entry))) := by
      apply List.getElem?_set_self
      rw [← Table.nBuckets, h.holds.nBuckets]
      exact hlt
    simp only [hget, ofList_data_isSome]
    rw [if_neg hl'] at hused
    by_cases hnil : l.eraseP (cb.matching entry) = []
    · -- The bucket is empty now, and the table may shrink.
      simp only [hnil, List.isEmpty_nil, Bool.not_true, Bool.false_eq_true, if_false]
      rw [hnil] at hused hlen hholds herase
      rw [if_pos rfl] at hused
      generalize ht : (⟨(table.found i [] free).bucket, (table.found i [] free).nBucketsUsed - 1,
        (table.found i [] free).nEntries - 1, (table.found i [] free).tuning, (table.found i [] free).freeEntryList⟩ :
          Table α) = t
      have hgood : t.Good cb (bs.set i []) := by
        have := h.nEntries
        have := h.nBucketsUsed
        subst ht
        refine herase _ hholds ?_ ?_
        · simp only [Table.found, Table.setBucket]
          omega
        · simp only [Table.found, Table.setBucket]
          omega
      have htuning : t.tuning = table.tuning := by
        subst ht
        rfl
      simp only [checkTuning_of_tuning htuned htuning]
      refine ⟨t, _, w₁, hgood, hlen, htuning, rfl, ?_⟩
      by_cases hshrink : mustShrink fl t
      · rw [if_pos hshrink, if_pos hshrink]
        exact .inr ⟨by simp [hshrink], rfl⟩
      · rw [if_neg hshrink]
        exact .inl rfl
    · have hne : (l.eraseP (cb.matching entry)).isEmpty = false := by simpa using hnil
      rw [if_neg hnil] at hused
      rw [hne, Bool.not_false, if_pos rfl]
      refine ⟨{ table.found i (l.eraseP (cb.matching entry)) free with nEntries := table.nEntries - 1 }, _, w₁,
        herase _ hholds ?_ ?_, hlen, rfl, rfl, .inl rfl⟩
      · have := h.nEntries
        simp only
        omega
      · have := h.nBucketsUsed
        simp only [Table.found, Table.setBucket]
        omega

include law in
/-- `hash_delete`. -/
theorem hashDelete_spec (h : table.Good cb bs) (hpos : 0 < bs.length) (htuned : (checkTuning fl table).2 = table)
    (w : World α) (entry : α) (hclean : (hashDelete cb fl table w entry).2.Clean) :
    ∃ table' bs' w', hashDelete cb fl table w entry = (some (bs.flatten.find? (cb.matching entry), table'), w') ∧
      table'.Good cb bs' ∧ 0 < bs'.length ∧ table'.tuning = table.tuning ∧
      bs'.flatten.Perm (bs.flatten.eraseP (cb.matching entry)) := by
  obtain ⟨t, bs₁, w₁, hgood, hlen, htuning, hflat, hrun⟩ := hashDelete_cases law h hpos htuned w entry
  rcases hrun with hrun | ⟨-, hrun⟩
  · exact ⟨t, bs₁, w₁, hrun, hgood, by rwa [hlen], htuning, .of_eq hflat⟩
  · rw [hrun] at hclean ⊢
    have hclean₁ : (hashRehash cb fl t w₁ (shrinkCandidate fl t)).2.Clean := by
      split at hclean <;> rename_i h' <;> rwa [h']
    obtain ⟨ok, t', bs', w', hrehash, hgood', hperm, htuning', hpos', -⟩ :=
      hashRehash_spec law hgood w₁ (shrinkCandidate fl t) hclean₁
    rw [hrehash]
    have hpos'' := hpos' (by rwa [hlen])
    rw [hflat] at hperm
    cases ok with
    | true => exact ⟨t', bs', w', rfl, hgood', hpos'', htuning'.trans htuning, hperm⟩
    | false =>
      refine ⟨_, bs', w', rfl, ?_, hpos'', htuning'.trans htuning, hperm⟩
      exact ⟨hgood'.holds, hgood'.placed, hgood'.nEntries, hgood'.nBucketsUsed, hgood'.distinct⟩

end Program

end CodingExercises.Coreutils
