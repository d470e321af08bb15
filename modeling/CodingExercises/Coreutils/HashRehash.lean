import CodingExercises.Coreutils.HashTransfer

/-!
# Hash tables: the representation invariant and rehashing

`Table.Ok` is the invariant of a table as it stands in memory, `Table.Good` the same for chained buckets.
`hashRehash_spec`: as long as no head of an empty bucket is moved, `hash_rehash` keeps the invariant and the entries; when
it runs out of memory the two passes back are enough, since the old buckets need no more cells than before.
-/

namespace CodingExercises.Coreutils

open Lib

variable {α : Type}

/-! ## The invariant -/

/-- The data in a bucket. -/
def Bucket.entries (b : Bucket α) : List α := (b.data :: b.next).filterMap id

/-- The entries that are stored. -/
def Table.entries (table : Table α) : List α := (table.bucket.map Bucket.entries).flatten

/-- The representation invariant. -/
structure Table.Ok (cb : Callbacks α) (table : Table α) : Prop where
  ok : hashTableOk table = true
  nEntries : table.nEntries = table.entries.length
  nBucketsUsed : table.nBucketsUsed = (table.bucket.filter fun b => b.data.isSome).length
  head : ∀ b ∈ table.bucket, b.data = none → b.next = []
  cells : ∀ b ∈ table.bucket, none ∉ b.next
  placed : ∀ i b, table.bucket[i]? = some b → ∀ x ∈ b.entries, cb.hasher (some x) table.nBuckets = i
  distinct : table.entries.Pairwise fun x y => cb.comparator x (some y) = false

/-- The invariant, for chained buckets. -/
structure Table.Good (cb : Callbacks α) (table : Table α) (bs : List (List α)) : Prop where
  holds : table.Holds bs
  placed : Placed (cb.place bs.length) bs
  nEntries : table.nEntries = bs.flatten.length
  nBucketsUsed : table.nBucketsUsed = used bs
  distinct : bs.flatten.Pairwise fun x y => cb.comparator x (some y) = false

@[simp]
theorem entries_ofList (l : List α) : (ofList l).entries = l := by
  cases l with
  | nil => rfl
  | cons x l => simp [ofList, Bucket.entries]

theorem Table.Holds.entries {table : Table α} {bs : List (List α)} (h : table.Holds bs) :
    table.entries = bs.flatten := by
  have hcomp : (Bucket.entries ∘ ofList : List α → List α) = id := funext entries_ofList
  rw [Table.entries, h, List.map_map, hcomp, List.map_id]

/-- A bucket without `NULL` behind its head, nor anything behind an empty head. -/
theorem ofList_entries {b : Bucket α} (hhead : b.data = none → b.next = []) (hcells : none ∉ b.next) :
    ofList b.entries = b := by
  obtain ⟨data, next⟩ := b
  cases data with
  | none =>
    obtain rfl : next = [] := hhead rfl
    rfl
  | some x =>
    have hnext : (next.filterMap id).map some = next := by
      clear hhead
      induction next with
      | nil => rfl
      | cons d next ih =>
        rw [List.mem_cons, not_or] at hcells
        cases d with
        | none => exact absurd rfl hcells.1
        | some y => simpa using ih hcells.2
    simpa [Bucket.entries, ofList] using hnext

section Invariant

variable {cb : Callbacks α} {table : Table α} {bs : List (List α)}

theorem filter_map_ofList (bs : List (List α)) :
    ((bs.map ofList).filter fun b => b.data.isSome) = (bs.filter fun l => !l.isEmpty).map ofList := by
  rw [List.filter_map]
  congr 1
  apply List.filter_congr
  intro l _
  exact ofList_data_isSome l

theorem Table.Holds.nBucketsUsed (h : table.Holds bs) :
    (table.bucket.filter fun b => b.data.isSome).length = used bs := by
  rw [h, filter_map_ofList, List.length_map, used, List.countP_eq_length_filter]

theorem Table.Good.ok (h : table.Good cb bs) : table.Ok cb := by
  have hused := h.holds.nBucketsUsed
  constructor
  · have hsum : ((table.bucket.filter fun b => b.data.isSome).map fun b => 1 + b.next.length).sum =
        bs.flatten.length := by
      rw [h.holds, filter_map_ofList, List.map_map, List.length_flatten]
      clear h hused
      induction bs with
      | nil => rfl
      | cons l bs ih =>
        cases l with
        | nil => simpa using ih
        | cons x l =>
          simp only [List.filter_cons_of_pos, List.isEmpty_cons, Bool.not_false, List.map_cons, List.sum_cons,
            List.length_cons, ih]
          simp [ofList, Nat.add_comm]
    simp [hashTableOk, hused, hsum, h.nEntries, h.nBucketsUsed]
  · rw [h.nEntries, h.holds.entries]
  · rw [h.nBucketsUsed, hused]
  · intro b hb hnone
    rw [h.holds] at hb
    obtain ⟨l, -, rfl⟩ := List.mem_map.mp hb
    cases l with
    | nil => rfl
    | cons x l => cases hnone
  · intro b hb
    rw [h.holds] at hb
    obtain ⟨l, -, rfl⟩ := List.mem_map.mp hb
    cases l <;> simp [ofList]
  · intro i b hb x hx
    rw [h.holds, List.getElem?_map] at hb
    obtain ⟨l, hl, rfl⟩ := Option.map_eq_some_iff.mp hb
    rw [h.holds.nBuckets]
    rw [entries_ofList] at hx
    exact h.placed i l hl x hx
  · rw [h.holds.entries]
    exact h.distinct

theorem Table.Ok.good (h : table.Ok cb) : table.Good cb (table.bucket.map Bucket.entries) := by
  have hholds : table.Holds (table.bucket.map Bucket.entries) := by
    have hmap : table.bucket.map (ofList ∘ Bucket.entries) = table.bucket.map id := by
      apply List.map_congr_left
      intro b hb
      exact ofList_entries (h.head b hb) (h.cells b hb)
    rw [Table.Holds, List.map_map, hmap, List.map_id]
  have hlen : (table.bucket.map Bucket.entries).length = table.nBuckets := by rw [List.length_map, Table.nBuckets]
  constructor
  · exact hholds
  · intro i l hi x hx
    rw [List.getElem?_map] at hi
    obtain ⟨b, hb, rfl⟩ := Option.map_eq_some_iff.mp hi
    rw [Callbacks.place, hlen]
    exact h.placed i b hb x hx
  · exact h.nEntries
  · rw [h.nBucketsUsed, hholds.nBucketsUsed]
  · exact h.distinct

end Invariant

/-! ## Transfers -/

section Transfer

variable (cb : Callbacks α)

theorem transferEntries_extends (dst src : Table α) (w : World α) (safe : Bool) :
    w.Extends (transferEntries cb dst src w safe).2 := by
  have := transferLoop_extends cb safe dst w src.bucket
  unfold transferEntries
  split <;> rename_i h <;> rwa [h] at this

theorem undoTransfer_extends (table newTable : Table α) (w : World α) :
    w.Extends (undoTransfer cb table newTable w).2 := by
  have hfirst := transferEntries_extends cb table newTable w true
  unfold undoTransfer
  split
  · rename_i table₁ newTable₁ w₁ h
    rw [h] at hfirst
    have hsecond := transferEntries_extends cb table₁ newTable₁ w₁ false
    split <;> rename_i h' <;> rw [h'] at hsecond <;> exact hfirst.trans hsecond
  · rename_i r w₁ _ h
    rwa [h] at hfirst

variable {cb} (law : cb.Lawful) {dst src : Table α} {ds ss : List (List α)}

include law in
/-- `transfer_entries`, when the hasher is not called for an empty bucket. -/
theorem transferEntries_spec (hd : dst.Holds ds) (hs : src.Holds ss) (hpos : 0 < ds.length) (w : World α) (safe : Bool)
    (hclean : (transferEntries cb dst src w safe).2.Clean) :
    ∃ ok dst' src' ds' ss' w', transferEntries cb dst src w safe = (some (ok, dst', src'), w') ∧
      Moved cb dst ds ss dst' ds' ss' ∧ Counted src ss src' ss' ∧
      (safe = true → ok = true ∧ ∀ l ∈ ss', l.length ≤ 1) ∧ (safe = false → ok = true → ss'.flatten = []) ∧
      (ok = false → ∃ i, w.asked ≤ i ∧ i < w'.asked ∧ w.answers i = false) := by
  have hclean' : (transferLoop cb safe dst w (ss.map ofList)).2.Clean := by
    unfold transferEntries at hclean
    rw [hs] at hclean
    split at hclean <;> rename_i h <;> rwa [h]
  obtain ⟨ok, dst', ds', ss', moved, w', hrun, hm, hmoved, hsafe, hempty, hfail⟩ :=
    transferLoop_spec law safe hd hpos w hclean'
  refine ⟨ok, dst', ⟨ss'.map ofList, src.nBucketsUsed - moved, src.nEntries, src.tuning, src.freeEntryList⟩, ds', ss', w',
    ?_, hm, ⟨rfl, ?_, ⟨rfl, rfl⟩⟩, hsafe, hempty, hfail⟩
  · rw [transferEntries, hs, hrun]
  · simp only
    omega

include law in
/-- `transfer_entries` comes to its end if there are enough cells. -/
theorem transferEntries_enough (hd : dst.Holds ds) (hs : src.Holds ss) (hpos : 0 < ds.length) (w : World α)
    (hclean : (transferEntries cb dst src w false).2.Clean) (hheads : ∀ l ∈ ss, l.length ≤ 1)
    (hcells : used ss + used ds ≤ dst.freeEntryList + used (putAll (cb.place ds.length) ss.flatten ds)) :
    ∃ dst' src' w', transferEntries cb dst src w false = (some (true, dst', src'), w') := by
  have hclean' : (transferLoop cb false dst w (ss.map ofList)).2.Clean := by
    unfold transferEntries at hclean
    rw [hs] at hclean
    split at hclean <;> rename_i h <;> rwa [h]
  obtain ⟨r, w', hrun⟩ := transferLoop_enough law hd hpos w hclean' hheads hcells
  rw [transferEntries, hs, hrun]
  exact ⟨_, _, w', rfl⟩

include law in
/-- The two passes back, with as many cells as the entries need in the buckets they go back to. -/
theorem undoTransfer_spec (hd : dst.Holds ds) (hs : src.Holds ss) (hpos : 0 < ds.length)
    (hplaced : Placed (cb.place ds.length) ds) (w : World α) (hclean : (undoTransfer cb dst src w).2.Clean)
    (hcells : ∀ bs, Placed (cb.place ds.length) bs → bs.length = ds.length →
      bs.flatten.Perm (ds.flatten ++ ss.flatten) → used ds + used ss ≤ dst.freeEntryList + used bs) :
    ∃ dst' ds' w', undoTransfer cb dst src w = (some dst', w') ∧ Counted dst ds dst' ds' ∧ ds'.length = ds.length ∧
      Placed (cb.place ds.length) ds' ∧ ds'.flatten.Perm (ds.flatten ++ ss.flatten) := by
  have hclean₁ : (transferEntries cb dst src w true).2.Clean := by
    unfold undoTransfer at hclean
    split at hclean
    · rename_i dst₁ src₁ w₁ h
      rw [h]
      have hext := transferEntries_extends cb dst₁ src₁ w₁ false
      split at hclean <;> rename_i h' <;> rw [h'] at hext <;> exact hclean.mono hext
    · rename_i r w₁ _ h
      rwa [h]
  obtain ⟨ok, dst₁, src₁, ds₁, ss₁, w₁, hrun₁, hm₁, hc₁, hsafe, -, -⟩ :=
    transferEntries_spec law hd hs hpos w true hclean₁
  obtain ⟨rfl, hheads⟩ := hsafe rfl
  have hclean₂ : (transferEntries cb dst₁ src₁ w₁ false).2.Clean := by
    rw [undoTransfer, hrun₁] at hclean
    dsimp only at hclean
    split at hclean <;> rename_i h <;> rwa [h]
  -- After the first pass only heads are left, and they have the cells that they need.
  have hplaced₁ : Placed (cb.place ds₁.length) ds₁ := by
    rw [hm₁.length]
    exact hm₁.placed hplaced
  have hput : (putAll (cb.place ds₁.length) ss₁.flatten ds₁).flatten.Perm (ss₁.flatten ++ ds₁.flatten) := by
    apply putAll_perm
    intro x _
    exact law.lt x _ (by rwa [hm₁.length])
  have hback : (putAll (cb.place ds₁.length) ss₁.flatten ds₁).flatten.Perm (ds.flatten ++ ss.flatten) := by
    calc (putAll (cb.place ds₁.length) ss₁.flatten ds₁).flatten
      _ |>.Perm (ss₁.flatten ++ ds₁.flatten) := hput
      _ |>.Perm (ds₁.flatten ++ ss₁.flatten) := List.perm_append_comm
      _ |>.Perm (ds.flatten ++ ss.flatten) := hm₁.perm
  have henough : used ss₁ + used ds₁ ≤
      dst₁.freeEntryList + used (putAll (cb.place ds₁.length) ss₁.flatten ds₁) := by
    have hplaced' := hplaced₁.putAll ss₁.flatten
    rw [hm₁.length] at hplaced' hback ⊢
    have hneed := hcells _ hplaced' (by rw [length_putAll, hm₁.length]) hback
    have hleft := hm₁.cells
    omega
  have hpos₁ : 0 < ds₁.length := by rwa [hm₁.length]
  obtain ⟨dst₂, src₂, w₂, hrun₂⟩ :=
    transferEntries_enough law hm₁.counted.holds hc₁.holds hpos₁ w₁ hclean₂ hheads henough
  obtain ⟨ok, dst', src', ds', ss', w', hrun, hm₂, -, -, hempty, -⟩ :=
    transferEntries_spec law hm₁.counted.holds hc₁.holds hpos₁ w₁ false hclean₂
  obtain ⟨⟨rfl, rfl, rfl⟩, rfl⟩ : (true = ok ∧ dst₂ = dst' ∧ src₂ = src') ∧ w₂ = w' := by
    simpa using hrun₂.symm.trans hrun
  refine ⟨dst₂, ds', w₂, ?_, hm₁.counted.trans hm₂.counted, ?_, ?_, ?_⟩
  · rw [undoTransfer, hrun₁]
    dsimp only
    rw [hrun]
  · rw [hm₂.length, hm₁.length]
  · have := hm₂.placed hplaced₁
    rwa [hm₁.length] at this
  · have hperm := hm₂.perm
    rw [hempty rfl rfl, List.append_nil] at hperm
    exact hperm.trans hm₁.perm

end Transfer

/-! ## `hash_rehash` -/

section Rehash

variable {cb : Callbacks α} {fl : Rounding} {table : Table α} {bs : List (List α)}

theorem Callbacks.Lawful.symm (law : cb.Lawful) {x y : α} (h : cb.comparator x (some y) = false) :
    cb.comparator y (some x) = false := by
  rw [← Bool.not_eq_true] at h ⊢
  exact fun hyx => h (law.equiv.symm hyx)

/-- The entries that are stored, in another order. -/
theorem distinct_of_perm (law : cb.Lawful) {l l' : List α} (hperm : l'.Perm l)
    (h : l.Pairwise fun x y => cb.comparator x (some y) = false) :
    l'.Pairwise fun x y => cb.comparator x (some y) = false :=
  hperm.symm.pairwise h law.symm

theorem hashRehash_extends (cb : Callbacks α) (fl : Rounding) (table : Table α) (w : World α) (candidate : ℕ) :
    w.Extends (hashRehash cb fl table w candidate).2 := by
  unfold hashRehash
  dsimp only
  split
  · exact World.Extends.refl w
  split
  · exact World.Extends.refl w
  have hmalloc := w.extends_malloc
  split
  · rename_i h
    rwa [h] at hmalloc
  rename_i w₁ h
  rw [h] at hmalloc
  have hpass := transferEntries_extends cb ⟨List.replicate (computeBucketSize fl candidate (table.tuned fl)) ⟨none, []⟩,
    0, 0, table.tuning, table.freeEntryList⟩ table w₁ false
  split
  · rename_i h'
    rw [h'] at hpass
    exact hmalloc.trans hpass
  · rename_i h'
    rw [h'] at hpass
    exact hmalloc.trans hpass
  · rename_i newTable table₁ w₂ h'
    rw [h'] at hpass
    have hundo := undoTransfer_extends cb { table₁ with freeEntryList := newTable.freeEntryList } newTable w₂
    split <;> rename_i h'' <;> rw [h''] at hundo <;> exact hmalloc.trans (hpass.trans hundo)

/-- The table to which the entries are moved first. -/
def Table.next (fl : Rounding) (table : Table α) (candidate : ℕ) : Table α :=
  ⟨List.replicate (computeBucketSize fl candidate (table.tuned fl)) ⟨none, []⟩, 0, 0, table.tuning, table.freeEntryList⟩

/-- The first pass of `hash_rehash`. -/
theorem clean_firstPass {w : World α} {candidate : ℕ} (hclean : (hashRehash cb fl table w candidate).2.Clean)
    (hsize : computeBucketSize fl candidate (table.tuned fl) ≠ 0) (hzero : 0 ≠ table.nBuckets)
    (hanswer : w.answers w.asked = true) :
    (transferEntries cb (table.next fl candidate) table { w with asked := w.asked + 1 } false).2.Clean := by
  have hmalloc : w.malloc = (true, { w with asked := w.asked + 1 }) := by rw [World.malloc, hanswer]
  unfold hashRehash at hclean
  dsimp only at hclean
  rw [if_neg hsize, if_neg hsize, if_neg hzero, hmalloc] at hclean
  dsimp only at hclean
  unfold Table.next
  split at hclean
  · rename_i h'
    rwa [h']
  · rename_i h'
    rwa [h']
  · rename_i new₁ table₁ w₂ h'
    rw [h']
    have hext := undoTransfer_extends cb { table₁ with freeEntryList := new₁.freeEntryList } new₁ w₂
    split at hclean <;> rename_i h'' <;> rw [h''] at hext <;> exact hclean.mono hext

/-- A table that has taken over the entries of another one. -/
theorem Table.Good.of_perm (law : cb.Lawful) (h : table.Good cb bs) {table' : Table α} {bs' : List (List α)}
    (hholds : table'.Holds bs') (hplaced : Placed (cb.place bs'.length) bs') (hperm : bs'.flatten.Perm bs.flatten)
    (hentries : table'.nEntries = table.nEntries) (hused : table'.nBucketsUsed = used bs') : table'.Good cb bs' := by
  refine ⟨hholds, hplaced, ?_, hused, distinct_of_perm law hperm h.distinct⟩
  rw [hentries, h.nEntries, hperm.length_eq]

theorem next_holds (fl : Rounding) (table : Table α) (candidate : ℕ) :
    (table.next fl candidate).Holds (List.replicate (computeBucketSize fl candidate (table.tuned fl)) []) := by
  rw [Table.Holds, List.map_replicate]
  rfl

section FirstPass

variable {new' table' : Table α} {candidate n : ℕ} {ds' ss' : List (List α)} (law : cb.Lawful) (h : table.Good cb bs)
  (hm : Moved cb (table.next fl candidate) (List.replicate n []) bs new' ds' ss') (hc : Counted table bs table' ss')

include law h hm hc

/-- All entries have been moved to the new table. -/
theorem good_of_moved (hempty : ss'.flatten = []) :
    Table.Good cb ⟨new'.bucket, new'.nBucketsUsed, table'.nEntries, table'.tuning, new'.freeEntryList⟩ ds' ∧
      ds'.flatten.Perm bs.flatten := by
  have hperm : (ds'.flatten ++ ss'.flatten).Perm bs.flatten := by simpa using hm.perm
  rw [hempty, List.append_nil] at hperm
  have hplaced : Placed (cb.place ds'.length) ds' := by
    rw [hm.length]
    exact hm.placed (placed_replicate _ _)
  have hused := hm.counted.used
  rw [used_replicate] at hused
  have hholds : Table.Holds ⟨new'.bucket, new'.nBucketsUsed, table'.nEntries, table'.tuning, new'.freeEntryList⟩ ds' :=
    hm.counted.holds
  refine ⟨h.of_perm law hholds hplaced hperm hc.same.nEntries ?_, hperm⟩
  have hzero : (table.next fl candidate).nBucketsUsed = 0 := rfl
  simp only at hused ⊢
  omega

/-- What has been moved goes back to the old table, which is as it was but for the order of the entries. -/
theorem good_of_undone (hzero : 0 ≠ table.nBuckets) {w₂ : World α}
    (hclean : (undoTransfer cb { table' with freeEntryList := new'.freeEntryList } new' w₂).2.Clean) :
    ∃ table₃ bs₃ w₃, undoTransfer cb { table' with freeEntryList := new'.freeEntryList } new' w₂ = (some table₃, w₃) ∧
      table₃.Good cb bs₃ ∧ bs₃.flatten.Perm bs.flatten ∧ table₃.tuning = table.tuning ∧ bs₃.length = bs.length := by
  have hperm : (ds'.flatten ++ ss'.flatten).Perm bs.flatten := by simpa using hm.perm
  have hback : (ss'.flatten ++ ds'.flatten).Perm bs.flatten := List.perm_append_comm.trans hperm
  have hlength : ss'.length = bs.length := hm.subset.length_eq
  have hcells := hm.cells
  rw [used_replicate] at hcells
  have hfree : (table.next fl candidate).freeEntryList = table.freeEntryList := rfl
  have hpos' : 0 < ss'.length := by
    rw [hlength, ← h.holds.nBuckets]
    exact Nat.pos_of_ne_zero (Ne.symm hzero)
  have hplaced' : Placed (cb.place ss'.length) ss' := by
    rw [hlength]
    exact h.placed.subset hm.subset
  have hholds' : Table.Holds { table' with freeEntryList := new'.freeEntryList } ss' := hc.holds
  obtain ⟨table₃, bs₃, w₃, hrun₃, hc₃, hlen₃, hplaced₃, hperm₃⟩ :=
    undoTransfer_spec law hholds' hm.counted.holds hpos' hplaced' w₂ hclean fun bs₃ hp₃ hl₃ hperm₃ => by
      -- The old buckets need as many cells as they did before.
      rw [hlength] at hp₃ hl₃
      have := used_eq_of_perm hp₃ h.placed hl₃ (hperm₃.trans hback)
      simp only
      omega
  have hperm' : bs₃.flatten.Perm bs.flatten := hperm₃.trans hback
  refine ⟨table₃, bs₃, w₃, hrun₃, ?_, hperm', hc₃.same.tuning.trans hc.same.tuning, hlen₃.trans hlength⟩
  apply h.of_perm law hc₃.holds _ hperm'
  · exact hc₃.same.nEntries.trans hc.same.nEntries
  · have hused' := hc₃.used
    have hused₂ := hc.used
    have hused₁ := h.nBucketsUsed
    simp only at hused'
    omega
  · rwa [hlen₃]

end FirstPass

/-- `hash_rehash`, when the hasher is not called for an empty bucket, with the number of buckets. -/
theorem hashRehash_sized (law : cb.Lawful) (h : table.Good cb bs) (w : World α) (candidate : ℕ)
    (hclean : (hashRehash cb fl table w candidate).2.Clean) :
    ∃ ok table' bs' w', hashRehash cb fl table w candidate = (some (ok, table'), w') ∧ table'.Good cb bs' ∧
      bs'.flatten.Perm bs.flatten ∧ table'.tuning = table.tuning ∧
      (ok = true → 0 < bs.length → bs'.length = computeBucketSize fl candidate (table.tuned fl) ∧ 0 < bs'.length) ∧
      (ok = false → bs'.length = bs.length ∧ (computeBucketSize fl candidate (table.tuned fl) = 0 ∨
        ∃ i, w.asked ≤ i ∧ i < w'.asked ∧ w.answers i = false)) := by
  have hfirst := clean_firstPass hclean
  unfold hashRehash at hclean ⊢
  dsimp only at hclean ⊢
  by_cases hsize : computeBucketSize fl candidate (table.tuned fl) = 0
  · rw [if_pos hsize]
    exact ⟨false, table, bs, w, rfl, h, List.Perm.refl _, rfl, by simp, fun _ => ⟨rfl, .inl hsize⟩⟩
  rw [if_neg hsize, if_neg hsize] at hclean ⊢
  by_cases hzero : 0 = table.nBuckets
  · rw [if_pos hzero]
    refine ⟨true, table, bs, w, rfl, h, List.Perm.refl _, rfl, fun _ hpos => ?_, by simp⟩
    rw [← h.holds.nBuckets, ← hzero] at hpos
    cases hpos
  rw [if_neg hzero] at hclean ⊢
  cases hanswer : w.answers w.asked with
  | false =>
    have hmalloc : w.malloc = (false, { w with asked := w.asked + 1 }) := by rw [World.malloc, hanswer]
    rw [hmalloc]
    exact ⟨false, table, bs, _, rfl, h, List.Perm.refl _, rfl, by simp,
      fun _ => ⟨rfl, .inr ⟨w.asked, Nat.le_refl _, Nat.lt_succ_self _, hanswer⟩⟩⟩
  | true =>
    have hmalloc : w.malloc = (true, { w with asked := w.asked + 1 }) := by rw [World.malloc, hanswer]
    rw [hmalloc] at hclean ⊢
    dsimp only at hclean ⊢
    have hnew := next_holds fl table candidate
    have hclean₁ := hfirst hsize hzero hanswer
    have hlen : (List.replicate (computeBucketSize fl candidate (table.tuned fl)) ([] : List α)).length = _ :=
      List.length_replicate
    have hpos : 0 < (List.replicate (computeBucketSize fl candidate (table.tuned fl)) ([] : List α)).length := by
      rw [hlen]
      exact Nat.pos_of_ne_zero hsize
    generalize hw₁ : ({ w with asked := w.asked + 1 } : World α) = w₁ at hclean hclean₁ ⊢
    obtain ⟨ok, new', table', ds', ss', w₂, hrun, hm, hc, -, hempty, hfail⟩ :=
      transferEntries_spec law hnew h.holds hpos w₁ false hclean₁
    unfold Table.next at hrun
    rw [hrun] at hclean ⊢
    cases ok with
    | true =>
      obtain ⟨hgood, hperm⟩ := good_of_moved law h hm hc (hempty rfl rfl)
      exact ⟨true, _, ds', w₂, rfl, hgood, hperm, hc.same.tuning, fun _ _ => ⟨by rw [hm.length, hlen], by rwa [hm.length]⟩,
        by simp⟩
    | false =>
      have hclean₂ : (undoTransfer cb { table' with freeEntryList := new'.freeEntryList } new' w₂).2.Clean := by
        dsimp only at hclean
        split at hclean <;> rename_i h' <;> rwa [h']
      obtain ⟨table₃, bs₃, w₃, hrun₃, hgood, hperm, htuning, hlength⟩ := good_of_undone law h hm hc hzero hclean₂
      have hundo := undoTransfer_extends cb { table' with freeEntryList := new'.freeEntryList } new' w₂
      rw [hrun₃] at hundo
      dsimp only
      rw [hrun₃]
      refine ⟨false, table₃, bs₃, w₃, rfl, hgood, hperm, htuning, by simp, ?_⟩
      intro _
      obtain ⟨i, hle, hlt, hans⟩ := hfail rfl
      subst hw₁
      exact ⟨hlength, .inr ⟨i, Nat.le_of_succ_le hle, Nat.lt_of_lt_of_le hlt hundo.asked, hans⟩⟩

/-- `hash_rehash`, when the hasher is not called for an empty bucket. -/
theorem hashRehash_spec (law : cb.Lawful) (h : table.Good cb bs) (w : World α) (candidate : ℕ)
    (hclean : (hashRehash cb fl table w candidate).2.Clean) :
    ∃ ok table' bs' w', hashRehash cb fl table w candidate = (some (ok, table'), w') ∧ table'.Good cb bs' ∧
      bs'.flatten.Perm bs.flatten ∧ table'.tuning = table.tuning ∧ (0 < bs.length → 0 < bs'.length) ∧
      (ok = false → bs'.length = bs.length ∧ (computeBucketSize fl candidate (table.tuned fl) = 0 ∨
        ∃ i, w.asked ≤ i ∧ i < w'.asked ∧ w.answers i = false)) := by
  obtain ⟨ok, table', bs', w', hrun, hgood, hperm, htuning, hsize, hfail⟩ :=
    hashRehash_sized law h w candidate hclean
  refine ⟨ok, table', bs', w', hrun, hgood, hperm, htuning, fun hpos => ?_, hfail⟩
  cases ok with
  | true => exact (hsize rfl hpos).2
  | false => rwa [(hfail rfl).1]

end Rehash

end CodingExercises.Coreutils
