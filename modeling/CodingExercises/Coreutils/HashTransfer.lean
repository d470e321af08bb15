import CodingExercises.Lib.Chaining
import CodingExercises.Coreutils.HashTable

/-!
# Hash tables: moving the entries to another table

What `transfer_entries` does while every head that it moves is that of a bucket in use. The tables are related to chained
buckets (`Table.Holds`); `transferLoop_spec` is the whole loop, to its end or up to an allocation that fails.
-/

namespace CodingExercises.Coreutils

open Lib

variable {α : Type}

/-! ## Tables and chained buckets -/

/-- The bucket with some entries. -/
def ofList : List α → Bucket α
  | [] => ⟨none, []⟩
  | x :: l => ⟨some x, l.map some⟩

/-- The table has the buckets `bs`. -/
def Table.Holds (table : Table α) (bs : List (List α)) : Prop := table.bucket = bs.map ofList

/-- What is asked of the user's functions: the hasher gives the number of a bucket, and the comparator is an equivalence
that the hasher respects. -/
structure Callbacks.Lawful (cb : Callbacks α) : Prop where
  lt : ∀ x n, 0 < n → cb.hasher (some x) n < n
  equiv : Equivalence fun x y => cb.comparator x (some y) = true
  compatible : ∀ x y n, cb.comparator x (some y) = true → cb.hasher (some x) n = cb.hasher (some y) n

/-- The number of the bucket of an entry, in a table with `n` buckets. -/
def Callbacks.place (cb : Callbacks α) (n : ℕ) (x : α) : ℕ := cb.hasher (some x) n

section Holds

variable {table : Table α} {bs : List (List α)}

theorem Table.Holds.nBuckets (h : table.Holds bs) : table.nBuckets = bs.length := by
  rw [Table.nBuckets, h, List.length_map]

theorem Table.Holds.getElem? (h : table.Holds bs) {i : ℕ} (hi : i < bs.length) :
    ∃ l, bs[i]? = some l ∧ table.bucket[i]? = some (ofList l) := by
  refine ⟨bs[i], List.getElem?_eq_getElem hi, ?_⟩
  rw [h, List.getElem?_map, List.getElem?_eq_getElem hi, Option.map_some]

theorem Table.Holds.setBucket (h : table.Holds bs) (i : ℕ) (l : List α) :
    (table.setBucket i (ofList l)).Holds (bs.set i l) := by
  unfold Table.Holds Table.setBucket
  rw [h, List.map_set]

@[simp]
theorem ofList_data_isSome (l : List α) : (ofList l).data.isSome = !l.isEmpty := by
  cases l <;> rfl

theorem ofList_put {x : α} {l : List α} (h : l ≠ []) :
    (⟨(ofList l).data, some x :: (ofList l).next⟩ : Bucket α) = ofList (put x l) := by
  cases l with
  | nil => exact absurd rfl h
  | cons y l => rfl

theorem ofList_put_nil (x : α) : (⟨some x, (ofList ([] : List α)).next⟩ : Bucket α) = ofList (put x []) := rfl

end Holds

/-! ## The world -/

/-- More allocations have been asked for, and more calls made. -/
structure World.Extends (w w' : World α) : Prop where
  answers : w'.answers = w.answers
  asked : w.asked ≤ w'.asked
  calls : w.calls <:+ w'.calls

theorem World.Extends.refl (w : World α) : w.Extends w := ⟨rfl, Nat.le_refl _, List.suffix_refl _⟩

theorem World.Extends.trans {w₁ w₂ w₃ : World α} (h : w₁.Extends w₂) (h' : w₂.Extends w₃) : w₁.Extends w₃ :=
  ⟨h'.answers.trans h.answers, Nat.le_trans h.asked h'.asked, h.calls.trans h'.calls⟩

theorem World.extends_log (w : World α) (c : Call α) : w.Extends (w.log c) :=
  ⟨rfl, Nat.le_refl _, List.suffix_cons _ _⟩

theorem World.extends_malloc (w : World α) : w.Extends w.malloc.2 :=
  ⟨rfl, Nat.le_succ _, List.suffix_refl _⟩

/-- The hasher has not been called for an empty bucket. -/
def World.Clean (w : World α) : Prop := Call.hasher none ∉ w.calls

theorem World.Clean.mono {w w' : World α} (h : w'.Clean) (hext : w.Extends w') : w.Clean :=
  fun hmem => h (hext.calls.subset hmem)

section Extends

variable (cb : Callbacks α)

theorem allocateEntry_extends (table : Table α) (w : World α) : w.Extends (allocateEntry table w).2 := by
  unfold allocateEntry
  split
  · exact World.Extends.refl w
  · have := w.extends_malloc
    split <;> rename_i h <;> rwa [h] at this

theorem transferOverflow_cons_extends {dst : Table α} {w : World α} {data : Option α} {rest : List (Option α)}
    (hrest : ∀ (dst : Table α) (w : World α), w.Extends (transferOverflow cb dst w rest).2) :
    (w.log (.hasher data)).Extends (transferOverflow cb dst w (data :: rest)).2 := by
  rw [transferOverflow]
  dsimp only
  split
  · exact World.Extends.refl _
  · split
    · exact hrest _ _
    · exact hrest _ _

theorem transferOverflow_extends (dst : Table α) (w : World α) (cells : List (Option α)) :
    w.Extends (transferOverflow cb dst w cells).2 := by
  induction cells generalizing dst w with
  | nil => exact World.Extends.refl w
  | cons data rest ih => exact (w.extends_log (.hasher data)).trans (transferOverflow_cons_extends cb ih)

theorem transferHead_extends (dst : Table α) (w : World α) (data : Option α) :
    (w.log (.hasher data)).Extends (transferHead cb dst w data).2 := by
  unfold transferHead
  dsimp only
  split
  · exact World.Extends.refl _
  · split
    · have := allocateEntry_extends dst (w.log (.hasher data))
      split <;> rename_i h <;> rwa [h] at this
    · exact World.Extends.refl _

theorem transferLoop_cons_extends {safe : Bool} {dst : Table α} {w : World α} {bucket : Bucket α}
    {rest : List (Bucket α)} (hrest : ∀ (dst : Table α) (w : World α), w.Extends (transferLoop cb safe dst w rest).2) :
    (transferOverflow cb dst w bucket.next).2.Extends (transferLoop cb safe dst w (bucket :: rest)).2 := by
  rw [transferLoop]
  split
  · rename_i h
    rw [h]
    exact World.Extends.refl _
  · rename_i dst₁ w₁ h
    rw [h]
    split
    · have := hrest dst₁ w₁
      split <;> rename_i h' <;> rwa [h'] at this
    · have hhead := (w₁.extends_log (.hasher bucket.data)).trans (transferHead_extends cb dst₁ w₁ bucket.data)
      split
      · rename_i h'
        rwa [h'] at hhead
      · rename_i h'
        rwa [h'] at hhead
      · rename_i dst₂ w₂ h'
        rw [h'] at hhead
        have := hrest dst₂ w₂
        split <;> rename_i h'' <;> rw [h''] at this <;> exact hhead.trans this

theorem transferLoop_extends (safe : Bool) (dst : Table α) (w : World α) (buckets : List (Bucket α)) :
    w.Extends (transferLoop cb safe dst w buckets).2 := by
  induction buckets generalizing dst w with
  | nil => exact World.Extends.refl w
  | cons bucket rest ih => exact (transferOverflow_extends cb dst w bucket.next).trans (transferLoop_cons_extends cb ih)

end Extends

/-! ## One step -/

section Steps

variable {cb : Callbacks α} (law : cb.Lawful) {dst : Table α} {bs : List (List α)}

/-- What is left as it is when entries are moved to a table. -/
structure SameShape (dst dst' : Table α) : Prop where
  nEntries : dst'.nEntries = dst.nEntries
  tuning : dst'.tuning = dst.tuning

theorem SameShape.refl (dst : Table α) : SameShape dst dst := ⟨rfl, rfl⟩

theorem SameShape.trans {t₁ t₂ t₃ : Table α} (h : SameShape t₁ t₂) (h' : SameShape t₂ t₃) : SameShape t₁ t₃ :=
  ⟨h'.nEntries.trans h.nEntries, h'.tuning.trans h.tuning⟩

/-- The counters of a table that entries have been moved to: `n_buckets_used` has followed the buckets in use. -/
structure Counted (dst : Table α) (bs : List (List α)) (dst' : Table α) (bs' : List (List α)) : Prop where
  holds : dst'.Holds bs'
  used : dst'.nBucketsUsed - used bs' = dst.nBucketsUsed - used bs
  same : SameShape dst dst'

theorem Counted.trans {t₁ t₂ t₃ : Table α} {bs₁ bs₂ bs₃ : List (List α)} (h : Counted t₁ bs₁ t₂ bs₂)
    (h' : Counted t₂ bs₂ t₃ bs₃) : Counted t₁ bs₁ t₃ bs₃ :=
  ⟨h'.holds, h'.used.trans h.used, h.same.trans h'.same⟩

/-- An entry that is put into a bucket in use, with a cell for it. -/
theorem counted_overflow (hd : dst.Holds bs) {i : ℕ} {l : List α} (hi : bs[i]? = some l) (hl : l ≠ []) (x : α) :
    Counted dst bs (dst.setBucket i ⟨(ofList l).data, some x :: (ofList l).next⟩) (putAt x i bs) := by
  constructor
  · rw [ofList_put hl, putAt_of_some hi]
    exact hd.setBucket i _
  · rw [used_putAt hi, if_neg hl]
    rfl
  · exact ⟨rfl, rfl⟩

/-- An entry that is put into an empty bucket. -/
theorem counted_head (hd : dst.Holds bs) {i : ℕ} (hi : bs[i]? = some []) (x : α) (free : ℕ) :
    Counted dst bs
      ⟨dst.bucket.set i ⟨some x, (ofList ([] : List α)).next⟩, dst.nBucketsUsed + 1, dst.nEntries, dst.tuning, free⟩
      (putAt x i bs) := by
  constructor
  · rw [ofList_put_nil, putAt_of_some hi]
    exact hd.setBucket i _
  · rw [used_putAt hi, if_pos rfl]
    push_cast
    omega
  · exact ⟨rfl, rfl⟩

include law in
/-- The overflow of a bucket is moved. -/
theorem transferOverflow_spec (hd : dst.Holds bs) (hpos : 0 < bs.length) (xs : List α) (w : World α) :
    ∃ dst' w', transferOverflow cb dst w (xs.map some) = (some dst', w') ∧
      Counted dst bs dst' (putAll (cb.place bs.length) xs bs) ∧
      dst'.freeEntryList + used bs = dst.freeEntryList + used (putAll (cb.place bs.length) xs bs) ∧
      w'.asked = w.asked := by
  induction xs generalizing dst bs w with
  | nil => exact ⟨dst, w, rfl, ⟨hd, rfl, SameShape.refl dst⟩, rfl, rfl⟩
  | cons x xs ih =>
    have hlt : cb.place bs.length x < bs.length := law.lt x _ hpos
    obtain ⟨l, hl, hget⟩ := hd.getElem? hlt
    have hused := used_putAt hl x
    have hlen : (putAt x (cb.place bs.length x) bs).length = bs.length := length_putAt _ _ _
    have hplace : cb.hasher (some x) dst.nBuckets = cb.place bs.length x := by rw [hd.nBuckets]; rfl
    rw [List.map_cons, transferOverflow, putAll_cons]
    simp only [hplace, hget, ofList_data_isSome]
    by_cases hnil : l = []
    · -- The bucket is empty: the entry becomes its head, and the cell is free.
      subst hnil
      have hc := counted_head hd hl x (dst.freeEntryList + 1)
      obtain ⟨dst', w', hrun, hc', hfree, hasked⟩ := ih hc.holds (by rwa [hlen]) (w.log (.hasher (some x)))
      rw [hlen] at hc' hfree
      refine ⟨dst', w', ?_, hc.trans hc', ?_, hasked⟩
      · simpa [Table.setBucket] using hrun
      · simp only [if_true] at hused hfree
        omega
    · have hc := counted_overflow hd hl hnil x
      obtain ⟨dst', w', hrun, hc', hfree, hasked⟩ := ih hc.holds (by rwa [hlen]) (w.log (.hasher (some x)))
      rw [hlen] at hc' hfree
      refine ⟨dst', w', ?_, hc.trans hc', ?_, hasked⟩
      · have hne : l.isEmpty = false := by simpa using hnil
        simpa [hne] using hrun
      · rw [if_neg hnil] at hused
        have hsame : (dst.setBucket (cb.place bs.length x) ⟨(ofList l).data, some x :: (ofList l).next⟩).freeEntryList =
            dst.freeEntryList := rfl
        omega

/-- A cell is handed out, or there is none and the allocation fails. -/
theorem allocateEntry_cases (table : Table α) (w : World α) :
    (∃ free w', allocateEntry table w = (some { table with freeEntryList := free }, w') ∧
        table.freeEntryList ≤ free + 1) ∨
      ∃ w', allocateEntry table w = (none, w') ∧ table.freeEntryList = 0 ∧ w'.asked = w.asked + 1 ∧
        w.answers w.asked = false := by
  unfold allocateEntry
  by_cases h : table.freeEntryList = 0
  · rw [if_neg (not_not.mpr h)]
    cases ha : w.answers w.asked with
    | false =>
      right
      simp [World.malloc, ha, h]
    | true =>
      left
      exact ⟨table.freeEntryList, { w with asked := w.asked + 1 }, by simp [World.malloc, ha], Nat.le_succ _⟩
  · left
    rw [if_pos h]
    exact ⟨_, w, rfl, by omega⟩

include law in
/-- The head of a bucket is moved, or there is no cell for it. -/
theorem transferHead_spec (hd : dst.Holds bs) (hpos : 0 < bs.length) (x : α) (w : World α) :
    (∃ dst' w', transferHead cb dst w (some x) = (some (true, dst'), w') ∧
        Counted dst bs dst' (putAt x (cb.place bs.length x) bs) ∧
        dst.freeEntryList + used (putAt x (cb.place bs.length x) bs) ≤ dst'.freeEntryList + used bs + 1) ∨
      ∃ w', transferHead cb dst w (some x) = (some (false, dst), w') ∧
        used (putAt x (cb.place bs.length x) bs) = used bs ∧ dst.freeEntryList = 0 ∧
        w'.asked = w.asked + 1 ∧ w.answers w.asked = false := by
  have hlt : cb.place bs.length x < bs.length := law.lt x _ hpos
  obtain ⟨l, hl, hget⟩ := hd.getElem? hlt
  have hused := used_putAt hl x
  have hplace : cb.hasher (some x) dst.nBuckets = cb.place bs.length x := by rw [hd.nBuckets]; rfl
  unfold transferHead
  simp only [hplace, hget, ofList_data_isSome]
  by_cases hnil : l = []
  · left
    subst hnil
    refine ⟨_, w.log (.hasher (some x)), by simp [Table.setBucket], counted_head hd hl x dst.freeEntryList, ?_⟩
    simp only [if_true] at hused
    simp only
    omega
  · have hne : l.isEmpty = false := by simpa using hnil
    rw [if_neg hnil] at hused
    simp only [hne, Bool.not_false, if_true]
    obtain ⟨free, w', halloc, hfree⟩ | ⟨w', halloc, hfree, hasked, ha⟩ :=
      allocateEntry_cases dst (w.log (.hasher (some x)))
    · left
      rw [halloc]
      have hd' : Table.Holds { dst with freeEntryList := free } bs := hd
      have hc := counted_overflow hd' hl hnil x
      refine ⟨_, w', rfl, ⟨hc.holds, hc.used, ⟨rfl, rfl⟩⟩, ?_⟩
      have hsame : (Table.setBucket { dst with freeEntryList := free } (cb.place bs.length x)
          ⟨(ofList l).data, some x :: (ofList l).next⟩).freeEntryList = free := rfl
      omega
    · right
      rw [halloc]
      exact ⟨w', rfl, by omega, hfree, hasked, ha⟩

/-! ## The loop -/

/-- Buckets without an overflow. -/
theorem length_flatten_of_heads {ss : List (List α)} (h : ∀ l ∈ ss, l.length ≤ 1) : ss.flatten.length = used ss := by
  induction ss with
  | nil => rfl
  | cons l ss ih =>
    have hl := h l List.mem_cons_self
    rw [List.flatten_cons, List.length_append, used_cons, ih fun l hl => h l (List.mem_cons_of_mem _ hl)]
    cases l with
    | nil => simp
    | cons x xs =>
      rw [List.length_cons] at hl ⊢
      rw [if_neg (List.cons_ne_nil x xs)]
      omega

/-- What the loop of `transfer_entries` leaves, when it goes through the buckets `ss` and moves entries to a table with the
buckets `ds`. -/
structure Moved (cb : Callbacks α) (dst : Table α) (ds ss : List (List α)) (dst' : Table α) (ds' ss' : List (List α)) :
    Prop where
  counted : Counted dst ds dst' ds'
  length : ds'.length = ds.length
  placed : Placed (cb.place ds.length) ds → Placed (cb.place ds.length) ds'
  perm : (ds'.flatten ++ ss'.flatten).Perm (ds.flatten ++ ss.flatten)
  subset : List.Forall₂ (fun l' l => l' ⊆ l) ss' ss
  cells : dst.freeEntryList + used ds' + used ss' ≤ dst'.freeEntryList + used ds + used ss

theorem moved_refl (hd : dst.Holds bs) (ss : List (List α)) : Moved cb dst bs ss dst bs ss :=
  ⟨⟨hd, rfl, SameShape.refl dst⟩, rfl, id, List.Perm.refl _, List.forall₂_same.mpr fun _ _ _ hx => hx, Nat.le_refl _⟩

/-- One more bucket: first the entries `xs` of it are moved to `dst₁`, and `l'` are left of it. -/
theorem moved_cons {dst₁ dst' : Table α} {ds ds' ss ss' : List (List α)} {l l' xs : List α}
    (hplace : ∀ x, cb.place ds.length x < ds.length) (hc : Counted dst ds dst₁ (putAll (cb.place ds.length) xs ds))
    (hl : (xs ++ l').Perm l)
    (hcells : dst.freeEntryList + used (putAll (cb.place ds.length) xs ds) + (if l' = [] then 0 else 1) ≤
      dst₁.freeEntryList + used ds + if l = [] then 0 else 1)
    (h : Moved cb dst₁ (putAll (cb.place ds.length) xs ds) ss dst' ds' ss') :
    Moved cb dst ds (l :: ss) dst' ds' (l' :: ss') := by
  have hperm : (putAll (cb.place ds.length) xs ds).flatten.Perm (xs ++ ds.flatten) := putAll_perm fun x _ => hplace x
  have hcells' := h.cells
  constructor
  · exact hc.trans h.counted
  · rw [h.length, length_putAll]
  · intro hp
    have := h.placed
    rw [length_putAll] at this
    exact this (hp.putAll xs)
  · rw [List.flatten_cons, List.flatten_cons]
    calc ds'.flatten ++ (l' ++ ss'.flatten)
      _ |>.Perm (l' ++ (ds'.flatten ++ ss'.flatten)) := List.perm_append_comm_assoc _ _ _
      _ |>.Perm (l' ++ ((putAll (cb.place ds.length) xs ds).flatten ++ ss.flatten)) := h.perm.append_left l'
      _ |>.Perm (l' ++ ((xs ++ ds.flatten) ++ ss.flatten)) := (hperm.append_right _).append_left l'
      _ |>.Perm ((xs ++ l') ++ (ds.flatten ++ ss.flatten)) := by
        rw [List.append_assoc, List.append_assoc]
        exact List.perm_append_comm_assoc _ _ _
      _ |>.Perm (l ++ (ds.flatten ++ ss.flatten)) := hl.append_right _
      _ |>.Perm (ds.flatten ++ (l ++ ss.flatten)) := List.perm_append_comm_assoc _ _ _
  · refine .cons ?_ h.subset
    intro x hx
    exact hl.subset (List.mem_append_right _ hx)
  · rw [used_cons, used_cons]
    omega

/-- The head of an empty bucket is not moved without a call of the hasher for it. -/
theorem not_clean_transferHead (cb : Callbacks α) (dst : Table α) (w : World α) :
    ¬ (transferHead cb dst w none).2.Clean := by
  intro h
  apply h
  exact (transferHead_extends cb dst w none).calls.subset List.mem_cons_self

/-- Nor is an empty bucket gone through. -/
theorem not_clean_transferLoop_nil (cb : Callbacks α) (dst : Table α) (w : World α) (rest : List (Bucket α)) :
    ¬ (transferLoop cb false dst w (ofList [] :: rest)).2.Clean := by
  intro hclean
  have hover : transferOverflow cb dst w (ofList ([] : List α)).next = (some dst, w) := rfl
  have hdata : (ofList ([] : List α)).data = none := rfl
  rw [transferLoop, hover, hdata] at hclean
  simp only [Bool.false_eq_true, if_false] at hclean
  apply not_clean_transferHead cb dst w
  split at hclean
  · rename_i w₁ h
    rwa [h]
  · rename_i dst₁ w₁ h
    rwa [h]
  · rename_i dst₁ w₁ h
    rw [h]
    have hext := transferLoop_extends cb false dst₁ w₁ rest
    split at hclean <;> rename_i h' <;> rw [h'] at hext <;> exact hclean.mono hext

/-- What the loop of `transfer_entries` comes to: if the heads are kept, to its end; else it empties the buckets, or stops because an
allocation fails. -/
def Transfers (cb : Callbacks α) (safe : Bool) (dst : Table α) (ds ss : List (List α)) (w : World α) : Prop :=
  ∃ ok dst' ds' ss' moved w', transferLoop cb safe dst w (ss.map ofList) = (some (ok, dst', ss'.map ofList, moved), w') ∧
    Moved cb dst ds ss dst' ds' ss' ∧ used ss' + moved = used ss ∧
    (safe = true → ok = true ∧ ∀ l ∈ ss', l.length ≤ 1) ∧ (safe = false → ok = true → ss'.flatten = []) ∧
    (ok = false → ∃ i, w.asked ≤ i ∧ i < w'.asked ∧ w.answers i = false)

/-- An empty bucket, when the heads are kept. -/
theorem transfers_empty {ds ss : List (List α)} (hplace : ∀ x, cb.place ds.length x < ds.length) (hd : dst.Holds ds) {w : World α}
    (h : Transfers cb true dst ds ss w) : Transfers cb true dst ds ([] :: ss) w := by
  obtain ⟨ok, dst', ds', ss', moved, w', hrun, hm, hmoved, hsafe, -, hfail⟩ := h
  have hover : transferOverflow cb dst w (ofList ([] : List α)).next = (some dst, w) := rfl
  refine ⟨ok, dst', ds', [] :: ss', moved, w', ?_, ?_, ?_, ?_, by simp, hfail⟩
  · rw [List.map_cons, transferLoop, hover]
    dsimp only
    simp only [if_true]
    rw [hrun]
    rfl
  · have hnone : Counted dst ds dst (putAll (cb.place ds.length) [] ds) := ⟨hd, rfl, SameShape.refl dst⟩
    exact moved_cons hplace hnone (List.Perm.refl _) (Nat.le_refl _) hm
  · rw [used_cons, used_cons]
    omega
  · intro _
    refine ⟨(hsafe rfl).1, ?_⟩
    simpa using (hsafe rfl).2

section Bucket

variable {dst₁ : Table α} {ds ss : List (List α)} {x : α} {xs : List α} {w w₁ : World α}
  (hplace : ∀ x, cb.place ds.length x < ds.length)
  (hover : transferOverflow cb dst w (xs.map some) = (some dst₁, w₁))
  (hc : Counted dst ds dst₁ (putAll (cb.place ds.length) xs ds))
  (hfree : dst₁.freeEntryList + used ds = dst.freeEntryList + used (putAll (cb.place ds.length) xs ds))

include hplace hover hc hfree

/-- The overflow of a bucket is moved, and its head is kept. -/
theorem transfers_kept (h : Transfers cb true dst₁ (putAll (cb.place ds.length) xs ds) ss w₁) :
    Transfers cb true dst ds ((x :: xs) :: ss) w := by
  obtain ⟨ok, dst', ds', ss', moved, w', hrun, hm, hmoved, hsafe, -, hfail⟩ := h
  have hnext : (ofList (x :: xs)).next = xs.map some := rfl
  refine ⟨ok, dst', ds', [x] :: ss', moved, w', ?_, ?_, ?_, ?_, by simp, ?_⟩
  · rw [List.map_cons, transferLoop, hnext, hover]
    dsimp only
    simp only [if_true]
    rw [hrun]
    rfl
  · exact moved_cons hplace hc List.perm_append_comm (by simp; omega) hm
  · rw [used_cons, used_cons]
    simp only [reduceCtorEq, if_false]
    omega
  · intro _
    refine ⟨(hsafe rfl).1, ?_⟩
    simpa using (hsafe rfl).2
  · intro hok
    rw [(hsafe rfl).1] at hok
    cases hok

/-- The head is moved too, and nothing is left of the bucket. -/
theorem transfers_moved {dst₂ : Table α} {w₂ : World α} (hhead : transferHead cb dst₁ w₁ (some x) = (some (true, dst₂), w₂))
    (hc₂ : Counted dst₁ (putAll (cb.place ds.length) xs ds) dst₂ (putAll (cb.place ds.length) (xs ++ [x]) ds))
    (hcells : dst₁.freeEntryList + used (putAll (cb.place ds.length) (xs ++ [x]) ds) ≤
      dst₂.freeEntryList + used (putAll (cb.place ds.length) xs ds) + 1)
    (hext : w.Extends w₂) (h : Transfers cb false dst₂ (putAll (cb.place ds.length) (xs ++ [x]) ds) ss w₂) :
    Transfers cb false dst ds ((x :: xs) :: ss) w := by
  obtain ⟨ok, dst', ds', ss', moved, w', hrun, hm, hmoved, -, hempty, hfail⟩ := h
  have hnext : (ofList (x :: xs)).next = xs.map some := rfl
  have hdata : (ofList (x :: xs)).data = some x := rfl
  refine ⟨ok, dst', ds', [] :: ss', moved + 1, w', ?_, ?_, ?_, by simp, ?_, ?_⟩
  · rw [List.map_cons, transferLoop, hnext, hover, hdata]
    dsimp only
    simp only [Bool.false_eq_true, if_false]
    rw [hhead]
    dsimp only
    rw [hrun]
    rfl
  · apply moved_cons hplace (hc.trans hc₂) _ _ hm
    · rw [List.append_nil]
      exact List.perm_append_comm
    · simp
      omega
  · rw [used_cons, used_cons]
    simp only [reduceCtorEq, if_false, if_true]
    omega
  · intro _ hok
    rw [List.flatten_cons, hempty rfl hok]
    rfl
  · intro hok
    obtain ⟨i, hle, hi, hans⟩ := hfail hok
    refine ⟨i, Nat.le_trans hext.asked hle, hi, ?_⟩
    rwa [← hext.answers]

/-- There is no cell for the head, which stays where it is. -/
theorem transfers_stuck {w₂ : World α} (hhead : transferHead cb dst₁ w₁ (some x) = (some (false, dst₁), w₂)) (hext : w.Extends w₁)
    (hasked : w₁.asked < w₂.asked) (ha : w₁.answers w₁.asked = false) : Transfers cb false dst ds ((x :: xs) :: ss) w := by
  have hnext : (ofList (x :: xs)).next = xs.map some := rfl
  have hdata : (ofList (x :: xs)).data = some x := rfl
  refine ⟨false, dst₁, putAll (cb.place ds.length) xs ds, [x] :: ss, 0, w₂, ?_, ?_, ?_, by simp, by simp, ?_⟩
  · rw [List.map_cons, transferLoop, hnext, hover, hdata]
    dsimp only
    simp only [Bool.false_eq_true, if_false]
    rw [hhead]
    rfl
  · have hsplit : (xs ++ [x]).Perm (x :: xs) := List.perm_append_comm
    apply moved_cons hplace hc hsplit _ (moved_refl hc.holds ss)
    simp only [reduceCtorEq, if_false]
    omega
  · rw [used_cons, used_cons, if_neg (List.cons_ne_nil x []), if_neg (List.cons_ne_nil x xs)]
  · intro _
    refine ⟨w₁.asked, hext.asked, hasked, ?_⟩
    rwa [← hext.answers]

end Bucket

include law in
/-- The loop of `transfer_entries`, when the hasher is not called for an empty bucket. -/
theorem transferLoop_spec (safe : Bool) {ds ss : List (List α)} (hd : dst.Holds ds) (hpos : 0 < ds.length) (w : World α)
    (hclean : (transferLoop cb safe dst w (ss.map ofList)).2.Clean) : Transfers cb safe dst ds ss w := by
  induction ss generalizing dst ds w with
  | nil => exact ⟨true, dst, ds, [], 0, w, rfl, moved_refl hd [], rfl, by simp, by simp, by simp⟩
  | cons l ss ih =>
    have hplace : ∀ x, cb.place ds.length x < ds.length := fun x => law.lt x _ hpos
    rw [List.map_cons] at hclean
    cases l with
    | nil =>
      cases safe with
      | false => exact absurd hclean (not_clean_transferLoop_nil cb dst w _)
      | true =>
        have hover : transferOverflow cb dst w (ofList ([] : List α)).next = (some dst, w) := rfl
        rw [transferLoop, hover] at hclean
        simp only [if_true] at hclean
        refine transfers_empty hplace hd (ih hd hpos w ?_)
        split at hclean <;> rename_i h <;> rwa [h]
    | cons x xs =>
      obtain ⟨dst₁, w₁, hover, hc, hfree, hasked⟩ := transferOverflow_spec law hd hpos xs w
      have hext := transferOverflow_extends cb dst w (xs.map some)
      rw [hover] at hext
      have hnext : (ofList (x :: xs)).next = xs.map some := rfl
      have hdata : (ofList (x :: xs)).data = some x := rfl
      have hlen : (putAll (cb.place ds.length) xs ds).length = ds.length := length_putAll _ _ _
      rw [transferLoop, hnext, hover, hdata] at hclean
      cases safe with
      | true =>
        simp only [if_true] at hclean
        refine transfers_kept hplace hover hc hfree (ih hc.holds (by rwa [hlen]) w₁ ?_)
        split at hclean <;> rename_i h <;> rwa [h]
      | false =>
        simp only [Bool.false_eq_true, if_false] at hclean
        have hsnoc : putAt x (cb.place ds.length x) (putAll (cb.place ds.length) xs ds) =
            putAll (cb.place ds.length) (xs ++ [x]) ds := by
          simp [putAll]
        have hstep := transferHead_spec law hc.holds (by rwa [hlen]) x w₁
        rw [hlen, hsnoc] at hstep
        have hexth := (w₁.extends_log (.hasher (some x))).trans (transferHead_extends cb dst₁ w₁ (some x))
        obtain ⟨dst₂, w₂, hhead, hc₂, hcells⟩ | ⟨w₂, hhead, -, -, hasked₂, ha⟩ := hstep
        · rw [hhead] at hclean hexth
          dsimp only at hclean
          have hlen₂ : (putAll (cb.place ds.length) (xs ++ [x]) ds).length = ds.length := length_putAll _ _ _
          refine transfers_moved hplace hover hc hfree hhead hc₂ hcells (hext.trans hexth) (ih hc₂.holds (by rwa [hlen₂]) w₂ ?_)
          split at hclean <;> rename_i h <;> rwa [h]
        · exact transfers_stuck hplace hover hc hfree hhead hext (by omega) ha

include law in
/-- With a cell for every head that needs one, the heads are moved to the end. -/
theorem transferLoop_enough {ds ss : List (List α)} (hd : dst.Holds ds) (hpos : 0 < ds.length) (w : World α)
    (hclean : (transferLoop cb false dst w (ss.map ofList)).2.Clean) (hheads : ∀ l ∈ ss, l.length ≤ 1)
    (hcells : used ss + used ds ≤ dst.freeEntryList + used (putAll (cb.place ds.length) ss.flatten ds)) :
    ∃ r w', transferLoop cb false dst w (ss.map ofList) = (some (true, r), w') := by
  induction ss generalizing dst ds w with
  | nil => exact ⟨_, w, rfl⟩
  | cons l ss ih =>
    have hrest : ∀ l ∈ ss, l.length ≤ 1 := fun l hl => hheads l (List.mem_cons_of_mem _ hl)
    have hsingle := length_flatten_of_heads hrest
    rw [List.map_cons] at hclean ⊢
    cases l with
    | nil => exact absurd hclean (not_clean_transferLoop_nil cb dst w _)
    | cons x xs =>
      obtain rfl : xs = [] := by simpa using hheads _ List.mem_cons_self
      have hover : transferOverflow cb dst w (ofList [x]).next = (some dst, w) := rfl
      have hdata : (ofList [x]).data = some x := rfl
      have hlen : (putAt x (cb.place ds.length x) ds).length = ds.length := length_putAt _ _ _
      have hrestle := used_putAll_le (cb.place ds.length) ss.flatten (putAt x (cb.place ds.length x) ds)
      have hflat : ([x] :: ss).flatten = x :: ss.flatten := rfl
      rw [used_cons, if_neg (List.cons_ne_nil x []), hflat, putAll_cons] at hcells
      rw [transferLoop, hover, hdata] at hclean ⊢
      simp only [Bool.false_eq_true, if_false] at hclean ⊢
      obtain ⟨dst₁, w₁, hhead, hc, hfree⟩ | ⟨w₁, -, hused, hzero, -⟩ := transferHead_spec law hd hpos x w
      · rw [hhead] at hclean ⊢
        dsimp only at hclean ⊢
        have hclean' : (transferLoop cb false dst₁ w₁ (ss.map ofList)).2.Clean := by
          split at hclean <;> rename_i h <;> rwa [h]
        obtain ⟨r, w', hrun⟩ := ih hc.holds (by rwa [hlen]) w₁ hclean' hrest (by rw [hlen]; omega)
        rw [hrun]
        exact ⟨_, w', rfl⟩
      · -- A cell is there, since the head of every other bucket takes at most one bucket into use.
        omega

end Steps

end CodingExercises.Coreutils
