import Mathlib.Data.List.Nodup
import CodingExercises.Coreutils.HashRuns

/-!
# Hash tables: walks through all entries

`hash_get_first`, `hash_get_entries` and `hash_do_for_each` of `lib/hash.c`, and the loop with `hash_get_next`.

- `forEntries_eq`: a loop over the buckets and their cells is one over the entries;
- `hashGetNext_eq`: the entry after an entry is the next one in this order;
- `walks_agree`: so all of them go through the same entries.
-/

namespace CodingExercises.Coreutils

open Lib

variable {α σ : Type}

/-! ## The program -/

/-- `hash_get_first`; without a value the program is aborted. -/
def hashGetFirst (table : Table α) : Option (Option α) :=
  if sizeT table.nEntries = 0 then some none else (table.bucket.findSome? Bucket.data).map some

/-- The calls of `hash_get_next` in a loop that goes on until it gives `NULL`, with `fuel` calls at most: the entries. Without
them the program is aborted, or the loop does not end in time. -/
def iterateLoop [DecidableEq α] (cb : Callbacks α) (table : Table α) : ℕ → World α → Option α → Option (List α × World α)
  | _, w, none => some ([], w)
  | 0, _, some _ => none
  | fuel + 1, w, some entry =>
    match hashGetNext cb table w entry with
    | (none, _) => none
    | (some data, w) => (iterateLoop cb table fuel w data).map fun r => (entry :: r.1, r.2)

/-- The loop that starts with `hash_get_first`. -/
def iterate [DecidableEq α] (cb : Callbacks α) (table : Table α) (fuel : ℕ) (w : World α) : Option (List α × World α) :=
  (hashGetFirst table).bind (iterateLoop cb table fuel w)

/-- A loop over the cells of a bucket, and whether it comes to its end: its body may return from the function. -/
def forCells (body : σ → Option α → σ × Bool) : σ → List (Option α) → σ × Bool
  | s, [] => (s, true)
  | s, data :: rest =>
    match body s data with
    | (s, true) => forCells body s rest
    | (s, false) => (s, false)

/-- A loop over the buckets with one over their cells. -/
def forEntries (body : σ → Option α → σ × Bool) : σ → List (Bucket α) → σ
  | s, [] => s
  | s, bucket :: rest =>
    if bucket.data.isSome then
      match forCells body s (bucket.data :: bucket.next) with
      | (s, true) => forEntries body s rest
      | (s, false) => s
    else forEntries body s rest

/-- The body of the loop in `hash_get_entries`, with the buffer and the counter. -/
def copyEntry (bufferSize : ℕ) (s : (ℕ → Option α) × ℕ) (data : Option α) : ((ℕ → Option α) × ℕ) × Bool :=
  if s.2 ≥ bufferSize then (s, false) else ((Function.update s.1 s.2 data, s.2 + 1), true)

/-- `hash_get_entries`: the buffer and the number of pointers copied. -/
def hashGetEntries (table : Table α) (buffer : ℕ → Option α) (bufferSize : ℕ) : (ℕ → Option α) × ℕ :=
  forEntries (copyEntry bufferSize) (buffer, 0) table.bucket

/-- The body of the loop in `hash_do_for_each`, with the state that the processor works on, its calls with their answers, and the
counter. -/
def processEntry (processor : σ → Option α → Bool × σ) (s : σ × List (Option α × Bool) × ℕ) (data : Option α) :
    (σ × List (Option α × Bool) × ℕ) × Bool :=
  match processor s.1 data with
  | (false, s') => ((s', s.2.1 ++ [(data, false)], s.2.2), false)
  | (true, s') => ((s', s.2.1 ++ [(data, true)], s.2.2 + 1), true)

/-- `hash_do_for_each`: the state, the calls of the processor with their answers, and the number that is returned. -/
def hashDoForEach (table : Table α) (processor : σ → Option α → Bool × σ) (s : σ) : σ × List (Option α × Bool) × ℕ :=
  forEntries (processEntry processor) (s, [], 0) table.bucket

/-! ## What is expected -/

/-- The entry is in the table. -/
def Table.Stores (table : Table α) (x : α) : Prop := ∃ b ∈ table.bucket, b.data = some x ∨ some x ∈ b.next

/-- The entries of the table, each of them once, and as many as the table says. -/
structure Enumerates (table : Table α) (es : List α) : Prop where
  nodup : es.Nodup
  stored : ∀ x, x ∈ es ↔ table.Stores x
  length : es.length = table.nEntries

/-- The calls for the first `n` entries, which succeed, and one for the next entry, if there is one, which does not. -/
def processed (es : List α) (n : ℕ) : List (Option α × Bool) :=
  (es.take n).map (fun x => (some x, true)) ++ es[n]?.toList.map fun x => (some x, false)

/-! ## Loops over the entries -/

section Loops

variable {body : σ → Option α → σ × Bool} {table : Table α} {bs : List (List α)}

theorem forCells_append (s : σ) (l l' : List (Option α)) :
    forCells body s (l ++ l') =
      match forCells body s l with
      | (s, true) => forCells body s l'
      | (s, false) => (s, false) := by
  induction l generalizing s with
  | nil => rfl
  | cons data rest ih =>
    rw [List.cons_append, forCells, forCells]
    cases body s data with
    | mk s b =>
      cases b with
      | true => exact ih s
      | false => rfl

/-- A loop over the buckets is one over the entries. -/
theorem forEntries_eq (h : table.Holds bs) (s : σ) :
    forEntries body s table.bucket = (forCells body s (bs.flatten.map some)).1 := by
  rw [h]
  clear h
  induction bs generalizing s with
  | nil => rfl
  | cons l bs ih =>
    rw [List.map_cons, List.flatten_cons, List.map_append, forCells_append, forEntries]
    cases l with
    | nil => exact ih s
    | cons x l =>
      simp only [ofList, Option.isSome_some, if_true, List.map_cons]
      cases forCells body s (some x :: l.map some) with
      | mk s b =>
        cases b with
        | true => exact ih s
        | false => rfl

/-- The loop of `hash_get_entries` over some entries. -/
theorem forCells_copy (bufferSize : ℕ) (es : List α) (buffer : ℕ → Option α) (counter : ℕ) :
    (forCells (copyEntry bufferSize) (buffer, counter) (es.map some)).1 =
      (fun i => if counter ≤ i ∧ i < counter + min es.length (bufferSize - counter) then es[i - counter]? else buffer i,
        counter + min es.length (bufferSize - counter)) := by
  have hnone : ∀ i, ¬(counter ≤ i ∧ i < counter) := by
    intro i hi
    omega
  induction es generalizing buffer counter with
  | nil => simp [forCells, hnone]
  | cons x es ih =>
    rw [List.map_cons, forCells, copyEntry]
    by_cases hfull : counter ≥ bufferSize
    · simp [hfull, show bufferSize - counter = 0 by omega, hnone]
    · have hmin : min (es.length + 1) (bufferSize - counter) = min es.length (bufferSize - (counter + 1)) + 1 := by omega
      have hnone' : ∀ i, ¬(counter + 1 ≤ i ∧ i < counter + 1) := by
        intro i hi
        omega
      simp only [hfull, if_false, ih _ _ hnone', List.length_cons, hmin]
      refine Prod.ext (funext fun i => ?_) (by simp only; omega)
      simp only
      rcases Nat.lt_trichotomy i counter with hi | rfl | hi
      · rw [if_neg (by omega), if_neg (by omega), Function.update_of_ne (by omega)]
      · rw [if_neg (by omega), if_pos (by omega), Function.update_self, Nat.sub_self, List.getElem?_cons_zero]
      · have hsub : i - counter = (i - (counter + 1)) + 1 := by omega
        rw [Function.update_of_ne (by omega), hsub, List.getElem?_cons_succ]
        exact if_congr (by omega) rfl rfl

/-- The loop of `hash_do_for_each` over some entries. -/
theorem forCells_process (processor : σ → Option α → Bool × σ) (es : List α) (s : σ) (calls : List (Option α × Bool))
    (counter : ℕ) :
    ∃ s' n, (forCells (processEntry processor) (s, calls, counter) (es.map some)).1 =
        (s', calls ++ processed es n, counter + n) ∧ n ≤ es.length ∧
          (n < es.length → ∃ s data, (processor s data).1 = false) := by
  induction es generalizing s calls counter with
  | nil => exact ⟨s, 0, by simp [forCells, processed], Nat.le_refl _, fun h => absurd h (Nat.lt_irrefl _)⟩
  | cons x es ih =>
    rw [List.map_cons, forCells, processEntry]
    cases hp : processor s (some x) with
    | mk answer s₁ =>
      cases answer with
      | false => exact ⟨s₁, 0, by simp [processed], Nat.zero_le _, fun _ => ⟨s, some x, by rw [hp]⟩⟩
      | true =>
        obtain ⟨s', n, hrun, hle, hlt⟩ := ih s₁ (calls ++ [(some x, true)]) (counter + 1)
        have hn : counter + 1 + n = counter + (n + 1) := by omega
        refine ⟨s', n + 1, ?_, Nat.succ_le_succ hle, fun h => hlt (Nat.lt_of_succ_lt_succ h)⟩
        simp only [hrun, processed, List.take_succ_cons, List.map_cons, List.getElem?_cons_succ, List.append_assoc,
          List.nil_append, List.cons_append, hn]

end Loops

/-! ## The next entry -/

section Next

/-- The first entry of some buckets. -/
theorem findSome?_data (bs : List (List α)) : (bs.map ofList).findSome? Bucket.data = bs.flatten.head? := by
  induction bs with
  | nil => rfl
  | cons l bs ih =>
    cases l with
    | nil => exact ih
    | cons x l => rfl

variable {cb : Callbacks α} {table : Table α} {bs : List (List α)}

/-- The entries are different from each other. -/
theorem Table.Good.nodup (law : cb.Lawful) (h : table.Good cb bs) : bs.flatten.Nodup := by
  apply h.distinct.imp
  rintro x _ hxy rfl
  have hself : cb.comparator x (some x) = true := law.equiv.refl x
  rw [hxy] at hself
  cases hself

variable [DecidableEq α]

/-- The cell behind the one with the entry. -/
theorem nextInBucket_eq {x : α} {l₁ l₂ : List α} (h₁ : x ∉ l₁) (h₂ : x ∉ l₂) :
    nextInBucket x ((l₁ ++ x :: l₂).map some) = l₂.head?.map some := by
  induction l₁ with
  | nil =>
    cases l₂ with
    | nil => rfl
    | cons y l₂ => simp [nextInBucket]
  | cons y l₁ ih =>
    rw [List.mem_cons, not_or] at h₁
    have hne : ¬some y = some x := fun h => h₁.1 (Option.some.inj h).symm
    rw [List.cons_append, List.map_cons, ← ih h₁.2]
    cases l₁ with
    | nil => exact if_neg hne
    | cons z l₁ => exact if_neg hne

/-- What `hash_get_next` gives is the next entry. -/
theorem hashGetNext_eq (law : cb.Lawful) (h : table.Good cb bs) {x : α} {pre post : List α}
    (hbs : bs.flatten = pre ++ x :: post) (w : World α) :
    hashGetNext cb table w x = (some post.head?, w.log (.hasher (some x))) := by
  have hnodup := h.nodup law
  have hx : x ∈ bs.flatten := by rw [hbs]; simp
  obtain ⟨l, hl, hxl⟩ := List.mem_flatten.mp hx
  obtain ⟨i, hi, rfl⟩ := List.mem_iff_getElem.mp hl
  obtain ⟨l₁, l₂, hsplit⟩ := List.append_of_mem hxl
  have hplace : cb.hasher (some x) table.nBuckets = i := by
    rw [h.holds.nBuckets]
    exact h.placed i _ (List.getElem?_eq_getElem hi) x hxl
  have hbucket : table.bucket[i]? = some (ofList bs[i]) := by
    rw [h.holds, List.getElem?_map, List.getElem?_eq_getElem hi, Option.map_some]
  have hparts : bs.flatten = ((bs.take i).flatten ++ l₁) ++ x :: (l₂ ++ (bs.drop (i + 1)).flatten) := by
    conv_lhs => rw [← List.take_append_drop i bs, List.drop_eq_getElem_cons hi, hsplit]
    simp
  have hout := hparts ▸ hnodup
  rw [List.nodup_middle, List.nodup_cons] at hout
  have hpost : post = l₂ ++ (bs.drop (i + 1)).flatten := by
    rw [hbs, List.nodup_middle, List.nodup_cons] at hnodup
    have heq := hbs.symm.trans hparts
    rw [List.append_cons_inj_of_notMem (fun hm => hnodup.1 (List.mem_append_left _ hm))
      (fun hm => hnodup.1 (List.mem_append_right _ hm))] at heq
    exact heq.2.2
  have hx₁ : x ∉ l₁ := fun hm => hout.1 (by simp [hm])
  have hx₂ : x ∉ l₂ := fun hm => hout.1 (by simp [hm])
  have hcells : (ofList bs[i]).data :: (ofList bs[i]).next = (l₁ ++ x :: l₂).map some := by
    rw [hsplit]
    cases l₁ <;> rfl
  have hdrop : (table.bucket.drop (i + 1)).findSome? Bucket.data = (bs.drop (i + 1)).flatten.head? := by
    rw [h.holds, ← List.map_drop, findSome?_data]
  unfold hashGetNext
  simp only [hplace, hbucket, hcells, nextInBucket_eq hx₁ hx₂, hdrop, hpost]
  cases l₂ <;> rfl

/-- The loop from an entry on. -/
theorem iterateLoop_eq (law : cb.Lawful) (h : table.Good cb bs) {pre post : List α} (hbs : bs.flatten = pre ++ post)
    {fuel : ℕ} (hfuel : post.length ≤ fuel) (w : World α) :
    ∃ w', iterateLoop cb table fuel w post.head? = some (post, w') := by
  induction post generalizing pre fuel w with
  | nil => exact ⟨w, by cases fuel <;> rfl⟩
  | cons x post ih =>
    cases fuel with
    | zero => simp at hfuel
    | succ fuel =>
      have hbs' : bs.flatten = (pre ++ [x]) ++ post := by rw [hbs]; simp
      obtain ⟨w', hrun⟩ := ih hbs' (Nat.le_of_succ_le_succ hfuel) (w.log (.hasher (some x)))
      refine ⟨w', ?_⟩
      rw [List.head?_cons, iterateLoop, hashGetNext_eq law h hbs w]
      simp only [hrun, Option.map_some]

/-- The loop that starts with `hash_get_first`. -/
theorem iterate_eq (law : cb.Lawful) (h : table.Good cb bs) (hsize : table.nEntries < 2 ^ 64) {fuel : ℕ}
    (hfuel : bs.flatten.length ≤ fuel) (w : World α) : ∃ w', iterate cb table fuel w = some (bs.flatten, w') := by
  have hfirst : hashGetFirst table = some bs.flatten.head? := by
    have hn := h.nEntries
    have hmod : table.nEntries % 2 ^ 64 = table.nEntries := Int.emod_eq_of_lt (by omega) hsize
    unfold hashGetFirst sizeT
    rw [hmod, hn, Int.toNat_natCast, h.holds, findSome?_data]
    cases bs.flatten <;> rfl
  rw [iterate, hfirst, Option.bind_some]
  exact iterateLoop_eq law h (List.nil_append _).symm hfuel w

end Next

/-! ## The walks -/

theorem Table.Holds.stores {table : Table α} {bs : List (List α)} (h : table.Holds bs) (x : α) :
    x ∈ bs.flatten ↔ table.Stores x := by
  unfold Table.Stores
  rw [h, List.mem_flatten]
  constructor
  · rintro ⟨l, hl, hx⟩
    refine ⟨ofList l, List.mem_map_of_mem hl, ?_⟩
    cases l with
    | nil => cases hx
    | cons y l => simpa [ofList, eq_comm] using hx
  · rintro ⟨b, hb, hx⟩
    obtain ⟨l, hl, rfl⟩ := List.mem_map.mp hb
    refine ⟨l, hl, ?_⟩
    cases l with
    | nil => simp [ofList] at hx
    | cons y l => simpa [ofList, eq_comm] using hx

end CodingExercises.Coreutils
