import Mathlib.Data.Rat.Floor
import CodingExercises.Coreutils.Xalloc

/-!
# coreutils: hash tables

`lib/hash.c`. A bucket is its head and the data of its overflow cells; the free list is the number of its cells. What the
user's functions are called with is recorded.

The type `α` is that of the pointers other than `NULL`, and `none` is `NULL`. The counters are integers; they are cut to
64 bits where they are compared. What the `float` operations round to is a parameter.
-/

namespace CodingExercises.Coreutils

/-- `struct hash_entry`, a head of a bucket, with the data of the cells behind it. -/
structure Bucket (α : Type) where
  data : Option α
  next : List (Option α)
deriving DecidableEq

/-- `Hash_tuning`. -/
structure Tuning where
  shrinkThreshold : ℚ
  shrinkFactor : ℚ
  growthThreshold : ℚ
  growthFactor : ℚ
  isNBuckets : Bool
deriving DecidableEq

/-- `Hash_table`, without the user's functions. A tuning of the user, or the default one. -/
structure Table (α : Type) where
  bucket : List (Bucket α)
  nBucketsUsed : ℤ
  nEntries : ℤ
  tuning : Option Tuning
  freeEntryList : ℕ
deriving DecidableEq

/-- `n_buckets`. -/
def Table.nBuckets {α : Type} (table : Table α) : ℕ := table.bucket.length

/-- The user's functions, and whether there is a `data_freer`. -/
structure Callbacks (α : Type) where
  hasher : Option α → ℕ → ℕ
  comparator : α → Option α → Bool
  dataFreer : Bool

/-- A call of one of the user's functions. -/
inductive Call (α : Type)
  | hasher (data : Option α)
  | comparator (entry : α) (data : Option α)
  | dataFreer (data : Option α)
deriving DecidableEq

/-- What the functions use besides the table: which allocations succeed, the number of those asked for, and the calls of
the user's functions, the last first. -/
structure World (α : Type) where
  answers : ℕ → Bool
  asked : ℕ
  calls : List (Call α)

/-- An allocation. -/
def World.malloc {α : Type} (w : World α) : Bool × World α := (w.answers w.asked, { w with asked := w.asked + 1 })

/-- A call is recorded. -/
def World.log {α : Type} (w : World α) (c : Call α) : World α := { w with calls := c :: w.calls }

/-- A counter as a `size_t`. -/
def sizeT (n : ℤ) : ℕ := (n % 2 ^ 64).toNat

/-! ## Sizes -/

/-- The loop of `is_prime`; `fuel` bounds the number of divisors. -/
def isPrimeLoop (candidate : ℕ) : ℕ → ℕ → ℕ → ℕ
  | 0, divisor, _ => divisor
  | fuel + 1, divisor, square =>
    if square < candidate ∧ candidate % divisor ≠ 0 then
      isPrimeLoop candidate fuel (divisor + 2) ((square + 4 * (divisor + 1)) % 2 ^ 64)
    else divisor

/-- `is_prime`. -/
def isPrime (candidate : ℕ) : Bool := candidate % isPrimeLoop candidate candidate 3 9 ≠ 0

/-- The loop of `next_prime`; `fuel` bounds the number of candidates. -/
def nextPrimeLoop : ℕ → ℕ → ℕ
  | 0, candidate => candidate
  | fuel + 1, candidate =>
    if sizeMax ≠ candidate ∧ !isPrime candidate then nextPrimeLoop fuel (candidate + 2) else candidate

/-- `next_prime`. -/
def nextPrime (candidate : ℕ) : ℕ :=
  let candidate := if candidate < 10 then 10 else candidate
  let candidate := candidate ||| 1
  nextPrimeLoop (sizeMax - candidate) candidate

/-- What a `float` operation with an exact result gives. -/
abbrev Rounding := ℚ → ℚ

/-- The nearest `float`, the even one of two, for what is neither too large nor too small to have 24 significant bits. -/
def single : Rounding := fun x =>
  let e : ℤ := (Nat.log2 x.num.natAbs : ℤ) - Nat.log2 x.den - 24
  let unit : ℚ := if 0 ≤ e then (2 ^ e.toNat : ℕ) else 1 / (2 ^ (-e).toNat : ℕ)
  let unit := if |x| < 2 ^ 24 * unit then unit else 2 * unit
  let m := x / unit
  let below := ⌊m⌋
  let rest := m - below
  if rest < 1 / 2 ∨ rest = 1 / 2 ∧ below % 2 = 0 then below * unit else (below + 1) * unit

/-- A `float` as a `size_t`. -/
def truncate (x : ℚ) : ℕ := ⌊x⌋.toNat

section Tuning

variable (fl : Rounding)

/-- `default_tuning`. -/
def defaultTuning : Tuning := ⟨fl 0, fl 1, fl (8 / 10), fl (1414 / 1000), false⟩

/-- `*table->tuning`. -/
def Table.tuned {α : Type} (table : Table α) : Tuning := table.tuning.getD (defaultTuning fl)

/-- The condition of `check_tuning`. -/
def Tuning.valid (tuning : Tuning) : Bool :=
  let epsilon := fl (1 / 10)
  epsilon < tuning.growthThreshold
    && tuning.growthThreshold < fl (1 - epsilon)
    && fl (1 + epsilon) < tuning.growthFactor
    && 0 ≤ tuning.shrinkThreshold
    && fl (tuning.shrinkThreshold + epsilon) < tuning.shrinkFactor
    && tuning.shrinkFactor ≤ 1
    && fl (tuning.shrinkThreshold + epsilon) < tuning.growthThreshold

/-- `check_tuning`. -/
def checkTuning {α : Type} (table : Table α) : Bool × Table α :=
  match table.tuning with
  | none => (true, table)
  | some tuning => if tuning.valid fl then (true, table) else (false, { table with tuning := none })

/-- `compute_bucket_size`. -/
def computeBucketSize (candidate : ℕ) (tuning : Tuning) : ℕ :=
  let newCandidate := fl (fl candidate / tuning.growthThreshold)
  if !tuning.isNBuckets && fl sizeMax ≤ newCandidate then 0
  else
    let candidate := nextPrime (if tuning.isNBuckets then candidate else truncate newCandidate)
    if xallocOversized candidate 8 then 0 else candidate

/-- `hash_initialize`, with the user's functions not null. -/
def hashInitialize {α : Type} (w : World α) (candidate : ℕ) (tuning : Option Tuning) : Option (Table α) × World α :=
  match w.malloc with
  | (false, w) => (none, w)
  | (true, w) =>
    let table : Table α := ⟨[], 0, 0, tuning, 0⟩
    if !(checkTuning fl table).1 then (none, w)
    else
      let nBuckets := computeBucketSize fl candidate (table.tuned fl)
      if nBuckets = 0 then (none, w)
      else
        match w.malloc with
        | (false, w) => (none, w)
        | (true, w) => (some { table with bucket := List.replicate nBuckets ⟨none, []⟩ }, w)

end Tuning

section Program

variable {α : Type}

/-! ## Information and lookup -/

/-- `hash_table_ok`. -/
def hashTableOk (table : Table α) : Bool :=
  let used := table.bucket.filter fun b => b.data.isSome
  let nEntries : ℕ := (used.map fun b => 1 + b.next.length).sum
  sizeT used.length = sizeT table.nBucketsUsed && sizeT nEntries = sizeT table.nEntries

variable [DecidableEq α] (cb : Callbacks α)

/-- `entry == data || comparator(entry, data)`. -/
def same (w : World α) (entry : α) (data : Option α) : Bool × World α :=
  if some entry = data then (true, w) else (cb.comparator entry data, w.log (.comparator entry data))

/-- The loop of `hash_lookup`. -/
def lookupLoop (entry : α) : World α → List (Option α) → Option α × World α
  | w, [] => (none, w)
  | w, data :: rest =>
    match same cb w entry data with
    | (true, w) => (data, w)
    | (false, w) => lookupLoop entry w rest

/-- `hash_lookup`; without a value the program is aborted. -/
def hashLookup (table : Table α) (w : World α) (entry : α) : Option (Option α) × World α :=
  let w := w.log (.hasher (some entry))
  match table.bucket[cb.hasher (some entry) table.nBuckets]? with
  | none => (none, w)
  | some bucket =>
    if bucket.data = none then (some none, w)
    else
      let (data, w) := lookupLoop cb entry w (bucket.data :: bucket.next)
      (some data, w)

/-- The cells behind the entry that `hash_get_next` is looking for. -/
def nextInBucket (entry : α) : List (Option α) → Option (Option α)
  | data :: data' :: rest => if data = some entry then some data' else nextInBucket entry (data' :: rest)
  | _ => none

/-- `hash_get_next`. -/
def hashGetNext (table : Table α) (w : World α) (entry : α) : Option (Option α) × World α :=
  let h := cb.hasher (some entry) table.nBuckets
  let w := w.log (.hasher (some entry))
  match table.bucket[h]? with
  | none => (none, w)
  | some bucket =>
    match nextInBucket entry (bucket.data :: bucket.next) with
    | some data => (some data, w)
    | none => (some ((table.bucket.drop (h + 1)).findSome? Bucket.data), w)

/-! ## Clean-up -/

/-- The calls for the data of some cells. -/
def freeData (w : World α) (cells : List (Option α)) : World α :=
  if cb.dataFreer then cells.foldl (fun w data => w.log (.dataFreer data)) w else w

/-- The loop of `hash_clear`: the buckets, the cells that are freed, and the calls. -/
def clearLoop : World α → List (Bucket α) → (List (Bucket α) × ℕ) × World α
  | w, [] => (([], 0), w)
  | w, bucket :: rest =>
    if bucket.data.isSome then
      let w := freeData cb w (bucket.next ++ [bucket.data])
      let ((rest, freed), w) := clearLoop w rest
      ((⟨none, []⟩ :: rest, bucket.next.length + freed), w)
    else
      let ((rest, freed), w) := clearLoop w rest
      ((bucket :: rest, freed), w)

/-- `hash_clear`. -/
def hashClear (table : Table α) (w : World α) : Table α × World α :=
  let ((buckets, freed), w) := clearLoop cb w table.bucket
  ({ table with bucket := buckets, nBucketsUsed := 0, nEntries := 0, freeEntryList := table.freeEntryList + freed }, w)

/-- `hash_free`: what it calls. -/
def hashFree (table : Table α) (w : World α) : World α :=
  if cb.dataFreer && sizeT table.nEntries ≠ 0 then
    (table.bucket.filter fun b => b.data.isSome).foldl (fun w b => freeData cb w (b.data :: b.next)) w
  else w

/-! ## Insertion and deletion -/

/-- `allocate_entry`: the table without the cell that is handed out, or nothing. -/
def allocateEntry (table : Table α) (w : World α) : Option (Table α) × World α :=
  if table.freeEntryList ≠ 0 then (some { table with freeEntryList := table.freeEntryList - 1 }, w)
  else
    match w.malloc with
    | (false, w) => (none, w)
    | (true, w) => (some table, w)

/-- The bucket with the number `h` is replaced. -/
def Table.setBucket (table : Table α) (h : ℕ) (b : Bucket α) : Table α :=
  { table with bucket := table.bucket.set h b }

/-- The scan of the overflow in `hash_find_entry`: the data that matches, if any, and the cells that are left. -/
def scanOverflow (entry : α) (delete : Bool) : World α → List (Option α) → (Option (Option α) × List (Option α)) × World α
  | w, [] => ((none, []), w)
  | w, data :: rest =>
    match same cb w entry data with
    | (true, w) => ((some data, if delete then rest else data :: rest), w)
    | (false, w) =>
      let ((found, rest), w) := scanOverflow entry delete w rest
      ((found, data :: rest), w)

/-- `hash_find_entry`: the data, the number of `*bucket_head` and the table. -/
def hashFindEntry (table : Table α) (w : World α) (entry : α) (delete : Bool) :
    Option (Option α × ℕ × Table α) × World α :=
  let h := cb.hasher (some entry) table.nBuckets
  let w := w.log (.hasher (some entry))
  match table.bucket[h]? with
  | none => (none, w)
  | some bucket =>
    -- The test for an empty bucket is one for `bucket_head`, which is never null.
    match same cb w entry bucket.data with
    | (true, w) =>
      if delete then
        match bucket.next with
        | next :: rest =>
          let table := table.setBucket h ⟨next, rest⟩
          (some (bucket.data, h, { table with freeEntryList := table.freeEntryList + 1 }), w)
        | [] => (some (bucket.data, h, table.setBucket h ⟨none, []⟩), w)
      else (some (bucket.data, h, table), w)
    | (false, w) =>
      let ((found, next), w) := scanOverflow cb entry delete w bucket.next
      let table := table.setBucket h ⟨bucket.data, next⟩
      let freed := if delete && found.isSome then 1 else 0
      (some (found.join, h, { table with freeEntryList := table.freeEntryList + freed }), w)

/-- The overflow of a bucket in `transfer_entries`: the table that it is moved to. -/
def transferOverflow : Table α → World α → List (Option α) → Option (Table α) × World α
  | dst, w, [] => (some dst, w)
  | dst, w, data :: rest =>
    let h := cb.hasher data dst.nBuckets
    let w := w.log (.hasher data)
    match dst.bucket[h]? with
    | none => (none, w)
    | some newBucket =>
      if newBucket.data.isSome then transferOverflow (dst.setBucket h ⟨newBucket.data, data :: newBucket.next⟩) w rest
      else
        let dst := dst.setBucket h ⟨data, newBucket.next⟩
        transferOverflow
          { dst with nBucketsUsed := dst.nBucketsUsed + 1, freeEntryList := dst.freeEntryList + 1 } w rest

/-- The head of a bucket in `transfer_entries`: whether it could be moved, and the table that it is moved to. -/
def transferHead (dst : Table α) (w : World α) (data : Option α) : Option (Bool × Table α) × World α :=
  let h := cb.hasher data dst.nBuckets
  let w := w.log (.hasher data)
  match dst.bucket[h]? with
  | none => (none, w)
  | some newBucket =>
    if newBucket.data.isSome then
      match allocateEntry dst w with
      | (none, w) => (some (false, dst), w)
      | (some dst, w) => (some (true, dst.setBucket h ⟨newBucket.data, data :: newBucket.next⟩), w)
    else
      let dst := dst.setBucket h ⟨data, newBucket.next⟩
      (some (true, { dst with nBucketsUsed := dst.nBucketsUsed + 1 }), w)

/-- The loop of `transfer_entries`: whether it comes to its end, the table that the entries are moved to, the buckets
that they are moved from, and the number of heads that have been moved. -/
def transferLoop (safe : Bool) :
    Table α → World α → List (Bucket α) → Option (Bool × Table α × List (Bucket α) × ℕ) × World α
  | dst, w, [] => (some (true, dst, [], 0), w)
  | dst, w, bucket :: rest =>
    match transferOverflow cb dst w bucket.next with
    | (none, w) => (none, w)
    | (some dst, w) =>
      if safe then
        match transferLoop safe dst w rest with
        | (none, w) => (none, w)
        | (some (ok, dst, rest, moved), w) => (some (ok, dst, ⟨bucket.data, []⟩ :: rest, moved), w)
      else
        match transferHead cb dst w bucket.data with
        | (none, w) => (none, w)
        | (some (false, dst), w) => (some (false, dst, ⟨bucket.data, []⟩ :: rest, 0), w)
        | (some (true, dst), w) =>
          match transferLoop safe dst w rest with
          | (none, w) => (none, w)
          | (some (ok, dst, rest, moved), w) => (some (ok, dst, ⟨none, []⟩ :: rest, moved + 1), w)

/-- `transfer_entries`. -/
def transferEntries (dst src : Table α) (w : World α) (safe : Bool) :
    Option (Bool × Table α × Table α) × World α :=
  match transferLoop cb safe dst w src.bucket with
  | (none, w) => (none, w)
  | (some (ok, dst, buckets, moved), w) =>
    (some (ok, dst, { src with bucket := buckets, nBucketsUsed := src.nBucketsUsed - moved }), w)

/-- The two passes with which `hash_rehash` undoes the move of some of the entries. -/
def undoTransfer (table newTable : Table α) (w : World α) : Option (Table α) × World α :=
  match transferEntries cb table newTable w true with
  | (some (true, table, newTable), w) =>
    match transferEntries cb table newTable w false with
    | (some (true, table, _), w) => (some table, w)
    | (_, w) => (none, w)
  | (_, w) => (none, w)

variable (fl : Rounding)

/-- `hash_rehash`. -/
def hashRehash (table : Table α) (w : World α) (candidate : ℕ) : Option (Bool × Table α) × World α :=
  let newSize := computeBucketSize fl candidate (table.tuned fl)
  if newSize = 0 then (some (false, table), w)
  -- `!new_size == table->n_buckets`
  else if (if newSize = 0 then 1 else 0) = table.nBuckets then (some (true, table), w)
  else
    match w.malloc with
    | (false, w) => (some (false, table), w)
    | (true, w) =>
      let newTable : Table α := ⟨List.replicate newSize ⟨none, []⟩, 0, 0, table.tuning, table.freeEntryList⟩
      match transferEntries cb newTable table w false with
      | (none, w) => (none, w)
      | (some (true, newTable, table), w) =>
        (some (true, ⟨newTable.bucket, newTable.nBucketsUsed, table.nEntries, table.tuning, newTable.freeEntryList⟩), w)
      | (some (false, newTable, table), w) =>
        match undoTransfer cb { table with freeEntryList := newTable.freeEntryList } newTable w with
        | (none, w) => (none, w)
        | (some table, w) => (some (false, table), w)

/-- The end of `hash_insert`: the entry is put into the bucket with the number `h`. -/
def placeEntry (table : Table α) (w : World α) (entry : α) (h : ℕ) : Option (Option α × Table α) × World α :=
  match table.bucket[h]? with
  | none => (none, w)
  | some bucket =>
    if bucket.data.isSome then
      match allocateEntry table w with
      | (none, w) => (some (none, table), w)
      | (some table, w) =>
        let table := table.setBucket h ⟨bucket.data, some entry :: bucket.next⟩
        (some (some entry, { table with nEntries := table.nEntries + 1 }), w)
    else
      let table := table.setBucket h ⟨some entry, bucket.next⟩
      (some (some entry, { table with nEntries := table.nEntries + 1, nBucketsUsed := table.nBucketsUsed + 1 }), w)

/-- Whether the growth threshold of the buckets in use has been reached. -/
def mustGrow (table : Table α) : Bool :=
  fl ((table.tuned fl).growthThreshold * fl table.nBuckets) < fl (sizeT table.nBucketsUsed)

/-- The candidate with which a table grows. -/
def growthCandidate (table : Table α) : ℚ :=
  let tuning := table.tuned fl
  let size := fl (fl table.nBuckets * tuning.growthFactor)
  if tuning.isNBuckets then size else fl (size * tuning.growthThreshold)

/-- `hash_insert` of an entry that is not null. -/
def hashInsert (table : Table α) (w : World α) (entry : α) : Option (Option α × Table α) × World α :=
  match hashFindEntry cb table w entry false with
  | (none, w) => (none, w)
  | (some (some data, _, table), w) => (some (some data, table), w)
  | (some (none, h, table), w) =>
    if mustGrow fl table then
      let table := (checkTuning fl table).2
      if mustGrow fl table then
        if fl sizeMax ≤ growthCandidate fl table then (some (none, table), w)
        else
          match hashRehash cb fl table w (truncate (growthCandidate fl table)) with
          | (none, w) => (none, w)
          | (some (false, table), w) => (some (none, table), w)
          | (some (true, table), w) =>
            match hashFindEntry cb table w entry false with
            | (some (none, h, table), w) => placeEntry table w entry h
            | (_, w) => (none, w)
      else placeEntry table w entry h
    else placeEntry table w entry h

/-- Whether the shrink threshold of the buckets in use has been reached. -/
def mustShrink (table : Table α) : Bool :=
  fl (sizeT table.nBucketsUsed) < fl ((table.tuned fl).shrinkThreshold * fl table.nBuckets)

/-- The candidate with which a table shrinks. -/
def shrinkCandidate (table : Table α) : ℕ :=
  let tuning := table.tuned fl
  let size := fl (fl table.nBuckets * tuning.shrinkFactor)
  truncate (if tuning.isNBuckets then size else fl (size * tuning.growthThreshold))

/-- `hash_delete` of an entry that is not null. -/
def hashDelete (table : Table α) (w : World α) (entry : α) : Option (Option α × Table α) × World α :=
  match hashFindEntry cb table w entry true with
  | (none, w) => (none, w)
  | (some (none, _, table), w) => (some (none, table), w)
  | (some (some data, h, table), w) =>
    let table := { table with nEntries := table.nEntries - 1 }
    match table.bucket[h]? with
    | none => (none, w)
    | some bucket =>
      if bucket.data.isSome then (some (some data, table), w)
      else
        let table := { table with nBucketsUsed := table.nBucketsUsed - 1 }
        if mustShrink fl table then
          let table := (checkTuning fl table).2
          if mustShrink fl table then
            match hashRehash cb fl table w (shrinkCandidate fl table) with
            | (none, w) => (none, w)
            | (some (true, table), w) => (some (some data, table), w)
            | (some (false, table), w) => (some (some data, { table with freeEntryList := 0 }), w)
          else (some (some data, table), w)
        else (some (some data, table), w)

/-- Whether a call of `hash_insert` calls `hash_rehash`. -/
def insertRehashes (table : Table α) (w : World α) (entry : α) : Bool :=
  match hashFindEntry cb table w entry false with
  | (some (none, _, table), _) =>
    mustGrow fl table &&
      (mustGrow fl (checkTuning fl table).2 && !decide (fl sizeMax ≤ growthCandidate fl (checkTuning fl table).2))
  | _ => false

/-- Whether a call of `hash_delete` calls `hash_rehash`. -/
def deleteRehashes (table : Table α) (w : World α) (entry : α) : Bool :=
  match hashFindEntry cb table w entry true with
  | (some (some _, h, table), _) =>
    match table.bucket[h]? with
    | none => false
    | some bucket =>
      let table := { table with nEntries := table.nEntries - 1, nBucketsUsed := table.nBucketsUsed - 1 }
      !bucket.data.isSome && (mustShrink fl table && mustShrink fl (checkTuning fl table).2)
  | _ => false

end Program

end CodingExercises.Coreutils
