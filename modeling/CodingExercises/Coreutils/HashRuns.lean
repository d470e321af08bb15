import CodingExercises.Coreutils.HashNull
import CodingExercises.Coreutils.HashOps

/-!
# Hash tables: runs

What holds of a table over a whole run that begins with `hash_initialize`, as long as no head of an empty bucket is moved
when the table is rehashed: the invariant (`run_keeps_ok`), and that the table is the set of the entries that have been
added to it and not deleted since (`run_is_set`).

When the head of an empty bucket is moved, the hasher is called with `NULL`, and the bucket that it gives is counted as one
in use, or has a cell with `NULL`.
-/

namespace CodingExercises.Coreutils

open Lib

variable {α : Type}

/-! ## Numbers -/

/-- Numbers as entries, hashed by their remainders, with a hasher that takes `NULL` for the number `null`. -/
def remainders (null : ℕ) : Callbacks ℕ := ⟨fun x n => x.getD null % n, fun x y => some x = y, false⟩

theorem remainders_lawful (null : ℕ) : (remainders null).Lawful := by
  constructor
  · intro x n hn
    exact Nat.mod_lt x hn
  · constructor
    · intro x
      simp [remainders]
    · intro x y h
      simpa [remainders, eq_comm] using h
    · intro x y z h h'
      simp only [remainders, decide_eq_true_eq, Option.some.injEq] at h h' ⊢
      exact h.trans h'
  · intro x y n h
    simp only [remainders, decide_eq_true_eq, Option.some.injEq] at h
    rw [h]

/-- A tuning that is valid. -/
def halved : Tuning := ⟨0, 1, 1 / 2, 2, true⟩

/-- A table with 11 buckets. -/
def eleven : Table ℕ := ⟨List.replicate 11 ⟨none, []⟩, 0, 0, some halved, 0⟩

/-- Memory does not run out. -/
def ample : World ℕ := ⟨fun _ => true, 0, []⟩

theorem initialize_eleven : hashInitialize single ample 11 (some halved) = (some eleven, { ample with asked := 2 }) := by
  apply hashInitialize_eq
  decide +kernel

/-! ## A call of `hash_rehash` -/

section Rehash

variable [DecidableEq α]

/-- What `hash_rehash` has to leave. If it fails, the buckets are those from before, with their entries perhaps in another
order. -/
structure Rehashed (cb : Callbacks α) (table : Table α) (ok : Bool) (table' : Table α) : Prop where
  entries : table'.entries.Perm table.entries
  found : ∀ x ∈ table.entries, ∀ w, (hashLookup cb table' w x).1 = some (some x)
  back : ok = false → table'.nEntries = table.nEntries ∧ table'.nBucketsUsed = table.nBucketsUsed ∧
    List.Forall₂ (fun b' b => b'.entries.Perm b.entries) table'.bucket table.bucket

/-- As long as no head of an empty bucket is moved, `hash_rehash` keeps the entries, and undoes what it has done if it
fails. -/
theorem hashRehash_keeps {cb : Callbacks α} (law : cb.Lawful) {fl : Rounding} {table : Table α} (h : table.Ok cb)
    (w : World α) (candidate : ℕ) (hclean : (hashRehash cb fl table w candidate).2.Clean) :
    ∃ ok table' w', hashRehash cb fl table w candidate = (some (ok, table'), w') ∧ Rehashed cb table ok table' := by
  have hgood := h.good
  obtain ⟨ok, table', bs', w', hrun, hgood', hperm, -, hpos, hback⟩ := hashRehash_spec law hgood w candidate hclean
  refine ⟨ok, table', w', hrun, ?_, ?_, ?_⟩
  · rw [hgood'.holds.entries]
    exact hperm
  · intro x hx w₁
    have hmem : x ∈ bs'.flatten := hperm.symm.subset hx
    have hpos' : 0 < (table.bucket.map Bucket.entries).length := by
      apply List.length_pos_of_ne_nil
      intro hnil
      rw [Table.entries, hnil] at hx
      cases hx
    obtain ⟨w₂, hlookup⟩ := hashLookup_spec law hgood' (hpos hpos') w₁ x
    rw [hlookup, find?_matching law hgood'.distinct hmem]
  · intro hok
    have hlen := (hback hok).1
    have hplaced := hgood'.placed
    rw [hlen] at hplaced
    refine ⟨?_, ?_, ?_⟩
    · rw [hgood'.nEntries, hgood.nEntries, hperm.length_eq]
    · rw [hgood'.nBucketsUsed, hgood.nBucketsUsed, used_eq_of_perm hplaced hgood.placed hlen hperm]
    · have hbuckets := hgood.placed.perm_buckets hplaced hlen hperm
      rw [hgood'.holds, List.forall₂_map_left_iff]
      rw [List.forall₂_map_right_iff] at hbuckets
      apply hbuckets.imp
      intro l b hl
      rwa [entries_ofList]

/-- Whatever the hasher gives for `NULL`, `hash_rehash` returns, keeps the entries and undoes what it has done if it fails:
this is so if and only if no head of an empty bucket is moved. -/
theorem hashRehash_right_iff {cb : Callbacks α} (law : cb.Lawful) {fl : Rounding} {table : Table α} (h : table.Ok cb)
    {w : World α} (hw : w.Clean) (candidate : ℕ) :
    (∀ null, ∃ ok table' w', hashRehash (cb.withNull null) fl table w candidate = (some (ok, table'), w') ∧
      Rehashed (cb.withNull null) table ok table') ↔ (hashRehash cb fl table w candidate).2.Clean := by
  have htraps := hashRehash_traps cb fl table w candidate
  constructor
  · intro hright
    obtain ⟨ok, table', w', hrun, -⟩ := hright id
    obtain ⟨-, hclean⟩ | ⟨hstop, -⟩ := htraps
    · exact hclean hw
    · rw [hrun] at hstop
      cases hstop
  · intro hclean null
    obtain ⟨ok, table', w', hrun, -⟩ := hashRehash_keeps law h w candidate hclean
    obtain ⟨heq, -⟩ | ⟨-, hbad⟩ := htraps
    · apply hashRehash_keeps (law.withNull null) (h.withNull null)
      -- The hasher that aborts for `NULL` is the same for both, and does not abort.
      obtain ⟨-, hclean'⟩ | ⟨hstop, -⟩ := hashRehash_traps (cb.withNull null) fl table w candidate
      · exact hclean' hw
      · have hsame : (cb.withNull null).withNull id = cb.withNull id := rfl
        rw [hsame, heq, hrun] at hstop
        cases hstop
    · exact absurd hclean hbad

/-- A table with two buckets, both in use. -/
def full : Table ℕ := ⟨[⟨some 0, []⟩, ⟨some 1, []⟩], 2, 2, some halved, 0⟩

theorem full_ok : full.Ok (remainders 0) := by
  suffices h : full.Good (remainders 0) [[0], [1]] from h.ok
  refine ⟨rfl, ?_, rfl, by decide, by decide⟩
  intro i l hi x hx
  match i with
  | 0 =>
    obtain rfl : [0] = l := by simpa using hi
    obtain rfl : x = 0 := by simpa using hx
    rfl
  | 1 =>
    obtain rfl : [1] = l := by simpa using hi
    obtain rfl : x = 1 := by simpa using hx
    rfl
  | i + 2 => simp at hi

theorem hashRehash_right_full : ∃ ok table' w',
    hashRehash ((remainders 0).withNull id) single full ample 13 = (some (ok, table'), w') ∧
      Rehashed ((remainders 0).withNull id) full ok table' :=
  (hashRehash_right_iff (remainders_lawful 0) full_ok (by simp [World.Clean, ample]) 13).mpr
    (by unfold World.Clean; decide +kernel) id

/-- A table with one entry in its eleven buckets. -/
def lonely : Table ℕ := ⟨⟨some 0, []⟩ :: List.replicate 10 ⟨none, []⟩, 1, 1, some halved, 0⟩

theorem lonely_ok : lonely.Ok (remainders 26) := by
  suffices h : lonely.Good (remainders 26) ((List.replicate 11 []).set 0 [0]) from h.ok
  refine ⟨rfl, ?_, rfl, by decide, by decide⟩
  apply (placed_replicate _ 11).set
  intro x hx
  obtain rfl : x = 0 := by simpa using hx
  rfl

/-- The heads of empty buckets are moved to a bucket in use, which fails, and back to an empty one: the table says that 13
of its 11 buckets are in use. -/
theorem hashRehash_counts_empty : (remainders 26).Lawful ∧ lonely.Ok (remainders 26) ∧ ∃ table' w',
    hashRehash (remainders 26) single lonely ⟨fun i => i = 0, 0, []⟩ 13 = (some (false, table'), w') ∧
      ¬ Rehashed (remainders 26) lonely false table' := by
  refine ⟨remainders_lawful 26, lonely_ok, ?_⟩
  have hrun : ((hashRehash (remainders 26) single lonely ⟨fun i => i = 0, 0, []⟩ 13).1.map fun r =>
      (r.1, r.2.nBucketsUsed)) = some (false, 13) := by decide +kernel
  generalize hashRehash (remainders 26) single lonely ⟨fun i => i = 0, 0, []⟩ 13 = r at hrun
  obtain ⟨_ | ⟨ok, table'⟩, w'⟩ := r
  · cases hrun
  · obtain ⟨rfl, hused⟩ : ok = false ∧ table'.nBucketsUsed = 13 := by simpa using hrun
    refine ⟨table', w', rfl, ?_⟩
    intro h
    have hback := (h.back rfl).2.1
    rw [hused] at hback
    cases hback

end Rehash

/-! ## Runs -/

/-- A call of one of the functions for a table. -/
inductive TableOp (α : Type)
  | insert (entry : α)
  | delete (entry : α)
  | lookup (entry : α)
  | getNext (entry : α)
  | clear
  | rehash (candidate : ℕ)

/-- What a call returns. -/
inductive Reply (α : Type)
  | data (data : Option α)
  | done (ok : Bool)
  | cleared
deriving DecidableEq

section Runs

variable [DecidableEq α] (cb : Callbacks α) (fl : Rounding)

/-- One call. -/
def step (table : Table α) (w : World α) : TableOp α → Option (Reply α × Table α) × World α
  | .insert entry =>
    match hashInsert cb fl table w entry with
    | (none, w) => (none, w)
    | (some (data, table), w) => (some (.data data, table), w)
  | .delete entry =>
    match hashDelete cb fl table w entry with
    | (none, w) => (none, w)
    | (some (data, table), w) => (some (.data data, table), w)
  | .lookup entry =>
    match hashLookup cb table w entry with
    | (none, w) => (none, w)
    | (some data, w) => (some (.data data, table), w)
  | .getNext entry =>
    match hashGetNext cb table w entry with
    | (none, w) => (none, w)
    | (some data, w) => (some (.data data, table), w)
  | .clear =>
    let (table, w) := hashClear cb table w
    (some (.cleared, table), w)
  | .rehash candidate =>
    match hashRehash cb fl table w candidate with
    | (none, w) => (none, w)
    | (some (ok, table), w) => (some (.done ok, table), w)

/-- The calls of a run, one after another. -/
def run : Table α → World α → List (TableOp α) → Option (List (Reply α) × Table α) × World α
  | table, w, [] => (some ([], table), w)
  | table, w, op :: ops =>
    match step cb fl table w op with
    | (none, w) => (none, w)
    | (some (reply, table), w) =>
      match run table w ops with
      | (none, w) => (none, w)
      | (some (replies, table), w) => (some (reply :: replies, table), w)

end Runs

theorem step_extends [DecidableEq α] (cb : Callbacks α) (fl : Rounding) (table : Table α) (w : World α)
    (op : TableOp α) : w.Extends (step cb fl table w op).2 := by
  cases op with
  | insert entry =>
    have := (hashFindEntry_extends cb table w entry false).trans (hashInsert_extends cb fl table w entry)
    rw [step]
    split <;> rename_i h <;> rwa [h] at this
  | delete entry =>
    have := (hashFindEntry_extends cb table w entry true).trans (hashDelete_extends cb fl table w entry)
    rw [step]
    split <;> rename_i h <;> rwa [h] at this
  | lookup entry =>
    have := hashLookup_extends cb table w entry
    rw [step]
    split <;> rename_i h <;> rwa [h] at this
  | getNext entry =>
    have := hashGetNext_extends cb table w entry
    rw [step]
    split <;> rename_i h <;> rwa [h] at this
  | clear => exact clearLoop_extends cb w table.bucket
  | rehash candidate =>
    have := hashRehash_extends cb fl table w candidate
    rw [step]
    split <;> rename_i h <;> rwa [h] at this

theorem run_extends [DecidableEq α] (cb : Callbacks α) (fl : Rounding) (table : Table α) (w : World α)
    (ops : List (TableOp α)) : w.Extends (run cb fl table w ops).2 := by
  induction ops generalizing table w with
  | nil => exact World.Extends.refl w
  | cons op ops ih =>
    have hstep := step_extends cb fl table w op
    rw [run]
    split
    · rename_i h
      rwa [h] at hstep
    · rename_i reply table₁ w₁ h
      rw [h] at hstep
      have hrest := hstep.trans (ih table₁ w₁)
      split <;> rename_i h' <;> rwa [h'] at hrest

/-! ## The set -/

/-- What a call returns for the set `es`, and what it leaves of it. The entries are in the order in which they have been
added. -/
inductive SetStep (cb : Callbacks α) (noRoom : Prop) (es : List α) : TableOp α → Reply α → List α → Prop
  | present {entry x : α} (h : es.find? (cb.matching entry) = some x) :
      SetStep cb noRoom es (.insert entry) (.data (some x)) es
  | added {entry : α} (h : es.find? (cb.matching entry) = none) :
      SetStep cb noRoom es (.insert entry) (.data (some entry)) (es ++ [entry])
  | failed {entry : α} (h : es.find? (cb.matching entry) = none) (hroom : noRoom) :
      SetStep cb noRoom es (.insert entry) (.data none) es
  | delete (entry : α) :
      SetStep cb noRoom es (.delete entry) (.data (es.find? (cb.matching entry))) (es.eraseP (cb.matching entry))
  | lookup (entry : α) : SetStep cb noRoom es (.lookup entry) (.data (es.find? (cb.matching entry))) es
  | getNext (entry : α) (data : Option α) : SetStep cb noRoom es (.getNext entry) (.data data) es
  | clear : SetStep cb noRoom es .clear .cleared []
  | rehash (candidate : ℕ) (ok : Bool) : SetStep cb noRoom es (.rehash candidate) (.done ok) es

/-- The table is the set `es`. -/
structure Represents (cb : Callbacks α) (fl : Rounding) (table : Table α) (bs : List (List α)) (es : List α) : Prop where
  good : table.Good cb bs
  pos : 0 < bs.length
  tuned : (checkTuning fl table).2 = table
  perm : bs.flatten.Perm es

theorem represents_init (cb : Callbacks α) {w w₁ : World α} {candidate : ℕ} {tuning : Option Tuning} {fl : Rounding}
    {table : Table α}
    (hinit : hashInitialize fl w candidate tuning = (some table, w₁)) :
    ∃ bs, Represents cb fl table bs [] := by
  obtain ⟨n, hpos, hgood, htuned⟩ := hashInitialize_spec cb hinit
  exact ⟨_, hgood, by rwa [List.length_replicate], htuned, by simp⟩

/-- What the calls of a run return for the set. -/
def SetRun (cb : Callbacks α) : List α → List (TableOp α) → List (Reply α) → Prop
  | _, [], [] => True
  | es, op :: ops, reply :: replies => ∃ es', SetStep cb True es op reply es' ∧ SetRun cb es' ops replies
  | _, _, _ => False

section Inversion

variable {cb : Callbacks α} {noRoom : Prop} {es es' : List α} {entry : α}

theorem SetStep.mono {noRoom' : Prop} {op : TableOp α} {reply : Reply α} (h : SetStep cb noRoom es op reply es')
    (himp : noRoom → noRoom') : SetStep cb noRoom' es op reply es' := by
  cases h with
  | present h => exact .present h
  | added h => exact .added h
  | failed h hroom => exact .failed h (himp hroom)
  | delete => exact .delete _
  | lookup => exact .lookup _
  | getNext => exact .getNext _ _
  | clear => exact .clear
  | rehash => exact .rehash _ _

theorem SetStep.of_insert {x : α} (h : SetStep cb noRoom es (.insert entry) (.data (some x)) es') :
    es.find? (cb.matching entry) = some x ∧ es' = es ∨
      es.find? (cb.matching entry) = none ∧ es' = es ++ [entry] := by
  cases h with
  | present h => exact .inl ⟨h, rfl⟩
  | added h => exact .inr ⟨h, rfl⟩

theorem SetStep.of_delete {data : Option α} (h : SetStep cb noRoom es (.delete entry) (.data data) es') :
    es' = es.eraseP (cb.matching entry) := by
  cases h
  rfl

theorem SetStep.of_lookup {data : Option α} (h : SetStep cb noRoom es (.lookup entry) (.data data) es') :
    data = es.find? (cb.matching entry) := by
  cases h
  rfl

theorem SetStep.of_rehash {candidate : ℕ} {reply : Reply α} (h : SetStep cb noRoom es (.rehash candidate) reply es') :
    es' = es := by
  cases h
  rfl

end Inversion

section Set

variable [DecidableEq α] {cb : Callbacks α} {fl : Rounding} (law : cb.Lawful)

include law in
/-- One call. -/
theorem step_spec {table : Table α} {bs : List (List α)} {es : List α} (h : Represents cb fl table bs es) (w : World α)
    (op : TableOp α) (hclean : (step cb fl table w op).2.Clean) :
    ∃ reply table' w' bs' es', step cb fl table w op = (some (reply, table'), w') ∧ Represents cb fl table' bs' es' ∧
      SetStep cb (NoRoom fl table w w') es op reply es' := by
  have hfind : ∀ entry, bs.flatten.find? (cb.matching entry) = es.find? (cb.matching entry) :=
    fun entry => find?_eq_of_perm h.perm (matching_once law h.good.distinct entry)
  cases op with
  | insert entry =>
    rw [step] at hclean ⊢
    have hclean' : (hashInsert cb fl table w entry).2.Clean := by
      split at hclean <;> rename_i h' <;> rwa [h']
    obtain ⟨r, table', bs', w', hrun, hgood, hpos, htuning, hins⟩ :=
      hashInsert_spec law h.good h.pos h.tuned w entry hclean'
    have htuned := checkTuning_of_tuning h.tuned htuning
    rw [hrun]
    cases hx : es.find? (cb.matching entry) with
    | some x =>
      obtain ⟨rfl, hperm⟩ := hins.present x ((hfind entry).trans hx)
      exact ⟨_, table', w', bs', es, rfl, ⟨hgood, hpos, htuned, hperm.trans h.perm⟩, .present hx⟩
    | none =>
      obtain ⟨rfl, hperm⟩ | ⟨hroom, rfl, hperm⟩ := hins.absent ((hfind entry).trans hx)
      · refine ⟨_, table', w', bs', es ++ [entry], rfl, ⟨hgood, hpos, htuned, ?_⟩, .added hx⟩
        calc bs'.flatten
          _ |>.Perm (entry :: bs.flatten) := hperm
          _ |>.Perm (entry :: es) := h.perm.cons entry
          _ |>.Perm (es ++ [entry]) := (List.perm_append_singleton entry es).symm
      · exact ⟨_, table', w', bs', es, rfl, ⟨hgood, hpos, htuned, hperm.trans h.perm⟩, .failed hx hroom⟩
  | delete entry =>
    rw [step] at hclean ⊢
    have hclean' : (hashDelete cb fl table w entry).2.Clean := by
      split at hclean <;> rename_i h' <;> rwa [h']
    obtain ⟨table', bs', w', hrun, hgood, hpos, htuning, hperm⟩ :=
      hashDelete_spec law h.good h.pos h.tuned w entry hclean'
    have htuned := checkTuning_of_tuning h.tuned htuning
    have herase := h.perm.eraseP (cb.matching entry) (matching_once law h.good.distinct entry)
    rw [hrun, hfind entry]
    exact ⟨_, table', w', bs', _, rfl, ⟨hgood, hpos, htuned, hperm.trans herase⟩, .delete entry⟩
  | lookup entry =>
    obtain ⟨w', hrun⟩ := hashLookup_spec law h.good h.pos w entry
    rw [step, hrun, hfind entry]
    exact ⟨_, table, w', bs, es, rfl, h, .lookup entry⟩
  | getNext entry =>
    obtain ⟨data, w', hrun⟩ := hashGetNext_spec law h.good h.pos w entry
    rw [step, hrun]
    exact ⟨_, table, w', bs, es, rfl, h, .getNext entry data⟩
  | clear =>
    obtain ⟨table', w', hrun, hgood, htuning⟩ := hashClear_spec h.good w
    have htuned := checkTuning_of_tuning h.tuned htuning
    rw [step, hrun]
    exact ⟨_, table', w', _, [], rfl, ⟨hgood, by simpa using h.pos, htuned, by simp⟩, .clear⟩
  | rehash candidate =>
    rw [step] at hclean ⊢
    have hclean' : (hashRehash cb fl table w candidate).2.Clean := by
      split at hclean <;> rename_i h' <;> rwa [h']
    obtain ⟨ok, table', bs', w', hrun, hgood, hperm, htuning, hpos, -⟩ := hashRehash_spec law h.good w candidate hclean'
    have htuned := checkTuning_of_tuning h.tuned htuning
    rw [hrun]
    exact ⟨_, table', w', bs', es, rfl, ⟨hgood, hpos h.pos, htuned, hperm.trans h.perm⟩, .rehash candidate ok⟩

/-- The calls of a run return what they have to return for the set, which has as many entries as the table says at any
time. -/
def Follows (cb : Callbacks α) (fl : Rounding) : Table α → World α → List α → List (TableOp α) → Prop
  | table, _, es, [] => table.nEntries = es.length
  | table, w, es, op :: ops => table.nEntries = es.length ∧ ∃ reply table' w' es',
      step cb fl table w op = (some (reply, table'), w') ∧ SetStep cb (NoRoom fl table w w') es op reply es' ∧
        Follows cb fl table' w' es' ops

theorem Follows.replies {table : Table α} {w : World α} {es : List α} {ops : List (TableOp α)}
    (h : Follows cb fl table w es ops) :
    ∃ replies table' w', run cb fl table w ops = (some (replies, table'), w') ∧ SetRun cb es ops replies := by
  induction ops generalizing table w es with
  | nil => exact ⟨[], table, w, rfl, trivial⟩
  | cons op ops ih =>
    obtain ⟨-, reply, table₁, w₁, es₁, hstep, hset, hrest⟩ := h
    obtain ⟨replies, table', w', hrun, hsets⟩ := ih hrest
    refine ⟨reply :: replies, table', w', ?_, es₁, hset.mono fun _ => trivial, hsets⟩
    rw [run, hstep]
    dsimp only
    rw [hrun]

include law in
/-- A run from a table that is a set. -/
theorem run_spec {table : Table α} {bs : List (List α)} {es : List α} (h : Represents cb fl table bs es) (w : World α)
    (ops : List (TableOp α)) (hclean : (run cb fl table w ops).2.Clean) :
    Follows cb fl table w es ops ∧ ∃ replies table' w' bs' es', run cb fl table w ops = (some (replies, table'), w') ∧
      Represents cb fl table' bs' es' := by
  have hentries : table.nEntries = es.length := by rw [h.good.nEntries, h.perm.length_eq]
  induction ops generalizing table w bs es with
  | nil => exact ⟨hentries, [], table, w, bs, es, rfl, h⟩
  | cons op ops ih =>
    have hclean₁ : (step cb fl table w op).2.Clean := by
      rw [run] at hclean
      split at hclean
      · rename_i h'
        rwa [h']
      · rename_i reply table₁ w₁ h'
        rw [h']
        have hext := run_extends cb fl table₁ w₁ ops
        split at hclean <;> rename_i h'' <;> rw [h''] at hext <;> exact hclean.mono hext
    obtain ⟨reply, table₁, w₁, bs₁, es₁, hstep, h₁, hset⟩ := step_spec law h w op hclean₁
    have hclean₂ : (run cb fl table₁ w₁ ops).2.Clean := by
      rw [run, hstep] at hclean
      dsimp only at hclean
      split at hclean <;> rename_i h' <;> rwa [h']
    have hentries₁ : table₁.nEntries = es₁.length := by rw [h₁.good.nEntries, h₁.perm.length_eq]
    obtain ⟨hfollows, replies, table', w', bs', es', hrun, h'⟩ := ih h₁ w₁ hclean₂ hentries₁
    refine ⟨⟨hentries, reply, table₁, w₁, es₁, hstep, hset, hfollows⟩, reply :: replies, table', w', bs', es', ?_, h'⟩
    rw [run, hstep]
    dsimp only
    rw [hrun]

/-- The invariant holds after each call, as long as no head of an empty bucket has been moved. -/
theorem run_keeps_ok (law : cb.Lawful) {w w₁ : World α} {candidate : ℕ} {tuning : Option Tuning} {table : Table α}
    (hinit : hashInitialize fl w candidate tuning = (some table, w₁)) (ops : List (TableOp α))
    (hclean : (run cb fl table w₁ ops).2.Clean) :
    ∃ replies table' w', run cb fl table w₁ ops = (some (replies, table'), w') ∧ table'.Ok cb := by
  obtain ⟨bs, h⟩ := represents_init cb hinit
  obtain ⟨-, replies, table', w', bs', es', hrun, h'⟩ := run_spec law h w₁ ops hclean
  exact ⟨replies, table', w', hrun, h'.good.ok⟩

/-- The table is the set of the entries that have been added and not deleted since, as long as no head of an empty bucket
has been moved. -/
theorem run_is_set (law : cb.Lawful) {w w₁ : World α} {candidate : ℕ} {tuning : Option Tuning} {table : Table α}
    (hinit : hashInitialize fl w candidate tuning = (some table, w₁)) (ops : List (TableOp α))
    (hclean : (run cb fl table w₁ ops).2.Clean) : Follows cb fl table w₁ [] ops := by
  obtain ⟨bs, h⟩ := represents_init cb hinit
  exact (run_spec law h w₁ ops hclean).1

/-- Entries are added and deleted. -/
theorem run_keeps_ok_eleven : ∃ replies table' w',
    run (remainders 0) single eleven { ample with asked := 2 } [.insert 0, .insert 11, .insert 22, .delete 11, .clear] =
      (some (replies, table'), w') ∧ table'.Ok (remainders 0) :=
  run_keeps_ok (remainders_lawful 0) initialize_eleven _ (by unfold World.Clean; decide +kernel)

/-- The hasher takes `NULL` to the bucket of the only entry: it gets ten cells with `NULL`. -/
theorem run_moves_empty : (remainders 0).Lawful ∧
    hashInitialize single ample 11 (some halved) = (some eleven, { ample with asked := 2 }) ∧ ∃ replies table' w',
      run (remainders 0) single eleven { ample with asked := 2 } [.insert 0, .rehash 13] =
        (some (replies, table'), w') ∧ ¬ table'.Ok (remainders 0) := by
  refine ⟨remainders_lawful 0, initialize_eleven, ?_⟩
  have hrun : ((run (remainders 0) single eleven { ample with asked := 2 } [.insert 0, .rehash 13]).1.map fun r =>
      hashTableOk r.2) = some false := by decide +kernel
  generalize run (remainders 0) single eleven { ample with asked := 2 } [.insert 0, .rehash 13] = r at hrun
  obtain ⟨_ | ⟨replies, table'⟩, w'⟩ := r
  · cases hrun
  · refine ⟨replies, table', w', rfl, ?_⟩
    intro h
    have hbad : hashTableOk table' = false := by simpa using hrun
    rw [h.ok] at hbad
    cases hbad

theorem run_is_set_eleven : Follows (remainders 0) single eleven { ample with asked := 2 } []
    [.insert 0, .insert 11, .insert 22, .delete 11, .lookup 22, .clear] :=
  run_is_set (remainders_lawful 0) initialize_eleven _ (by unfold World.Clean; decide +kernel)

/-- A cell with `NULL` becomes the head of the bucket of the only entry, which is not found any more. -/
theorem run_loses_entry : (remainders 0).Lawful ∧
    hashInitialize single ample 11 (some halved) = (some eleven, { ample with asked := 2 }) ∧
      ¬ Follows (remainders 0) single eleven { ample with asked := 2 } []
        [.insert 0, .insert 143, .rehash 13, .delete 143, .lookup 0] := by
  refine ⟨remainders_lawful 0, initialize_eleven, ?_⟩
  intro h
  obtain ⟨replies, table', w', hrun, hset⟩ := h.replies
  have hreplies : (run (remainders 0) single eleven { ample with asked := 2 }
      [.insert 0, .insert 143, .rehash 13, .delete 143, .lookup 0]).1.map Prod.fst =
        some [.data (some 0), .data (some 143), .done true, .data (some 143), .data none] := by decide +kernel
  rw [hrun] at hreplies
  obtain rfl : replies = [.data (some 0), .data (some 143), .done true, .data (some 143), .data none] := by
    simpa using hreplies
  obtain ⟨es₁, h₁, es₂, h₂, es₃, h₃, es₄, h₄, es₅, h₅, -⟩ := hset
  obtain rfl : es₁ = [0] := by
    obtain ⟨hfind, -⟩ | ⟨-, rfl⟩ := h₁.of_insert
    · cases hfind
    · rfl
  obtain rfl : es₂ = [0, 143] := by
    obtain ⟨hfind, -⟩ | ⟨-, rfl⟩ := h₂.of_insert
    · exact absurd hfind (by decide)
    · rfl
  obtain rfl := h₃.of_rehash
  obtain rfl : es₄ = [0] := h₄.of_delete
  have hlookup := h₅.of_lookup
  exact absurd hlookup (by decide)

end Set

end CodingExercises.Coreutils
