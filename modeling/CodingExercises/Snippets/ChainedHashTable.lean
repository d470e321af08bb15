import Mathlib.Algebra.Order.Ring.Int
import CodingExercises.Lib.Chaining
import CodingExercises.Lib.LinkedList

/-!
# chained-hash-table.c

The operations of the table over any type of linked lists. The number of a bucket is a remainder of C, which is negative for a negative
hash that is not a multiple of the number of buckets: such a key is looked for outside of the array. For the other keys the table is a
set of elements that do not match (`SetStep`): each operation refines a step of it and keeps what holds between the steps
(`Inv`, `step_spec`), in every state that is reached with such keys (`chtb_spec`).
-/

namespace CodingExercises.Snippets.ChainedHashTable

open Lib

/-! ## The code -/

def intMax : ℤ := 2 ^ 31 - 1

/-- Why there is no result. -/
inductive Fault
  /-- A bucket that is none of the array. -/
  | outside
  /-- A division by zero. -/
  | division
  /-- An `int` overflows. -/
  | overflow
  /-- It takes more steps. -/
  | fuel

/-- The functions of the user. -/
structure Keys (α : Type) where
  h : α → ℤ
  /-- `match` -/
  match' : α → α → Bool

/-- `CHTable_t`, but for `destroy`. -/
structure Table {α : Type} (lists : LinkedList α) where
  nBuckets : ℤ
  keys : Keys α
  currentSize : ℤ
  table : List lists.Carrier

section

variable {α : Type} {lists : LinkedList α}

/-- `chtb_init`; the argument `memory` says whether `malloc` has a block. -/
def chtbInit (lists : LinkedList α) (memory : Bool) (nBuckets : ℤ) (keys : Keys α) : Option (Table lists) :=
  if memory then some ⟨nBuckets, keys, 0, List.replicate nBuckets.toNat lists.init⟩ else none

/-- `htb->h(data) % htb->n_buckets` -/
def Table.bucket (t : Table lists) (data : α) : Except Fault ℤ :=
  if t.nBuckets = 0 then .error .division else .ok ((t.keys.h data).tmod t.nBuckets)

/-- `htb->table[bucket]` -/
def Table.list (t : Table lists) (bucket : ℤ) : Except Fault lists.Carrier :=
  if bucket < 0 then .error .outside
  else
    match t.table[bucket.toNat]? with
    | some l => .ok l
    | none => .error .outside

def Table.setList (t : Table lists) (bucket : ℤ) (l : lists.Carrier) : Table lists := { t with table := t.table.set bucket.toNat l }

/-- The loop of `chtb_lookup`: the data that is found. -/
def lookupLoop (match' : α → α → Bool) (l : lists.Carrier) (data : α) : ℕ → Option lists.Element → Except Fault (Option α)
  | 0, _ => .error .fuel
  | _ + 1, none => .ok none
  | fuel + 1, some element =>
    if match' data (lists.data l element) then .ok (some (lists.data l element))
    else lookupLoop match' l data fuel (lists.next l element)

/-- `chtb_lookup`: what is returned, and `*data`. -/
def chtbLookup (fuel : ℕ) (t : Table lists) (data : α) : Except Fault (ℤ × α) := do
  let bucket ← t.bucket data
  let l ← t.list bucket
  match ← lookupLoop t.keys.match' l data fuel (lists.head l) with
  | some found => return (0, found)
  | none => return (-1, data)

/-- `chtb_insert`; the argument `memory` says whether `list_ins_next` has a block. -/
def chtbInsert (fuel : ℕ) (memory : Bool) (t : Table lists) (data : α) : Except Fault (ℤ × Table lists) := do
  let (found, _) ← chtbLookup fuel t data
  if found = 0 then return (1, t)
  else
    let bucket ← t.bucket data
    let l ← t.list bucket
    match lists.insNext memory l none data with
    | some l =>
      if t.currentSize < intMax then return (0, { t.setList bucket l with currentSize := t.currentSize + 1 })
      else throw .overflow
    | none => return (-1, t)

/-- The loop of `chtb_remove`: the data and the list, if an element is taken out. -/
def removeLoop (match' : α → α → Bool) (l : lists.Carrier) (data : α) :
    ℕ → Option lists.Element → Option lists.Element → Except Fault (Option (α × lists.Carrier))
  | 0, _, _ => .error .fuel
  | _ + 1, _, none => .ok none
  | fuel + 1, prev, some element =>
    if match' data (lists.data l element) then .ok (lists.remNext l prev)
    else removeLoop match' l data fuel (some element) (lists.next l element)

/-- `chtb_remove`: what is returned, `*data`, and the table. -/
def chtbRemove (fuel : ℕ) (t : Table lists) (data : α) : Except Fault (ℤ × α × Table lists) := do
  let bucket ← t.bucket data
  let l ← t.list bucket
  match ← removeLoop t.keys.match' l data fuel none (lists.head l) with
  | some (removed, l) => return (0, removed, { t.setList bucket l with currentSize := t.currentSize - 1 })
  | none => return (-1, data, t)

/-- A call. -/
inductive Op (α : Type)
  | insert (data : α) (memory : Bool)
  | remove (data : α)
  | lookup (data : α)

def Op.data : Op α → α
  | .insert data _ => data
  | .remove data => data
  | .lookup data => data

/-- What is returned, and `*data` behind the call. -/
structure Answer (α : Type) where
  retval : ℤ
  data : α

def step (fuel : ℕ) (t : Table lists) : Op α → Except Fault (Answer α × Table lists)
  | .insert data memory => do
    let (retval, t) ← chtbInsert fuel memory t data
    return (⟨retval, data⟩, t)
  | .remove data => do
    let (retval, data, t) ← chtbRemove fuel t data
    return (⟨retval, data⟩, t)
  | .lookup data => do
    let (retval, data) ← chtbLookup fuel t data
    return (⟨retval, data⟩, t)

end

/-! ## Sets of elements that do not match -/

section

variable {α : Type} {match' : α → α → Bool} {s s' : List α}

/-- Keys that match are one key, which has one hash. -/
structure Keys.Lawful (keys : Keys α) : Prop where
  symm : ∀ {x y}, keys.match' x y → keys.match' y x
  trans : ∀ {x y z}, keys.match' x y → keys.match' y z → keys.match' x z
  respects : ∀ {x y}, keys.match' x y → keys.h x = keys.h y

/-- No two of the elements match. -/
def Distinct (match' : α → α → Bool) (s : List α) : Prop := s.Pairwise fun x y => ¬match' x y

/-- No element matches the key. -/
def Absent (match' : α → α → Bool) (s : List α) (data : α) : Prop := ∀ y ∈ s, ¬match' data y

/-- What a call is to do to the elements of a set, in any order, and what it gives. -/
inductive SetStep (match' : α → α → Bool) : List α → Op α → Answer α → List α → Prop
  | present {s : List α} {x y : α} {memory : Bool} (hy : y ∈ s) (hmatch : match' x y) :
      SetStep match' s (.insert x memory) ⟨1, x⟩ s
  | inserted {s s' : List α} {x : α} (habsent : Absent match' s x) (hs : s'.Perm (x :: s)) :
      SetStep match' s (.insert x true) ⟨0, x⟩ s'
  | noMemory {s : List α} {x : α} (habsent : Absent match' s x) : SetStep match' s (.insert x false) ⟨-1, x⟩ s
  | removed {s s' : List α} {x y : α} (hmatch : match' x y) (hs : s.Perm (y :: s')) (hothers : Absent match' s' x) :
      SetStep match' s (.remove x) ⟨0, y⟩ s'
  | notRemoved {s : List α} {x : α} (habsent : Absent match' s x) : SetStep match' s (.remove x) ⟨-1, x⟩ s
  | found {s : List α} {x y : α} (hy : y ∈ s) (hmatch : match' x y) : SetStep match' s (.lookup x) ⟨0, y⟩ s
  | notFound {s : List α} {x : α} (habsent : Absent match' s x) : SetStep match' s (.lookup x) ⟨-1, x⟩ s

theorem Distinct.perm (hsymm : ∀ {x y}, match' x y → match' y x) (h : Distinct match' s) (hs : s.Perm s') : Distinct match' s' :=
  (hs.pairwise_iff fun hxy hyx => hxy (hsymm hyx)).mp h

/-- A step keeps the elements from matching. -/
theorem SetStep.distinct {op : Op α} {answer : Answer α} (hsymm : ∀ {x y}, match' x y → match' y x)
    (hstep : SetStep match' s op answer s') (h : Distinct match' s) : Distinct match' s' := by
  cases hstep with
  | inserted habsent hs => exact Distinct.perm hsymm (List.pairwise_cons.mpr ⟨habsent, h⟩) hs.symm
  | removed hmatch hs hothers => exact (List.pairwise_cons.mp (h.perm hsymm hs)).2
  | present | noMemory | notRemoved | found | notFound => exact h

/-- The first element that matches is the only one. -/
theorem absent_eraseP {keys : Keys α} (hkeys : keys.Lawful) {x y : α} (h : Distinct keys.match' s)
    (hfind : s.find? (keys.match' x) = some y) :
    s.Perm (y :: s.eraseP (keys.match' x)) ∧ Absent keys.match' (s.eraseP (keys.match' x)) x := by
  obtain ⟨hmatch, before, behind, rfl, hbefore⟩ := List.find?_eq_some_iff_append.mp hfind
  have hnone : ∀ z ∈ before, ¬keys.match' x z := fun z hz => by simpa using hbefore z hz
  rw [List.eraseP_append_right _ hnone, List.eraseP_cons_of_pos hmatch]
  refine ⟨List.perm_middle, ?_⟩
  intro z hz hxz
  rcases List.mem_append.mp hz with hz | hz
  · exact hnone z hz hxz
  · have hyz := (List.pairwise_cons.mp (List.pairwise_append.mp h).2.1).1 z hz
    exact hyz (hkeys.trans (hkeys.symm hmatch) hxz)

theorem absent_of_find? {x : α} (hfind : s.find? (match' x) = none) : Absent match' s x := List.find?_eq_none.mp hfind

end

/-! ## The loops -/

section

variable {α : Type} {lists : LinkedList α} {match' : α → α → Bool} {l : lists.Carrier} {data : α}

/-- The loop of `chtb_lookup` finds the first element that matches. -/
theorem lookupLoop_spec (hlists : lists.Correct) {before rest : List lists.Element} {fuel : ℕ}
    (hl : lists.elements l = before ++ rest) (hfuel : rest.length < fuel) :
    lookupLoop match' l data fuel rest.head? = .ok ((rest.map (lists.data l)).find? (match' data)) := by
  induction rest generalizing before fuel with
  | nil =>
    obtain ⟨fuel, rfl⟩ := Nat.exists_eq_add_of_lt hfuel
    rfl
  | cons e rest ih =>
    obtain ⟨fuel, rfl⟩ : ∃ n, fuel = n + 1 := ⟨fuel - 1, by omega⟩
    rw [List.head?_cons, lookupLoop, List.map_cons]
    by_cases hmatch : match' data (lists.data l e)
    · rw [if_pos hmatch, List.find?_cons_of_pos hmatch]
    · rw [if_neg hmatch, List.find?_cons_of_neg hmatch, hlists.next hl]
      exact ih (hl.trans (List.append_cons before e rest)) (Nat.lt_of_succ_lt_succ hfuel)

/-- The loop of `chtb_remove` takes out the first element that matches. -/
theorem removeLoop_spec (hlists : lists.Correct) {before rest : List lists.Element} (hl : lists.elements l = before ++ rest)
    (hbefore : ∀ e ∈ before, ¬match' data (lists.data l e)) :
    match (rest.map (lists.data l)).find? (match' data) with
    | none => ∀ fuel, rest.length < fuel → removeLoop match' l data fuel before.getLast? rest.head? = .ok none
    | some y => ∃ l', lists.values l' = (lists.values l).eraseP (match' data) ∧
        ∀ fuel, rest.length < fuel → removeLoop match' l data fuel before.getLast? rest.head? = .ok (some (y, l')) := by
  induction rest generalizing before with
  | nil =>
    intro fuel hfuel
    obtain ⟨fuel, rfl⟩ := Nat.exists_eq_add_of_lt hfuel
    rfl
  | cons e rest ih =>
    rw [List.map_cons]
    by_cases hmatch : match' data (lists.data l e)
    · rw [List.find?_cons_of_pos hmatch]
      obtain ⟨l', hrem, hvalues⟩ := hlists.remove hl
      have hnone : ∀ y ∈ before.map (lists.data l), ¬match' data y := by
        intro y hy
        obtain ⟨e', he', rfl⟩ := List.mem_map.mp hy
        exact hbefore e' he'
      refine ⟨l', ?_, ?_⟩
      · rw [hvalues, LinkedList.values, hl, List.map_append, List.map_append, List.eraseP_append_right _ hnone, List.map_cons,
          List.eraseP_cons_of_pos hmatch]
      · intro fuel hfuel
        obtain ⟨fuel, rfl⟩ := Nat.exists_eq_add_of_lt hfuel
        rw [List.head?_cons, removeLoop, if_pos hmatch, hrem]
    · rw [List.find?_cons_of_neg hmatch]
      have hbefore' : ∀ e' ∈ before ++ [e], ¬match' data (lists.data l e') := by
        intro e' he'
        rcases List.mem_append.mp he' with he' | he'
        · exact hbefore e' he'
        · rwa [List.mem_singleton.mp he']
      have hrest := ih (hl.trans (List.append_cons before e rest)) hbefore'
      rw [List.getLast?_concat] at hrest
      -- one more turn of the loop
      have hturn : ∀ fuel, removeLoop match' l data (fuel + 1) before.getLast? (e :: rest).head? =
          removeLoop match' l data fuel (some e) rest.head? := by
        intro fuel
        rw [List.head?_cons, removeLoop, if_neg hmatch, hlists.next hl]
      cases hfind : (rest.map (lists.data l)).find? (match' data) with
      | none =>
        rw [hfind] at hrest
        intro fuel hfuel
        obtain ⟨fuel, rfl⟩ : ∃ n, fuel = n + 1 := ⟨fuel - 1, by omega⟩
        rw [hturn, hrest fuel (Nat.lt_of_succ_lt_succ hfuel)]
      | some y =>
        rw [hfind] at hrest
        obtain ⟨l', hvalues, hrun⟩ := hrest
        refine ⟨l', hvalues, ?_⟩
        intro fuel hfuel
        obtain ⟨fuel, rfl⟩ : ∃ n, fuel = n + 1 := ⟨fuel - 1, by omega⟩
        rw [hturn, hrun fuel (Nat.lt_of_succ_lt_succ hfuel)]

end

/-! ## The table -/

section

variable {α : Type} {lists : LinkedList α}

/-- The elements of the buckets. -/
def Table.buckets (t : Table lists) : List (List α) := t.table.map lists.values

/-- The elements of the table. -/
def Table.stored (t : Table lists) : List α := t.buckets.flatten

/-- The bucket that a key belongs to. -/
def Table.index (t : Table lists) (x : α) : ℕ := ((t.keys.h x).tmod t.nBuckets).toNat

/-- The remainder of the hash is the number of a bucket. -/
def Hashed (keys : Keys α) (nBuckets : ℤ) (data : α) : Prop := 0 ≤ keys.h data ∨ nBuckets ∣ keys.h data

/-- What holds between the calls. -/
structure Inv (t : Table lists) : Prop where
  pos : 1 ≤ t.nBuckets
  length : t.table.length = t.nBuckets.toNat
  placed : Placed t.index t.buckets
  distinct : Distinct t.keys.match' t.stored
  size : t.currentSize = t.stored.length

theorem tmod_nonneg_iff {x n : ℤ} : 0 ≤ x.tmod n ↔ 0 ≤ x ∨ n ∣ x := by
  rcases Int.le_total 0 x with hx | hx
  · exact iff_of_true (Int.tmod_nonneg n hx) (.inl hx)
  · have hle : x.tmod n ≤ 0 := by
      have := Int.tmod_nonneg n (show 0 ≤ -x by omega)
      rw [Int.neg_tmod] at this
      omega
    rw [Int.dvd_iff_tmod_eq_zero]
    constructor
    · intro h
      exact .inr (Int.le_antisymm hle h)
    · rintro (h | h)
      · exact Int.tmod_nonneg n h
      · exact Int.le_of_eq h.symm

variable {t : Table lists} {data : α}

/-- A key whose remainder is negative. -/
theorem list_outside (hn : 1 ≤ t.nBuckets) (h : ¬Hashed t.keys t.nBuckets data) :
    ∃ bucket, t.bucket data = .ok bucket ∧ t.list bucket = .error .outside :=
  ⟨_, if_neg (by omega), if_pos (Int.not_le.mp (mt tmod_nonneg_iff.mp h))⟩

/-- A key whose remainder is not negative has a bucket. -/
theorem Inv.list (h : Inv t) (hdata : Hashed t.keys t.nBuckets data) :
    ∃ bucket l, t.bucket data = .ok bucket ∧ t.list bucket = .ok l ∧ bucket.toNat = t.index data ∧
      t.buckets[t.index data]? = some (lists.values l) := by
  have hpos := h.pos
  have hnonneg : 0 ≤ (t.keys.h data).tmod t.nBuckets := tmod_nonneg_iff.mpr hdata
  have hlt : (t.keys.h data).tmod t.nBuckets < t.nBuckets := Int.tmod_lt_of_pos _ hpos
  have hindex : t.index data < t.table.length := by
    rw [h.length, Table.index]
    omega
  have hget : t.table[t.index data]? = some t.table[t.index data] := List.getElem?_eq_getElem hindex
  refine ⟨_, t.table[t.index data], if_neg (by omega), ?_, rfl, ?_⟩
  · have hmatch : t.list ((t.keys.h data).tmod t.nBuckets) = match t.table[t.index data]? with
        | some l => .ok l
        | none => .error .outside := if_neg (Int.not_lt.mpr hnonneg)
    rw [hmatch, hget]
  · rw [Table.buckets, List.getElem?_map, hget]
    rfl

/-- Keys that match belong to one bucket. -/
theorem index_eq (hkeys : t.keys.Lawful) {x y : α} (hmatch : t.keys.match' x y) : t.index y = t.index x := by
  rw [Table.index, Table.index, hkeys.respects hmatch]

theorem length_le_stored {i : ℕ} {l : List α} (h : t.buckets[i]? = some l) : l.length ≤ t.stored.length :=
  (List.sublist_flatten_of_mem (List.mem_of_getElem? h)).length_le

/-- `chtb_lookup` finds the element that matches. -/
theorem chtbLookup_spec (hlists : lists.Correct) (hkeys : t.keys.Lawful) (h : Inv t) (hdata : Hashed t.keys t.nBuckets data)
    {fuel : ℕ} (hfuel : t.stored.length < fuel) :
    chtbLookup fuel t data = .ok (match t.stored.find? (t.keys.match' data) with
      | some y => (0, y)
      | none => (-1, data)) := by
  obtain ⟨bucket, l, hbucket, hlist, -, hget⟩ := h.list hdata
  have hlen := length_le_stored hget
  rw [LinkedList.values, List.length_map] at hlen
  have hloop : lookupLoop t.keys.match' l data fuel (lists.elements l).head? = .ok ((lists.values l).find? (t.keys.match' data)) :=
    lookupLoop_spec hlists (List.nil_append _).symm (Nat.lt_of_le_of_lt hlen hfuel)
  have hfind : t.stored.find? (t.keys.match' data) = (lists.values l).find? (t.keys.match' data) :=
    h.placed.find?_flatten hget fun x _ hx => index_eq hkeys hx
  rw [chtbLookup, hbucket]
  simp only [bind, Except.bind]
  rw [hlist]
  simp only
  rw [hlists.head, hloop, hfind]
  cases (lists.values l).find? (t.keys.match' data) <;> rfl

/-- A new element in front of its bucket. -/
theorem Inv.insert (hkeys : t.keys.Lawful) (h : Inv t) {bucket : ℤ} {l l' : lists.Carrier} (hbucket : bucket.toNat = t.index data)
    (hget : t.buckets[t.index data]? = some (lists.values l)) (hvalues : lists.values l' = data :: lists.values l)
    (habsent : Absent t.keys.match' t.stored data) {t' : Table lists}
    (ht' : t' = { t.setList bucket l' with currentSize := t.currentSize + 1 }) : t'.stored.Perm (data :: t.stored) ∧ Inv t' := by
  subst ht'
  have hbuckets : (t.table.set bucket.toNat l').map lists.values = t.buckets.set (t.index data) (data :: lists.values l) := by
    rw [List.map_set, hvalues, hbucket]
    rfl
  have hstored : ((t.table.set bucket.toNat l').map lists.values).flatten.Perm (data :: t.stored) := by
    rw [hbuckets]
    exact flatten_set_perm_cons hget (List.Perm.refl _)
  refine ⟨hstored, h.pos, ?_, ?_, ?_, ?_⟩
  · exact List.length_set.trans h.length
  · show Placed t.index ((t.table.set bucket.toNat l').map lists.values)
    rw [hbuckets]
    apply h.placed.set
    intro x hx
    rcases List.mem_cons.mp hx with rfl | hx
    · rfl
    · exact h.placed _ _ hget x hx
  · exact (SetStep.inserted habsent hstored).distinct hkeys.symm h.distinct
  · show t.currentSize + 1 = (((t.table.set bucket.toNat l').map lists.values).flatten.length : ℤ)
    rw [hstored.length_eq, List.length_cons, h.size]
    rfl

/-- The element that matches is taken out of its bucket. -/
theorem Inv.remove (hkeys : t.keys.Lawful) (h : Inv t) {bucket : ℤ} {l l' : lists.Carrier} (hbucket : bucket.toNat = t.index data)
    (hget : t.buckets[t.index data]? = some (lists.values l))
    (hvalues : lists.values l' = (lists.values l).eraseP (t.keys.match' data)) {y : α}
    (hfind : t.stored.find? (t.keys.match' data) = some y) {t' : Table lists}
    (ht' : t' = { t.setList bucket l' with currentSize := t.currentSize - 1 }) :
    t'.stored = t.stored.eraseP (t.keys.match' data) ∧ Inv t' := by
  subst ht'
  have hbuckets : (t.table.set bucket.toNat l').map lists.values =
      t.buckets.set (t.index data) ((lists.values l).eraseP (t.keys.match' data)) := by
    rw [List.map_set, hvalues, hbucket]
    rfl
  have hstored : ((t.table.set bucket.toNat l').map lists.values).flatten = t.stored.eraseP (t.keys.match' data) := by
    rw [hbuckets]
    exact h.placed.eraseP_flatten hget fun x _ hx => index_eq hkeys hx
  obtain ⟨hperm, hothers⟩ := absent_eraseP hkeys h.distinct hfind
  refine ⟨hstored, h.pos, ?_, ?_, ?_, ?_⟩
  · exact List.length_set.trans h.length
  · show Placed t.index ((t.table.set bucket.toNat l').map lists.values)
    rw [hbuckets]
    apply h.placed.set
    intro x hx
    exact h.placed _ _ hget x (List.mem_of_mem_eraseP hx)
  · show Distinct t.keys.match' ((t.table.set bucket.toNat l').map lists.values).flatten
    rw [hstored]
    exact (SetStep.removed (List.find?_some hfind) hperm hothers).distinct hkeys.symm h.distinct
  · show t.currentSize - 1 = (((t.table.set bucket.toNat l').map lists.values).flatten.length : ℤ)
    rw [hstored, h.size, hperm.length_eq, List.length_cons]
    omega

/-! ## Calls -/

/-- With enough steps, the call ends with this. -/
def Returns (t : Table lists) (op : Op α) (answer : Answer α) (t' : Table lists) : Prop :=
  ∃ n, ∀ fuel, n < fuel → step fuel t op = .ok (answer, t')

/-- The remainder of the hash is the number of a bucket, and there is room in `current_size` for one more. -/
structure Meets (t : Table lists) (op : Op α) : Prop where
  hashed : Hashed t.keys t.nBuckets op.data
  size : ∀ {data memory}, op = .insert data memory → t.currentSize < intMax

/-- What a call leaves as it is. -/
structure Kept (t t' : Table lists) : Prop where
  keys : t'.keys = t.keys
  nBuckets : t'.nBuckets = t.nBuckets

variable {memory : Bool}

theorem chtbInsert_present {y : α} (hlists : lists.Correct) (hkeys : t.keys.Lawful) (h : Inv t)
    (hdata : Hashed t.keys t.nBuckets data) (hfind : t.stored.find? (t.keys.match' data) = some y) {fuel : ℕ}
    (hfuel : t.stored.length < fuel) : chtbInsert fuel memory t data = .ok (1, t) := by
  rw [chtbInsert, chtbLookup_spec hlists hkeys h hdata hfuel, hfind]
  rfl

/-- `chtb_insert`, where no element matches. -/
theorem chtbInsert_absent (hlists : lists.Correct) (hkeys : t.keys.Lawful) (h : Inv t) (hdata : Hashed t.keys t.nBuckets data)
    (hfind : t.stored.find? (t.keys.match' data) = none) {bucket : ℤ} {l : lists.Carrier} (hbucket : t.bucket data = .ok bucket)
    (hlist : t.list bucket = .ok l) {fuel : ℕ} (hfuel : t.stored.length < fuel) :
    chtbInsert fuel memory t data =
      match lists.insNext memory l none data with
      | some l =>
        if t.currentSize < intMax then .ok (0, { t.setList bucket l with currentSize := t.currentSize + 1 }) else .error .overflow
      | none => .ok (-1, t) := by
  rw [chtbInsert, chtbLookup_spec hlists hkeys h hdata hfuel, hfind]
  simp only [bind, Except.bind]
  rw [if_neg (by decide), hbucket]
  simp only
  rw [hlist]
  rfl

theorem chtbRemove_ok {bucket : ℤ} {l : lists.Carrier} (hbucket : t.bucket data = .ok bucket) (hlist : t.list bucket = .ok l)
    (fuel : ℕ) :
    chtbRemove fuel t data = removeLoop t.keys.match' l data fuel none (lists.head l) >>= fun
      | some (removed, l) => .ok (0, removed, { t.setList bucket l with currentSize := t.currentSize - 1 })
      | none => .ok (-1, data, t) := by
  rw [chtbRemove, hbucket]
  simp only [bind, Except.bind]
  rw [hlist]
  rfl

/-- `chtb_remove` takes out the element that matches. -/
theorem chtbRemove_spec (hlists : lists.Correct) (hkeys : t.keys.Lawful) (h : Inv t) (hdata : Hashed t.keys t.nBuckets data) :
    match t.stored.find? (t.keys.match' data) with
    | none => ∀ fuel, t.stored.length < fuel → chtbRemove fuel t data = .ok (-1, data, t)
    | some y => ∃ t', t'.stored = t.stored.eraseP (t.keys.match' data) ∧ Inv t' ∧ Kept t t' ∧
        ∀ fuel, t.stored.length < fuel → chtbRemove fuel t data = .ok (0, y, t') := by
  obtain ⟨bucket, l, hbucket, hlist, hindex, hget⟩ := h.list hdata
  have hlen := length_le_stored hget
  rw [LinkedList.values, List.length_map] at hlen
  have hfind : t.stored.find? (t.keys.match' data) = (lists.values l).find? (t.keys.match' data) :=
    h.placed.find?_flatten hget fun x _ hx => index_eq hkeys hx
  have hloop := @removeLoop_spec _ _ t.keys.match' l data hlists [] _ (List.nil_append _).symm (fun e he => by cases he)
  rw [← LinkedList.values, ← hfind, ← hlists.head, List.getLast?_nil] at hloop
  cases hcase : t.stored.find? (t.keys.match' data) with
  | none =>
    rw [hcase] at hloop
    intro fuel hfuel
    rw [chtbRemove_ok hbucket hlist, hloop fuel (Nat.lt_of_le_of_lt hlen hfuel)]
    rfl
  | some y =>
    rw [hcase] at hloop
    obtain ⟨l', hvalues, hrun⟩ := hloop
    obtain ⟨hstored, hinv⟩ := h.remove hkeys hindex hget hvalues hcase rfl
    refine ⟨_, hstored, hinv, ⟨rfl, rfl⟩, ?_⟩
    intro fuel hfuel
    rw [chtbRemove_ok hbucket hlist, hrun fuel (Nat.lt_of_le_of_lt hlen hfuel)]
    rfl

/-- A call does what the step of a set does, keeps what holds between the calls, and changes nothing where it does not return 0. -/
def Refines (t : Table lists) (op : Op α) : Prop :=
  ∃ answer t', Returns t op answer t' ∧ SetStep t.keys.match' t.stored op answer t'.stored ∧
    (answer.retval ≠ 0 ∨ op = .lookup op.data → t' = t) ∧ Inv t' ∧ Kept t t'

theorem refines_insert (hlists : lists.Correct) (hkeys : t.keys.Lawful) (h : Inv t) (hdata : Hashed t.keys t.nBuckets data)
    (hsize : t.currentSize < intMax) : Refines t (.insert data memory) := by
  cases hfind : t.stored.find? (t.keys.match' data) with
  | some y =>
    refine ⟨⟨1, data⟩, t, ⟨t.stored.length, ?_⟩, .present (List.mem_of_find?_eq_some hfind) (List.find?_some hfind), fun _ => rfl, h,
      ⟨rfl, rfl⟩⟩
    intro fuel hfuel
    rw [step, chtbInsert_present hlists hkeys h hdata hfind hfuel]
    rfl
  | none =>
    have habsent := absent_of_find? hfind
    obtain ⟨bucket, l, hbucket, hlist, hindex, hget⟩ := h.list hdata
    cases memory with
    | false =>
      refine ⟨⟨-1, data⟩, t, ⟨t.stored.length, ?_⟩, .noMemory habsent, fun _ => rfl, h, ⟨rfl, rfl⟩⟩
      intro fuel hfuel
      rw [step, chtbInsert_absent hlists hkeys h hdata hfind hbucket hlist hfuel, hlists.noMemory]
      rfl
    | true =>
      obtain ⟨l', hins, hvalues⟩ := hlists.insert l data
      obtain ⟨hstored, hinv⟩ := h.insert hkeys hindex hget hvalues habsent rfl
      refine ⟨⟨0, data⟩, _, ⟨t.stored.length, ?_⟩, .inserted habsent hstored, ?_, hinv, ⟨rfl, rfl⟩⟩
      · intro fuel hfuel
        rw [step, chtbInsert_absent hlists hkeys h hdata hfind hbucket hlist hfuel, hins]
        simp only
        rw [if_pos hsize]
        rfl
      · rintro (hne | hlookup)
        · exact absurd rfl hne
        · cases hlookup

theorem refines_remove (hlists : lists.Correct) (hkeys : t.keys.Lawful) (h : Inv t) (hdata : Hashed t.keys t.nBuckets data) :
    Refines t (.remove data) := by
  have hremove := chtbRemove_spec hlists hkeys h hdata
  cases hfind : t.stored.find? (t.keys.match' data) with
  | none =>
    rw [hfind] at hremove
    refine ⟨⟨-1, data⟩, t, ⟨t.stored.length, ?_⟩, .notRemoved (absent_of_find? hfind), fun _ => rfl, h, ⟨rfl, rfl⟩⟩
    intro fuel hfuel
    rw [step, hremove fuel hfuel]
    rfl
  | some y =>
    rw [hfind] at hremove
    obtain ⟨t', hstored, hinv, hkept, hrun⟩ := hremove
    obtain ⟨hperm, hothers⟩ := absent_eraseP hkeys h.distinct hfind
    refine ⟨⟨0, y⟩, t', ⟨t.stored.length, ?_⟩, ?_, ?_, hinv, hkept⟩
    · intro fuel hfuel
      rw [step, hrun fuel hfuel]
      rfl
    · rw [hstored]
      exact .removed (List.find?_some hfind) hperm hothers
    · rintro (hne | hlookup)
      · exact absurd rfl hne
      · cases hlookup

theorem refines_lookup (hlists : lists.Correct) (hkeys : t.keys.Lawful) (h : Inv t) (hdata : Hashed t.keys t.nBuckets data) :
    Refines t (.lookup data) := by
  have hlookup : ∀ fuel, t.stored.length < fuel → chtbLookup fuel t data = _ := fun fuel hfuel =>
    chtbLookup_spec hlists hkeys h hdata hfuel
  cases hfind : t.stored.find? (t.keys.match' data) with
  | none =>
    refine ⟨⟨-1, data⟩, t, ⟨t.stored.length, ?_⟩, .notFound (absent_of_find? hfind), fun _ => rfl, h, ⟨rfl, rfl⟩⟩
    intro fuel hfuel
    rw [step, hlookup fuel hfuel, hfind]
    rfl
  | some y =>
    refine ⟨⟨0, y⟩, t, ⟨t.stored.length, ?_⟩, .found (List.mem_of_find?_eq_some hfind) (List.find?_some hfind), fun _ => rfl, h,
      ⟨rfl, rfl⟩⟩
    intro fuel hfuel
    rw [step, hlookup fuel hfuel, hfind]
    rfl

theorem step_spec (hlists : lists.Correct) (hkeys : t.keys.Lawful) (h : Inv t) {op : Op α} (hop : Meets t op) : Refines t op := by
  cases op with
  | insert data memory => exact refines_insert hlists hkeys h hop.hashed (hop.size rfl)
  | remove data => exact refines_remove hlists hkeys h hop.hashed
  | lookup data => exact refines_lookup hlists hkeys h hop.hashed

/-- A key whose remainder is negative: every call is outside of the array at once. -/
theorem step_outside (hn : 1 ≤ t.nBuckets) {op : Op α} (hdata : ¬Hashed t.keys t.nBuckets op.data) (fuel : ℕ) :
    step fuel t op = .error .outside := by
  obtain ⟨bucket, hbucket, hlist⟩ := list_outside hn hdata
  have hlookup : chtbLookup fuel t op.data = .error .outside := by
    rw [chtbLookup, hbucket]
    simp only [bind, Except.bind]
    rw [hlist]
  cases op with
  | insert data memory =>
    rw [step, chtbInsert, show chtbLookup fuel t data = _ from hlookup]
    rfl
  | remove data =>
    rw [step, chtbRemove, show t.bucket data = _ from hbucket]
    simp only [bind, Except.bind]
    rw [hlist]
  | lookup data =>
    rw [step, show chtbLookup fuel t data = _ from hlookup]
    rfl

/-! ## Runs -/

/-- The states that calls lead to from a new table, where each call meets the condition. -/
inductive Reached (lists : LinkedList α) (keys : Keys α) (nBuckets : ℤ) : Table lists → Prop
  | init {t : Table lists} (hinit : chtbInit lists true nBuckets keys = some t) : Reached lists keys nBuckets t
  | step {t t' : Table lists} {op : Op α} {answer : Answer α} (h : Reached lists keys nBuckets t) (hop : Meets t op)
      (hreturns : Returns t op answer t') : Reached lists keys nBuckets t'

variable {keys : Keys α} {nBuckets : ℤ}

theorem Returns.unique {op : Op α} {answer answer' : Answer α} {t' t'' : Table lists} (h : Returns t op answer t')
    (h' : Returns t op answer' t'') : t' = t'' := by
  obtain ⟨n, hn⟩ := h
  obtain ⟨n', hn'⟩ := h'
  have heq := (hn (n + n' + 1) (by omega)).symm.trans (hn' (n + n' + 1) (by omega))
  exact congrArg Prod.snd (Except.ok.inj heq)

/-- A new table has nothing in it. -/
theorem inv_init (hlists : lists.Correct) (hn : 1 ≤ nBuckets) : Inv (⟨nBuckets, keys, 0, List.replicate nBuckets.toNat lists.init⟩ :
    Table lists) := by
  have hbuckets : (List.replicate nBuckets.toNat lists.init).map lists.values = List.replicate nBuckets.toNat [] := by
    rw [List.map_replicate, hlists.init]
  have hstored : ((List.replicate nBuckets.toNat lists.init).map lists.values).flatten = [] := by
    rw [hbuckets, List.flatten_replicate_nil]
  refine ⟨hn, List.length_replicate, ?_, ?_, ?_⟩
  · show Placed _ ((List.replicate nBuckets.toNat lists.init).map lists.values)
    rw [hbuckets]
    exact placed_replicate _ _
  · show Distinct _ ((List.replicate nBuckets.toNat lists.init).map lists.values).flatten
    rw [hstored]
    exact List.Pairwise.nil
  · show (0 : ℤ) = (((List.replicate nBuckets.toNat lists.init).map lists.values).flatten.length : ℤ)
    rw [hstored]
    rfl

/-- What holds between the calls holds in every state. -/
theorem Reached.inv (hlists : lists.Correct) (hkeys : keys.Lawful) (hn : 1 ≤ nBuckets) (h : Reached lists keys nBuckets t) :
    Inv t ∧ t.keys = keys ∧ t.nBuckets = nBuckets := by
  induction h with
  | init hinit =>
    obtain rfl := Option.some.inj hinit
    exact ⟨inv_init hlists hn, rfl, rfl⟩
  | step h hop hreturns ih =>
    obtain ⟨hinv, rfl, rfl⟩ := ih
    obtain ⟨answer, t', hreturns', -, -, hinv', hkept⟩ := step_spec hlists hkeys hinv hop
    obtain rfl := hreturns.unique hreturns'
    exact ⟨hinv', hkept.keys, hkept.nBuckets⟩

end

/-- In every state that calls lead to whose keys have a bucket: no two elements match, `current_size` is their number, and a further
such call ends as the step of a set, where one with another key is outside of the array at once. -/
theorem chtb_spec {α : Type} (lists : LinkedList α) (hlists : lists.Correct) (keys : Keys α) (hkeys : keys.Lawful) (nBuckets : ℤ)
    (hn : 1 ≤ nBuckets) (t : Table lists) (h : Reached lists keys nBuckets t) :
    Distinct keys.match' t.stored ∧ t.currentSize = t.stored.length ∧
      (∀ op, Meets t op → ∃ answer t', Returns t op answer t' ∧ SetStep keys.match' t.stored op answer t'.stored ∧
        (answer.retval ≠ 0 ∨ op = .lookup op.data → t' = t)) ∧
      ∀ op, ¬Hashed keys nBuckets op.data → ∀ fuel, step fuel t op = .error .outside := by
  obtain ⟨hinv, rfl, rfl⟩ := h.inv hlists hkeys hn
  refine ⟨hinv.distinct, hinv.size, ?_, fun op hop fuel => step_outside hn hop fuel⟩
  intro op hop
  obtain ⟨answer, t', hreturns, hset, hsame, -, -⟩ := step_spec hlists hkeys hinv hop
  exact ⟨answer, t', hreturns, hset, hsame⟩

/-- Integers, each its own hash. -/
def integers : Keys ℤ := ⟨id, fun x y => x == y⟩

theorem integers_lawful : integers.Lawful where
  symm h := beq_iff_eq.mpr (beq_iff_eq.mp h).symm
  trans h h' := beq_iff_eq.mpr ((beq_iff_eq.mp h).trans (beq_iff_eq.mp h'))
  respects h := beq_iff_eq.mp h

/-- A table of three buckets, new and behind the insertion of 5. -/
def newTable : Table (LinkedList.suffixes ℤ) := ⟨3, integers, 0, [[], [], []]⟩

def tableOfFive : Table (LinkedList.suffixes ℤ) := ⟨3, integers, 1, [[], [], [5]]⟩

theorem tableOfFive_reached : Reached (LinkedList.suffixes ℤ) integers 3 tableOfFive := by
  have hnew : Reached (LinkedList.suffixes ℤ) integers 3 newTable := .init rfl
  have hreturns : Returns newTable (.insert 5 true) ⟨0, 5⟩ tableOfFive := by
    refine ⟨0, ?_⟩
    intro fuel hfuel
    obtain ⟨fuel, rfl⟩ := Nat.exists_eq_add_of_lt hfuel
    rfl
  exact .step hnew ⟨.inl (by decide), fun _ => by decide⟩ hreturns

theorem chtb_spec_five :
    Distinct integers.match' tableOfFive.stored ∧ tableOfFive.currentSize = tableOfFive.stored.length ∧
      (∀ op, Meets tableOfFive op → ∃ answer t', Returns tableOfFive op answer t' ∧
        SetStep integers.match' tableOfFive.stored op answer t'.stored ∧
        (answer.retval ≠ 0 ∨ op = .lookup op.data → t' = tableOfFive)) ∧
      ∀ op, ¬Hashed integers 3 op.data → ∀ fuel, step fuel tableOfFive op = .error .outside :=
  chtb_spec (LinkedList.suffixes ℤ) (LinkedList.suffixes_correct ℤ) integers integers_lawful 3 (by decide) tableOfFive
    tableOfFive_reached

/-- The hash -1 in a table of three buckets. -/
theorem not_chtb_negative :
    integers.Lawful ∧ ∃ t, chtbInit (LinkedList.suffixes ℤ) true 3 integers = some t ∧
      ∀ fuel, step fuel t (.lookup (-1)) = .error .outside :=
  ⟨integers_lawful, newTable, rfl, fun _ => rfl⟩

end CodingExercises.Snippets.ChainedHashTable
