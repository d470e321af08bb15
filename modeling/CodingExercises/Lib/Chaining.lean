import Mathlib.Data.List.Basic
import Mathlib.Data.List.Perm.Basic

/-!
# Chained buckets

The entries of a hash table as a list of buckets, each of them a list of entries, with a function that says where an
entry belongs.

- Changing one bucket changes the entries as a whole by the same entries (`append_flatten_set_perm`), and the number of
  buckets in use by that bucket (`used_set`);
- where every entry is in its place, the number of buckets in use depends on the entries alone (`used_eq_of_perm`), and an
  entry is found in one bucket (`Placed.find?_flatten`);
- there are at most as many different entries as there are that cover them (`length_le_of_coveredBy`);
- `putAll` puts entries into their places one after another; each takes at most one bucket (`used_putAll_le`).
-/

namespace CodingExercises.Lib

variable {α : Type*}

/-- Changing one bucket. -/
theorem append_flatten_set_perm {bs : List (List α)} {i : ℕ} {l : List α} (h : bs[i]? = some l) (l' : List α) :
    (l ++ (bs.set i l').flatten).Perm (l' ++ bs.flatten) := by
  induction bs generalizing i with
  | nil => simp at h
  | cons b bs ih =>
    cases i with
    | zero =>
      obtain rfl : b = l := by simpa using h
      rw [List.set_cons_zero, List.flatten_cons, List.flatten_cons, ← List.append_assoc, ← List.append_assoc]
      exact List.perm_append_comm.append_right _
    | succ i =>
      rw [List.set_cons_succ, List.flatten_cons, List.flatten_cons]
      have ih := ih (by simpa using h)
      calc l ++ (b ++ (bs.set i l').flatten)
          _ |>.Perm (b ++ (l ++ (bs.set i l').flatten)) := by
            rw [← List.append_assoc, ← List.append_assoc]
            exact List.perm_append_comm.append_right _
          _ |>.Perm (b ++ (l' ++ bs.flatten)) := ih.append_left b
          _ |>.Perm (l' ++ (b ++ bs.flatten)) := by
            rw [← List.append_assoc, ← List.append_assoc]
            exact List.perm_append_comm.append_right _

/-- A bucket with one more entry. -/
theorem flatten_set_perm_cons {bs : List (List α)} {i : ℕ} {l l' : List α} {x : α} (h : bs[i]? = some l)
    (hl : l'.Perm (x :: l)) : (bs.set i l').flatten.Perm (x :: bs.flatten) := by
  have h₁ := append_flatten_set_perm h l'
  have h₂ : (l ++ (bs.set i l').flatten).Perm (l ++ (x :: bs.flatten)) := by
    calc (l ++ (bs.set i l').flatten)
      _ |>.Perm (l' ++ bs.flatten) := h₁
      _ |>.Perm (x :: l ++ bs.flatten) := hl.append_right _
      _ |>.Perm (l ++ (x :: bs.flatten)) := List.perm_middle.symm
  exact (List.perm_append_left_iff l).mp h₂

/-! ## Buckets in use -/

/-- The number of buckets in use. -/
def used (bs : List (List α)) : ℕ := bs.countP fun l => !l.isEmpty

@[simp]
theorem used_nil : used ([] : List (List α)) = 0 := rfl

theorem used_cons (l : List α) (bs : List (List α)) : used (l :: bs) = used bs + if l = [] then 0 else 1 := by
  unfold used
  rw [List.countP_cons]
  cases l <;> simp

theorem used_replicate (n : ℕ) : used (List.replicate n ([] : List α)) = 0 := by
  induction n with
  | zero => rfl
  | succ n ih => rw [List.replicate_succ, used_cons, ih, if_pos rfl]

/-- Changing one bucket. -/
theorem used_set {bs : List (List α)} {i : ℕ} {l : List α} (h : bs[i]? = some l) (l' : List α) :
    used (bs.set i l') + (if l = [] then 0 else 1) = used bs + if l' = [] then 0 else 1 := by
  induction bs generalizing i with
  | nil => simp at h
  | cons b bs ih =>
    cases i with
    | zero =>
      obtain rfl : b = l := by simpa using h
      rw [List.set_cons_zero, used_cons, used_cons]
      omega
    | succ i =>
      have ih := ih (by simpa using h)
      rw [List.set_cons_succ, used_cons, used_cons]
      omega

/-! ## Entries in their places -/

/-- Every entry is in the bucket that `f` gives. -/
def Placed (f : α → ℕ) (bs : List (List α)) : Prop := ∀ i l, bs[i]? = some l → ∀ x ∈ l, f x = i

variable {f : α → ℕ} {bs bs' : List (List α)}

theorem Placed.set (h : Placed f bs) {i : ℕ} {l : List α} (hl : ∀ x ∈ l, f x = i) : Placed f (bs.set i l) := by
  intro j l' hj x hx
  rw [List.getElem?_set] at hj
  split at hj
  · rename_i hij
    split at hj
    · obtain rfl := Option.some.inj hj
      rw [← hij]
      exact hl x hx
    · cases hj
  · exact h j l' hj x hx

theorem Placed.subset (h : Placed f bs) (hsub : List.Forall₂ (fun l' l => l' ⊆ l) bs' bs) : Placed f bs' := by
  intro i l' hi x hx
  obtain ⟨hlt, rfl⟩ := List.getElem?_eq_some_iff.mp hi
  have hlt' : i < bs.length := by rwa [← hsub.length_eq]
  have hmem : x ∈ bs[i] := (List.forall₂_iff_get.mp hsub).2 i hlt hlt' hx
  exact h i bs[i] (List.getElem?_eq_getElem hlt') x hmem

theorem placed_replicate (f : α → ℕ) (n : ℕ) : Placed f (List.replicate n []) := by
  intro i l h x hx
  rw [List.getElem?_replicate] at h
  split at h
  · obtain rfl := Option.some.inj h
    cases hx
  · cases h

/-- An entry is in its bucket. -/
theorem Placed.mem (h : Placed f bs) {x : α} (hx : x ∈ bs.flatten) : ∃ l, bs[f x]? = some l ∧ x ∈ l := by
  obtain ⟨l, hl, hxl⟩ := List.mem_flatten.mp hx
  obtain ⟨i, hi⟩ := List.mem_iff_getElem?.mp hl
  rw [h i l hi x hxl]
  exact ⟨l, hi, hxl⟩

theorem mem_flatten_of_getElem? {i : ℕ} {l : List α} (h : bs[i]? = some l) {x : α} (hx : x ∈ l) : x ∈ bs.flatten :=
  List.mem_flatten.mpr ⟨l, List.mem_of_getElem? h, hx⟩

/-- The buckets in use are those that an entry belongs to. -/
theorem used_eq (h : Placed f bs) :
    used bs = (List.range bs.length).countP fun i => bs.flatten.any fun x => f x = i := by
  have hmap : bs.map (fun l => !l.isEmpty) = (List.range bs.length).map fun i => bs.flatten.any fun x => f x = i := by
    apply List.ext_getElem
    · simp
    · intro i h₁ h₂
      have hi : i < bs.length := by simpa using h₁
      have hget : bs[i]? = some bs[i] := List.getElem?_eq_getElem hi
      simp only [List.getElem_map, List.getElem_range]
      rw [Bool.eq_iff_iff, List.any_eq_true]
      constructor
      · intro hne
        obtain ⟨x, hx⟩ := List.exists_mem_of_ne_nil bs[i] (by simpa using hne)
        exact ⟨x, mem_flatten_of_getElem? hget hx, by simpa using h i _ hget x hx⟩
      · rintro ⟨x, hx, hfx⟩
        obtain ⟨l, hl, hxl⟩ := h.mem hx
        rw [of_decide_eq_true hfx, hget] at hl
        obtain rfl := Option.some.inj hl
        simpa using List.ne_nil_of_mem hxl
  have hcount := congrArg (List.countP id) hmap
  rwa [List.countP_map, List.countP_map] at hcount

/-- The number of buckets in use depends on the entries alone. -/
theorem used_eq_of_perm (h : Placed f bs) (h' : Placed f bs') (hlen : bs.length = bs'.length)
    (hperm : bs.flatten.Perm bs'.flatten) : used bs = used bs' := by
  rw [used_eq h, used_eq h', hlen]
  apply List.countP_congr
  intro i _
  simp only [List.any_eq_true, hperm.mem_iff]

/-! ## Looking for an entry -/

section Find

variable {p : α → Bool} {i : ℕ} {l : List α}

/-- The buckets around one of them, when what is looked for belongs there. -/
theorem Placed.split (h : Placed f bs) (hi : bs[i]? = some l) (hp : ∀ x ∈ bs.flatten, p x → f x = i) :
    ∃ bs₁ bs₂, bs = bs₁ ++ l :: bs₂ ∧ bs₁.length = i ∧ (∀ x ∈ bs₁.flatten, ¬ p x) ∧ ∀ x ∈ bs₂.flatten, ¬ p x := by
  obtain ⟨hlt, rfl⟩ := List.getElem?_eq_some_iff.mp hi
  have hbs : bs = bs.take i ++ bs[i] :: bs.drop (i + 1) := by
    rw [List.getElem_cons_drop, List.take_append_drop]
  have hlen : (bs.take i).length = i := List.length_take_of_le (Nat.le_of_lt hlt)
  -- An entry of another bucket has another place.
  have hother : ∀ j l', j ≠ i → bs[j]? = some l' → ∀ x ∈ l', ¬ p x := by
    intro j l' hj hl' x hx hpx
    have hplace := h j l' hl' x hx
    have hmatch := hp x (mem_flatten_of_getElem? hl' hx) hpx
    exact hj (hplace.symm.trans hmatch)
  refine ⟨bs.take i, bs.drop (i + 1), hbs, hlen, ?_, ?_⟩
  · intro x hx
    obtain ⟨l', hl', hxl'⟩ := List.mem_flatten.mp hx
    obtain ⟨j, hj⟩ := List.mem_iff_getElem?.mp hl'
    have hji : j < i := by
      obtain ⟨hj', -⟩ := List.getElem?_eq_some_iff.mp hj
      rwa [hlen] at hj'
    rw [List.getElem?_take_of_lt hji] at hj
    exact hother j l' (Nat.ne_of_lt hji) hj x hxl'
  · intro x hx
    obtain ⟨l', hl', hxl'⟩ := List.mem_flatten.mp hx
    obtain ⟨j, hj⟩ := List.mem_iff_getElem?.mp hl'
    rw [List.getElem?_drop] at hj
    exact hother _ l' (by omega) hj x hxl'

/-- What is looked for is found in its bucket. -/
theorem Placed.find?_flatten (h : Placed f bs) (hi : bs[i]? = some l) (hp : ∀ x ∈ bs.flatten, p x → f x = i) :
    bs.flatten.find? p = l.find? p := by
  obtain ⟨bs₁, bs₂, rfl, -, h₁, h₂⟩ := h.split hi hp
  have hnone₁ : bs₁.flatten.find? p = none := List.find?_eq_none.mpr h₁
  have hnone₂ : bs₂.flatten.find? p = none := List.find?_eq_none.mpr h₂
  rw [List.flatten_append, List.flatten_cons, List.find?_append, List.find?_append, hnone₁, hnone₂]
  cases l.find? p <;> rfl

/-- What is looked for is erased from its bucket. -/
theorem Placed.eraseP_flatten (h : Placed f bs) (hi : bs[i]? = some l) (hp : ∀ x ∈ bs.flatten, p x → f x = i) :
    (bs.set i (l.eraseP p)).flatten = bs.flatten.eraseP p := by
  obtain ⟨bs₁, bs₂, rfl, hlen, h₁, h₂⟩ := h.split hi hp
  have hset : (bs₁ ++ l :: bs₂).set i (l.eraseP p) = bs₁ ++ l.eraseP p :: bs₂ := by
    rw [← hlen, List.set_append_right _ _ (Nat.le_refl _), Nat.sub_self, List.set_cons_zero]
  rw [hset, List.flatten_append, List.flatten_cons, List.flatten_append, List.flatten_cons,
    List.eraseP_append_right _ h₁, List.eraseP_append, List.eraseP_of_forall_not h₂]
  split
  · rfl
  · rename_i hany
    rw [List.eraseP_of_forall_not]
    intro x hx hpx
    exact hany (List.any_eq_true.mpr ⟨x, hx, hpx⟩)

/-- The entries of a bucket are those that belong there. -/
theorem Placed.filter_flatten (h : Placed f bs) (hi : bs[i]? = some l) :
    (bs.flatten.filter fun x => f x = i) = l := by
  obtain ⟨bs₁, bs₂, rfl, -, h₁, h₂⟩ := h.split hi fun x _ hx => of_decide_eq_true hx
  have hall : (l.filter fun x => decide (f x = i)) = l :=
    List.filter_eq_self.mpr fun x hx => decide_eq_true (h i l hi x hx)
  rw [List.flatten_append, List.flatten_cons, List.filter_append, List.filter_append, List.filter_eq_nil_iff.mpr h₁,
    List.filter_eq_nil_iff.mpr h₂, hall, List.nil_append, List.append_nil]

/-- Entries that are put elsewhere and back are in their buckets again. -/
theorem Placed.perm_buckets {bs' : List (List α)} (h : Placed f bs) (h' : Placed f bs') (hlen : bs'.length = bs.length)
    (hperm : bs'.flatten.Perm bs.flatten) : List.Forall₂ (fun l' l => l'.Perm l) bs' bs := by
  apply List.forall₂_iff_get.mpr
  refine ⟨hlen, ?_⟩
  intro i hi' hi
  have hget' := h'.filter_flatten (List.getElem?_eq_getElem hi')
  have hget := h.filter_flatten (List.getElem?_eq_getElem hi)
  have hfilter := hperm.filter fun x => decide (f x = i)
  rwa [hget', hget] at hfilter

/-- Where at most one entry is looked for, the order does not matter. -/
theorem find?_eq_of_perm {l l' : List α} (hperm : l.Perm l') (hone : l.Pairwise fun x y => p x → p y → False) :
    l.find? p = l'.find? p := by
  induction hperm with
  | nil => rfl
  | cons x _ ih =>
    rw [List.find?_cons, List.find?_cons, ih (List.Pairwise.of_cons hone)]
  | swap x y l =>
    have hxy := List.rel_of_pairwise_cons hone List.mem_cons_self
    rw [List.find?_cons, List.find?_cons, List.find?_cons, List.find?_cons]
    cases hx : p x with
    | false => rfl
    | true =>
      cases hy : p y with
      | false => rfl
      | true => exact (hxy hy hx).elim
  | trans h₁ _ ih₁ ih₂ =>
    have hone₂ := h₁.pairwise hone fun h hy hx => h hx hy
    rw [ih₁ hone, ih₂ hone₂]

end Find

/-! ## Putting entries into their places -/

/-- An entry is put behind the first one of a bucket. -/
def put (x : α) : List α → List α
  | [] => [x]
  | y :: l => y :: x :: l

theorem put_perm (x : α) (l : List α) : (put x l).Perm (x :: l) := by
  cases l with
  | nil => exact List.Perm.refl _
  | cons y l => exact List.Perm.swap x y l

theorem put_ne_nil (x : α) (l : List α) : put x l ≠ [] := by
  cases l <;> exact List.cons_ne_nil _ _

/-- An entry is put into the bucket with the number `i`. -/
def putAt (x : α) (i : ℕ) (bs : List (List α)) : List (List α) :=
  match bs[i]? with
  | none => bs
  | some l => bs.set i (put x l)

theorem putAt_of_some {i : ℕ} {l : List α} (h : bs[i]? = some l) (x : α) : putAt x i bs = bs.set i (put x l) := by
  rw [putAt, h]

@[simp]
theorem length_putAt (x : α) (i : ℕ) (bs : List (List α)) : (putAt x i bs).length = bs.length := by
  unfold putAt
  split <;> simp

theorem putAt_perm {i : ℕ} (h : i < bs.length) (x : α) : (putAt x i bs).flatten.Perm (x :: bs.flatten) := by
  have hget : bs[i]? = some bs[i] := List.getElem?_eq_getElem h
  rw [putAt_of_some hget]
  exact flatten_set_perm_cons hget (put_perm x _)

theorem Placed.putAt (h : Placed f bs) (x : α) : Placed f (putAt x (f x) bs) := by
  unfold Lib.putAt
  split
  · exact h
  · rename_i l hl
    apply h.set
    intro y hy
    rcases List.mem_cons.mp ((put_perm x l).mem_iff.mp hy) with rfl | hy
    · rfl
    · exact h _ l hl y hy

/-- One more bucket is in use if the entry goes into an empty one. -/
theorem used_putAt {i : ℕ} {l : List α} (h : bs[i]? = some l) (x : α) :
    used (putAt x i bs) = used bs + if l = [] then 1 else 0 := by
  have hset := used_set h (put x l)
  rw [if_neg (put_ne_nil x l)] at hset
  rw [putAt_of_some h]
  by_cases hl : l = []
  · rw [if_pos hl] at hset ⊢
    exact hset
  · rw [if_neg hl] at hset ⊢
    omega

/-- Entries are put into their places, one after another. -/
def putAll (f : α → ℕ) (xs : List α) (bs : List (List α)) : List (List α) :=
  xs.foldl (fun bs x => putAt x (f x) bs) bs

theorem putAll_cons (f : α → ℕ) (x : α) (xs : List α) (bs : List (List α)) :
    putAll f (x :: xs) bs = putAll f xs (putAt x (f x) bs) := rfl

@[simp]
theorem length_putAll (f : α → ℕ) (xs : List α) (bs : List (List α)) : (putAll f xs bs).length = bs.length := by
  induction xs generalizing bs with
  | nil => rfl
  | cons x xs ih => rw [putAll_cons, ih, length_putAt]

theorem putAll_perm {xs : List α} (h : ∀ x ∈ xs, f x < bs.length) :
    (putAll f xs bs).flatten.Perm (xs ++ bs.flatten) := by
  induction xs generalizing bs with
  | nil => exact List.Perm.refl _
  | cons x xs ih =>
    rw [putAll_cons]
    have hx : f x < bs.length := h x List.mem_cons_self
    have hxs : ∀ y ∈ xs, f y < (putAt x (f x) bs).length := by
      intro y hy
      rw [length_putAt]
      exact h y (List.mem_cons_of_mem _ hy)
    calc (putAll f xs (putAt x (f x) bs)).flatten
      _ |>.Perm (xs ++ (putAt x (f x) bs).flatten) := ih hxs
      _ |>.Perm (xs ++ x :: bs.flatten) := (putAt_perm hx x).append_left xs
      _ |>.Perm (x :: xs ++ bs.flatten) := List.perm_middle

theorem Placed.putAll (h : Placed f bs) (xs : List α) : Placed f (putAll f xs bs) := by
  induction xs generalizing bs with
  | nil => exact h
  | cons x xs ih => exact ih (h.putAt x)

/-- Each entry takes at most one more bucket into use. -/
theorem used_putAll_le (f : α → ℕ) (xs : List α) (bs : List (List α)) :
    used (putAll f xs bs) ≤ used bs + xs.length := by
  induction xs generalizing bs with
  | nil => exact Nat.le_refl _
  | cons x xs ih =>
    rw [putAll_cons, List.length_cons]
    have hle := ih (putAt x (f x) bs)
    have hone : used (putAt x (f x) bs) ≤ used bs + 1 := by
      cases h : bs[f x]? with
      | none =>
        rw [putAt, h]
        exact Nat.le_succ _
      | some l =>
        rw [used_putAt h]
        split <;> omega
    omega

/-! ## Different entries -/

/-- Each of the entries is equivalent to one of `reps`. -/
def CoveredBy (r : α → α → Prop) (l reps : List α) : Prop := ∀ x ∈ l, ∃ y ∈ reps, r x y

theorem CoveredBy.mono {r : α → α → Prop} {l l' reps : List α} (h : CoveredBy r l reps) (hsub : l' ⊆ l) :
    CoveredBy r l' reps := fun x hx => h x (hsub hx)

/-- Entries that are all different are no more than those that cover them. -/
theorem length_le_of_coveredBy {r : α → α → Prop} (hr : Equivalence r) {l reps : List α} (h : CoveredBy r l reps)
    (hdistinct : l.Pairwise fun x y => ¬r x y) : l.length ≤ reps.length := by
  classical
  induction l generalizing reps with
  | nil => exact Nat.zero_le _
  | cons x l ih =>
    obtain ⟨hx, hl⟩ := List.pairwise_cons.mp hdistinct
    obtain ⟨y, hy, hxy⟩ := h x List.mem_cons_self
    have hrest : CoveredBy r l (reps.erase y) := by
      intro z hz
      obtain ⟨y', hy', hzy'⟩ := h z (List.mem_cons_of_mem _ hz)
      have hne : y' ≠ y := by
        rintro rfl
        exact hx z hz (hr.trans hxy (hr.symm hzy'))
      exact ⟨y', (List.mem_erase_of_ne hne).mpr hy', hzy'⟩
    have hle := ih hrest hl
    have hlen := List.length_erase_of_mem hy
    have hpos := List.length_pos_of_mem hy
    rw [List.length_cons]
    omega

end CodingExercises.Lib
