import CodingExercises.Coreutils.HashRehash

/-!
# Hash tables: a hasher that is called with `NULL`

Nothing is asked of a hasher that is called with `NULL`. `hashRehash_traps`: with a hasher that gives no bucket for `NULL`,
`hash_rehash` goes the same way as with any other one until the head of an empty bucket is moved, and aborts there.
-/

namespace CodingExercises.Coreutils

variable {α : Type}

section Null

variable {β : Type}

/-- The user's functions, with a hasher that gives `null` for `NULL`. -/
def Callbacks.withNull (cb : Callbacks α) (null : ℕ → ℕ) : Callbacks α :=
  { cb with hasher := fun data n => match data with | none => null n | some x => cb.hasher (some x) n }

/-- Either both go the same way, and the hasher is not called with `NULL`, or `t` aborts where it is. -/
def Traps (w : World α) (t r : Option β × World α) : Prop :=
  t = r ∧ (w.Clean → r.2.Clean) ∨ t.1 = none ∧ ¬ r.2.Clean

variable (cb : Callbacks α)

theorem clean_log_some {w : World α} (h : w.Clean) (x : α) : (w.log (.hasher (some x))).Clean := by
  intro hmem
  rcases List.mem_cons.mp hmem with hmem | hmem
  · cases hmem
  · exact h hmem

theorem not_clean_log_none {w w' : World α} (h : (w.log (.hasher none)).Extends w') : ¬ w'.Clean := by
  intro hclean
  exact hclean (h.calls.subset List.mem_cons_self)

theorem allocateEntry_calls (table : Table α) (w : World α) : (allocateEntry table w).2.calls = w.calls := by
  unfold allocateEntry
  split
  · rfl
  · split <;> rename_i h <;> rw [World.malloc] at h <;> obtain ⟨-, rfl⟩ := Prod.mk.inj h <;> rfl

theorem transferOverflow_traps (dst : Table α) (w : World α) (cells : List (Option α)) :
    Traps w (transferOverflow (cb.withNull id) dst w cells) (transferOverflow cb dst w cells) := by
  induction cells generalizing dst w with
  | nil => exact .inl ⟨rfl, id⟩
  | cons data rest ih =>
    cases data with
    | none =>
      right
      refine ⟨?_, not_clean_log_none (transferOverflow_cons_extends cb fun dst w => transferOverflow_extends cb dst w rest)⟩
      have hout : dst.bucket[(cb.withNull id).hasher none dst.nBuckets]? = none := List.getElem?_eq_none (Nat.le_refl _)
      rw [transferOverflow]
      dsimp only
      rw [hout]
    | some x =>
      have hsame : (cb.withNull id).hasher (some x) = cb.hasher (some x) := rfl
      have hgo : ∀ dst', Traps w (transferOverflow (cb.withNull id) dst' (w.log (.hasher (some x))) rest)
          (transferOverflow cb dst' (w.log (.hasher (some x))) rest) := by
        intro dst'
        obtain ⟨heq, hclean⟩ | hstop := ih dst' (w.log (.hasher (some x)))
        · exact .inl ⟨heq, fun h => hclean (clean_log_some h x)⟩
        · exact .inr hstop
      rw [transferOverflow, transferOverflow]
      dsimp only
      rw [hsame]
      split
      · exact .inl ⟨rfl, fun h => clean_log_some h x⟩
      · split
        · exact hgo _
        · exact hgo _

theorem transferHead_traps (dst : Table α) (w : World α) (data : Option α) :
    Traps w (transferHead (cb.withNull id) dst w data) (transferHead cb dst w data) := by
  cases data with
  | none =>
    right
    refine ⟨?_, not_clean_transferHead cb dst w⟩
    have hout : dst.bucket[(cb.withNull id).hasher none dst.nBuckets]? = none := List.getElem?_eq_none (Nat.le_refl _)
    rw [transferHead]
    dsimp only
    rw [hout]
  | some x =>
    left
    refine ⟨rfl, ?_⟩
    intro h
    have hclean := clean_log_some h x
    unfold transferHead
    dsimp only
    split
    · exact hclean
    · split
      · have halloc : (allocateEntry dst (w.log (.hasher (some x)))).2.Clean := by
          rw [World.Clean, allocateEntry_calls]
          exact hclean
        split <;> rename_i h' <;> rwa [h'] at halloc
      · exact hclean

/-- What `transferLoop` does behind the first bucket. -/
theorem transferRest_extends (dst : Table α) (w : World α) (buckets : List (Bucket α)) :
    w.Extends (match transferLoop cb false dst w buckets with
      | (none, w) => (none, w)
      | (some (ok, dst, rest, moved), w) => (some (ok, dst, ⟨none, []⟩ :: rest, moved + 1), w) :
        Option (Bool × Table α × List (Bucket α) × ℕ) × World α).2 := by
  have := transferLoop_extends cb false dst w buckets
  split <;> rename_i h' <;> rwa [h'] at this

theorem transferLoop_traps (safe : Bool) (dst : Table α) (w : World α) (buckets : List (Bucket α)) :
    Traps w (transferLoop (cb.withNull id) safe dst w buckets) (transferLoop cb safe dst w buckets) := by
  induction buckets generalizing dst w with
  | nil => exact .inl ⟨rfl, id⟩
  | cons bucket rest ih =>
    have hext : (transferOverflow cb dst w bucket.next).2.Extends (transferLoop cb safe dst w (bucket :: rest)).2 :=
      transferLoop_cons_extends cb fun dst w => transferLoop_extends cb safe dst w rest
    obtain ⟨hover, hclean⟩ | ⟨hstop, hbad⟩ := transferOverflow_traps cb dst w bucket.next
    · rw [transferLoop, transferLoop, hover]
      generalize transferOverflow cb dst w bucket.next = r at hclean
      obtain ⟨_ | dst₁, w₁⟩ := r
      · exact .inl ⟨rfl, hclean⟩
      · dsimp only
        cases safe with
        | true =>
          simp only [if_true]
          obtain ⟨hrest, hclean₂⟩ | ⟨hstop, hbad⟩ := ih dst₁ w₁
          · rw [hrest]
            refine .inl ⟨rfl, fun h => ?_⟩
            have := hclean₂ (hclean h)
            split <;> rename_i h' <;> rwa [h'] at this
          · right
            constructor
            · split <;> rename_i h' <;> rw [h'] at hstop
              cases hstop
            · split <;> rename_i h' <;> rwa [h'] at hbad
        | false =>
          simp only [Bool.false_eq_true, if_false]
          obtain ⟨hhead, hclean₂⟩ | ⟨hstop, hbad⟩ := transferHead_traps cb dst₁ w₁ bucket.data
          · rw [hhead]
            generalize transferHead cb dst₁ w₁ bucket.data = r at hclean₂
            obtain ⟨_ | ⟨_ | _, dst₂⟩, w₂⟩ := r
            · exact .inl ⟨rfl, fun h => hclean₂ (hclean h)⟩
            · exact .inl ⟨rfl, fun h => hclean₂ (hclean h)⟩
            · dsimp only
              obtain ⟨hrest, hclean₃⟩ | ⟨hstop, hbad⟩ := ih dst₂ w₂
              · rw [hrest]
                refine .inl ⟨rfl, fun h => ?_⟩
                have := hclean₃ (hclean₂ (hclean h))
                split <;> rename_i h' <;> rwa [h'] at this
              · right
                constructor
                · split <;> rename_i h' <;> rw [h'] at hstop
                  cases hstop
                · split <;> rename_i h' <;> rwa [h'] at hbad
          · right
            constructor
            · generalize transferHead (cb.withNull id) dst₁ w₁ bucket.data = t at hstop
              obtain ⟨_ | _, w₂⟩ := t
              · rfl
              · cases hstop
            · generalize transferHead cb dst₁ w₁ bucket.data = r at hbad
              obtain ⟨_ | ⟨_ | _, dst₂⟩, w₂⟩ := r
              · exact hbad
              · exact hbad
              · exact fun h => hbad (h.mono (transferRest_extends cb dst₂ w₂ rest))
    · right
      refine ⟨?_, fun h => hbad (h.mono hext)⟩
      rw [transferLoop]
      rcases htrap : transferOverflow (cb.withNull id) dst w bucket.next with ⟨_ | dst₁, w₁⟩
      · rfl
      · rw [htrap] at hstop
        cases hstop

theorem transferEntries_traps (dst src : Table α) (w : World α) (safe : Bool) :
    Traps w (transferEntries (cb.withNull id) dst src w safe) (transferEntries cb dst src w safe) := by
  unfold transferEntries
  obtain ⟨hloop, hclean⟩ | ⟨hstop, hbad⟩ := transferLoop_traps cb safe dst w src.bucket
  · rw [hloop]
    refine .inl ⟨rfl, fun h => ?_⟩
    have := hclean h
    split <;> rename_i h' <;> rwa [h'] at this
  · right
    constructor
    · split <;> rename_i h' <;> rw [h'] at hstop
      cases hstop
    · split <;> rename_i h' <;> rwa [h'] at hbad

/-- The second half of `undoTransfer`. -/
theorem undoRest_extends (table newTable : Table α) (w : World α) :
    w.Extends (match transferEntries cb table newTable w false with
      | (some (true, table, _), w) => (some table, w)
      | (_, w) => (none, w) : Option (Table α) × World α).2 := by
  have := transferEntries_extends cb table newTable w false
  split <;> rename_i h' <;> rwa [h'] at this

theorem undoTransfer_traps (table newTable : Table α) (w : World α) :
    Traps w (undoTransfer (cb.withNull id) table newTable w) (undoTransfer cb table newTable w) := by
  unfold undoTransfer
  obtain ⟨hfirst, hclean⟩ | ⟨hstop, hbad⟩ := transferEntries_traps cb table newTable w true
  · rw [hfirst]
    generalize transferEntries cb table newTable w true = r at hclean
    obtain ⟨_ | ⟨_ | _, table₁, newTable₁⟩, w₁⟩ := r
    · exact .inl ⟨rfl, hclean⟩
    · exact .inl ⟨rfl, hclean⟩
    · dsimp only
      obtain ⟨hsecond, hclean₂⟩ | ⟨hstop, hbad⟩ := transferEntries_traps cb table₁ newTable₁ w₁ false
      · rw [hsecond]
        refine .inl ⟨rfl, fun h => ?_⟩
        have := hclean₂ (hclean h)
        split <;> rename_i h' <;> rwa [h'] at this
      · right
        constructor
        · split <;> rename_i h' <;> rw [h'] at hstop
          cases hstop
        · split <;> rename_i h' <;> rwa [h'] at hbad
  · right
    constructor
    · generalize transferEntries (cb.withNull id) table newTable w true = t at hstop
      obtain ⟨_ | _, w₁⟩ := t
      · rfl
      · cases hstop
    · generalize transferEntries cb table newTable w true = r at hbad
      obtain ⟨_ | ⟨_ | _, table₁, newTable₁⟩, w₁⟩ := r
      · exact hbad
      · exact hbad
      · exact fun h => hbad (h.mono (undoRest_extends cb table₁ newTable₁ w₁))

theorem hashRehash_traps (fl : Rounding) (table : Table α) (w : World α) (candidate : ℕ) :
    Traps w (hashRehash (cb.withNull id) fl table w candidate) (hashRehash cb fl table w candidate) := by
  unfold hashRehash
  dsimp only
  split
  · exact .inl ⟨rfl, id⟩
  split
  · exact .inl ⟨rfl, id⟩
  cases hanswer : w.answers w.asked with
  | false =>
    have hmalloc : w.malloc = (false, { w with asked := w.asked + 1 }) := by rw [World.malloc, hanswer]
    rw [hmalloc]
    exact .inl ⟨rfl, id⟩
  | true =>
    have hmalloc : w.malloc = (true, { w with asked := w.asked + 1 }) := by rw [World.malloc, hanswer]
    rw [hmalloc]
    dsimp only
    generalize (⟨List.replicate _ ⟨none, []⟩, 0, 0, table.tuning, table.freeEntryList⟩ : Table α) = new
    have hfirst := transferEntries_traps cb new table { w with asked := w.asked + 1 } false
    generalize transferEntries cb new table { w with asked := w.asked + 1 } false = r at hfirst
    generalize transferEntries (cb.withNull id) new table { w with asked := w.asked + 1 } false = t at hfirst
    obtain ⟨rfl, hclean⟩ | ⟨hstop, hbad⟩ := hfirst
    · obtain ⟨_ | ⟨_ | _, new₁, table₁⟩, w₂⟩ := t
      · exact .inl ⟨rfl, hclean⟩
      · dsimp only
        have hundo := undoTransfer_traps cb { table₁ with freeEntryList := new₁.freeEntryList } new₁ w₂
        generalize undoTransfer cb { table₁ with freeEntryList := new₁.freeEntryList } new₁ w₂ = r at hundo
        generalize undoTransfer (cb.withNull id) { table₁ with freeEntryList := new₁.freeEntryList } new₁ w₂ = t at hundo
        obtain ⟨rfl, hclean₂⟩ | ⟨hstop, hbad⟩ := hundo
        · obtain ⟨_ | table₂, w₃⟩ := t
          · exact .inl ⟨rfl, fun h => hclean₂ (hclean h)⟩
          · exact .inl ⟨rfl, fun h => hclean₂ (hclean h)⟩
        · right
          obtain ⟨_ | _, _⟩ := t
          · refine ⟨rfl, ?_⟩
            obtain ⟨_ | _, _⟩ := r <;> exact hbad
          · cases hstop
      · exact .inl ⟨rfl, hclean⟩
    · right
      obtain ⟨_ | _, _⟩ := t
      · refine ⟨rfl, ?_⟩
        obtain ⟨_ | ⟨_ | _, new₁, table₁⟩, w₂⟩ := r
        · exact hbad
        · intro h
          apply hbad
          have hext := undoTransfer_extends cb { table₁ with freeEntryList := new₁.freeEntryList } new₁ w₂
          dsimp only at h
          split at h <;> rename_i h' <;> rw [h'] at hext <;> exact h.mono hext
        · exact hbad
      · cases hstop

theorem Callbacks.Lawful.withNull {cb : Callbacks α} (law : cb.Lawful) (null : ℕ → ℕ) : (cb.withNull null).Lawful :=
  ⟨law.lt, law.equiv, law.compatible⟩

theorem Table.Ok.withNull {cb : Callbacks α} {table : Table α} (h : table.Ok cb) (null : ℕ → ℕ) :
    table.Ok (cb.withNull null) :=
  ⟨h.ok, h.nEntries, h.nBucketsUsed, h.head, h.cells, h.placed, h.distinct⟩

end Null
end CodingExercises.Coreutils
