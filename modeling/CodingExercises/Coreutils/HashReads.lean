import CodingExercises.Coreutils.HashCalls

/-!
# Hash tables: functions that read their arguments

The hashers and comparators of the programs that use `lib/hash.c` read what their arguments point to, so that a call with
`NULL` is one that stops the program. An insertion into a table without entries is such a call (`hashed_insert`).
-/

namespace CodingExercises.Coreutils

variable {α β : Type}

/-- What stops a program: an assertion that fails or a call of `abort`, `xalloc_die`, or a read through `NULL`. -/
inductive Halt
  | abort
  | die
  | null
deriving DecidableEq

/-- Whether a call reads through `NULL`. -/
def Call.readsNull : Call α → Bool
  | .hasher data => data.isNone
  | .comparator _ data => data.isNone
  | .dataFreer _ => false

/-- A function of `lib/hash.c` with what its calls come to. -/
def hashed (r : Option β × World α) : Except Halt (β × World α) :=
  if r.2.calls.any Call.readsNull then .error .null
  else
    match r.1 with
    | none => .error .abort
    | some b => .ok (b, r.2.start)

/-- The comparator is called with `NULL`. -/
theorem hashed_insert [DecidableEq α] {cb : Callbacks α} {fl : Rounding} {table : Table α} (h : Vacant table)
    (law : cb.Lawful) (w : World α) (entry : α) : hashed (hashInsert cb fl table w entry) = .error .null := by
  have hfind := h.find law w entry false
  have hmem := (hashInsert_extends cb fl table w entry).calls.subset hfind
  have hany : (hashInsert cb fl table w entry).2.calls.any Call.readsNull = true := by
    apply List.any_eq_true.mpr
    exact ⟨_, hmem, rfl⟩
  rw [hashed, if_pos hany]

/-- Nothing is found in a table without entries. -/
theorem hashed_lookup [DecidableEq α] {cb : Callbacks α} {table : Table α} (h : Vacant table) (law : cb.Lawful)
    {w w' : World α} {entry : α} {data : Option α} (hrun : hashed (hashLookup cb table w entry) = .ok (data, w')) :
    data = none := by
  rw [h.lookup law, hashed] at hrun
  split at hrun
  · cases hrun
  · simp only [Except.ok.injEq, Prod.mk.injEq] at hrun
    exact hrun.1.symm

end CodingExercises.Coreutils
