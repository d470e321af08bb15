import Mathlib.Data.List.Basic

/-!
# Blocks of a list

`block n l k` is the `k`-th piece of length `n` of `l`, counted from 1, as a protocol cuts a file into packets. The
first `k` blocks are the first `n * k` elements (`firstBlocks_eq_take`); every block before the last is full and the last
one, number `l.length / n + 1`, is not (`length_block_full`, `length_block_last`).
-/

namespace CodingExercises.Lib

variable {α : Type*}

/-- The `k`-th block of length `n`. -/
def block (n : ℕ) (l : List α) (k : ℕ) : List α := (l.drop (n * (k - 1))).take n

/-- The number of the last block: the first that is not full. -/
def lastBlock (n : ℕ) (l : List α) : ℕ := l.length / n + 1

theorem block_succ (n : ℕ) (l : List α) (k : ℕ) : block n l (k + 1) = (l.drop (n * k)).take n := rfl

/-- One more block is `n` more elements. -/
theorem take_block (n : ℕ) (l : List α) (k : ℕ) :
    l.take (n * k) ++ block n l (k + 1) = l.take (n * (k + 1)) := by
  rw [block_succ, Nat.mul_succ, List.take_add]

/-- The concatenation of the first `k` blocks. -/
def firstBlocks (n : ℕ) (l : List α) (k : ℕ) : List α := (List.range k).flatMap fun i => block n l (i + 1)

/-- The first `k` blocks are the first `n * k` elements. -/
theorem firstBlocks_eq_take (n : ℕ) (l : List α) (k : ℕ) : firstBlocks n l k = l.take (n * k) := by
  induction k with
  | zero => simp [firstBlocks]
  | succ k ih =>
    rw [firstBlocks, List.range_succ, List.flatMap_append, List.flatMap_singleton]
    rw [firstBlocks] at ih
    rw [ih, take_block]

theorem length_block (n : ℕ) (l : List α) (k : ℕ) : (block n l k).length = min n (l.length - n * (k - 1)) := by
  simp [block]

theorem length_block_le (n : ℕ) (l : List α) (k : ℕ) : (block n l k).length ≤ n := by
  rw [length_block]; exact Nat.min_le_left _ _

variable {n : ℕ} {l : List α} {k : ℕ}

theorem length_block_full (hn : 0 < n) (hk : 1 ≤ k) (h : k < lastBlock n l) : (block n l k).length = n := by
  have h1 : k ≤ l.length / n := by unfold lastBlock at h; omega
  have h2 : n * k ≤ l.length := (Nat.mul_comm n k ▸ (Nat.le_div_iff_mul_le hn).1 h1)
  have h3 : n * (k - 1) + n = n * k := by rw [← Nat.mul_succ]; congr 1; omega
  rw [length_block]
  omega

theorem length_block_last (hn : 0 < n) : (block n l (lastBlock n l)).length < n := by
  have h1 := Nat.div_add_mod l.length n
  have h2 := Nat.mod_lt l.length hn
  rw [length_block, lastBlock, Nat.add_sub_cancel]
  omega

/-- A block in range is shorter than `n` exactly when it is the last one. -/
theorem length_block_lt_iff (hn : 0 < n) (hk : 1 ≤ k) (hle : k ≤ lastBlock n l) :
    (block n l k).length < n ↔ k = lastBlock n l := by
  constructor
  · intro h
    by_contra hne
    have := length_block_full hn hk (by omega : k < lastBlock n l)
    omega
  · rintro rfl
    exact length_block_last hn

/-- The blocks up to the last one are the whole list. -/
theorem take_lastBlock (hn : 0 < n) : l.take (n * lastBlock n l) = l := by
  have h1 := Nat.div_add_mod l.length n
  have h2 := Nat.mod_lt l.length hn
  refine List.take_of_length_le ?_
  rw [lastBlock, Nat.mul_succ]
  omega

/-- After the last block nothing is left. -/
theorem drop_lastBlock (hn : 0 < n) : l.drop (n * lastBlock n l) = [] := by
  have h1 := Nat.div_add_mod l.length n
  have h2 := Nat.mod_lt l.length hn
  rw [List.drop_eq_nil_iff, lastBlock, Nat.mul_succ]
  omega

end CodingExercises.Lib
