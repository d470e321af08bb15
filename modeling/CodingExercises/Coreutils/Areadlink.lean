import Mathlib.Data.Int.Notation
import Mathlib.Logic.Function.Iterate
import CodingExercises.Coreutils.Xalloc

/-!
# coreutils: reading a symbolic link

`areadlink_with_size` of `lib/areadlink-with-size.c`, where `SYMLINK_MAX` is not defined and `size_t` and `ssize_t` have 64
bits. `readlink` gives as much of the target as the buffer can hold.

A failure of `readlink` is the number -1, which is compared as a `size_t`: it is taken for a target that does not fit
(`readsRight_iff`).
-/

namespace CodingExercises.Coreutils.Areadlink

/-- `errno`. -/
abbrev Errno := ℕ

/-- `ENOMEM`. -/
def enomem : Errno := 12

/-- `MAXSIZE`. -/
def maxsize : ℕ := 2 ^ 63 - 1

/-- The answers of the system to the calls of each turn of the loop: whether `malloc` fails, and the error of `readlink`. -/
structure Sys where
  noMemory : ℕ → Bool
  readlink : ℕ → Option Errno

/-- What `areadlink_with_size` comes to: the buffer that it returns, if any, with `errno`, after so many turns. -/
structure Result where
  value : Option (List Byte)
  errno : Option Errno
  turns : ℕ
deriving DecidableEq

/-- The link length as it is compared. -/
def linkLength (r : ℤ) : ℕ := (r % 2 ^ 64).toNat

/-- A buffer with `bytes` at its beginning, where a byte is stored. No value is a store outside. -/
def store (size : ℕ) (bytes : List Byte) (i : ℕ) (c : Byte) : Option (List Byte) :=
  if i < size then some (bytes.take i ++ [c]) else none

/-- The loop of `areadlink_with_size`, from the turn `n` on. -/
def areadlinkLoop (sys : Sys) (target : List Byte) (n bufSize : ℕ) (h : 0 < bufSize) : Option Result :=
  if sys.noMemory n then some ⟨none, some enomem, n + 1⟩
  else
    let r : ℤ := if (sys.readlink n).isSome then -1 else (target.take bufSize).length
    if linkLength r < bufSize then do
      let buffer ← store bufSize (target.take bufSize) (linkLength r) 0
      some ⟨some buffer, none, n + 1⟩
    else if bufSize ≤ maxsize / 2 then areadlinkLoop sys target (n + 1) (bufSize * 2) (by omega)
    else if bufSize < maxsize then areadlinkLoop sys target (n + 1) maxsize (by decide)
    else some ⟨none, some enomem, n + 1⟩
  termination_by maxsize - bufSize
  decreasing_by all_goals simp only [maxsize] at *; omega

/-- `buf_size` at first. -/
def initialSize (size : ℕ) : ℕ := if size < 1025 then size + 1 else 1025

theorem initialSize_pos (size : ℕ) : 0 < initialSize size := by
  unfold initialSize
  split <;> omega

/-- `areadlink_with_size`. -/
def areadlinkWithSize (sys : Sys) (target : List Byte) (size : ℕ) : Option Result :=
  areadlinkLoop sys target 0 (initialSize size) (initialSize_pos size)

/-! ## The sizes of the buffer -/

/-- `buf_size` in the next turn. -/
def grow (bufSize : ℕ) : ℕ := if bufSize ≤ maxsize / 2 then bufSize * 2 else maxsize

/-- `buf_size` in the turn `n`. -/
def bufSizeAt (size n : ℕ) : ℕ := grow^[n] (initialSize size)

theorem linkLength_neg_one : linkLength (-1) = 2 ^ 64 - 1 := rfl

theorem linkLength_natCast {n : ℕ} (h : n < 2 ^ 64) : linkLength n = n := by
  unfold linkLength
  omega

/-! ## A run of the loop -/

/-- How the loop ends in its turn `n + j`: without memory, with the target, or because the size can grow no more. -/
inductive Ending (sys : Sys) (target : List Byte) (n b : ℕ) : Option Errno → Option (List Byte) → Option Errno → Prop
  | noMemory (e : Option Errno) : sys.noMemory n = true → Ending sys target n b e none (some enomem)
  | target : sys.noMemory n = false → target.length < b → Ending sys target n b none (some (target ++ [0])) none
  | tooLong (e : Errno) : sys.noMemory n = false → b = maxsize → Ending sys target n b (some e) none (some enomem)

/-- The turn after which the loop goes on: `readlink` fails, or the target does not fit. -/
structure GoesOn (sys : Sys) (target : List Byte) (n b : ℕ) : Prop where
  memory : sys.noMemory n = false
  short : sys.readlink n = none → b ≤ target.length
  small : b < maxsize

/-- What a run of the loop comes to, where `j` turns go on. -/
structure Spec (sys : Sys) (target : List Byte) (n b j : ℕ) (r : Result) : Prop where
  turns : r.turns = n + j + 1
  goesOn : ∀ i < j, GoesOn sys target (n + i) (grow^[i] b)
  ending : Ending sys target (n + j) (grow^[j] b) (sys.readlink (n + j)) r.value r.errno

variable {sys : Sys} {target : List Byte} {n b j : ℕ} {r : Result}

/-- One turn more. -/
theorem Spec.turn (h : Spec sys target (n + 1) (grow b) j r) (hon : GoesOn sys target n b) :
    Spec sys target n b (j + 1) r := by
  have hshift (i : ℕ) : n + 1 + i = n + (i + 1) := by omega
  refine ⟨by rw [h.turns]; omega, fun i hi => ?_, ?_⟩
  · cases i with
    | zero => exact hon
    | succ i =>
      have hi' := h.goesOn i (by omega)
      rwa [hshift] at hi'
  · have hend := h.ending
    rwa [hshift] at hend

/-- `readlink` gives as much as the buffer holds, or fails. -/
theorem linkLength_lt_iff (hb : b ≤ maxsize) :
    linkLength (if (sys.readlink n).isSome then -1 else ((target.take b).length : ℤ)) < b ↔
      sys.readlink n = none ∧ target.length < b := by
  have hb' : b < 2 ^ 64 := Nat.lt_of_le_of_lt hb (by decide)
  cases sys.readlink n with
  | some e =>
    rw [Option.isSome_some, if_pos rfl, linkLength_neg_one]
    exact ⟨fun h => absurd h (by omega), fun h => by cases h.1⟩
  | none =>
    rw [Option.isSome_none, if_neg Bool.false_ne_true, linkLength_natCast (by rw [List.length_take]; omega),
      List.length_take]
    exact ⟨fun h => ⟨rfl, by omega⟩, fun h => by omega⟩

theorem goesOn_of_not_lt (hmax : b ≤ maxsize) (hmem : ¬ sys.noMemory n = true)
    (hlt : ¬ linkLength (if (sys.readlink n).isSome then -1 else ((target.take b).length : ℤ)) < b) (hsmall : b < maxsize) :
    GoesOn sys target n b := by
  refine ⟨by simpa using hmem, fun hnone => ?_, hsmall⟩
  by_contra hshort
  exact hlt ((linkLength_lt_iff hmax).mpr ⟨hnone, by omega⟩)

/-- The loop comes to an end. -/
theorem areadlinkLoop_spec (hb : 0 < b) (hmax : b ≤ maxsize) (hlen : target.length < maxsize) :
    ∃ j r, areadlinkLoop sys target n b hb = some r ∧ Spec sys target n b j r := by
  fun_induction areadlinkLoop sys target n b hb with
  | case1 n b hb hmem =>
    exact ⟨0, _, rfl, rfl, by simp, .noMemory _ hmem⟩
  | case2 n b hb hmem r hlt =>
    obtain ⟨hnone, hshort⟩ := (linkLength_lt_iff hmax).mp hlt
    have hfits : target.take b = target := List.take_of_length_le (Nat.le_of_lt hshort)
    have hlink : linkLength r = target.length := by
      simp only [r, hnone, Option.isSome_none, Bool.false_eq_true, hfits]
      exact linkLength_natCast (Nat.lt_trans hlen (by decide))
    have hstore : store b (target.take b) (linkLength r) 0 = some (target ++ [0]) := by
      rw [hlink, hfits, store, if_pos hshort, List.take_length]
    rw [hstore]
    refine ⟨0, _, rfl, rfl, by simp, ?_⟩
    rw [Nat.add_zero, hnone]
    exact .target (by simpa using hmem) hshort
  | case3 n b hb hmem r hlt hhalf ih =>
    obtain ⟨j, r', hrun, hspec⟩ := ih (by omega)
    have hgrow : grow b = b * 2 := if_pos hhalf
    rw [← hgrow] at hspec
    exact ⟨j + 1, r', hrun, hspec.turn (goesOn_of_not_lt hmax hmem hlt (by simp only [maxsize] at hhalf ⊢; omega))⟩
  | case4 n b hb hmem r hlt hhalf hsmall ih =>
    obtain ⟨j, r', hrun, hspec⟩ := ih (Nat.le_refl _)
    have hgrow : grow b = maxsize := if_neg hhalf
    rw [← hgrow] at hspec
    exact ⟨j + 1, r', hrun, hspec.turn (goesOn_of_not_lt hmax hmem hlt hsmall)⟩
  | case5 n b hb hmem r hlt hhalf hsmall =>
    have hb' : b = maxsize := Nat.le_antisymm hmax (Nat.le_of_not_lt hsmall)
    refine ⟨0, _, rfl, rfl, by simp, ?_⟩
    cases hread : sys.readlink n with
    | none => exact absurd ((linkLength_lt_iff hmax).mpr ⟨hread, by omega⟩) hlt
    | some e =>
      rw [Nat.add_zero]
      exact .tooLong e (by simpa using hmem) hb'

/-! ## When the target is read -/

theorem bufSizeAt_zero_le (size : ℕ) : bufSizeAt size 0 ≤ maxsize := by
  simp only [bufSizeAt, initialSize, Function.iterate_zero, id_eq, maxsize]
  split <;> omega

/-- What is expected: no store is outside the buffer; the target is returned if nothing fails; and when `readlink` fails, that
turn is the last one, and the error is the one of `readlink`. -/
structure ReadsRight (sys : Sys) (target : List Byte) (size : ℕ) (r : Result) : Prop where
  value : (∀ n < r.turns, sys.noMemory n = false ∧ sys.readlink n = none) → r.value = some (target ++ [0])
  fails : ∀ n < r.turns, ∀ e, sys.noMemory n = false → sys.readlink n = some e →
    n + 1 = r.turns ∧ r.value = none ∧ r.errno = some e

/-- `readlink` does not fail in a turn that the loop comes to because the buffers before it were too small, but for a buffer
of the greatest size and the error `ENOMEM`. -/
def Reads (sys : Sys) (target : List Byte) (size : ℕ) : Prop :=
  ∀ n, (∀ m ≤ n, sys.noMemory m = false) → (∀ m < n, bufSizeAt size m ≤ target.length) →
    ∀ e, sys.readlink n = some e → bufSizeAt size n = maxsize ∧ e = enomem

section

variable {size : ℕ}

/-- Of the turns before `n`, no one was the last. -/
theorem Spec.le_last (h : Spec sys target 0 (initialSize size) j r) (hlen : target.length < maxsize)
    (hmem : ∀ m ≤ n, sys.noMemory m = false) (hsmall : ∀ m < n, bufSizeAt size m ≤ target.length) : n ≤ j := by
  by_contra hlt
  have hend := h.ending
  rw [Nat.zero_add] at hend
  generalize r.value = value, r.errno = errno, sys.readlink j = e at hend
  have hmemj := hmem j (by omega)
  have hsmallj : grow^[j] (initialSize size) ≤ target.length := hsmall j (by omega)
  cases hend with
  | noMemory _ hno => rw [hno] at hmemj; cases hmemj
  | target _ hshort => omega
  | tooLong _ _ hmax => omega

theorem Spec.memory (h : Spec sys target 0 (initialSize size) j r) (hj : sys.noMemory j = false) :
    ∀ m ≤ j, sys.noMemory m = false := by
  intro m hm
  rcases Nat.lt_or_eq_of_le hm with hm | rfl
  · have hon := (h.goesOn m hm).memory
    rwa [Nat.zero_add] at hon
  · exact hj

theorem Spec.small (h : Spec sys target 0 (initialSize size) j r) {i : ℕ} (hi : i ≤ j)
    (hnone : ∀ m < i, sys.readlink m = none) : ∀ m < i, bufSizeAt size m ≤ target.length := by
  intro m hm
  have hon := (h.goesOn m (by omega)).short
  rw [Nat.zero_add] at hon
  exact hon (hnone m hm)

/-- Where `readlink` is right, it fails in no turn but the last. -/
theorem Spec.readlink_eq_none (h : Spec sys target 0 (initialSize size) j r) (hreads : Reads sys target size) :
    ∀ i < j, sys.readlink i = none := by
  intro i
  induction i using Nat.strongRecOn with
  | ind i ih =>
    intro hi
    by_contra hne
    obtain ⟨e, hread⟩ := Option.ne_none_iff_exists'.mp hne
    have hmem (m : ℕ) (hm : m ≤ i) : sys.noMemory m = false := by
      have hon := (h.goesOn m (by omega)).memory
      rwa [Nat.zero_add] at hon
    have hsmall := h.small (Nat.le_of_lt hi) fun m hm => ih m hm (by omega)
    obtain ⟨hmax, -⟩ := hreads i hmem hsmall e hread
    exact absurd hmax (Nat.ne_of_lt (h.goesOn i hi).small)

end

/-- The loop comes to an end, with every store inside the buffer; and what it returns is right if and only if `readlink` does
not fail. -/
theorem readsRight_iff (sys : Sys) (target : List Byte) (size : ℕ) (hlen : target.length < maxsize) :
    ∃ r, areadlinkWithSize sys target size = some r ∧ (ReadsRight sys target size r ↔ Reads sys target size) := by
  obtain ⟨j, ⟨value, errno, turns⟩, hrun, hspec⟩ : ∃ j r, areadlinkWithSize sys target size = some r ∧
      Spec sys target 0 (initialSize size) j r :=
    areadlinkLoop_spec (initialSize_pos size) (bufSizeAt_zero_le size) hlen
  have hturns : turns = j + 1 := hspec.turns.trans (by omega)
  have hend := hspec.ending
  rw [Nat.zero_add] at hend
  refine ⟨_, hrun, fun hright n hmem hsmall e hread => ?_, fun hreads => ?_⟩
  · have hle := hspec.le_last hlen hmem hsmall
    obtain ⟨hlast, -, herrno⟩ := hright.fails n (by simp only; omega) e (hmem n (Nat.le_refl n)) hread
    obtain rfl : n = j := by simp only at hlast; omega
    rw [hread] at hend
    cases hend with
    | noMemory _ hno => rw [hmem n (Nat.le_refl n)] at hno; cases hno
    | tooLong _ _ hmax => exact ⟨hmax, (Option.some.inj herrno).symm⟩
  · have hnone := hspec.readlink_eq_none hreads
    constructor
    · intro hall
      obtain ⟨hmem, hread⟩ := hall j (by simp only; omega)
      rw [hread] at hend
      cases hend with
      | noMemory _ hno => rw [hmem] at hno; cases hno
      | target _ _ => rfl
    · intro n hn e hmem hread
      have hle : n ≤ j := by simp only at hn; omega
      obtain rfl : n = j := by
        by_contra hne
        rw [hnone n (by omega)] at hread
        cases hread
      obtain ⟨-, rfl⟩ := hreads n (hspec.memory hmem) (hspec.small (Nat.le_refl n) hnone) e hread
      rw [hread] at hend
      cases hend with
      | noMemory _ hno => rw [hmem] at hno; cases hno
      | tooLong _ _ _ => exact ⟨hturns.symm, rfl, rfl⟩

/-- A target of 1500 bytes that is expected to be empty. -/
theorem readsRight_long : Reads ⟨fun _ => false, fun _ => none⟩ (List.replicate 1500 97) 0 ∧
    ∃ r, areadlinkWithSize ⟨fun _ => false, fun _ => none⟩ (List.replicate 1500 97) 0 = some r ∧
      ReadsRight ⟨fun _ => false, fun _ => none⟩ (List.replicate 1500 97) 0 r := by
  have hreads : Reads ⟨fun _ => false, fun _ => none⟩ (List.replicate 1500 97) 0 := fun _ _ _ _ hread => by cases hread
  obtain ⟨r, hrun, hiff⟩ := readsRight_iff ⟨fun _ => false, fun _ => none⟩ (List.replicate 1500 97) 0
    (by rw [List.length_replicate]; decide)
  exact ⟨hreads, r, hrun, hiff.mpr hreads⟩

/-- `EACCES`, and a size that is known to be 4. -/
theorem not_readsRight_eacces : ∃ r, areadlinkWithSize ⟨fun _ => false, fun _ => some 13⟩ [] 4 = some r ∧
    ¬ ReadsRight ⟨fun _ => false, fun _ => some 13⟩ [] 4 r := by
  obtain ⟨j, r, hrun, hspec⟩ : ∃ j r, areadlinkWithSize ⟨fun _ => false, fun _ => some 13⟩ [] 4 = some r ∧
      Spec ⟨fun _ => false, fun _ => some 13⟩ [] 0 (initialSize 4) j r :=
    areadlinkLoop_spec (initialSize_pos 4) (bufSizeAt_zero_le 4) (by decide)
  refine ⟨r, hrun, fun hright => ?_⟩
  obtain ⟨hone, -, -⟩ := hright.fails 0 (by rw [hspec.turns]; omega) 13 rfl rfl
  obtain rfl : j = 0 := by have := hspec.turns; omega
  have hend := hspec.ending
  generalize r.value = value, r.errno = errno at hend
  cases hend with
  | noMemory _ hno => cases hno
  | tooLong _ _ hmax => exact absurd hmax (by decide)

end CodingExercises.Coreutils.Areadlink
