import Mathlib.Algebra.Order.Group.Multiset
import Mathlib.Data.Multiset.Range

/-!
# Resources and their owners

A ledger of resources that are acquired and released. Each is known by the number of its acquisition, so that one that has
been released is not taken for a later one. What is held is shared out among owners (`Owned`): a multiset for each, and the
sum of them for all; an operation on what one of them owns leaves the others alone. When nothing is owned any more, each
resource has been released just once (`Owned.released_once`).
-/

namespace CodingExercises.Lib

/-- How many resources have been acquired, those that are held and those that have been released, the largest number that has
been held at a time, and whether one was used or released that was not held. -/
structure Ledger where
  count : ℕ
  held : List ℤ
  released : List ℤ
  most : ℕ
  misused : Bool
deriving DecidableEq

namespace Ledger

def start : Ledger := ⟨0, [], [], 0, false⟩

def acquire (l : Ledger) : ℤ × Ledger :=
  (l.count, { l with count := l.count + 1, held := l.count :: l.held, most := max l.most (l.held.length + 1) })

def release (l : Ledger) (x : ℤ) : Ledger :=
  if x ∈ l.held then { l with held := l.held.erase x, released := x :: l.released }
  else { l with released := x :: l.released, misused := true }

def use (l : Ledger) (x : ℤ) : Ledger := if x ∈ l.held then l else { l with misused := true }

/-- From now on, the largest number is counted anew. -/
def watch (l : Ledger) : Ledger := { l with most := l.held.length }

/-- The resources that have been acquired. -/
def acquired (l : Ledger) : List ℤ := (List.range l.count).map (↑)

/-- What is held is `m`, there were never more than `n`, nothing was misused, and what is not held has been released once. -/
structure Owned (l : Ledger) (m : Multiset ℤ) (n : ℕ) : Prop where
  held : (l.held : Multiset ℤ) = m
  most : l.most ≤ n
  fine : l.misused = false
  once : (l.held + l.released : Multiset ℤ) = l.acquired

variable {l : Ledger} {m m' : Multiset ℤ} {n n' : ℕ} {x : ℤ}

theorem owned_start (n : ℕ) : Owned start 0 n := ⟨rfl, Nat.zero_le n, rfl, rfl⟩

theorem Owned.congr (h : Owned l m n) (hm : m = m') : Owned l m' n := hm ▸ h

theorem Owned.mono (h : Owned l m n) (hn : n ≤ n') : Owned l m n' := ⟨h.held, h.most.trans hn, h.fine, h.once⟩

theorem Owned.length_held (h : Owned l m n) : l.held.length = m.card := by rw [← h.held, Multiset.coe_card]

theorem Owned.acquire (h : Owned l m n) (hn : m.card + 1 ≤ n) : Owned l.acquire.2 (l.acquire.1 ::ₘ m) n := by
  refine ⟨?_, ?_, h.fine, ?_⟩
  · rw [← h.held]
    rfl
  · apply max_le h.most
    rwa [h.length_held]
  · have hacquired : l.acquire.2.acquired = l.acquired ++ [(l.count : ℤ)] := by
      simp [Ledger.acquire, acquired, List.range_succ]
    calc (l.acquire.2.held : Multiset ℤ) + l.acquire.2.released
        = (l.count : ℤ) ::ₘ (l.held + l.released) := Multiset.cons_add (l.count : ℤ) l.held l.released
      _ = l.acquired + {(l.count : ℤ)} := by rw [h.once, add_comm, Multiset.singleton_add]
      _ = l.acquire.2.acquired := by rw [hacquired, ← Multiset.coe_add, Multiset.coe_singleton]

theorem Owned.release (h : Owned l (x ::ₘ m) n) : Owned (l.release x) m n := by
  have hx : x ∈ l.held := by
    rw [← Multiset.mem_coe, h.held]
    exact Multiset.mem_cons_self x m
  rw [Ledger.release, if_pos hx]
  refine ⟨?_, h.most, h.fine, ?_⟩
  · have herase := congrArg (·.erase x) h.held
    simpa using herase
  · have hcons : x ::ₘ (l.held.erase x : Multiset ℤ) = l.held := Multiset.coe_eq_coe.mpr (List.perm_cons_erase hx).symm
    calc (l.held.erase x : Multiset ℤ) + (x :: l.released : List ℤ)
        = x ::ₘ (l.held.erase x : Multiset ℤ) + l.released := by
          rw [← Multiset.cons_coe, Multiset.add_cons, Multiset.cons_add]
      _ = l.acquired := by rw [hcons, h.once]

theorem Owned.use (h : Owned l m n) (hx : x ∈ m) : Owned (l.use x) m n := by
  have hx : x ∈ l.held := by rwa [← Multiset.mem_coe, h.held]
  rwa [Ledger.use, if_pos hx]

theorem Owned.watch (h : Owned l m n) : Owned l.watch m m.card := ⟨h.held, h.length_held.le, h.fine, h.once⟩

/-- With nothing left, everything that was acquired has been released, once. -/
theorem Owned.released_once (h : Owned l 0 n) : l.released.Perm l.acquired := by
  have honce := h.once
  rw [h.held, zero_add] at honce
  exact Multiset.coe_eq_coe.mp honce

/-- What the variable `x` owns: a resource, unless it is negative. -/
def slot (x : ℤ) : Multiset ℤ := if 0 ≤ x then {x} else 0

theorem slot_of_nonneg (hx : 0 ≤ x) : slot x = {x} := if_pos hx

theorem slot_of_neg (hx : x < 0) : slot x = 0 := if_neg (Int.not_le.mpr hx)

theorem card_slot_le (x : ℤ) : (slot x).card ≤ 1 := by
  unfold slot
  split <;> simp

end Ledger

end CodingExercises.Lib
