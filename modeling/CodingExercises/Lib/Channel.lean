import Mathlib.Data.List.Sublists

/-!
# Channels

A channel holds the packets in flight, oldest first. A `Net` says which of them it may deliver:

- `anyOrder` loses, duplicates, delays and reorders: it delivers any packet in flight and may keep a copy;
- `fifo` loses packets but neither duplicates nor reorders them: it delivers the oldest one.

Packets that are encodings of other packets behave like them (`Net.deliver_map`, `Net.lose_map`), so a channel of
byte strings can be read as a channel of what the bytes say.
-/

namespace CodingExercises.Lib

/-- What a channel may do with the packets in flight. -/
inductive Net
  | anyOrder
  | fifo
deriving DecidableEq, Repr

namespace Net

variable {α β : Type*}

/-- The channel `q` delivers `a` and then holds `q'`. -/
def Deliver : Net → List α → α → List α → Prop
  | anyOrder, q, a, q' => a ∈ q ∧ q' = q
  | fifo, q, a, q' => q = a :: q'

/-- The channel `q` loses packets and then holds `q'`. -/
def Lose (q q' : List α) : Prop := List.Sublist q' q

theorem Deliver.mem {net : Net} {q q' : List α} {a : α} (h : net.Deliver q a q') : a ∈ q := by
  cases net with
  | anyOrder => exact h.1
  | fifo => rw [show q = a :: q' from h]; exact List.mem_cons_self

/-- What is in flight after a delivery was in flight before. -/
theorem Deliver.subset {net : Net} {q q' : List α} {a b : α} (h : net.Deliver q a q') (hb : b ∈ q') : b ∈ q := by
  cases net with
  | anyOrder => rw [h.2] at hb; exact hb
  | fifo => rw [show q = a :: q' from h]; exact List.mem_cons_of_mem _ hb

/-- A delivery of an encoded packet is a delivery of the packet. -/
theorem deliver_map {net : Net} {f : α → β} {q : List α} {b : β} {r : List β} (h : net.Deliver (q.map f) b r) :
    ∃ a q', net.Deliver q a q' ∧ b = f a ∧ r = q'.map f := by
  cases net with
  | anyOrder =>
    obtain ⟨hb, rfl⟩ := h
    obtain ⟨a, ha, rfl⟩ := List.mem_map.1 hb
    exact ⟨a, q, ⟨ha, rfl⟩, rfl, rfl⟩
  | fifo =>
    cases q with
    | nil => exact absurd h (by simp [Deliver])
    | cons a q =>
      simp only [Deliver, List.map_cons, List.cons.injEq] at h
      exact ⟨a, q, rfl, h.1.symm, h.2.symm⟩

/-- A loss of encoded packets is a loss of packets. -/
theorem lose_map {f : α → β} {q : List α} {r : List β} (h : Lose (q.map f) r) : ∃ q', Lose q q' ∧ r = q'.map f := by
  obtain ⟨q', hq, rfl⟩ := List.sublist_map_iff.1 h
  exact ⟨q', hq, rfl⟩

end Net

end CodingExercises.Lib
