import Mathlib.Algebra.Group.Fin.Basic
import CodingExercises.Coreutils.Fts
import CodingExercises.Lib.BoundedStack

/-!
# i-ring: a ring of numbers

`lib/i-ring.c`. A ring is a stack of the last four values that were pushed (`ring_stack`). The ring of descriptors that `fts` has
is the one with -1 as its default (`iRingPush_ofFts`, `iRingPop_ofFts`).
-/

namespace CodingExercises.Coreutils.IntRing

open Lib

/-- `I_ring`. The indices are taken modulo `I_RING_SIZE`. -/
structure IRing where
  data : Fin 4 → ℤ
  defaultVal : ℤ
  front : Fin 4
  back : Fin 4
  empty : Bool

/-- `i_ring_init`. -/
def iRingInit (defaultVal : ℤ) : IRing := ⟨fun _ => defaultVal, defaultVal, 0, 0, true⟩

/-- `i_ring_empty`. -/
def iRingEmpty (ir : IRing) : Bool := ir.empty

/-- `i_ring_push`: the old value of the slot, and the ring. -/
def iRingPush (ir : IRing) (val : ℤ) : ℤ × IRing :=
  let step : Fin 4 := if ir.empty then 0 else 1
  let destIdx := ir.front + step
  (ir.data destIdx,
    { ir with
      data := Function.update ir.data destIdx val
      front := destIdx
      back := if destIdx = ir.back then ir.back + step else ir.back
      empty := false })

/-- `i_ring_pop`. It aborts on an empty ring. -/
def iRingPop (ir : IRing) : Option (ℤ × IRing) :=
  if iRingEmpty ir then none
  else
    some (ir.data ir.front,
      { ir with
        data := Function.update ir.data ir.front ir.defaultVal
        front := if ir.front = ir.back then ir.front else ir.front + 3
        empty := ir.front = ir.back })

/-! ## The ring of `fts` -/

def ofFts (ir : Fts.IRing) : IRing := ⟨ir.data, -1, ir.front, ir.back, ir.empty⟩

theorem iRingPush_ofFts (ir : Fts.IRing) (val : ℤ) :
    iRingPush (ofFts ir) val = ((Fts.iRingPush ir val).1, ofFts (Fts.iRingPush ir val).2) := by
  obtain ⟨data, front, back, empty⟩ := ir
  cases empty <;> simp [iRingPush, Fts.iRingPush, ofFts]

theorem iRingPop_ofFts (ir : Fts.IRing) :
    iRingPop (ofFts ir) = (Fts.iRingPop ir).map fun r => (r.1, ofFts r.2) := by
  unfold iRingPop Fts.iRingPop iRingEmpty ofFts
  split <;> rfl

/-! ## What a ring represents -/

/-- The ring holds the values of the stack, from `ir_front` back, and the default in the other slots. -/
structure Represents (d : ℤ) (ir : IRing) (s : BoundedStack ℤ 4) : Prop where
  default : ir.defaultVal = d
  empty : ir.empty = s.values.isEmpty
  back : ir.back + Fin.ofNat 4 (s.values.length - 1) = ir.front
  data : ∀ i : Fin 4, ir.data (ir.front - i) = s.values.getD i d

variable {d : ℤ} {ir : IRing} {s : BoundedStack ℤ 4}

theorem represents_init (d : ℤ) : Represents d (iRingInit d) .empty := ⟨rfl, rfl, rfl, fun _ => rfl⟩

/-- The slot of the next value is the one of the oldest when the ring is full. -/
theorem Represents.slot (h : Represents d ir s) : ir.data (ir.front + if ir.empty then 0 else 1) = s.values.getD 3 d := by
  cases hempty : ir.empty with
  | true =>
    have hnil : s.values = [] := List.isEmpty_iff.mp (h.empty.symm.trans hempty)
    have hdata := h.data 0
    rw [hnil, sub_zero] at hdata
    rw [hnil]
    simpa using hdata
  | false =>
    have hslot : ∀ front : Fin 4, front - 3 = front + 1 := by decide
    have hdata := h.data 3
    rw [hslot] at hdata
    exact hdata

/-- The index of the oldest value. -/
theorem Represents.back_push (h : Represents d ir s) (val : ℤ) :
    (iRingPush ir val).2.back + Fin.ofNat 4 ((s.push val).values.length - 1) = (iRingPush ir val).2.front := by
  have hback := h.back
  have hle := s.length_le
  rw [s.length_push val]
  unfold iRingPush
  dsimp only
  rw [← hback]
  cases hempty : ir.empty with
  | true =>
    have hnil : s.values = [] := List.isEmpty_iff.mp (h.empty.symm.trans hempty)
    simp [hnil]
  | false =>
    have hpos : 0 < s.values.length := by
      rw [List.length_pos_iff, ← List.isEmpty_eq_false_iff, ← h.empty]
      exact hempty
    have hindex : ∀ (back : Fin 4) (n : Fin 5), 0 < n.val →
        (if back + Fin.ofNat 4 (n.val - 1) + 1 = back then back + 1 else back) + Fin.ofNat 4 (min 4 (n.val + 1) - 1) =
          back + Fin.ofNat 4 (n.val - 1) + 1 := by decide
    exact hindex ir.back ⟨s.values.length, by omega⟩ hpos

/-- A push gives the oldest value when there is no room, and the default otherwise. -/
theorem Represents.push (h : Represents d ir s) (val : ℤ) :
    (iRingPush ir val).1 = s.displaced.getD d ∧ Represents d (iRingPush ir val).2 (s.push val) := by
  refine ⟨?_, h.default, (s.isEmpty_push val).symm, h.back_push val, ?_⟩
  · rw [BoundedStack.getD_displaced]
    exact h.slot
  · rintro ⟨i, hi⟩
    unfold iRingPush
    dsimp only
    cases i with
    | zero =>
      rw [BoundedStack.getD_push_zero]
      exact (congrArg _ (sub_zero _)).trans (Function.update_self _ _ _)
    | succ i =>
      have hne : ∀ dest : Fin 4, dest - ⟨i + 1, hi⟩ ≠ dest := by
        intro dest heq
        have hzero := sub_eq_self.mp heq
        cases hzero
      rw [Function.update_of_ne (hne _), BoundedStack.getD_push_succ _ _ _ hi]
      have hdata := h.data ⟨i, by omega⟩
      rw [← hdata]
      cases hempty : ir.empty with
      | true =>
        have hnil : s.values = [] := List.isEmpty_iff.mp (h.empty.symm.trans hempty)
        have hunused : ∀ j, ir.data (ir.front - j) = d := by
          intro j
          rw [h.data, hnil]
          rfl
        rw [hunused, if_pos rfl, add_zero, hunused]
      | false =>
        have hback : ∀ (front : Fin 4) (i : Fin 3), front + 1 - i.succ = front - i.castSucc := by decide
        rw [if_neg (by decide)]
        exact congrArg _ (hback ir.front ⟨i, by omega⟩)

/-- The slot of a value that is popped is given the default. -/
theorem Represents.data_pop {x : ℤ} {xs : List ℤ} {hle : (x :: xs).length ≤ 4} (h : Represents d ir ⟨x :: xs, hle⟩) (i : Fin 4) :
    Function.update ir.data ir.front d ((if xs = [] then ir.front else ir.front + 3) - i) =
      xs.getD i d := by
  have hdata : ∀ i : Fin 4, ir.data (ir.front - i) = (x :: xs).getD i d := h.data
  by_cases hxs : xs = []
  · rw [if_pos hxs, hxs]
    by_cases hzero : i = 0
    · rw [hzero, sub_zero, Function.update_self]
      rfl
    · rw [Function.update_of_ne fun heq => hzero (sub_eq_self.mp heq), hdata, hxs]
      obtain ⟨_ | i, hi⟩ := i
      · exact absurd rfl hzero
      · rfl
  · rw [if_neg hxs]
    by_cases hlast : i = 3
    · have hlength : xs.length ≤ 3 := Nat.le_of_succ_le_succ hle
      have hnone : xs[3]? = none := List.getElem?_eq_none hlength
      rw [hlast, add_sub_cancel_right, Function.update_self, List.getD_eq_getElem?_getD]
      show d = xs[3]?.getD d
      rw [hnone]
      rfl
    · have hslot : ∀ front i : Fin 4, i ≠ 3 →
          front + 3 - i = front - (i + 1) ∧ i + 1 ≠ 0 ∧ (i + 1).val = i.val + 1 := by decide
      obtain ⟨heq, hne, hval⟩ := hslot ir.front i hlast
      rw [heq, Function.update_of_ne fun heq => hne (sub_eq_self.mp heq), hdata, hval, List.getD_cons_succ]

/-- A pop gives the value on the top. -/
theorem Represents.pop (h : Represents d ir s) :
    Option.Rel (fun r t => r.1 = t.1 ∧ Represents d r.2 t.2) (iRingPop ir) s.pop := by
  obtain ⟨values, hle⟩ := s
  have hempty : ir.empty = values.isEmpty := h.empty
  unfold iRingPop iRingEmpty BoundedStack.pop
  cases values with
  | nil =>
    rw [if_pos (by simpa using hempty)]
    exact .none
  | cons x xs =>
    rw [if_neg (by simpa using hempty)]
    have hback : ir.back + Fin.ofNat 4 xs.length = ir.front := h.back
    have hlt : xs.length < 4 := hle
    have hone : ir.front = ir.back ↔ xs = [] := by
      have hindex : ∀ back n : Fin 4, back + Fin.ofNat 4 n.val = back ↔ n.val = 0 := by decide
      rw [← hback, ← List.length_eq_zero_iff]
      exact hindex ir.back ⟨xs.length, hlt⟩
    refine .some ⟨?_, h.default, ?_, ?_, ?_⟩
    · have htop := h.data 0
      rw [sub_zero] at htop
      exact htop
    · show decide (ir.front = ir.back) = xs.isEmpty
      rw [decide_eq_decide.mpr hone]
      cases xs <;> rfl
    · show ir.back + Fin.ofNat 4 (xs.length - 1) = if ir.front = ir.back then ir.front else ir.front + 3
      have hindex : ∀ back n : Fin 4, back + Fin.ofNat 4 (n.val - 1) =
          if back + Fin.ofNat 4 n.val = back then back + Fin.ofNat 4 n.val else back + Fin.ofNat 4 n.val + 3 := by decide
      rw [← hback]
      exact hindex ir.back ⟨xs.length, hlt⟩
    · intro i
      have hdata := h.data_pop i
      simp only [← hone, ← h.default] at hdata ⊢
      exact hdata

/-! ## Runs -/

/-- A call, but for `i_ring_init`. -/
inductive Op
  | push (val : ℤ)
  | pop

/-- What a call returns, and the ring; none where it aborts. -/
def call (ir : IRing) : Op → Option (ℤ × IRing)
  | .push val => some (iRingPush ir val)
  | .pop => iRingPop ir

/-- The call of a stack: a push gives what it displaces, or else the default. -/
def stackCall (defaultVal : ℤ) (s : BoundedStack ℤ 4) : Op → Option (ℤ × BoundedStack ℤ 4)
  | .push val => some (s.displaced.getD defaultVal, s.push val)
  | .pop => s.pop

/-- What a sequence of calls returns, and where it leads to. -/
def run {σ : Type} (f : σ → Op → Option (ℤ × σ)) : σ → List Op → Option (List ℤ × σ)
  | x, [] => some ([], x)
  | x, op :: ops => (f x op).bind fun r => (run f r.2 ops).map fun t => (r.1 :: t.1, t.2)

theorem Represents.call (h : Represents d ir s) (op : Op) :
    Option.Rel (fun r t => r.1 = t.1 ∧ Represents d r.2 t.2) (call ir op) (stackCall d s op) := by
  cases op with
  | push val => exact .some (h.push val)
  | pop => exact h.pop

/-- The same calls give the same, or abort both. -/
theorem Represents.run (h : Represents d ir s) (ops : List Op) :
    Option.Rel (fun r t => r.1 = t.1 ∧ Represents d r.2 t.2) (run IntRing.call ir ops) (run (stackCall d) s ops) := by
  induction ops generalizing ir s with
  | nil => exact .some ⟨rfl, h⟩
  | cons op ops ih =>
    unfold IntRing.run
    have hcall := h.call op
    generalize IntRing.call ir op = r at hcall ⊢
    generalize stackCall d s op = t at hcall ⊢
    cases hcall with
    | none => exact .none
    | @some r t hone =>
      have hrest := ih hone.2
      rw [Option.bind_some, Option.bind_some]
      generalize IntRing.run IntRing.call r.2 ops = rs at hrest ⊢
      generalize IntRing.run (stackCall d) t.2 ops = ts at hrest ⊢
      cases hrest with
      | none => exact .none
      | some hall => exact .some ⟨congrArg₂ List.cons hone.1 hall.1, hall.2⟩

/-- The calls after `i_ring_init` return what those of a stack do that keeps the last `I_RING_SIZE` values, and abort where it
is empty. Then the ring is empty just if the stack is, it holds the values of the stack, and in the other slots the default. -/
theorem ring_stack (d : ℤ) (ops : List Op) :
    Option.Rel (fun r t => r.1 = t.1 ∧ iRingEmpty r.2 = t.2.values.isEmpty ∧
        ∀ i : Fin 4, r.2.data (r.2.front - i) = t.2.values.getD i d)
      (run call (iRingInit d) ops) (run (stackCall d) .empty ops) := by
  have hrun := (represents_init d).run ops
  generalize run call (iRingInit d) ops = r at hrun ⊢
  generalize run (stackCall d) .empty ops = t at hrun ⊢
  cases hrun with
  | none => exact .none
  | some h => exact .some ⟨h.1, h.2.empty, h.2.data⟩

end CodingExercises.Coreutils.IntRing
