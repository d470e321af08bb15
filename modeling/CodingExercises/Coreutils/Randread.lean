import Mathlib.Data.List.GetD
import Mathlib.Data.Stream.Init
import Mathlib.Logic.Function.Iterate
import CodingExercises.Coreutils.RandIsaac

/-!
# coreutils: random bytes from the ISAAC generator

`readisaac` of `lib/randread.c`. What it delivers is what the generator gives, one refill after the other, however it is
asked for it (`readAll_eq`).
-/

namespace CodingExercises.Coreutils.RandIsaac

/-- `struct isaac`. The last `buffered` bytes of `data` are not delivered yet. -/
structure Isaac where
  buffered : ℕ
  state : IsaacState
  data : List Byte
  length_data : data.length = isaacBytes
  buffered_le : buffered ≤ isaacBytes

variable (o : ByteOrder)

/-- What a loop has delivered so far ends with more bytes in front. -/
def deliver {α : Type} (out : List Byte) (r : List Byte × α) : List Byte × α := (out ++ r.1, r.2)

/-- The loop of `readisaac` that stores at an aligned address, from `size` bytes on: what is stored, the state, and the
bytes that are left. -/
def directLoop (s : IsaacState) (size : ℕ) : List Byte × IsaacState × ℕ :=
  if isaacBytes ≤ size then
    let (s, out) := isaacRefill o s
    let size := size - isaacBytes
    if size = 0 then (out, s, 0) else deliver out (directLoop s size)
  else ([], s, size)
  termination_by size
  decreasing_by simp only [isaacBytes] at *; omega

/-- The last bytes of `data`. -/
def Isaac.tail (i : Isaac) : List Byte := i.data.drop (isaacBytes - i.buffered)

/-- A buffer that is full. -/
def Isaac.refilled (s : IsaacState) : Isaac where
  buffered := isaacBytes
  state := (isaacRefill o s).1
  data := (isaacRefill o s).2
  length_data := length_isaacRefill o s
  buffered_le := Nat.le_refl _

theorem directLoop_size (s : IsaacState) (size : ℕ) (h : 0 < size) : (directLoop o s size).2.2 < isaacBytes ∧
    (directLoop o s size).2.2 ≤ size := by
  fun_induction directLoop o s size with
  | case1 s size hle s' out hrefill left hleft => exact ⟨Nat.zero_lt_succ _, Nat.zero_le _⟩
  | case2 s size hle s' out hrefill left hleft ih =>
    obtain ⟨hlt, hle'⟩ := ih (by omega)
    exact ⟨hlt, by simp only [deliver]; omega⟩
  | case3 s size hlt => exact ⟨by simp only; omega, Nat.le_refl _⟩

/-- The loop of `readisaac`, with `i.buffered` as `inbytes`, for `size` bytes at the address `p`: the bytes that are stored
from there on. -/
def readLoop (i : Isaac) (p size : ℕ) : List Byte × Isaac :=
  if size ≤ i.buffered then
    (i.tail.take size, { i with buffered := i.buffered - size, buffered_le := Nat.le_trans (Nat.sub_le _ _) i.buffered_le })
  else
    let p := p + i.buffered
    let left := size - i.buffered
    if p % 4 = 0 then
      let direct := directLoop o i.state left
      if direct.2.2 = 0 then
        (i.tail ++ direct.1, { i with state := direct.2.1, buffered := 0, buffered_le := Nat.zero_le _ })
      else deliver (i.tail ++ direct.1) (readLoop (.refilled o direct.2.1) (p + direct.1.length) direct.2.2)
    else deliver i.tail (readLoop (.refilled o i.state) p left)
  termination_by 2 * size + if i.buffered = 0 then 1 else 0
  decreasing_by
    · have hle := (directLoop_size o i.state (size - i.buffered) (by omega)).2
      rw [if_neg (by simp [Isaac.refilled, isaacBytes])]
      split <;> omega
    · rw [if_neg (by simp [Isaac.refilled, isaacBytes])]
      split <;> omega

/-- `readisaac`. -/
def readisaac (i : Isaac) (p size : ℕ) : List Byte × Isaac := readLoop o i p size

/-- Calls of `readisaac`, each with its address and its size: all that is delivered. -/
def readAll (i : Isaac) : List (ℕ × ℕ) → List Byte × Isaac
  | [] => ([], i)
  | (p, size) :: requests => deliver (readisaac o i p size).1 (readAll (readisaac o i p size).2 requests)

/-- The generator after `randread_new`: nothing is buffered, and `data` is not set. -/
def Isaac.start (s : IsaacState) (data : Vector Byte 1024) : Isaac where
  buffered := 0
  state := s
  data := data.toList
  length_data := Vector.length_toList
  buffered_le := Nat.zero_le _

/-! ## The bytes of the generator -/

/-- The state after so many refills. -/
def refills (s : IsaacState) (k : ℕ) : IsaacState := (fun s => (isaacRefill o s).1)^[k] s

/-- The outputs of the refills, one after the other. -/
def outputs (s : IsaacState) : Stream' Byte := fun n =>
  (isaacRefill o (refills o s (n / isaacBytes))).2.getD (n % isaacBytes) 0

theorem outputs_eq (s : IsaacState) : outputs o s = (isaacRefill o s).2 ++ₛ outputs o (isaacRefill o s).1 := by
  have hlen := length_isaacRefill o s
  ext n
  rcases Nat.lt_or_ge n isaacBytes with hn | hn
  · rw [Stream'.get_append_left _ _ _ (by omega)]
    simp only [Stream'.get, outputs, Nat.div_eq_of_lt hn, Nat.mod_eq_of_lt hn, refills, Function.iterate_zero, id_eq]
    rw [List.getD_eq_getElem _ _ (by omega)]
  · obtain ⟨m, rfl⟩ := Nat.exists_eq_add_of_le hn
    rw [← hlen, Stream'.get_append_right, hlen]
    simp only [Stream'.get, outputs, Nat.add_mod_left]
    rw [Nat.add_div_left m (by decide), refills, Function.iterate_succ_apply]
    rfl

/-- What the generator is going to deliver. -/
def Isaac.rest (i : Isaac) : Stream' Byte := i.tail ++ₛ outputs o i.state

theorem Isaac.length_tail (i : Isaac) : i.tail.length = i.buffered := by
  have hle := i.buffered_le
  rw [Isaac.tail, List.length_drop, i.length_data]
  omega

theorem Isaac.tail_eq_nil {i : Isaac} (h : i.buffered = 0) : i.tail = [] :=
  List.length_eq_zero_iff.mp (i.length_tail.trans h)

theorem refilled_rest (s : IsaacState) : (Isaac.refilled o s).rest o = outputs o s := by
  rw [outputs_eq, Isaac.rest, Isaac.tail]
  simp only [Isaac.refilled, Nat.sub_self, List.drop_zero]

/-- What is stored directly is what comes next. -/
theorem directLoop_spec (s : IsaacState) (size : ℕ) :
    outputs o s = (directLoop o s size).1 ++ₛ outputs o (directLoop o s size).2.1 ∧
      (directLoop o s size).1.length + (directLoop o s size).2.2 = size := by
  fun_induction directLoop o s size with
  | case1 s size hle s' out hrefill left hleft =>
    have hlen := length_isaacRefill o s
    rw [outputs_eq, hrefill]
    rw [hrefill] at hlen
    simp only at hlen
    exact ⟨rfl, by simp only; omega⟩
  | case2 s size hle s' out hrefill left hleft ih =>
    have hlen := length_isaacRefill o s
    rw [outputs_eq, hrefill]
    rw [hrefill] at hlen
    simp only at hlen
    obtain ⟨hout, hsize⟩ := ih
    simp only [deliver, Stream'.append_append_stream, ← hout, List.length_append, true_and]
    omega
  | case3 s size hlt => exact ⟨rfl, by simp⟩

/-- What is delivered in front of something. -/
structure Delivers (i : Isaac) (size : ℕ) (r : List Byte × Isaac) : Prop where
  rest : i.rest o = r.1 ++ₛ r.2.rest o
  length : r.1.length = size

theorem readLoop_delivers (i : Isaac) (p size : ℕ) : Delivers o i size (readLoop o i p size) := by
  fun_induction readLoop o i p size with
  | case1 i p size hle =>
    have hlen := i.length_tail
    have hbuf := i.buffered_le
    have htail (h : i.buffered - size ≤ isaacBytes) :
        Isaac.tail { i with buffered := i.buffered - size, buffered_le := h } = i.tail.drop size := by
      rw [Isaac.tail, Isaac.tail, List.drop_drop]
      congr 1
      simp only
      omega
    refine ⟨?_, by rw [List.length_take]; omega⟩
    rw [Isaac.rest, Isaac.rest, htail, ← Stream'.append_append_stream, List.take_append_drop]
  | case2 i p size hle p' left halign direct hzero =>
    have hlen := i.length_tail
    obtain ⟨hout, hsize⟩ := directLoop_spec o i.state left
    change direct.1.length + direct.2.2 = left at hsize
    refine ⟨?_, by rw [List.length_append]; omega⟩
    rw [Isaac.rest, hout, ← Stream'.append_append_stream, Isaac.rest]
    rw [Isaac.tail_eq_nil (i := { i with state := direct.2.1, buffered := 0, buffered_le := Nat.zero_le _ }) rfl]
    rfl
  | case3 i p size hle p' left halign direct hzero ih =>
    have hlen := i.length_tail
    obtain ⟨hout, hsize⟩ := directLoop_spec o i.state left
    change direct.1.length + direct.2.2 = left at hsize
    obtain ⟨hrest, hlength⟩ := ih
    rw [refilled_rest] at hrest
    refine ⟨?_, ?_⟩
    · rw [Isaac.rest, hout, hrest]
      simp only [deliver, Stream'.append_append_stream]
      rfl
    · simp only [deliver, List.length_append]
      omega
  | case4 i p size hle p' left halign ih =>
    have hlen := i.length_tail
    obtain ⟨hrest, hlength⟩ := ih
    rw [refilled_rest] at hrest
    refine ⟨?_, ?_⟩
    · rw [Isaac.rest, hrest]
      simp only [deliver, Stream'.append_append_stream]
    · simp only [deliver, List.length_append]
      omega

theorem readAll_delivers (i : Isaac) (requests : List (ℕ × ℕ)) :
    Delivers o i (requests.map Prod.snd).sum (readAll o i requests) := by
  induction requests generalizing i with
  | nil => exact ⟨rfl, rfl⟩
  | cons r requests ih =>
    obtain ⟨hrest, hlength⟩ := readLoop_delivers o i r.1 r.2
    obtain ⟨hrest', hlength'⟩ := ih (readisaac o i r.1 r.2).2
    constructor
    · rw [hrest, readAll]
      simp only [deliver, Stream'.append_append_stream]
      exact congrArg _ hrest'
    · rw [readAll]
      simp only [deliver, List.length_append, hlength', List.map_cons, List.sum_cons]
      exact congrArg (· + _) hlength

/-- All that is delivered are the outputs of the generator, in order, whatever the addresses and the sizes of the calls. -/
theorem readAll_eq (o : ByteOrder) (s : IsaacState) (data : Vector Byte 1024) (requests : List (ℕ × ℕ)) :
    (readAll o (.start s data) requests).1 = (outputs o s).take (requests.map Prod.snd).sum := by
  obtain ⟨hrest, hlength⟩ := readAll_delivers o (.start s data) requests
  have hstart : (Isaac.start s data).rest o = outputs o s := by
    rw [Isaac.rest, Isaac.tail_eq_nil rfl]
    rfl
  rw [← hstart, hrest, ← hlength]
  have htake := Stream'.append_take 0 (readAll o (.start s data) requests).1 ((readAll o (.start s data) requests).2.rest o)
  simpa using htake

end CodingExercises.Coreutils.RandIsaac
