import Mathlib.Data.Nat.Notation
import Mathlib.Tactic.Ring

/-!
# Orders of bytes

Numbers as the bytes of a memory, the lowest or the highest first. The bytes of a number read back give it up to its width
(`number_digits`), the number of some bytes gives them (`encode_decode`), and bytes turned around are those of the other order (`decode_reverse`).
-/

namespace CodingExercises.Lib

/-- Which byte of a number stands first. -/
inductive ByteOrder
  | little
  | big
deriving DecidableEq

namespace ByteOrder

def other : ByteOrder → ByteOrder
  | little => big
  | big => little

/-- The number with these bytes, the lowest first. -/
def number (b : List UInt8) : ℕ := b.foldr (fun c n => c.toNat + 256 * n) 0

/-- The lowest bytes of a number, the lowest first. -/
def digits : ℕ → ℕ → List UInt8
  | 0, _ => []
  | w + 1, x => UInt8.ofNat x :: digits w (x / 256)

def decode : ByteOrder → List UInt8 → ℕ
  | little, b => number b
  | big, b => number b.reverse

def encode : ByteOrder → ℕ → ℕ → List UInt8
  | little, w, x => digits w x
  | big, w, x => (digits w x).reverse

variable {o : ByteOrder} {b : List UInt8} {w x : ℕ}

@[simp] theorem number_nil : number [] = 0 := rfl

@[simp] theorem number_cons (c : UInt8) (b : List UInt8) : number (c :: b) = c.toNat + 256 * number b := rfl

@[simp] theorem length_digits (w x : ℕ) : (digits w x).length = w := by
  induction w generalizing x with
  | zero => rfl
  | succ w ih => rw [digits, List.length_cons, ih]

theorem digits_number (h : b.length = w) : digits w (number b) = b := by
  induction b generalizing w with
  | nil =>
    subst h
    rfl
  | cons c b ih =>
    subst h
    have hc := c.toNat_lt
    have hlow : UInt8.ofNat (c.toNat + 256 * number b) = c := by
      apply UInt8.toNat_inj.mp
      rw [UInt8.toNat_ofNat']
      omega
    have hrest : (c.toNat + 256 * number b) / 256 = number b := by omega
    rw [List.length_cons, digits, number_cons, hlow, hrest, ih rfl]

theorem number_digits (w x : ℕ) : number (digits w x) = x % 256 ^ w := by
  induction w generalizing x with
  | zero => rw [digits, number_nil, Nat.pow_zero, Nat.mod_one]
  | succ w ih =>
    have hlow : (UInt8.ofNat x).toNat = x % 256 := UInt8.toNat_ofNat'
    rw [digits, number_cons, hlow, ih, Nat.pow_succ', Nat.mod_mul]

theorem number_lt (b : List UInt8) : number b < 256 ^ b.length := by
  induction b with
  | nil => exact Nat.one_pos
  | cons c b ih =>
    have hc := c.toNat_lt
    rw [number_cons, List.length_cons, Nat.pow_succ]
    omega

theorem number_eq_zero {b : List UInt8} : number b = 0 ↔ ∀ c ∈ b, c = 0 := by
  induction b with
  | nil => simp
  | cons c b ih =>
    have hc : c.toNat = 0 ↔ c = 0 := UInt8.toNat_inj (b := 0)
    rw [number_cons, List.forall_mem_cons, ← ih, ← hc]
    omega

theorem number_append (a b : List UInt8) : number (a ++ b) = number a + 256 ^ a.length * number b := by
  induction a with
  | nil => rw [List.nil_append, number_nil, List.length_nil, Nat.pow_zero, Nat.one_mul, Nat.zero_add]
  | cons c a ih =>
    rw [List.cons_append, number_cons, ih, number_cons, List.length_cons, Nat.pow_succ']
    ring

theorem decode_lt (o : ByteOrder) (h : b.length = w) : o.decode b < 256 ^ w := by
  subst h
  cases o with
  | little => exact number_lt b
  | big => simpa only [decode, List.length_reverse] using number_lt b.reverse

theorem encode_decode (o : ByteOrder) (h : b.length = w) : o.encode w (o.decode b) = b := by
  cases o with
  | little => exact digits_number h
  | big => rw [encode, decode, digits_number (by rw [List.length_reverse, h]), List.reverse_reverse]

theorem decode_reverse (o : ByteOrder) (b : List UInt8) : o.decode b.reverse = o.other.decode b := by
  cases o with
  | little => rfl
  | big => rw [decode, List.reverse_reverse, other, decode]

end ByteOrder

end CodingExercises.Lib
