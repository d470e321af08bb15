import Mathlib.Data.Set.Card
import Mathlib.Order.Interval.Set.Nat

/-!
# Fair draws by counting

A number up to a bound is drawn together with a rest, and `draws` counts the ways that end well. The operations on fair draws
keep the count: one number alone (`draws_point`), the quotient by `c` where the remainder is given (`draws_div`), and the
remainder of the numbers that no whole multiple of `c` covers (`draws_tail`). Appending a digit in a word multiplies it by a
number that does not depend on what a good end is, as long as the word has room for the digit or the bound fills the word
evenly (`draws_digit`).
-/

namespace CodingExercises.Lib

variable {α δ : Type*}

/-- In how many ways a number up to `m` and a rest satisfy `T`. -/
noncomputable def draws (m : ℕ) (T : ℕ → α → Prop) : ℕ := Set.ncard {p : ℕ × α | p.1 ≤ m ∧ T p.1 p.2}

theorem draws_congr {m : ℕ} {T U : ℕ → α → Prop} (h : ∀ n ≤ m, ∀ a, T n a ↔ U n a) : draws m T = draws m U := by
  refine congrArg Set.ncard (Set.ext fun p => ?_)
  exact and_congr_right fun hp => h p.1 hp p.2

/-- Nothing is drawn when nothing ends well. -/
theorem draws_eq_zero {m : ℕ} {T : ℕ → α → Prop} (h : ∀ n ≤ m, ∀ a, ¬T n a) : draws m T = 0 := by
  have hempty : {p : ℕ × α | p.1 ≤ m ∧ T p.1 p.2} = ∅ := Set.eq_empty_of_forall_notMem fun p hp => h p.1 hp.1 p.2 hp.2
  rw [draws, hempty, Set.ncard_empty]

theorem draws_zero (T : ℕ → α → Prop) : draws 0 T = Set.ncard {a | T 0 a} := by
  refine Set.ncard_congr (fun p _ => p.2) ?_ ?_ ?_
  · rintro ⟨n, a⟩ ⟨hn, h⟩
    obtain rfl := Nat.le_zero.1 hn
    exact h
  · rintro ⟨n, a⟩ ⟨n', a'⟩ ⟨hn, -⟩ ⟨hn', -⟩ heq
    obtain rfl := Nat.le_zero.1 hn
    obtain rfl := Nat.le_zero.1 hn'
    exact congrArg _ heq
  · exact fun a ha => ⟨(0, a), ⟨Nat.le_refl _, ha⟩, rfl⟩

/-- One number. -/
theorem draws_point {v m : ℕ} (hv : v ≤ m) (Q : α → Prop) :
    draws m (fun n a => n = v ∧ Q a) = draws 0 (fun _ a => Q a) := by
  rw [draws_zero]
  refine Set.ncard_congr (fun p _ => p.2) ?_ ?_ ?_
  · exact fun p hp => hp.2.2
  · rintro ⟨n, a⟩ ⟨n', a'⟩ ⟨-, rfl, -⟩ ⟨-, rfl, -⟩ heq
    exact congrArg _ heq
  · exact fun a ha => ⟨(v, a), ⟨hv, rfl, ha⟩, rfl⟩

/-- The quotients of the numbers with a given remainder, below the last multiple of `c`. -/
theorem draws_div {m c v : ℕ} (hv : v < c) (hm : c ≤ m + 1) (T : ℕ → α → Prop) :
    draws m (fun n a => n < (m + 1) / c * c ∧ n % c = v ∧ T (n / c) a) = draws ((m + 1) / c - 1) T := by
  have hc : 0 < c := by omega
  have hq : 0 < (m + 1) / c := Nat.div_pos hm hc
  have hle : (m + 1) / c * c ≤ m + 1 := Nat.div_mul_le_self _ _
  refine Set.ncard_congr (fun p _ => (p.1 / c, p.2)) ?_ ?_ ?_
  · rintro ⟨n, a⟩ ⟨-, hn, -, h⟩
    exact ⟨Nat.le_sub_one_of_lt ((Nat.div_lt_iff_lt_mul hc).2 hn), h⟩
  · rintro ⟨n, a⟩ ⟨n', a'⟩ ⟨-, -, hn, -⟩ ⟨-, -, hn', -⟩ heq
    obtain ⟨hdiv, ha⟩ := Prod.mk.inj heq
    have hnn : n = n' := by rw [← Nat.div_add_mod n c, ← Nat.div_add_mod n' c, hn, hn', hdiv]
    exact Prod.ext hnn ha
  · rintro ⟨q, a⟩ ⟨hq', h⟩
    have hmod : (c * q + v) % c = v := by rw [Nat.mul_add_mod, Nat.mod_eq_of_lt hv]
    have hdiv : (c * q + v) / c = q := by rw [Nat.mul_add_div hc, Nat.div_eq_of_lt hv, Nat.add_zero]
    have hlt : c * q + v < (m + 1) / c * c := by
      rw [← Nat.div_lt_iff_lt_mul hc, hdiv]
      exact Nat.lt_of_le_pred hq hq'
    refine ⟨(c * q + v, a), ⟨by show c * q + v ≤ m; omega, hlt, hmod, ?_⟩, ?_⟩
    · show T ((c * q + v) / c) a
      rw [hdiv]
      exact h
    · exact Prod.ext hdiv rfl

/-- The remainder of a number from the last multiple of `c` on. -/
theorem mod_of_tail {m c n : ℕ} (hc : 0 < c) (hle : (m + 1) / c * c ≤ n) (hn : n ≤ m) : n % c = n - (m + 1) / c * c := by
  have hsplit := Nat.div_add_mod' (m + 1) c
  have hlt := Nat.mod_lt (m + 1) hc
  obtain ⟨r, rfl⟩ := Nat.exists_eq_add_of_le hle
  rw [Nat.add_comm, Nat.add_mul_mod_self_right, Nat.add_sub_cancel, Nat.mod_eq_of_lt (by omega)]

/-- The remainders of the numbers from the last multiple of `c` on. -/
theorem draws_tail {m c : ℕ} (hc : 0 < c) (h : (m + 1) % c ≠ 0) (T : ℕ → α → Prop) :
    draws m (fun n a => (m + 1) / c * c ≤ n ∧ T (n % c) a) = draws ((m + 1) % c - 1) T := by
  have hsplit := Nat.div_add_mod' (m + 1) c
  have hlt := Nat.mod_lt (m + 1) hc
  refine Set.ncard_congr (fun p _ => (p.1 % c, p.2)) ?_ ?_ ?_
  · rintro ⟨n, a⟩ ⟨hn, hle, hT⟩
    refine ⟨?_, hT⟩
    show n % c ≤ _
    rw [mod_of_tail hc hle hn]
    have : n ≤ m := hn
    omega
  · rintro ⟨n, a⟩ ⟨n', a'⟩ ⟨hn, hle, -⟩ ⟨hn', hle', -⟩ heq
    obtain ⟨hrem, ha⟩ := Prod.mk.inj heq
    rw [mod_of_tail hc hle hn, mod_of_tail hc hle' hn'] at hrem
    exact Prod.ext (by simp only at hle hle'; show n = n'; omega) ha
  · rintro ⟨r, a⟩ ⟨hr, hT⟩
    have hr' : r ≤ (m + 1) % c - 1 := hr
    have hle : (m + 1) / c * c ≤ (m + 1) / c * c + r := Nat.le_add_right _ _
    have hrem := mod_of_tail hc hle (show (m + 1) / c * c + r ≤ m by omega)
    rw [Nat.add_sub_cancel_left] at hrem
    refine ⟨((m + 1) / c * c + r, a), ⟨by show (m + 1) / c * c + r ≤ m; omega, hle, ?_⟩, ?_⟩
    · show T (((m + 1) / c * c + r) % c) a
      rw [hrem]
      exact hT
    · exact Prod.ext hrem rfl

theorem draws_tail_zero {m c : ℕ} (h : (m + 1) % c = 0) (T : ℕ → α → Prop) :
    draws m (fun n a => (m + 1) / c * c ≤ n ∧ T (n % c) a) = 0 := by
  refine draws_eq_zero fun n hn a hna => ?_
  have hsplit := Nat.div_add_mod' (m + 1) c
  have := hna.1
  omega

/-- Reducing keeps numbers below a bound that is small or fills the places of the word evenly. -/
theorem mod_le_mod {w m n : ℕ} (hw : 0 < w) (h : m < w ∨ w ∣ m + 1) (hn : n ≤ m) : n % w ≤ m % w := by
  rcases h with h | ⟨k, hk⟩
  · rw [Nat.mod_eq_of_lt h, Nat.mod_eq_of_lt (Nat.lt_of_le_of_lt hn h)]
    exact hn
  · have hk0 : k ≠ 0 := by
      rintro rfl
      omega
    obtain ⟨k, rfl⟩ := Nat.exists_eq_succ_of_ne_zero hk0
    have hm : m = w * k + (w - 1) := by
      rw [Nat.mul_succ] at hk
      omega
    rw [hm, Nat.mul_add_mod, Nat.mod_eq_of_lt (Nat.sub_lt hw Nat.one_pos)]
    exact Nat.le_sub_one_of_lt (Nat.mod_lt n hw)

/-- A number in a word of `b * w` values takes a digit at its end. When the word has room for it, or when the numbers fill the
places of the word evenly, every number that may result does so in as many ways. -/
theorem draws_digit {b w m : ℕ} (hb : 0 < b) (hw : 0 < w) {value : δ → ℕ} (hlt : ∀ d, value d < b) (hinj : Function.Injective value)
    (hsurj : ∀ i < b, ∃ d, value d = i) (h : m < w ∨ w ∣ m + 1) (T : ℕ → List δ → Prop) :
    draws m (fun n ds => ∃ d rest, ds = d :: rest ∧ T (n * b % (w * b) + value d) rest)
      = (m / w + 1) * draws (m * b % (w * b) + (b - 1)) T := by
  have hlow : ∀ n, n * b % (w * b) = n % w * b := fun n => Nat.mul_mod_mul_right b n w
  have hdigit : ∀ x d, (x * b + value d) / b = x ∧ (x * b + value d) % b = value d := by
    intro x d
    rw [Nat.mul_comm]
    exact ⟨by rw [Nat.mul_add_div hb, Nat.div_eq_of_lt (hlt d), Nat.add_zero],
      by rw [Nat.mul_add_mod, Nat.mod_eq_of_lt (hlt d)]⟩
  have hprod : (m / w + 1) * draws (m * b % (w * b) + (b - 1)) T = Set.ncard (Set.Iio (m / w + 1) ×ˢ
      {p : ℕ × List δ | p.1 ≤ m * b % (w * b) + (b - 1) ∧ T p.1 p.2}) := by
    rw [Set.ncard_prod, Set.ncard_Iio_nat]
    rfl
  rw [hprod]
  refine Set.ncard_congr (fun p _ => (p.1 / w, p.1 * b % (w * b) + (p.2.head?.map value).getD 0, p.2.tail)) ?_ ?_ ?_
  · rintro ⟨n, ds⟩ ⟨hn, d, rest, rfl, hT⟩
    refine ⟨Nat.lt_succ_of_le (Nat.div_le_div_right hn), ?_, hT⟩
    show n * b % (w * b) + value d ≤ m * b % (w * b) + (b - 1)
    rw [hlow, hlow]
    exact Nat.add_le_add (Nat.mul_le_mul_right b (mod_le_mod hw h hn)) (Nat.le_sub_one_of_lt (hlt d))
  · rintro ⟨n, ds⟩ ⟨n', ds'⟩ ⟨-, d, rest, rfl, -⟩ ⟨-, d', rest', rfl, -⟩ heq
    simp only [Prod.mk.injEq, List.head?_cons, Option.map_some, Option.getD_some, List.tail_cons, hlow] at heq
    obtain ⟨hdiv, hnum, rfl⟩ := heq
    have hrem : n % w = n' % w := by rw [← (hdigit (n % w) d).1, hnum, (hdigit (n' % w) d').1]
    have hd : value d = value d' := by rw [← (hdigit (n % w) d).2, hnum, (hdigit (n' % w) d').2]
    have hn : n = n' := by rw [← Nat.div_add_mod n w, ← Nat.div_add_mod n' w, hdiv, hrem]
    rw [hn, hinj hd]
  · rintro ⟨j, n', rest⟩ ⟨hj, hn', hT⟩
    have hj' : j ≤ m / w := Nat.le_of_lt_succ hj
    obtain ⟨d, hd⟩ := hsurj (n' % b) (Nat.mod_lt _ hb)
    have hbound : n' ≤ m % w * b + (b - 1) := by
      rw [← hlow]
      exact hn'
    have hquot : n' / b ≤ m % w := by
      rw [← Nat.lt_succ_iff, Nat.div_lt_iff_lt_mul hb, Nat.succ_mul]
      omega
    have hquot' : n' / b < w := Nat.lt_of_le_of_lt hquot (Nat.mod_lt m hw)
    have hrem : (w * j + n' / b) % w = n' / b := by rw [Nat.mul_add_mod, Nat.mod_eq_of_lt hquot']
    have hdiv : (w * j + n' / b) / w = j := by rw [Nat.mul_add_div hw, Nat.div_eq_of_lt hquot', Nat.add_zero]
    have hnum : (w * j + n' / b) * b % (w * b) + value d = n' := by
      rw [hlow, hrem, hd, Nat.div_add_mod']
    have hle : w * j + n' / b ≤ m := by
      have hm := Nat.div_add_mod m w
      rcases Nat.lt_or_eq_of_le hj' with hlt' | rfl
      · have := Nat.mul_le_mul_left w (Nat.succ_le_of_lt hlt')
        rw [Nat.mul_succ] at this
        omega
      · omega
    refine ⟨(w * j + n' / b, d :: rest), ⟨hle, d, rest, rfl, ?_⟩, ?_⟩
    · show T ((w * j + n' / b) * b % (w * b) + value d) rest
      rw [hnum]
      exact hT
    · exact Prod.ext hdiv (Prod.ext hnum rfl)

end CodingExercises.Lib
