import Mathlib.NumberTheory.LucasPrimality
import Mathlib.Tactic.ReduceModChar
import Mathlib.Tactic.NormNum.Prime
import CodingExercises.Coreutils.HashTable

/-!
# hash: primes

`is_prime` and `next_prime` of `lib/hash.c`. The running square of the divisor wraps just where the candidate is a prime above
`(2^32 - 1)^2` (`squareWraps_iff`). The answer is right then too, since the squares come to `2^64 - 7` before the divisor comes
to the candidate (`isPrime_iff`).

- `stop_of_not_prime`: where the loop ends for a number that is not prime, at its least factor;
- `stop_of_prime`: some divisor before a prime where it ends, at the latest.
-/

namespace CodingExercises.Coreutils

/-- In the loop of `is_prime`, before it ends, the next square is no longer a `size_t`. -/
def squareWrapsLoop (candidate : ℕ) : ℕ → ℕ → ℕ → Bool
  | 0, _, _ => false
  | fuel + 1, divisor, square =>
    if square < candidate ∧ candidate % divisor ≠ 0 then
      2 ^ 64 ≤ square + 4 * (divisor + 1) ||
        squareWrapsLoop candidate fuel (divisor + 2) ((square + 4 * (divisor + 1)) % 2 ^ 64)
    else false

/-- The running square wraps in `is_prime`. -/
def squareWraps (candidate : ℕ) : Bool := squareWrapsLoop candidate candidate 3 9

variable {n d k fuel : ℕ}

/-- The loop goes on behind a divisor. -/
def GoesOn (n d : ℕ) : Prop := d ^ 2 % 2 ^ 64 < n ∧ n % d ≠ 0

theorem next_square (d : ℕ) : (d ^ 2 % 2 ^ 64 + 4 * (d + 1)) % 2 ^ 64 = (d + 2) ^ 2 % 2 ^ 64 := by
  rw [Nat.mod_add_mod]
  congr 1
  ring

/-- The loop ends at the first divisor behind which it does not go on. -/
theorem isPrimeLoop_stop (hgoes : ∀ i < k, GoesOn n (d + 2 * i)) (hstop : ¬ GoesOn n (d + 2 * k)) (hfuel : k ≤ fuel) :
    isPrimeLoop n fuel d (d ^ 2 % 2 ^ 64) = d + 2 * k := by
  induction k generalizing d fuel with
  | zero =>
    have hstop : ¬ (d ^ 2 % 2 ^ 64 < n ∧ n % d ≠ 0) := hstop
    cases fuel with
    | zero => rfl
    | succ fuel => rw [isPrimeLoop, if_neg hstop, Nat.mul_zero, Nat.add_zero]
  | succ k ih =>
    obtain ⟨fuel, rfl⟩ : ∃ m, fuel = m + 1 := ⟨fuel - 1, by omega⟩
    have hfirst : d ^ 2 % 2 ^ 64 < n ∧ n % d ≠ 0 := hgoes 0 (Nat.succ_pos k)
    have hsum (i : ℕ) : d + 2 + 2 * i = d + 2 * (i + 1) := by omega
    rw [isPrimeLoop, if_pos hfirst, next_square, ih, hsum]
    · intro i hi
      rw [hsum]
      exact hgoes (i + 1) (by omega)
    · rw [hsum]
      exact hstop
    · omega

/-- The running square wraps just if the last one is not a `size_t`. -/
theorem squareWrapsLoop_iff (hgoes : ∀ i < k, GoesOn n (d + 2 * i)) (hstop : ¬ GoesOn n (d + 2 * k)) (hfuel : k ≤ fuel)
    (hsquare : d ^ 2 < 2 ^ 64) : squareWrapsLoop n fuel d (d ^ 2 % 2 ^ 64) = true ↔ 2 ^ 64 ≤ (d + 2 * k) ^ 2 := by
  induction k generalizing d fuel with
  | zero =>
    have hstop : ¬ (d ^ 2 % 2 ^ 64 < n ∧ n % d ≠ 0) := hstop
    refine iff_of_false ?_ (Nat.not_le.mpr hsquare)
    cases fuel with
    | zero => exact Bool.false_ne_true
    | succ fuel =>
      rw [squareWrapsLoop, if_neg hstop]
      exact Bool.false_ne_true
  | succ k ih =>
    obtain ⟨fuel, rfl⟩ : ∃ m, fuel = m + 1 := ⟨fuel - 1, by omega⟩
    have hfirst : d ^ 2 % 2 ^ 64 < n ∧ n % d ≠ 0 := hgoes 0 (Nat.succ_pos k)
    have hsum (i : ℕ) : d + 2 + 2 * i = d + 2 * (i + 1) := by omega
    have hnext : d ^ 2 % 2 ^ 64 + 4 * (d + 1) = (d + 2) ^ 2 := by
      rw [Nat.mod_eq_of_lt hsquare]
      ring
    rw [squareWrapsLoop, if_pos hfirst, hnext, Bool.or_eq_true, decide_eq_true_eq]
    by_cases hwraps : 2 ^ 64 ≤ (d + 2) ^ 2
    · have hlast : (d + 2) ^ 2 ≤ (d + 2 * (k + 1)) ^ 2 := Nat.pow_le_pow_left (by omega) 2
      exact iff_of_true (.inl hwraps) (hwraps.trans hlast)
    · rw [or_iff_right hwraps, ih, hsum]
      · intro i hi
        rw [hsum]
        exact hgoes (i + 1) (by omega)
      · rw [hsum]
        exact hstop
      · omega
      · exact Nat.not_le.mp hwraps

/-! ## Where the loop ends -/

/-- The loop ends at a divisor, for the first time. -/
structure Stops (n d : ℕ) : Prop where
  odd : d % 2 = 1
  ge : 3 ≤ d
  goes : ∀ e, e % 2 = 1 → 3 ≤ e → e < d → GoesOn n e
  stop : ¬ GoesOn n d

theorem Stops.loop (h : Stops n d) (hfuel : d ≤ fuel) : isPrimeLoop n fuel 3 9 = d := by
  have hodd := h.odd
  have hge := h.ge
  obtain ⟨k, rfl⟩ : ∃ k, d = 3 + 2 * k := ⟨(d - 3) / 2, by omega⟩
  exact isPrimeLoop_stop (fun i hi => h.goes _ (by omega) (by omega) (by omega)) h.stop (by omega)

theorem Stops.squareWraps_iff (h : Stops n d) (hle : d ≤ n) : squareWraps n = true ↔ 2 ^ 64 ≤ d ^ 2 := by
  have hodd := h.odd
  have hge := h.ge
  obtain ⟨k, rfl⟩ : ∃ k, d = 3 + 2 * k := ⟨(d - 3) / 2, by omega⟩
  exact squareWrapsLoop_iff (fun i hi => h.goes _ (by omega) (by omega) (by omega)) h.stop (by omega) (by norm_num)

theorem Stops.isPrime_eq (h : Stops n d) (hle : d ≤ n) : isPrime n = decide (n % d ≠ 0) := by
  rw [isPrime, h.loop hle]

/-- A divisor behind which the loop does not go on is at or behind its end. -/
theorem exists_stops (hodd : d % 2 = 1) (hge : 3 ≤ d) (hstop : ¬ GoesOn n d) : ∃ e ≤ d, Stops n e := by
  classical
  have hex : ∃ e, e % 2 = 1 ∧ 3 ≤ e ∧ ¬ GoesOn n e := ⟨d, hodd, hge, hstop⟩
  obtain ⟨hodd', hge', hstop'⟩ := Nat.find_spec hex
  refine ⟨Nat.find hex, Nat.find_min' hex ⟨hodd, hge, hstop⟩, hodd', hge', ?_, hstop'⟩
  intro e he hle hlt
  by_contra hno
  exact Nat.find_min hex hlt ⟨he, hle, hno⟩

/-- A divisor whose square is a `size_t` ends the loop if it divides, or if its square has come to the number. -/
theorem goesOn_iff (hd : d < 2 ^ 32) : GoesOn n d ↔ d ^ 2 < n ∧ n % d ≠ 0 := by
  have hsquare : d ^ 2 < 2 ^ 64 := by
    calc d ^ 2 < (2 ^ 32) ^ 2 := Nat.pow_lt_pow_left hd two_ne_zero
      _ = 2 ^ 64 := by norm_num
  rw [GoesOn, Nat.mod_eq_of_lt hsquare]

/-- A number that is not prime: the loop ends at its least factor. -/
theorem stop_of_not_prime (hodd : n % 2 = 1) (hge : 11 ≤ n) (hlt : n < 2 ^ 64) (hprime : ¬ n.Prime) :
    ∃ d ≤ n, Stops n d ∧ n % d = 0 ∧ d ^ 2 < 2 ^ 64 := by
  have hle : n.minFac ^ 2 ≤ n := Nat.minFac_sq_le_self (by omega) hprime
  have hfactor : n.minFac.Prime := Nat.minFac_prime (by omega)
  have hzero : n % n.minFac = 0 := Nat.mod_eq_zero_of_dvd (Nat.minFac_dvd n)
  have hoddFac : n.minFac % 2 = 1 := by
    rcases hfactor.eq_two_or_odd with htwo | h
    · rw [htwo] at hzero
      omega
    · exact h
  have hthree : 3 ≤ n.minFac := by
    have := hfactor.two_le
    omega
  have hroot : n.minFac < 2 ^ 32 := by
    by_contra hno
    have : (2 ^ 32) ^ 2 ≤ n.minFac ^ 2 := Nat.pow_le_pow_left (Nat.not_lt.mp hno) 2
    omega
  obtain ⟨d, hd, hstops⟩ := exists_stops hoddFac hthree (n := n) (by simp [GoesOn, hzero])
  have hsquare : d ^ 2 ≤ n.minFac ^ 2 := Nat.pow_le_pow_left hd 2
  refine ⟨d, hd.trans (Nat.minFac_le (by omega)), hstops, ?_, by omega⟩
  by_contra hdvd
  have hend : n ≤ d ^ 2 := by
    by_contra hno
    exact hstops.stop ((goesOn_iff (by omega)).mpr ⟨Nat.not_le.mp hno, hdvd⟩)
  have heq : d = n.minFac := Nat.pow_left_injective two_ne_zero (by omega : d ^ 2 = n.minFac ^ 2)
  exact hdvd (heq ▸ hzero)

/-- An odd divisor whose square has come to a prime that is not too large. -/
theorem exists_square_ge (hge : 11 ≤ n) (hlt : n ≤ (2 ^ 32 - 1) ^ 2) (hprime : n.Prime) :
    ∃ e, e % 2 = 1 ∧ 3 ≤ e ∧ e < n ∧ n ≤ e ^ 2 ∧ e < 2 ^ 32 := by
  have hle : n.sqrt ^ 2 ≤ n := Nat.sqrt_le' n
  have hnext : n < (n.sqrt + 1) ^ 2 := Nat.lt_succ_sqrt' n
  have hne : n.sqrt ^ 2 ≠ n := fun h => Nat.Prime.not_prime_pow le_rfl (h ▸ hprime)
  have hroot : n.sqrt < 2 ^ 32 - 1 := by
    by_contra hno
    have : (2 ^ 32 - 1) ^ 2 ≤ n.sqrt ^ 2 := Nat.pow_le_pow_left (Nat.not_lt.mp hno) 2
    omega
  have hthree : 3 ≤ n.sqrt := by
    by_contra hno
    have : (n.sqrt + 1) ^ 2 ≤ 3 ^ 2 := Nat.pow_le_pow_left (by omega) 2
    omega
  have hless : n.sqrt + 2 < n := by nlinarith
  have hup : (n.sqrt + 1) ^ 2 ≤ (n.sqrt + 1 + n.sqrt % 2) ^ 2 := Nat.pow_le_pow_left (by omega) 2
  exact ⟨n.sqrt + 1 + n.sqrt % 2, by omega, by omega, by omega, by omega, by omega⟩

/-- The largest odd numbers are no primes. -/
theorem prime_le (hodd : n % 2 = 1) (hlt : n < 2 ^ 64) (hprime : n.Prime) : n ≤ 2 ^ 64 - 7 := by
  have hno (p : ℕ) (hp : p.Prime) (hne : n ≠ p) : n % p ≠ 0 := by
    intro hzero
    have hor := (Nat.dvd_prime hprime).mp (Nat.dvd_of_mod_eq_zero hzero)
    have := hp.two_le
    omega
  by_contra hgt
  obtain rfl | rfl | rfl : n = 2 ^ 64 - 1 ∨ n = 2 ^ 64 - 3 ∨ n = 2 ^ 64 - 5 := by omega
  · exact hno 3 Nat.prime_three (by norm_num) (by norm_num)
  · exact hno 13 (by norm_num) (by norm_num) (by norm_num)
  · exact hno 11 (by norm_num) (by norm_num) (by norm_num)

/-- A prime: the loop ends before it, with a square that has wrapped just if it is above the last square of a `size_t`. -/
theorem stop_of_prime (hodd : n % 2 = 1) (hge : 11 ≤ n) (hlt : n < 2 ^ 64) (hprime : n.Prime) :
    ∃ d < n, Stops n d ∧ (2 ^ 64 ≤ d ^ 2 ↔ (2 ^ 32 - 1) ^ 2 < n) := by
  by_cases hsmall : n ≤ (2 ^ 32 - 1) ^ 2
  · obtain ⟨e, hodd', hge', hless, hsquare, hroot⟩ := exists_square_ge hge hsmall hprime
    have hno : ¬ GoesOn n e := by
      rw [goesOn_iff hroot]
      omega
    obtain ⟨d, hd, hstops⟩ := exists_stops hodd' hge' hno
    have hup : d ^ 2 < (2 ^ 32) ^ 2 := Nat.pow_lt_pow_left (by omega) two_ne_zero
    exact ⟨d, by omega, hstops, iff_of_false (by omega) (by omega)⟩
  · -- The square of this divisor is 2^64 - 7 modulo 2^64, and no prime is above that.
    have hno : ¬ GoesOn n 1852311383259529397 := by
      have hle := prime_le hodd hlt hprime
      have hsquare : 1852311383259529397 ^ 2 % 2 ^ 64 = 2 ^ 64 - 7 := by norm_num
      rw [GoesOn, hsquare]
      omega
    obtain ⟨d, hd, hstops⟩ := exists_stops (by norm_num) (by norm_num) hno
    have hless : d < n := by omega
    refine ⟨d, hless, hstops, iff_of_true ?_ (by omega)⟩
    have hroot : 2 ^ 32 ≤ d := by
      by_contra hlow
      have hodd' := hstops.odd
      have hge' := hstops.ge
      have hsquare : d ^ 2 ≤ (2 ^ 32 - 1) ^ 2 := Nat.pow_le_pow_left (by omega) 2
      refine hstops.stop ((goesOn_iff (by omega)).mpr ⟨by omega, ?_⟩)
      intro hzero
      have hor := (Nat.dvd_prime hprime).mp (Nat.dvd_of_mod_eq_zero hzero)
      omega
    calc 2 ^ 64 = (2 ^ 32) ^ 2 := by norm_num
      _ ≤ d ^ 2 := Nat.pow_le_pow_left hroot 2

/-! ## The answers -/

theorem isPrime_iff (hodd : n % 2 = 1) (hge : 11 ≤ n) (hlt : n < 2 ^ 64) : isPrime n = true ↔ n.Prime := by
  by_cases hprime : n.Prime
  · obtain ⟨d, hd, hstops, -⟩ := stop_of_prime hodd hge hlt hprime
    have hge' := hstops.ge
    have hne : n % d ≠ 0 := by
      intro hzero
      have hor := (Nat.dvd_prime hprime).mp (Nat.dvd_of_mod_eq_zero hzero)
      omega
    rw [hstops.isPrime_eq hd.le, decide_eq_true_eq]
    exact iff_of_true hne hprime
  · obtain ⟨d, hd, hstops, hzero, -⟩ := stop_of_not_prime hodd hge hlt hprime
    rw [hstops.isPrime_eq hd, decide_eq_true_eq]
    exact iff_of_false (not_not_intro hzero) hprime

theorem squareWraps_iff (hodd : n % 2 = 1) (hge : 11 ≤ n) (hlt : n < 2 ^ 64) :
    squareWraps n = true ↔ n.Prime ∧ (2 ^ 32 - 1) ^ 2 < n := by
  by_cases hprime : n.Prime
  · obtain ⟨d, hd, hstops, hwraps⟩ := stop_of_prime hodd hge hlt hprime
    rw [hstops.squareWraps_iff hd.le, hwraps, and_iff_right hprime]
  · obtain ⟨d, hd, hstops, -, hsquare⟩ := stop_of_not_prime hodd hge hlt hprime
    rw [hstops.squareWraps_iff hd]
    exact iff_of_false (Nat.not_le.mpr hsquare) (fun h => hprime h.1)

/-- The loop of `is_prime` ends by itself: more fuel gives the same divisor. -/
theorem isPrimeLoop_ends (hodd : n % 2 = 1) (hge : 11 ≤ n) (hlt : n < 2 ^ 64) (hfuel : n ≤ fuel) :
    isPrimeLoop n fuel 3 9 = isPrimeLoop n n 3 9 := by
  by_cases hprime : n.Prime
  · obtain ⟨d, hd, hstops, -⟩ := stop_of_prime hodd hge hlt hprime
    rw [hstops.loop (hd.le.trans hfuel), hstops.loop hd.le]
  · obtain ⟨d, hd, hstops, -⟩ := stop_of_not_prime hodd hge hlt hprime
    rw [hstops.loop (hd.trans hfuel), hstops.loop hd]

/-- The loop of `next_prime` ends at the least prime. -/
theorem nextPrimeLoop_isLeast {p : ℕ} (hodd : n % 2 = 1) (hge : 11 ≤ n) (hprime : p.Prime) (hle : n ≤ p) (hp : p < sizeMax)
    (hfuel : p - n ≤ fuel) : IsLeast {q | q.Prime ∧ n ≤ q} (nextPrimeLoop fuel n) := by
  have hmax : sizeMax = 2 ^ 64 - 1 := rfl
  induction fuel generalizing n with
  | zero =>
    obtain rfl : n = p := by omega
    exact ⟨⟨hprime, le_rfl⟩, fun q hq => hq.2⟩
  | succ fuel ih =>
    rw [nextPrimeLoop]
    by_cases hn : n.Prime
    · rw [if_neg (by simp [(isPrime_iff hodd hge (by omega)).mpr hn])]
      exact ⟨⟨hn, le_rfl⟩, fun q hq => hq.2⟩
    · have hno : isPrime n = false := by
        rw [← Bool.not_eq_true, isPrime_iff hodd hge (by omega)]
        exact hn
      -- Neither this number nor the even one behind it is a prime.
      have hskip {q : ℕ} (hq : q.Prime) (hup : n ≤ q) : n + 2 ≤ q := by
        have hne : n ≠ q := fun h => hn (h ▸ hq)
        have hoddQ := hq.eq_two_or_odd
        omega
      rw [if_pos ⟨by omega, by rw [hno]; rfl⟩]
      obtain ⟨hmem, hleast⟩ := ih (by omega) (by omega) (hskip hprime hle) (by omega)
      exact ⟨⟨hmem.1, by have := hmem.2; omega⟩, fun q hq => hleast ⟨hq.1, hskip hq.1 hq.2⟩⟩

theorem or_one (m : ℕ) : (m ||| 1) / 2 = m / 2 ∧ (m ||| 1) % 2 = 1 := by
  constructor
  · rw [Nat.or_div_two]
    exact Nat.or_zero _
  · exact Nat.or_mod_two_eq_one.mpr (.inr rfl)

theorem first_eq_max (candidate : ℕ) : (if candidate < 10 then 10 else candidate) = max candidate 10 := by
  split <;> omega

/-- The first odd candidate is below the same primes. -/
theorem le_first_iff {candidate q : ℕ} (hq : q.Prime) :
    (if candidate < 10 then 10 else candidate) ||| 1 ≤ q ↔ max candidate 11 ≤ q := by
  have hoddQ := hq.eq_two_or_odd
  rw [first_eq_max]
  obtain ⟨hhalf, hodd⟩ := or_one (max candidate 10)
  omega

theorem nextPrime_isLeast {candidate p : ℕ} (hprime : p.Prime) (hle : max candidate 11 ≤ p) (hp : p < sizeMax) :
    IsLeast {q | q.Prime ∧ max candidate 11 ≤ q} (nextPrime candidate) := by
  have hodd := (or_one (if candidate < 10 then 10 else candidate)).2
  have hge : 11 ≤ (if candidate < 10 then 10 else candidate) ||| 1 := by
    rw [first_eq_max]
    obtain ⟨hhalf, hodd⟩ := or_one (max candidate 10)
    omega
  have hset : {q | q.Prime ∧ max candidate 11 ≤ q} =
      {q | q.Prime ∧ (if candidate < 10 then 10 else candidate) ||| 1 ≤ q} := by
    ext q
    exact and_congr_right fun hq => (le_first_iff hq).symm
  rw [hset]
  exact nextPrimeLoop_isLeast hodd hge hprime ((le_first_iff hprime).mpr hle) hp (by omega)

/-- `is_prime` is right for every odd number from 11 on, though the square of the divisor wraps for the largest primes, and
`next_prime` gives the least prime if there is one below `SIZE_MAX`. -/
theorem next_prime_least :
    (∀ n, n % 2 = 1 → 11 ≤ n → n < 2 ^ 64 →
      (isPrime n = true ↔ n.Prime) ∧ (squareWraps n = true ↔ n.Prime ∧ (2 ^ 32 - 1) ^ 2 < n) ∧
        ∀ fuel, n ≤ fuel → isPrimeLoop n fuel 3 9 = isPrimeLoop n n 3 9) ∧
      ∀ candidate p, candidate < sizeMax → p.Prime → max candidate 11 ≤ p → p < sizeMax →
        IsLeast {q | q.Prime ∧ max candidate 11 ≤ q} (nextPrime candidate) := by
  constructor
  · intro n hodd hge hlt
    exact ⟨isPrime_iff hodd hge hlt, squareWraps_iff hodd hge hlt, fun fuel hfuel => isPrimeLoop_ends hodd hge hlt hfuel⟩
  · intro candidate p _ hprime hle hp
    exact nextPrime_isLeast hprime hle hp

theorem next_prime_least_twenty : isPrime 25 = false ∧ squareWraps 25 = false ∧ nextPrime 20 = 23 := by
  obtain ⟨hprime, hwraps, -⟩ := next_prime_least.1 25 (by norm_num) (by norm_num) (by norm_num)
  have hno : ¬ Nat.Prime 25 := by norm_num
  refine ⟨?_, ?_, ?_⟩
  · rw [← Bool.not_eq_true, hprime]
    exact hno
  · rw [← Bool.not_eq_true, hwraps]
    exact fun h => hno h.1
  · have hleast := next_prime_least.2 20 23 (by decide) (by norm_num) (by norm_num) (by decide)
    have hle : nextPrime 20 ≤ 23 := hleast.2 ⟨by norm_num, by norm_num⟩
    obtain ⟨hmem, hge⟩ := hleast.1
    generalize nextPrime 20 = p at *
    simp only [Nat.reduceLeDiff, sup_of_le_left] at hge
    interval_cases p <;> revert hmem <;> norm_num

/-- A prime above the last square of a `size_t`. -/
theorem large_prime : Nat.Prime 18446744069199360001 := by
  apply lucas_primality _ (11 : ZMod 18446744069199360001)
  · rw [show (18446744069199360001 : ℕ) - 1 = 18446744069199360000 from rfl]
    reduce_mod_char
  · intro q hq hdvd
    have hfactors : q ∣ 2 ^ 12 * 3 ^ 3 * 5 ^ 4 * 29 * 239 * 283 * 359 * 379 := hdvd
    have hpow (r k : ℕ) (hr : r.Prime) (h : q ∣ r ^ k) : q = r := (Nat.prime_dvd_prime_iff_eq hq hr).mp (hq.dvd_of_dvd_pow h)
    have hone (r : ℕ) (hr : r.Prime) (h : q ∣ r) : q = r := (Nat.prime_dvd_prime_iff_eq hq hr).mp h
    simp only [hq.dvd_mul] at hfactors
    have hmem : q = 2 ∨ q = 3 ∨ q = 5 ∨ q = 29 ∨ q = 239 ∨ q = 283 ∨ q = 359 ∨ q = 379 := by
      rcases hfactors with ((((((h | h) | h) | h) | h) | h) | h) | h
      · exact .inl (hpow 2 _ (by norm_num) h)
      · exact .inr (.inl (hpow 3 _ (by norm_num) h))
      · exact .inr (.inr (.inl (hpow 5 _ (by norm_num) h)))
      · have := hone 29 (by norm_num) h
        omega
      · have := hone 239 (by norm_num) h
        omega
      · have := hone 283 (by norm_num) h
        omega
      · have := hone 359 (by norm_num) h
        omega
      · have := hone 379 (by norm_num) h
        omega
    rcases hmem with rfl | rfl | rfl | rfl | rfl | rfl | rfl | rfl
    all_goals
      norm_num only
      reduce_mod_char
      decide

theorem square_wraps_large_prime :
    ¬ ∀ n, n % 2 = 1 → 11 ≤ n → n < 2 ^ 64 → (isPrime n = true ↔ n.Prime) ∧ squareWraps n = false := by
  intro h
  have hno := (h 18446744069199360001 (by norm_num) (by norm_num) (by norm_num)).2
  have hyes := (squareWraps_iff (by norm_num) (by norm_num) (by norm_num)).mpr ⟨large_prime, by norm_num⟩
  rw [hno] at hyes
  exact Bool.false_ne_true hyes

end CodingExercises.Coreutils
