import CodingExercises.Coreutils.Randint

/-!
# coreutils: random integers, when bits are lost

For `lossyGenmax` a new source comes to numbers that have no room for another byte. When such a number is appended to and not
usable, and the next one is not either, the numbers that follow are not all made in as many ways
(`not_fair_lossyGenmax`).
-/

namespace CodingExercises.Coreutils.Randint

/-- A bound between `2^62` and `2^63`. -/
def lossyGenmax : ℕ := 2 ^ 62 + 2 ^ 54 - 2 ^ 46 - 2 ^ 44 - 1

/-- The bound of the first number that is not usable, with one more: `63 * 2 ^ 56 + lowPart`. -/
def firstLeft : ℕ := 4557906705689608192

/-- What is left of that when a byte is appended. -/
def lowPart : ℕ := 18278281300148224

/-- The bound of the next number that is not usable, with one more. -/
def secondLeft : ℕ := 49627556831297536

/-- One byte is enough. -/
theorem refill_one {genmax n m : ℕ} (hm : m < genmax) (hone : ¬shiftLeft m + ucharMax < genmax) (source : List Byte)
    (r : Source × List Byte) : refill genmax ⟨n, m⟩ source = some r ↔
      ∃ b rest, source = b :: rest ∧ r = (⟨shiftLeft n + b.toNat, shiftLeft m + ucharMax⟩, rest) := by
  have hneed : needed genmax 8 m = 1 := by
    rw [needed]
    exact if_neg hone
  rw [refill, if_pos hm]
  dsimp only
  rw [hneed]
  cases source with
  | nil => simp
  | cons b source => simp [appendBytes, hone, eq_comm]

section

variable {genmax n m m' : ℕ} {calls values : List ℕ} {history : List Branch} {s' : Source}

/-- A turn that reads one byte and retries. -/
theorem run_reject (hm : m < genmax) (hmax : shiftLeft m + ucharMax = m') (hmore : genmax < m') (source : List Byte) :
    run (.reject :: history) ⟨n, m⟩ (genmax :: calls) source = some (values, s') ↔ ∃ b rest, source = b :: rest ∧
      (m' + 1) / (genmax + 1) * (genmax + 1) ≤ shiftLeft n + b.toNat ∧
      run history ⟨(shiftLeft n + b.toNat) % (genmax + 1), ((m' + 1) % (genmax + 1) + 2 ^ 64 - 1) % 2 ^ 64⟩
        (genmax :: calls) rest = some (values, s') := by
  have hrefill := refill_one (n := n) hm (by rw [hmax]; omega) source
  rw [hmax] at hrefill
  rw [run_cons]
  constructor
  · rintro ⟨r, hr, hf⟩
    obtain ⟨b, rest, rfl, rfl⟩ := (hrefill r).1 hr
    exact ⟨b, rest, rfl, (follows_reject hmore _ _ _).1 hf⟩
  · rintro ⟨b, rest, rfl, h⟩
    exact ⟨_, (hrefill _).2 ⟨b, rest, rfl, rfl⟩, (follows_reject hmore _ _ _).2 h⟩

/-- A turn that reads one byte and returns. -/
theorem run_accept {v : ℕ} (hm : m < genmax) (hmax : shiftLeft m + ucharMax = m') (hmore : genmax < m') (source : List Byte) :
    run (.accept :: history) ⟨n, m⟩ (genmax :: calls) source = some (v :: values, s') ↔ ∃ b rest, source = b :: rest ∧
      shiftLeft n + b.toNat < (m' + 1) / (genmax + 1) * (genmax + 1) ∧ (shiftLeft n + b.toNat) % (genmax + 1) = v ∧
      run history ⟨(shiftLeft n + b.toNat) / (genmax + 1), (m' + 1) / (genmax + 1) - 1⟩ calls rest = some (values, s') := by
  have hrefill := refill_one (n := n) hm (by rw [hmax]; omega) source
  rw [hmax] at hrefill
  rw [run_cons]
  constructor
  · rintro ⟨r, hr, hf⟩
    obtain ⟨b, rest, rfl, rfl⟩ := (hrefill r).1 hr
    exact ⟨b, rest, rfl, (follows_accept hmore _ _ _).1 hf⟩
  · rintro ⟨b, rest, rfl, h⟩
    exact ⟨_, (hrefill _).2 ⟨b, rest, rfl, rfl⟩, (follows_accept hmore _ _ _).2 h⟩

end

/-- The run behind the first number: a byte, no usable number, a byte, and the number `t`, which is usable. -/
theorem run_lossy {v r t : ℕ} (hv : v ≤ lossyGenmax) (hr : r < 2) (ht : t = (lossyGenmax + 1) * r + v) (n : ℕ)
    (source : List Byte) : run [.reject, .accept] ⟨n, firstLeft - 1⟩ [lossyGenmax] source = some ([v], ⟨r, 1⟩) ↔
      ∃ b₁ b₂, source = [b₁, b₂] ∧ lossyGenmax + 1 ≤ shiftLeft n + b₁.toNat ∧
        shiftLeft ((shiftLeft n + b₁.toNat) % (lossyGenmax + 1)) + b₂.toNat = t := by
  have hfirst : shiftLeft (firstLeft - 1) + ucharMax = 256 * lowPart - 1 := by decide
  have hsecond : shiftLeft (secondLeft - 1) + ucharMax = 256 * secondLeft - 1 := by decide
  have husable₁ : (256 * lowPart - 1 + 1) / (lossyGenmax + 1) * (lossyGenmax + 1) = lossyGenmax + 1 := by decide
  have hleft₁ : ((256 * lowPart - 1 + 1) % (lossyGenmax + 1) + 2 ^ 64 - 1) % 2 ^ 64 = secondLeft - 1 := by decide
  have husable₂ : (256 * secondLeft - 1 + 1) / (lossyGenmax + 1) = 2 := by decide
  rw [run_reject (by decide) hfirst (by decide), husable₁, hleft₁]
  constructor
  · rintro ⟨b₁, rest, rfl, hle, hrun⟩
    obtain ⟨b₂, rest₂, rfl, hlt, hmod, hend⟩ := (run_accept (by decide) hsecond (by decide) rest).1 hrun
    rw [husable₂] at hlt hend
    cases rest₂ with
    | cons b rest₂ => cases hend
    | nil =>
      have hdiv : (shiftLeft ((shiftLeft n + b₁.toNat) % (lossyGenmax + 1)) + b₂.toNat) / (lossyGenmax + 1) = r :=
        congrArg (fun x : List ℕ × Source => x.2.randnum) (Option.some.inj hend)
      refine ⟨b₁, b₂, rfl, hle, ?_⟩
      rw [ht, ← hdiv, ← hmod, Nat.div_add_mod]
  · rintro ⟨b₁, b₂, rfl, hle, hnum⟩
    have hmod : t % (lossyGenmax + 1) = v := by
      rw [ht, Nat.mul_add_mod, Nat.mod_eq_of_lt (Nat.lt_succ_of_le hv)]
    have hdiv : t / (lossyGenmax + 1) = r := by
      rw [ht, Nat.mul_add_div (Nat.succ_pos _), Nat.div_eq_of_lt (Nat.lt_succ_of_le hv), Nat.add_zero]
    have hlt : t < 2 * (lossyGenmax + 1) := (Nat.div_lt_iff_lt_mul (Nat.succ_pos _)).1 (hdiv ▸ hr)
    refine ⟨b₁, [b₂], rfl, hle, (run_accept (by decide) hsecond (by decide) [b₂]).2 ⟨b₂, [], rfl, ?_, ?_, ?_⟩⟩
    · rw [husable₂, hnum]
      exact hlt
    · rw [hnum, hmod]
    · rw [husable₂, hnum, hdiv]
      rfl

/-- The first numbers and the bytes that make the number `t`. -/
def Making (t : ℕ) : Set (ℕ × List Byte) :=
  {p | p.1 ≤ firstLeft - 1 ∧ ∃ b₁ b₂, p.2 = [b₁, b₂] ∧ lossyGenmax + 1 ≤ shiftLeft p.1 + b₁.toNat ∧
    shiftLeft ((shiftLeft p.1 + b₁.toNat) % (lossyGenmax + 1)) + b₂.toNat = t}

theorem making_finite (t : ℕ) : (Making t).Finite := by
  have : Finite Byte := Finite.of_injective UInt8.toFin fun _ _ h => UInt8.toFin_inj.1 h
  refine ((Set.finite_Iic (firstLeft - 1)).prod (List.finite_length_eq Byte 2)).subset ?_
  rintro ⟨n, source⟩ ⟨hn, b₁, b₂, hsource, -⟩
  exact ⟨hn, by rw [hsource]; rfl⟩

/-- Going down by `lowPart` from a number whose remainder has these low bits. -/
theorem sub_lowPart {N : ℕ} (hle : lossyGenmax + 1 ≤ N) (hlow : N % (lossyGenmax + 1) % 2 ^ 56 = lowPart) :
    lossyGenmax + 1 ≤ N - lowPart ∧ (N - lowPart) % (lossyGenmax + 1) % 2 ^ 56 = 0 := by
  have hsplit := Nat.div_add_mod N (lossyGenmax + 1)
  have hlow' := Nat.div_add_mod (N % (lossyGenmax + 1)) (2 ^ 56)
  have hq : 0 < N / (lossyGenmax + 1) := Nat.div_pos hle (Nat.succ_pos _)
  have hlt : N % (lossyGenmax + 1) < lossyGenmax + 1 := Nat.mod_lt _ (Nat.succ_pos _)
  rw [hlow] at hlow'
  have hsub : N - lowPart = (lossyGenmax + 1) * (N / (lossyGenmax + 1)) + 2 ^ 56 * (N % (lossyGenmax + 1) / 2 ^ 56) := by
    omega
  constructor
  · rw [hsub]
    exact Nat.le_trans (Nat.le_mul_of_pos_right _ hq) (Nat.le_add_right _ _)
  · have hrem : 2 ^ 56 * (N % (lossyGenmax + 1) / 2 ^ 56) < lossyGenmax + 1 := by omega
    rw [hsub, Nat.mul_add_mod, Nat.mod_eq_of_lt hrem, Nat.mul_mod_right]

/-- The number that a pair makes with its first byte, less `lowPart`. -/
def lowered (p : ℕ × List Byte) : ℕ := shiftLeft p.1 + (p.2.headD 0).toNat - lowPart

/-- The pair for that number, with the same top bits. -/
def lower (p : ℕ × List Byte) : ℕ × List Byte :=
  (lowered p / 256 + p.1 / 2 ^ 56 * 2 ^ 56, [UInt8.ofNat (lowered p % 256), 0])

theorem lower_number {p : ℕ × List Byte} (h : lowered p < 2 ^ 64) :
    shiftLeft (lower p).1 + ((lower p).2.headD 0).toNat = lowered p := by
  have hbyte : (UInt8.ofNat (lowered p % 256)).toNat = lowered p % 256 := UInt8.toNat_ofNat_of_lt' (Nat.mod_lt _ (by decide))
  have hquot : lowered p / 256 < 2 ^ 56 := by omega
  show shiftLeft (lowered p / 256 + p.1 / 2 ^ 56 * 2 ^ 56) + (UInt8.ofNat (lowered p % 256)).toNat = lowered p
  rw [hbyte, shiftLeft_eq, Nat.add_mul_mod_self_right, Nat.mod_eq_of_lt hquot, Nat.div_add_mod']

/-- What is known of a pair that makes `256 * lowPart`. -/
theorem making_low {p : ℕ × List Byte} (hp : p ∈ Making (256 * lowPart)) :
    p.1 ≤ firstLeft - 1 ∧ p.2 = [p.2.headD 0, 0] ∧ lossyGenmax + 1 ≤ shiftLeft p.1 + (p.2.headD 0).toNat ∧
      (shiftLeft p.1 + (p.2.headD 0).toNat) % (lossyGenmax + 1) % 2 ^ 56 = lowPart := by
  obtain ⟨n, source⟩ := p
  obtain ⟨hn, b₁, b₂, rfl, hle, hnum⟩ := hp
  simp only at hn hle hnum
  rw [shiftLeft_eq] at hnum
  have hb := b₂.toNat_lt
  have hzero : b₂.toNat = 0 := by omega
  have hlow : (shiftLeft n + b₁.toNat) % (lossyGenmax + 1) % 2 ^ 56 = lowPart := by omega
  obtain rfl : b₂ = 0 := UInt8.toNat_inj.1 hzero
  exact ⟨hn, rfl, hle, hlow⟩

/-- A pair that makes no `256 * lowPart` when it is raised. -/
def topPair : ℕ × List Byte := ((2 ^ 64 - lowPart) / 256, [UInt8.ofNat ((2 ^ 64 - lowPart) % 256), 0])

theorem topPair_mem : topPair ∈ Making 0 := by
  refine ⟨by decide, _, 0, rfl, by decide, by decide⟩

/-- A number made with one byte is below `2 ^ 64`. -/
theorem number_lt (n : ℕ) (b : Byte) : shiftLeft n + b.toNat < 2 ^ 64 := by
  have hb := b.toNat_lt
  have hn : n % 2 ^ 56 < 2 ^ 56 := Nat.mod_lt _ (by decide)
  rw [shiftLeft_eq]
  omega

theorem lower_mem {p : ℕ × List Byte} (hp : p ∈ Making (256 * lowPart)) : lower p ∈ Making 0 \ {topPair} := by
  obtain ⟨hn, -, hle, hlow⟩ := making_low hp
  have hlt := number_lt p.1 (p.2.headD 0)
  have hdown : lowered p < 2 ^ 64 := by
    unfold lowered
    omega
  have hnum := lower_number hdown
  obtain ⟨hle', hzero⟩ := sub_lowPart hle hlow
  have hfirst : (lower p).1 ≤ firstLeft - 1 := by
    have hquot : lowered p / 256 ≤ p.1 % 2 ^ 56 := by
      have hshift := shiftLeft_eq p.1
      have hb := (p.2.headD 0).toNat_lt
      unfold lowered
      omega
    show lowered p / 256 + p.1 / 2 ^ 56 * 2 ^ 56 ≤ firstLeft - 1
    omega
  refine ⟨⟨hfirst, _, 0, rfl, ?_, ?_⟩, ?_⟩
  · exact Nat.le_trans hle' (Nat.le_of_eq hnum.symm)
  · have hmod : (shiftLeft (lower p).1 + ((lower p).2.headD 0).toNat) % (lossyGenmax + 1) % 2 ^ 56 = 0 := by
      rw [hnum]
      exact hzero
    show shiftLeft ((shiftLeft (lower p).1 + ((lower p).2.headD 0).toNat) % (lossyGenmax + 1)) + 0 = 0
    rw [shiftLeft_eq, hmod]
  · -- the raised number of `topPair` does not fit the word
    intro htop
    have htop' : lower p = topPair := htop
    rw [htop'] at hnum
    have htopNum : shiftLeft topPair.1 + (topPair.2.headD 0).toNat = 2 ^ 64 - lowPart := by decide
    rw [htopNum] at hnum
    have hlowLt : lowPart < 2 ^ 64 := by decide
    unfold lowered at hnum
    omega

theorem lower_injOn : Set.InjOn lower (Making (256 * lowPart)) := by
  intro p hp q hq heq
  obtain ⟨-, hpb, hple, hplow⟩ := making_low hp
  obtain ⟨-, hqb, hqle, hqlow⟩ := making_low hq
  have hplt := number_lt p.1 (p.2.headD 0)
  have hqlt := number_lt q.1 (q.2.headD 0)
  have hpnum := lower_number (p := p) (by unfold lowered; omega)
  have hqnum := lower_number (p := q) (by unfold lowered; omega)
  have hdown : lowered p = lowered q := by rw [← hpnum, ← hqnum, heq]
  have hplow' : lowPart ≤ shiftLeft p.1 + (p.2.headD 0).toNat := by
    rw [← hplow]
    exact Nat.le_trans (Nat.mod_le _ _) (Nat.mod_le _ _)
  have hqlow' : lowPart ≤ shiftLeft q.1 + (q.2.headD 0).toNat := by
    rw [← hqlow]
    exact Nat.le_trans (Nat.mod_le _ _) (Nat.mod_le _ _)
  have hsum : shiftLeft p.1 + (p.2.headD 0).toNat = shiftLeft q.1 + (q.2.headD 0).toNat := by
    unfold lowered at hdown
    omega
  have htop : p.1 / 2 ^ 56 = q.1 / 2 ^ 56 := by
    have hfirst : lowered p / 256 + p.1 / 2 ^ 56 * 2 ^ 56 = lowered q / 256 + q.1 / 2 ^ 56 * 2 ^ 56 := congrArg Prod.fst heq
    rw [hdown] at hfirst
    omega
  have hpbyte := (p.2.headD 0).toNat_lt
  have hqbyte := (q.2.headD 0).toNat_lt
  rw [shiftLeft_eq, shiftLeft_eq] at hsum
  have hnum : p.1 = q.1 := by omega
  have hbyte : p.2.headD 0 = q.2.headD 0 := UInt8.toNat_inj.1 (by omega)
  refine Prod.ext hnum ?_
  rw [hpb, hqb, hbyte]

/-- `0` is made in more ways than `256 * lowPart`. -/
theorem making_lt : (Making (256 * lowPart)).ncard < (Making 0).ncard := by
  have hle := Set.ncard_le_ncard_of_injOn lower (fun p hp => lower_mem hp) lower_injOn (making_finite 0).sdiff
  exact Nat.lt_of_le_of_lt hle (Set.ncard_sdiff_singleton_lt_of_mem topPair_mem (making_finite 0))

/-- The ways behind the first number. -/
theorem waysFrom_lossy {v r t : ℕ} (hv : v ≤ lossyGenmax) (hr : r < 2) (ht : t = (lossyGenmax + 1) * r + v) :
    waysFrom [.reject, .accept] (firstLeft - 1) [lossyGenmax] [v] ⟨r, 1⟩ = (Making t).ncard :=
  congrArg Set.ncard (Set.ext fun p => and_congr_right fun _ => run_lossy hv hr ht p.1 p.2)

/-- With two numbers that are not usable and then one that is, `lossyGenmax` is not fair: the value 0 with nothing retained comes
from more strings of bytes than `secondLeft` with a 1 retained. -/
theorem not_fair_lossyGenmax : lossyGenmax < randintMax ∧ secondLeft ≤ lossyGenmax ∧
    (Producing [.reject, .reject, .accept] [lossyGenmax] [secondLeft] ⟨1, 1⟩).ncard
      < (Producing [.reject, .reject, .accept] [lossyGenmax] [0] ⟨0, 1⟩).ncard := by
  refine ⟨by decide, by decide, ?_⟩
  have hways : ∀ v r, (Producing [.reject, .reject, .accept] [lossyGenmax] [v] ⟨r, 1⟩).ncard
      = waysFrom [.reject, .reject, .accept] 0 [lossyGenmax] [v] ⟨r, 1⟩ := fun v r =>
    (Lib.draws_zero fun n source =>
      run [.reject, .reject, .accept] ⟨n, 0⟩ [lossyGenmax] source = some ([v], ⟨r, 1⟩)).symm
  have hcons : ∃ k, 0 < k ∧ ∀ values s', waysFrom [.reject, .reject, .accept] 0 [lossyGenmax] values s'
      = k * Lib.draws (refillMax lossyGenmax 0)
        (fun n rest => Follows lossyGenmax [] .reject [.reject, .accept] values s' (⟨n, refillMax lossyGenmax 0⟩, rest)) :=
    waysFrom_cons (by decide) .reject
  obtain ⟨k, hk, hcons⟩ := hcons
  have hmax : refillMax lossyGenmax 0 = 2 ^ 64 - 1 := by decide
  have hleft : (2 ^ 64 - 1 + 1) % (lossyGenmax + 1) = firstLeft := by decide
  have hfirst : ∀ values s', Lib.draws (2 ^ 64 - 1)
      (fun n rest => Follows lossyGenmax [] .reject [.reject, .accept] values s' (⟨n, 2 ^ 64 - 1⟩, rest))
        = waysFrom [.reject, .accept] (firstLeft - 1) [lossyGenmax] values s' := by
    intro values s'
    rw [draws_reject (by decide) (by decide), hleft]
    exact if_neg (by decide)
  rw [hways, hways, hcons, hcons, hmax, hfirst, hfirst,
    waysFrom_lossy (t := 256 * lowPart) (by decide) (by decide) (by decide),
    waysFrom_lossy (t := 0) (by decide) (by decide) (by decide)]
  exact Nat.mul_lt_mul_of_pos_left making_lt hk

end CodingExercises.Coreutils.Randint
