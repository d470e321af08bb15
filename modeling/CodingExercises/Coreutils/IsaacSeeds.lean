import Mathlib.Data.List.Induction
import CodingExercises.Coreutils.RandIsaac

/-!
# coreutils: seeding ISAAC by pieces

Calls of `isaac_seed_data` on the pieces of a string are to do what one call on the whole string does. But the last line of
`isaac_seed_data` sets the fill position to the size of the piece, also where the piece began further back in the array: so
they do if and only if every piece that does not begin at the beginning of the array fills it (`seedsAlike_iff`). No store is
outside of the array in any case.
-/

namespace CodingExercises.Coreutils.RandIsaac

variable {o : ByteOrder} {s s' : IsaacState} {mm mm' : Mem} {i : ℕ} {x y buf : List Byte}

/-! ## What is expected -/

/-- The fill position after `n` bytes: the array is mixed when there are more. -/
def fillAt (n : ℕ) : ℕ := if n = 0 then 0 else (n - 1) % isaacBytes + 1

/-- After each piece, the state is the one after a single call. -/
def SeedsAlike (o : ByteOrder) (s : IsaacState) (pieces : List (List Byte)) : Prop :=
  ∀ l r, pieces = l ++ r → seedPieces o s l = isaacSeedData o s l.flatten

/-- Every piece begins with an empty array, or there is no room for it in the array. -/
def Restarts (pieces : List (List Byte)) : Prop :=
  ∀ l p r, pieces = l ++ p :: r → l.flatten.length = 0 ∨ isaacBytes - fillAt l.flatten.length < p.length

theorem fillAt_of_le {n : ℕ} (h : n ≤ isaacBytes) : fillAt n = n := by
  unfold fillAt
  split
  · omega
  · rw [Nat.mod_eq_of_lt (by omega)]
    omega

theorem fillAt_add {n : ℕ} (h : 0 < n) : fillAt (isaacBytes + n) = fillAt n := by
  rw [fillAt, fillAt, if_neg (by omega), if_neg (by omega), show isaacBytes + n - 1 = isaacBytes + (n - 1) by omega,
    Nat.add_mod_left]

theorem fillAt_le (n : ℕ) : fillAt n ≤ isaacBytes := by
  unfold fillAt
  split
  · exact Nat.zero_le _
  · exact Nat.mod_lt _ (by decide)

/-! ## Bytes into the array -/

theorem xorBytes_append (mm : Mem) (i : ℕ) (x y : List Byte) :
    xorBytes mm i (x ++ y) = (xorBytes mm i x).bind fun mm => xorBytes mm (i + x.length) y := by
  induction x generalizing mm i with
  | nil => rfl
  | cons b x ih =>
    rw [List.cons_append, xorBytes, xorBytes]
    split
    · rw [ih, List.length_cons, Nat.add_assoc, Nat.add_comm 1]
    · rfl

theorem exists_xorBytes (mm : Mem) (i : ℕ) (buf : List Byte) (h : i + buf.length ≤ 1024) :
    ∃ mm', xorBytes mm i buf = some mm' := by
  induction buf generalizing mm i with
  | nil => exact ⟨mm, rfl⟩
  | cons b buf ih =>
    rw [List.length_cons] at h
    rw [xorBytes, dif_pos (by omega)]
    exact ih _ _ (by omega)

/-! ## One call -/

/-- The room that is left. -/
theorem isaacSeedData_eq (h : s.c.toNat ≤ isaacBytes) (buf : List Byte) :
    isaacSeedData o s buf = seedLoop o s (isaacBytes - s.c.toNat) buf := by
  rw [isaacSeedData]
  congr 1
  unfold isaacBytes at *
  omega

/-- A piece that there is room for. -/
theorem seedLoop_fits {avail : ℕ} (h : buf.length ≤ avail) :
    seedLoop o s avail buf = (xorBytes s.mm s.c.toNat buf).bind fun mm => some { s with mm, c := .ofNat buf.length } := by
  rw [seedLoop, if_neg (by omega)]
  rfl

/-- A piece that is longer. -/
theorem seedLoop_long (s : IsaacState) (buf : List Byte) {avail : ℕ} (h : avail < buf.length) :
    seedLoop o s avail buf = (xorBytes s.mm s.c.toNat (buf.take avail)).bind fun mm =>
      seedLoop o { isaacMix o { s with mm } with c := 0 } isaacBytes (buf.drop avail) := by
  rw [seedLoop, if_pos h]
  rfl

theorem toNat_ofNat_length (h : buf.length ≤ isaacBytes) : (UInt32.ofNat buf.length).toNat = buf.length := by
  rw [UInt32.toNat_ofNat', Nat.mod_eq_of_lt]
  exact Nat.lt_of_le_of_lt h (by decide)

/-- Every store is inside the array. -/
theorem exists_seedLoop (buf : List Byte) {avail : ℕ} (h : s.c.toNat + avail ≤ isaacBytes) :
    ∃ s', seedLoop o s avail buf = some s' ∧ s'.c.toNat ≤ isaacBytes := by
  induction hn : 2 * buf.length + (if avail = 0 then 1 else 0) using Nat.strongRecOn generalizing s avail buf with
  | ind n ih =>
    rcases Nat.lt_or_ge avail buf.length with hlt | hge
    · obtain ⟨mm, hmm⟩ := exists_xorBytes s.mm s.c.toNat (buf.take avail) (by
        rw [List.length_take]; unfold isaacBytes at h; omega)
      have hroom : (0 : UInt32).toNat + isaacBytes ≤ isaacBytes := Nat.le_of_eq (Nat.zero_add _)
      rw [seedLoop_long s buf hlt, hmm]
      refine ih _ ?_ (buf.drop avail) hroom rfl
      rw [List.length_drop, if_neg (by decide)]
      split at hn <;> omega
    · obtain ⟨mm, hmm⟩ := exists_xorBytes s.mm s.c.toNat buf (by unfold isaacBytes at h; omega)
      rw [seedLoop_fits hge, hmm]
      refine ⟨_, rfl, ?_⟩
      change (UInt32.ofNat buf.length).toNat ≤ isaacBytes
      rw [toNat_ofNat_length (by omega)]
      omega

/-- From the beginning of the array: where the position is after a piece `x`, and that a piece `y` behind it is added as if it
came with it, if it restarts the array. -/
theorem seedLoop_append (hc : s.c = 0) (x y : List Byte) :
    ∃ s', seedLoop o s isaacBytes x = some s' ∧ s'.c.toNat = fillAt x.length ∧
      (x.length = 0 ∨ isaacBytes - fillAt x.length < y.length →
        isaacSeedData o s' y = seedLoop o s isaacBytes (x ++ y)) := by
  have hzero : s.c.toNat = 0 := by rw [hc]; rfl
  induction hn : x.length using Nat.strongRecOn generalizing s x with
  | ind n ih =>
    subst hn
    rcases Nat.lt_or_ge isaacBytes x.length with hlt | hge
    · -- the array is filled and mixed, with and without `y`
      obtain ⟨mm, hmm⟩ := exists_xorBytes s.mm s.c.toNat (x.take isaacBytes) (by
        rw [List.length_take, hzero]; unfold isaacBytes; omega)
      have hdrop : (x.drop isaacBytes).length = x.length - isaacBytes := List.length_drop
      have hfill : fillAt (x.length - isaacBytes) = fillAt x.length := by
        have hadd := fillAt_add (n := x.length - isaacBytes) (by omega)
        rwa [show isaacBytes + (x.length - isaacBytes) = x.length by omega, eq_comm] at hadd
      obtain ⟨s', hs', hpos, happend⟩ := ih (x.length - isaacBytes) (by unfold isaacBytes at *; omega)
        (s := { isaacMix o { s with mm } with c := 0 }) rfl (x.drop isaacBytes) rfl hdrop
      rw [hfill] at hpos happend
      refine ⟨s', ?_, hpos, fun h => ?_⟩
      · rw [seedLoop_long s x hlt, hmm]
        exact hs'
      · rw [happend (.inr (h.resolve_left (by omega))), seedLoop_long s (x ++ y) (by rw [List.length_append]; omega),
          List.take_append_of_le_length (by omega), List.drop_append_of_le_length (by omega), hmm]
        rfl
    · obtain ⟨mm, hmm⟩ := exists_xorBytes s.mm s.c.toNat x (by unfold isaacBytes at hge; omega)
      have hpos := toNat_ofNat_length hge
      refine ⟨{ s with mm, c := .ofNat x.length }, ?_, ?_, fun h => ?_⟩
      · rw [seedLoop_fits hge, hmm]
        rfl
      · rw [fillAt_of_le hge]
        exact hpos
      · rw [isaacSeedData_eq (by rw [hpos]; exact hge), hpos]
        rcases h with hnil | hlong
        · obtain rfl := List.length_eq_zero_iff.mp hnil
          obtain rfl : s.mm = mm := by simpa [xorBytes] using hmm
          rw [List.nil_append, List.length_nil, Nat.sub_zero]
          have hsame : UInt32.ofNat 0 = s.c := hc.symm
          rw [hsame]
        · rw [fillAt_of_le hge] at hlong
          rw [seedLoop_long _ y hlong, seedLoop_long s (x ++ y) (by rw [List.length_append]; omega), List.take_append,
            List.take_of_length_le hge, xorBytes_append, hmm, hpos, hzero, Nat.zero_add, List.drop_append,
            List.drop_of_length_le hge]
          rfl

/-! ## All pieces -/

theorem fillAt_add_of_le {n m : ℕ} (hn : n ≠ 0) (hm : m ≤ isaacBytes - fillAt n) : fillAt (n + m) = fillAt n + m := by
  have hlt : (n - 1) % isaacBytes < isaacBytes := Nat.mod_lt _ (by decide)
  simp only [fillAt, if_neg hn] at hm
  have hmod : (n - 1 + m) % isaacBytes = (n - 1) % isaacBytes + m := by
    rw [Nat.add_mod, Nat.mod_eq_of_lt (b := isaacBytes) (a := m) (by omega), Nat.mod_eq_of_lt (by omega)]
  rw [fillAt, fillAt, if_neg hn, if_neg (by omega), show n + m - 1 = n - 1 + m by omega, hmod]
  omega

/-- A piece that there is room for in an array that is not empty: the fill position is wrong. -/
theorem seedLoop_append_ne (hc : s.c = 0) {x y : List Byte} (hx : x.length ≠ 0)
    (hy : y.length ≤ isaacBytes - fillAt x.length) (h : seedLoop o s isaacBytes x = some s') :
    isaacSeedData o s' y ≠ seedLoop o s isaacBytes (x ++ y) := by
  intro heq
  obtain ⟨s₁, hs₁, hpos, -⟩ := seedLoop_append (o := o) hc x y
  obtain ⟨s₂, hs₂, hpos₂, -⟩ := seedLoop_append (o := o) hc (x ++ y) []
  obtain rfl : s' = s₁ := Option.some.inj (h.symm.trans hs₁)
  have hle := fillAt_le x.length
  have hpositive : 0 < fillAt x.length := by rw [fillAt, if_neg hx]; exact Nat.succ_pos _
  rw [hs₂, isaacSeedData_eq (by omega), hpos, seedLoop_fits hy] at heq
  obtain ⟨mm, -, hmm⟩ := Option.bind_eq_some_iff.mp heq
  have hlast := congrArg (fun s : IsaacState => s.c.toNat) (Option.some.inj hmm)
  simp only [hpos₂, List.length_append, fillAt_add_of_le hx hy] at hlast
  rw [toNat_ofNat_length (by omega)] at hlast
  omega

theorem seedPieces_concat (o : ByteOrder) (s : IsaacState) (l : List (List Byte)) (p : List Byte) :
    seedPieces o s (l ++ [p]) = (seedPieces o s l).bind fun s => isaacSeedData o s p := by
  rw [seedPieces, List.foldlM_append]
  congr 1
  funext s
  exact List.foldlM_cons.trans (by simp)

/-- No store is outside of the array, however the string is cut. -/
theorem seedPieces_isSome (h : s.c.toNat ≤ isaacBytes) (pieces : List (List Byte)) :
    (seedPieces o s pieces).isSome = true := by
  suffices hsome : ∃ s', seedPieces o s pieces = some s' ∧ s'.c.toNat ≤ isaacBytes by
    obtain ⟨s', hs', -⟩ := hsome
    rw [hs']
    rfl
  induction pieces using List.reverseRecOn with
  | nil => exact ⟨s, rfl, h⟩
  | append_singleton l p ih =>
    obtain ⟨s', hs', hle⟩ := ih
    rw [seedPieces_concat, hs', Option.bind_some, isaacSeedData_eq hle]
    exact exists_seedLoop p (by omega)

/-- One call on a whole string. -/
theorem isaacSeedData_fresh (hc : s.c = 0) (buf : List Byte) : isaacSeedData o s buf = seedLoop o s isaacBytes buf := by
  have hzero : s.c.toNat = 0 := by rw [hc]; rfl
  rw [isaacSeedData_eq (by omega), hzero, Nat.sub_zero]

theorem isaacSeedData_nil (hc : s.c = 0) : isaacSeedData o s [] = some s := by
  rw [isaacSeedData_fresh hc, seedLoop_fits (Nat.zero_le _), xorBytes, Option.bind_some, List.length_nil]
  have hsame : UInt32.ofNat 0 = s.c := hc.symm
  rw [hsame]

/-- From the beginning of the array: no store is outside of it, and the pieces of a string are added as the string would be if
and only if every piece that does not begin at the beginning of the array fills it. -/
theorem seedsAlike_iff (o : ByteOrder) (s : IsaacState) (pieces : List (List Byte)) :
    (seedPieces o { s with c := 0 } pieces).isSome = true ∧ (SeedsAlike o { s with c := 0 } pieces ↔ Restarts pieces) := by
  refine ⟨seedPieces_isSome (Nat.zero_le _) pieces, fun h l p r hpieces => ?_, fun h l => ?_⟩
  · obtain ⟨s', hs', -, -⟩ := seedLoop_append (o := o) (s := { s with c := 0 }) rfl l.flatten p
    have hl := h l (p :: r) hpieces
    have hp := h (l ++ [p]) r (by rw [hpieces, List.append_assoc]; rfl)
    rw [isaacSeedData_fresh rfl, hs'] at hl
    rw [seedPieces_concat, hl, Option.bind_some, isaacSeedData_fresh rfl (l ++ [p]).flatten, List.flatten_concat] at hp
    by_contra hno
    obtain ⟨hsome, hroom⟩ := not_or.mp hno
    exact seedLoop_append_ne rfl hsome (Nat.le_of_not_lt hroom) hs' hp
  · induction l using List.reverseRecOn with
    | nil => exact fun _ _ => (isaacSeedData_nil rfl).symm
    | append_singleton l p ih =>
      intro r hpieces
      rw [List.append_assoc] at hpieces
      obtain ⟨s', hs', -, happend⟩ := seedLoop_append (o := o) (s := { s with c := 0 }) rfl l.flatten p
      rw [seedPieces_concat, ih ([p] ++ r) hpieces, isaacSeedData_fresh rfl l.flatten, hs', Option.bind_some,
        happend (h l p r hpieces), isaacSeedData_fresh rfl (l ++ [p]).flatten, List.flatten_concat]

/-- Two pieces of one byte each. -/
theorem not_seedsAlike_two : ¬ SeedsAlike littleEndian isaacSeedStart [[1], [2]] := by
  intro h
  have hone := h [[1]] [[2]] rfl
  have htwo := h [[1], [2]] [] rfl
  obtain ⟨s', hs', -, -⟩ := seedLoop_append (o := littleEndian) (s := isaacSeedStart) rfl [1] [2]
  rw [isaacSeedData_fresh rfl] at hone htwo
  rw [List.flatten_singleton, hs'] at hone
  rw [show ([[1], [2]] : List (List Byte)) = [[1]] ++ [[2]] from rfl, seedPieces_concat, hone, Option.bind_some] at htwo
  exact seedLoop_append_ne rfl (by simp) (by decide) hs' htwo

end CodingExercises.Coreutils.RandIsaac
