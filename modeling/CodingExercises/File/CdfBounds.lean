import CodingExercises.File.Cdf
import CodingExercises.Lib.Links

/-!
# file: the bounds of compound documents

Whatever a file contains, the sector allocation table is read within bounds (`cdfReadSat_yields`). `cdf_count_chain` compares a
sector with the number of bytes of the table, and not with that of its entries, and `cdf_read_short_sector` does not look at
the end of the short sector: so the chains are within bounds if and only if they do not come to a sector between the two
(`bounds_iff`, `readsSafely_iff`).
-/

namespace CodingExercises.File.Cdf

open Lib

/-! ## What does not go wrong -/

/-- Every access is inside of its block and every loop ends, and a value that is returned is in `P`. -/
def Yields {α : Type} (P : α → Prop) : Except Bad α → Prop
  | .ok a => P a
  | .error e => e = .failed

/-- Every access is inside of its block, and every loop ends. -/
def Safe {α : Type} (r : Except Bad α) : Prop := r ≠ .error .fault ∧ r ≠ .error .endless

section Yields

variable {α β : Type} {P : α → Prop} {Q : β → Prop} {r : Except Bad α} {f : α → Except Bad β}

theorem Yields.bind (h : Yields P r) (hf : ∀ a, P a → Yields Q (f a)) : Yields Q (r >>= f) := by
  cases r with
  | ok a => exact hf a h
  | error e => exact h

theorem Yields.safe (h : Yields P r) : Safe r := by
  cases r with
  | ok a => exact ⟨nofun, nofun⟩
  | error e =>
    cases h
    exact ⟨nofun, nofun⟩

theorem Yields.of_ok {a : α} (h : Yields P r) (hr : r = .ok a) : P a := by
  subst hr
  exact h

theorem not_safe_fault : ¬ Safe (.error .fault : Except Bad α) := fun h => h.1 rfl

theorem bind_eq_ok {b : β} (h : (r >>= f) = .ok b) : ∃ a, r = .ok a ∧ f a = .ok b := by
  cases r with
  | ok a => exact ⟨a, rfl, h⟩
  | error e => cases h

/-- What follows is reached by a value. -/
theorem safe_bind_iff : Safe (r >>= f) ↔ Safe r ∧ ∀ a, r = .ok a → Safe (f a) := by
  cases r with
  | ok a => exact ⟨fun h => ⟨⟨nofun, nofun⟩, fun b hb => by cases hb; exact h⟩, fun h => h.2 a rfl⟩
  | error e =>
    constructor
    · rintro ⟨hfault, hendless⟩
      exact ⟨⟨fun h => hfault (by cases h; rfl), fun h => hendless (by cases h; rfl)⟩, nofun⟩
    · rintro ⟨⟨hfault, hendless⟩, -⟩
      exact ⟨fun h => hfault (by cases h; rfl), fun h => hendless (by cases h; rfl)⟩

end Yields

/-! ## Sectors -/

theorem length_slice {b : List UInt8} {off len : ℕ} (h : off + len ≤ b.length) : (slice b off len).length = len := by
  unfold slice
  rw [List.length_take, List.length_drop]
  omega

theorem store_eq (b : List UInt8) (off : ℕ) (s : List UInt8) (h : off + s.length ≤ b.length) :
    store b off s = .ok (b.take off ++ s ++ b.drop (off + s.length)) := if_pos h

theorem length_store {b b' s : List UInt8} {off : ℕ} (h : store b off s = .ok b') : b'.length = b.length := by
  unfold store at h
  split at h
  · cases h
    simp
    omega
  · cases h

theorem length_pread {fd : Option (List UInt8)} {off len : ℕ} {s : List UInt8} (h : pread fd off len = some s) :
    s.length = len := by
  unfold pread at h
  split at h
  · split at h
    · cases h
      exact length_slice ‹_›
    · cases h
  · cases h

theorem length_cdfRead {info : Info} {off len : ℕ} {s : List UInt8} (h : cdfRead info off len = some s) :
    s.length = len := by
  unfold cdfRead at h
  split at h
  · split at h
    · cases h
      exact length_slice ‹_›
    · exact length_pread h
  · exact length_pread h

section Sectors

variable {info : Info} {h : Header} {tab : List UInt8} {offs : ℕ} {id : ℤ}

/-- A sector is stored where there is room for it. -/
theorem cdfReadSector_yields (info : Info) (h : Header) (id : ℤ) (hroom : offs + h.secSize ≤ tab.length) :
    Yields (fun tab' => tab'.length = tab.length) (cdfReadSector info tab offs h id) := by
  unfold cdfReadSector
  rw [if_pos hroom]
  split
  · rename_i s hs
    have hstore := store_eq tab offs s (by rw [length_cdfRead hs]; exact hroom)
    rw [hstore]
    exact length_store hstore
  · exact rfl

/-- There is an entry for the sector. -/
theorem entry_yields (hid : 0 ≤ id) (hroom : 4 * id.toNat + 4 ≤ tab.length) : Yields (fun _ => True) (entry tab id) := by
  rw [entry, if_pos ⟨hid, hroom⟩]
  exact trivial

theorem length_calloc (n size : ℕ) : (calloc n size).length = n * size := List.length_replicate

/-- There is room for the `i`th of `n` sectors. -/
theorem room {n i size : ℕ} (hi : i < n) (hlen : tab.length = n * size) : i * size + size ≤ tab.length := by
  rw [hlen, ← Nat.succ_mul]
  exact Nat.mul_le_mul_right _ hi

end Sectors

/-! ## The sector allocation table -/

section Sat

variable {info : Info} {h : Header}

/-- Of the sectors in the header those before the first free one are counted, and those before the first negative one read. -/
theorem headerLoop_yields {n i : ℕ} {sids : List ℤ} {tab : List UInt8} (hlen : tab.length = n * h.secSize)
    (hcount : i + (sids.takeWhile (· ≠ cdfSecidFree)).length ≤ n) :
    Yields (fun r => r.2.length = n * h.secSize ∧ r.1 ≤ n) (headerLoop info h sids i tab) := by
  induction sids generalizing i tab with
  | nil => exact ⟨hlen, by simpa using hcount⟩
  | cons sid sids ih =>
    rw [headerLoop]
    split
    · exact ⟨hlen, by dsimp only; omega⟩
    · rename_i hsid
      have hfree : sid ≠ cdfSecidFree := by
        rintro rfl
        exact hsid (by decide)
      rw [List.takeWhile_cons_of_pos (by simpa using hfree), List.length_cons] at hcount
      have hroom : h.secSize * i + h.secSize ≤ tab.length := by
        rw [Nat.mul_comm]
        exact room (by omega) hlen
      refine (cdfReadSector_yields info h sid hroom).bind fun tab₁ hlen₁ => ?_
      exact ih (hlen₁.trans hlen) (by omega)

theorem msaLoop_yields {n k i satLen : ℕ} {msa tab : List UInt8} (hlen : tab.length = satLen * h.secSize)
    (hmsa : 4 * (k + n) ≤ msa.length) (hi : i ≤ satLen) :
    Yields (fun r => r.2.2.length = satLen * h.secSize ∧ r.2.1 ≤ satLen) (msaLoop info h satLen msa n k i tab) := by
  induction n generalizing k i tab with
  | zero => exact ⟨hlen, hi⟩
  | succ n ih =>
    rw [msaLoop]
    refine (entry_yields (Int.natCast_nonneg k) (by rw [Int.toNat_natCast]; omega)).bind fun sec _ => ?_
    split
    · exact ⟨hlen, hi⟩
    · split
      · exact rfl
      · have hroom : h.secSize * i + h.secSize ≤ tab.length := by
          rw [Nat.mul_comm]
          exact room (by omega) hlen
        refine (cdfReadSector_yields info h sec hroom).bind fun tab₁ hlen₁ => ?_
        exact ih (hlen₁.trans hlen) (by omega) (by omega)

/-- A master table has sectors of four bytes and more. -/
theorem nsatpersec_spec (hsize : 4 ≤ h.secSize) : 4 * (h.nsatpersec + 1) ≤ h.secSize := by
  unfold Header.nsatpersec sizeT
  omega

theorem secSize_le (h : Header) : h.secSize ≤ 2 ^ 20 := Nat.pow_le_pow_right (by decide) h.secSizeP2_le

theorem masterLoop_yields {fuel j i satLen : ℕ} {mid : ℤ} {msa tab : List UInt8}
    (hsize : j < h.numSectorsInMasterSat → 4 ≤ h.secSize) (hfuel : cdfLoopLimit + 1 ≤ fuel + j)
    (hfuel' : 0 < fuel) (hlen : tab.length = satLen * h.secSize) (hmsa : msa.length = h.secSize) (hi : i ≤ satLen) :
    Yields (fun r => r.2.length = satLen * h.secSize ∧ r.1 ≤ satLen) (masterLoop info h satLen fuel j mid i msa tab) := by
  induction fuel generalizing j i mid msa tab with
  | zero => cases hfuel'
  | succ fuel ih =>
    rw [masterLoop]
    split
    · exact ⟨hlen, hi⟩
    · rename_i hj
      have hsize' := hsize (not_not.mp hj)
      have hmsa' := nsatpersec_spec hsize'
      split
      · exact ⟨hlen, hi⟩
      · split
        · exact rfl
        · refine (cdfReadSector_yields info h mid (by omega)).bind fun msa₁ hlen₁ => ?_
          rw [hmsa] at hlen₁
          refine (msaLoop_yields hlen (by omega) hi).bind ?_
          rintro ⟨out, i₁, tab₁⟩ ⟨hlen₂, hi₁⟩
          dsimp only
          split
          · exact ⟨hlen₂, hi₁⟩
          · refine (entry_yields (Int.natCast_nonneg _) (by rw [Int.toNat_natCast]; omega)).bind fun mid₁ _ => ?_
            exact ih (fun _ => hsize') (by omega) (by omega) hlen₂ hlen₁ hi₁

/-- With smaller sectors, a header with a master table is refused. -/
theorem four_le_secSize (hlimit : ¬ (h.nsatpersec > 0 ∧ h.numSectorsInMasterSat > h.secLimit / h.nsatpersec))
    (hmaster : 0 < h.numSectorsInMasterSat) : 4 ≤ h.secSize := by
  by_contra hsize
  have hnsat : h.nsatpersec = 2 ^ 64 - 1 := by
    unfold Header.nsatpersec sizeT
    omega
  have hsmall : h.secLimit < h.nsatpersec := by
    rw [hnsat]
    exact Nat.lt_of_le_of_lt (Nat.div_le_self _ _) (by decide)
  rw [Nat.div_eq_of_lt hsmall] at hlimit
  exact hlimit ⟨by omega, hmaster⟩

/-- The sector allocation table is read within bounds, and is not longer than its block. -/
theorem cdfReadSat_yields (info : Info) (h : Header) :
    Yields (fun sat => sat.len * h.secSize ≤ sat.tab.length) (cdfReadSat info h) := by
  unfold cdfReadSat
  dsimp only
  split
  · exact rfl
  · rename_i hlimit
    rw [not_or] at hlimit
    generalize hi : (h.masterSat.takeWhile (· ≠ cdfSecidFree)).length = i
    have hcount : 0 + (h.masterSat.takeWhile (· ≠ cdfSecidFree)).length ≤ h.numSectorsInMasterSat * h.nsatpersec + i := by
      omega
    refine (headerLoop_yields (length_calloc _ _) hcount).bind ?_
    rintro ⟨i₁, tab₁⟩ ⟨hlen₁, hi₁⟩
    refine (masterLoop_yields (four_le_secSize hlimit.1) (by omega) (Nat.succ_pos _) hlen₁ (by simp [length_calloc])
      hi₁).bind ?_
    rintro ⟨i₂, tab₂⟩ ⟨hlen₂, hi₂⟩
    show i₂ * h.secSize ≤ tab₂.length
    rw [hlen₂]
    exact Nat.mul_le_mul_right _ hi₂

end Sat

/-! ## Counting a chain -/

/-- The sector behind one that `cdf_count_chain` lets pass. -/
def Sat.next (sat : Sat) (size : ℕ) (sid : ℤ) : Option ℤ :=
  if 0 ≤ sid ∧ sid ≤ maxsector sat size then (entry sat.tab sid).toOption else none

/-- Within `CDF_LOOP_LIMIT` steps, a chain comes to no sector without an entry that `cdf_count_chain` lets pass. -/
def Listed (sat : Sat) (size : ℕ) (sid : ℤ) : Prop :=
  ∀ ids id, Linked (sat.next size) sid ids id → ids.length < cdfLoopLimit → 0 ≤ id → id ≤ maxsector sat size →
    4 * id.toNat + 4 ≤ sat.tab.length

/-- The sectors of a chain that ends. -/
def Ends (sat : Sat) (size : ℕ) (sid : ℤ) (ids : List ℤ) : Prop :=
  ids.length ≤ cdfLoopLimit ∧ ∃ e, Linked (sat.next size) sid ids e ∧ e < 0

section Count

variable {sat : Sat} {size fuel i n : ℕ} {sid : ℤ}

theorem next_of_not (h : ¬ (0 ≤ sid ∧ sid ≤ maxsector sat size)) : sat.next size sid = none := if_neg h

theorem next_of_entry {sid' : ℤ} (h : 0 ≤ sid ∧ sid ≤ maxsector sat size) (hentry : entry sat.tab sid = .ok sid') :
    sat.next size sid = some sid' := by
  rw [Sat.next, if_pos h, hentry]
  rfl

theorem entry_cases (tab : List UInt8) (hsid : 0 ≤ sid) :
    (4 * sid.toNat + 4 ≤ tab.length ∧ ∃ sid', entry tab sid = .ok sid') ∨
      ¬ 4 * sid.toNat + 4 ≤ tab.length ∧ entry tab sid = .error .fault := by
  by_cases hroom : 4 * sid.toNat + 4 ≤ tab.length
  · exact .inl ⟨hroom, _, if_pos ⟨hsid, hroom⟩⟩
  · exact .inr ⟨hroom, if_neg fun h => hroom h.2⟩

theorem next_eq_some {sid' : ℤ} (h : sat.next size sid = some sid') :
    0 ≤ sid ∧ sid ≤ maxsector sat size ∧ entry sat.tab sid = .ok sid' := by
  unfold Sat.next at h
  split at h
  · rename_i hpass
    obtain ⟨-, sid₁, hentry⟩ | ⟨-, hentry⟩ := entry_cases sat.tab hpass.1
    · rw [hentry] at h
      cases h
      exact ⟨hpass.1, hpass.2, hentry⟩
    · rw [hentry] at h
      cases h
  · cases h

/-- A chain of one link is a chain without one. -/
theorem linked_of_none {ids : List ℤ} {id : ℤ} (h : sat.next size sid = none)
    (hlinked : Linked (sat.next size) sid ids id) : ids = [] ∧ id = sid := by
  cases hlinked with
  | nil => exact ⟨rfl, rfl⟩
  | cons hnext _ =>
    rw [h] at hnext
    cases hnext

theorem countLoop_safe_iff (hfuel : cdfLoopLimit + 1 ≤ fuel + i) (hfuel' : 0 < fuel) :
    Safe (countLoop sat size fuel i sid) ↔ ∀ ids id, Linked (sat.next size) sid ids id →
      i + ids.length < cdfLoopLimit → 0 ≤ id → id ≤ maxsector sat size → 4 * id.toNat + 4 ≤ sat.tab.length := by
  induction fuel generalizing i sid with
  | zero => cases hfuel'
  | succ fuel ih =>
    have hsafe : ∀ {α : Type} {a : α}, Safe (.ok a : Except Bad α) := ⟨nofun, nofun⟩
    have hfailed : Safe (.error .failed : Except Bad ℕ) := ⟨nofun, nofun⟩
    rw [countLoop]
    split
    · rename_i hneg
      refine ⟨fun _ ids id hlinked _ hid => ?_, fun _ => hsafe⟩
      obtain ⟨-, rfl⟩ := linked_of_none (next_of_not fun h => absurd h.1 (by omega)) hlinked
      omega
    · rename_i hneg
      split
      · exact ⟨fun _ ids id _ hlt => by omega, fun _ => hfailed⟩
      · rename_i hlimit
        split
        · rename_i hmax
          refine ⟨fun _ ids id hlinked _ _ hid => ?_, fun _ => hfailed⟩
          obtain ⟨-, rfl⟩ := linked_of_none (next_of_not fun h => absurd h.2 (by omega)) hlinked
          omega
        · rename_i hmax
          have hpass : 0 ≤ sid ∧ sid ≤ maxsector sat size := ⟨by omega, by omega⟩
          obtain ⟨hroom, sid', hentry⟩ | ⟨hroom, hentry⟩ := entry_cases sat.tab hpass.1
          · rw [hentry]
            refine (ih (i := i + 1) (by omega) (by omega)).trans ⟨fun hlisted ids id hlinked hlt hid hle => ?_, fun hlisted ids id hlinked hlt => ?_⟩
            · cases hlinked with
              | nil => exact hroom
              | cons hnext hlinked =>
                rw [next_of_entry hpass hentry] at hnext
                cases hnext
                exact hlisted _ _ hlinked (by rw [List.length_cons] at hlt; omega) hid hle
            · exact hlisted _ _ (.cons (next_of_entry hpass hentry) hlinked) (by rw [List.length_cons]; omega)
          · rw [hentry]
            refine ⟨fun h => absurd h not_safe_fault, fun hlisted => absurd ?_ hroom⟩
            exact hlisted [] sid .nil (by simp; omega) hpass.1 hpass.2

theorem cdfCountChain_safe_iff : Safe (cdfCountChain sat sid size) ↔ Listed sat size sid := by
  have hcount := @countLoop_safe_iff sat size (cdfLoopLimit + 1) 0 sid (by omega) (by omega)
  simp only [Nat.zero_add] at hcount
  exact hcount

/-- A chain is counted up to its end. -/
theorem countLoop_ok (hrun : countLoop sat size fuel i sid = .ok n) :
    ∃ ids e, Linked (sat.next size) sid ids e ∧ e < 0 ∧ n = i + ids.length ∧ (i ≤ cdfLoopLimit → n ≤ cdfLoopLimit) := by
  induction fuel generalizing i sid with
  | zero => cases hrun
  | succ fuel ih =>
    rw [countLoop] at hrun
    split at hrun
    · cases hrun
      exact ⟨[], sid, .nil, ‹_›, rfl, id⟩
    · split at hrun
      · cases hrun
      · split at hrun
        · cases hrun
        · obtain ⟨sid', hentry, hrun⟩ := bind_eq_ok hrun
          obtain ⟨ids, e, hlinked, he, rfl, hle⟩ := ih hrun
          refine ⟨sid :: ids, e, .cons (next_of_entry ⟨by omega, by omega⟩ hentry) hlinked, he, ?_, fun _ => hle (by omega)⟩
          rw [List.length_cons]
          omega

theorem cdfCountChain_ok (hrun : cdfCountChain sat sid size = .ok n) : ∃ ids, Ends sat size sid ids ∧ n = ids.length := by
  obtain ⟨ids, e, hlinked, he, rfl, hle⟩ := countLoop_ok hrun
  rw [Nat.zero_add] at hle ⊢
  exact ⟨ids, ⟨hle (Nat.zero_le _), e, hlinked, he⟩, rfl⟩

theorem countLoop_of_linked {ids : List ℤ} {e : ℤ} (hlinked : Linked (sat.next size) sid ids e) (he : e < 0)
    (hle : i + ids.length ≤ cdfLoopLimit) (hfuel : ids.length < fuel) :
    countLoop sat size fuel i sid = .ok (i + ids.length) := by
  induction hlinked generalizing i fuel with
  | nil =>
    obtain ⟨fuel, rfl⟩ := Nat.exists_eq_add_one_of_ne_zero (Nat.ne_zero_of_lt hfuel)
    rw [countLoop, if_pos he]
    rfl
  | cons hnext _ ih =>
    obtain ⟨fuel, rfl⟩ := Nat.exists_eq_add_one_of_ne_zero (Nat.ne_zero_of_lt hfuel)
    obtain ⟨hid, hmax, hentry⟩ := next_eq_some hnext
    rw [List.length_cons] at hle hfuel ⊢
    rw [countLoop, if_neg (by omega), if_neg (by omega), if_neg (by omega), hentry]
    refine (ih he (i := i + 1) (by omega) (by omega)).trans ?_
    congr 1
    omega

theorem cdfCountChain_of_ends {ids : List ℤ} (h : Ends sat size sid ids) :
    cdfCountChain sat sid size = .ok ids.length := by
  obtain ⟨hle, e, hlinked, he⟩ := h
  have hcount := countLoop_of_linked (i := 0) hlinked he (by omega) (Nat.lt_succ_of_le hle)
  rwa [Nat.zero_add] at hcount

end Count

/-! ## Reading a chain -/

section Read

variable {info : Info} {h : Header} {sat ssat : Sat} {sst : Stream} {sid : ℤ} {len : ℕ}

/-- The sectors that were counted are read, with a function that only needs room. -/
theorem readLoop_yields {read : List UInt8 → ℕ → ℤ → Except Bad (List UInt8)} {size n N fuel i : ℕ} {ids : List ℤ} {e : ℤ}
    {tab : List UInt8}
    (hread : ∀ tab i id, i < n → tab.length = N → Yields (fun tab' => tab'.length = tab.length) (read tab i id))
    (hlinked : Linked (sat.next size) sid ids e) (he : e < 0) (hn : i + ids.length = n) (hle : n ≤ cdfLoopLimit)
    (hfuel : ids.length < fuel) (hlen : tab.length = N) :
    Yields (fun tab' => tab'.length = N) (readLoop sat read n fuel i sid tab) := by
  induction hlinked generalizing i fuel tab with
  | nil =>
    obtain ⟨fuel, rfl⟩ := Nat.exists_eq_add_one_of_ne_zero (Nat.ne_zero_of_lt hfuel)
    rw [readLoop, if_pos he]
    exact hlen
  | cons hnext _ ih =>
    obtain ⟨fuel, rfl⟩ := Nat.exists_eq_add_one_of_ne_zero (Nat.ne_zero_of_lt hfuel)
    obtain ⟨hid, -, hentry⟩ := next_eq_some hnext
    rw [List.length_cons] at hn hfuel
    rw [readLoop, if_neg (by omega), if_neg (by omega), if_neg (by omega)]
    refine (hread tab i _ (by omega) hlen).bind fun tab₁ hlen₁ => ?_
    rw [hentry]
    exact ih he (by omega) (by omega) (hlen₁.trans hlen)

theorem safe_bind_of_safe {α β : Type} {r : Except Bad α} {f : α → Except Bad β} (hf : ∀ a, r = .ok a → Safe (f a)) :
    Safe (r >>= f) ↔ Safe r := by
  rw [safe_bind_iff]
  exact ⟨And.left, fun hr => ⟨hr, hf⟩⟩

/-- The sectors of a chain that was counted. -/
theorem longLoop_yields {n : ℕ} (info : Info) (h : Header) (hcount : cdfCountChain sat sid h.secSize = .ok n) :
    Yields (fun tab => tab.length = n * h.secSize)
      (readLoop sat (fun tab i sid => cdfReadSector info tab (i * h.secSize) h sid) n (cdfLoopLimit + 1) 0 sid
        (calloc n h.secSize)) := by
  obtain ⟨ids, ⟨hle, e, hlinked, he⟩, rfl⟩ := cdfCountChain_ok hcount
  refine readLoop_yields (fun tab i id hi hlen => ?_) hlinked he (Nat.zero_add _) hle (by omega) (length_calloc _ _)
  exact cdfReadSector_yields info h id (room hi hlen)

theorem cdfReadLongSectorChain_safe_iff :
    Safe (cdfReadLongSectorChain info h sat sid len) ↔ Listed sat h.secSize sid := by
  rw [← cdfCountChain_safe_iff]
  refine safe_bind_of_safe fun n hcount => ?_
  have hloop := (longLoop_yields info h hcount).safe
  exact safe_bind_iff.mpr ⟨hloop, fun tab _ => ⟨nofun, nofun⟩⟩

/-- A stream of long sectors is as long as they are. -/
theorem cdfReadLongSectorChain_ok {scn : Stream} (hrun : cdfReadLongSectorChain info h sat sid len = .ok scn) :
    ∃ tab, scn.tab = some tab ∧ tab.length = h.secSize * scn.len := by
  obtain ⟨n, hcount, hrun⟩ := bind_eq_ok hrun
  obtain ⟨tab, hloop, hrun⟩ := bind_eq_ok hrun
  cases hrun
  exact ⟨tab, rfl, ((longLoop_yields info h hcount).of_ok hloop).trans (Nat.mul_comm _ _)⟩

theorem cdfReadSsat_safe_iff :
    Safe (cdfReadSsat info h sat) ↔ Listed sat h.secSize h.secidFirstSectorInShortSat := by
  rw [← cdfCountChain_safe_iff]
  refine safe_bind_of_safe fun n hcount => ?_
  have hloop := (longLoop_yields info h hcount).safe
  exact safe_bind_iff.mpr ⟨hloop, fun tab _ => ⟨nofun, nofun⟩⟩

/-! ## Short sectors -/

/-- A chain of short sectors does not come to one that begins in the stream of the root and ends behind it, unless it comes to
one behind the end before. -/
def Contained (h : Header) (ssat : Sat) (sst : Stream) (sid : ℤ) : Prop :=
  ∀ before id after, Ends ssat h.secSize sid (before ++ id :: after) →
    (∀ id' ∈ before, h.shortSecPos id' ≤ h.secSize * sst.len) → h.shortSecPos id ≤ h.secSize * sst.len →
    h.shortSecPos id + h.shortSecSize ≤ h.secSize * sst.len

theorem shortLoop_safe_iff {root tab : List UInt8} {size n fuel i : ℕ} {ids : List ℤ} {e : ℤ}
    (hroot : root.length = h.secSize * sst.len) (hlinked : Linked (ssat.next size) sid ids e) (he : e < 0)
    (hn : i + ids.length = n) (hle : n ≤ cdfLoopLimit) (hfuel : ids.length < fuel)
    (hlen : tab.length = n * h.shortSecSize) :
    Safe (readLoop ssat (fun tab i sid => cdfReadShortSector h sst root tab (i * h.shortSecSize) sid) n fuel i sid tab) ↔
      ∀ before id after, ids = before ++ id :: after → (∀ id' ∈ before, h.shortSecPos id' ≤ h.secSize * sst.len) →
        h.shortSecPos id ≤ h.secSize * sst.len → h.shortSecPos id + h.shortSecSize ≤ h.secSize * sst.len := by
  induction hlinked generalizing i fuel tab with
  | nil =>
    obtain ⟨fuel, rfl⟩ := Nat.exists_eq_add_one_of_ne_zero (Nat.ne_zero_of_lt hfuel)
    rw [readLoop, if_pos he]
    refine ⟨fun _ before id after hids => ?_, fun _ => ⟨nofun, nofun⟩⟩
    simp at hids
  | @cons a b c l hnext _ ih =>
    obtain ⟨fuel, rfl⟩ := Nat.exists_eq_add_one_of_ne_zero (Nat.ne_zero_of_lt hfuel)
    obtain ⟨hid, -, hentry⟩ := next_eq_some hnext
    rw [List.length_cons] at hn hfuel
    rw [readLoop, if_neg (by omega), if_neg (by omega), if_neg (by omega)]
    by_cases hpos : h.shortSecPos a > h.secSize * sst.len
    · have hread : cdfReadShortSector h sst root tab (i * h.shortSecSize) a = .error .failed := if_pos hpos
      rw [hread]
      refine ⟨fun _ before id after hids hbefore hpass => ?_, fun _ => ⟨nofun, nofun⟩⟩
      cases before with
      | nil =>
        cases hids
        omega
      | cons a' before =>
        cases hids
        have hle := hbefore a List.mem_cons_self
        omega
    · by_cases hend : h.shortSecPos a + h.shortSecSize ≤ root.length
      · have hstore := store_eq tab (i * h.shortSecSize) (slice root (h.shortSecPos a) h.shortSecSize)
          (by rw [length_slice hend]; exact room (by omega) hlen)
        have hread : cdfReadShortSector h sst root tab (i * h.shortSecSize) a = _ :=
          (if_neg hpos).trans ((if_pos hend).trans hstore)
        rw [hread]
        have hn' : i + 1 + l.length = n := by omega
        have hfuel' : l.length < fuel := by omega
        have hrest := ih he hn' hfuel' ((length_store hstore).trans hlen)
        show Safe (entry ssat.tab a >>= _) ↔ _
        rw [hentry]
        refine hrest.trans ⟨fun hl before id after hids hbefore hpass => ?_, fun hl before id after hids hbefore => ?_⟩
        · cases before with
          | nil =>
            cases hids
            omega
          | cons a' before =>
            cases hids
            exact hl before id after rfl (fun id' hid' => hbefore id' (List.mem_cons_of_mem _ hid')) hpass
        · refine hl (a :: before) id after (by rw [hids]; rfl) ?_
          exact List.forall_mem_cons.mpr ⟨by omega, hbefore⟩
      · have hread : cdfReadShortSector h sst root tab (i * h.shortSecSize) a = .error .fault :=
          (if_neg hpos).trans (if_neg hend)
        rw [hread]
        refine ⟨fun hsafe => absurd hsafe not_safe_fault, fun hl => absurd ?_ hend⟩
        rw [hroot]
        exact hl [] a l rfl (fun _ h => absurd h List.not_mem_nil) (by omega)

theorem cdfReadShortSectorChain_safe_iff {root : List UInt8} (htab : sst.tab = some root)
    (hroot : root.length = h.secSize * sst.len) :
    Safe (cdfReadShortSectorChain h ssat sst sid len) ↔ Listed ssat h.secSize sid ∧ Contained h ssat sst sid := by
  rw [← cdfCountChain_safe_iff]
  unfold cdfReadShortSectorChain
  rw [safe_bind_iff, htab]
  refine and_congr_right fun hsafe => ?_
  have hloop : ∀ ids, Ends ssat h.secSize sid ids → _ := fun ids hends =>
    have ⟨hle, e, hlinked, he⟩ := hends
    have hlen := length_calloc ids.length h.shortSecSize
    shortLoop_safe_iff hroot hlinked he (Nat.zero_add _) hle (Nat.lt_succ_of_le hle) hlen
  constructor
  · intro hreads before id after hends
    have hread := (safe_bind_iff.mp (hreads _ (cdfCountChain_of_ends hends))).1
    exact (hloop _ hends).mp hread before id after rfl
  · intro hcontained n hcount
    obtain ⟨ids, hends, rfl⟩ := cdfCountChain_ok hcount
    refine safe_bind_iff.mpr ⟨(hloop ids hends).mpr fun before id after hids => ?_, fun tab _ => ⟨nofun, nofun⟩⟩
    rw [hids] at hends
    exact hcontained before id after hends

/-! ## The directory -/

theorem unpackLoop_yields {buf : List UInt8} {base n j nd N : ℕ} {dirTab : List Directory} (hn : n + j = nd)
    (hbuf : nd * cdfDirectorySize ≤ buf.length) (hbase : base + nd ≤ N) (hlen : dirTab.length = N) :
    Yields (fun dirTab' => dirTab'.length = N) (unpackLoop buf base n j dirTab) := by
  induction n generalizing j dirTab with
  | zero => exact hlen
  | succ n ih =>
    have hroom : j * cdfDirectorySize + cdfDirectorySize ≤ buf.length := by
      rw [← Nat.succ_mul]
      exact Nat.le_trans (Nat.mul_le_mul_right _ (by omega)) hbuf
    rw [unpackLoop, if_pos ⟨hroom, by omega⟩]
    exact ih (by omega) (by rw [List.length_set]; exact hlen)

theorem dirLoop_yields {ns nd fuel i j : ℕ} {ids : List ℤ} {e : ℤ} {buf : List UInt8} {dirTab : List Directory}
    (hlinked : Linked (sat.next h.secSize) sid ids e) (hn : i + ids.length = ns) (hfuel : ids.length < fuel)
    (hj : j < cdfLoopLimit) (hnd : nd + 1 < cdfLoopLimit) (hsize : nd * cdfDirectorySize ≤ h.secSize)
    (hbuf : buf.length = h.secSize) (hlen : dirTab.length = ns * nd) :
    Yields (fun dirTab' => dirTab'.length = ns * nd) (dirLoop info h sat ns nd fuel i j sid buf dirTab) := by
  induction hlinked generalizing i j fuel buf dirTab with
  | nil =>
    obtain ⟨fuel, rfl⟩ := Nat.exists_eq_add_one_of_ne_zero (Nat.ne_zero_of_lt hfuel)
    rw [dirLoop, if_pos (by rw [← hn]; simp)]
    exact hlen
  | cons hnext _ ih =>
    obtain ⟨fuel, rfl⟩ := Nat.exists_eq_add_one_of_ne_zero (Nat.ne_zero_of_lt hfuel)
    obtain ⟨hid, -, hentry⟩ := next_eq_some hnext
    rw [List.length_cons] at hn hfuel
    rw [dirLoop, if_neg (by omega), if_neg (by omega)]
    refine (cdfReadSector_yields info h _ (by omega)).bind fun buf₁ hbuf₁ => ?_
    have hbase : i * nd + nd ≤ ns * nd := by
      rw [← Nat.succ_mul]
      exact Nat.mul_le_mul_right _ (by omega)
    refine (unpackLoop_yields (Nat.add_zero _) (by omega) hbase hlen).bind fun dirTab₁ hlen₁ => ?_
    rw [hentry]
    exact ih (by omega) (by omega) hnd (hbuf₁.trans hbuf) hlen₁

theorem cdfReadDir_safe_iff :
    Safe (cdfReadDir info h sat) ↔ Listed sat h.secSize h.secidFirstDirectory := by
  rw [← cdfCountChain_safe_iff]
  refine safe_bind_of_safe fun n hcount => ?_
  obtain ⟨ids, ⟨hle, e, hlinked, he⟩, rfl⟩ := cdfCountChain_ok hcount
  have hnd : h.secSize / cdfDirectorySize ≤ 2 ^ 20 / cdfDirectorySize := Nat.div_le_div_right (secSize_le h)
  have hlimit : 2 ^ 20 / cdfDirectorySize + 1 < cdfLoopLimit := by decide
  refine (dirLoop_yields hlinked (Nat.zero_add _) (Nat.lt_succ_of_le hle) (by decide) (by omega)
    (Nat.div_mul_le_self _ _) (by simp [length_calloc]) (by simp)).safe

end Read

/-! ## Files -/

section Files

variable {info : Info} {h : Header} {sat ssat : Sat} {sst : Stream} {dir : List Directory} {sid : ℤ} {len : ℕ}

/-- The stream of the root is as long as its sectors, if there is one. -/
theorem cdfReadShortStream_ok {root : List UInt8} (hrun : cdfReadShortStream info h sat dir = .ok sst)
    (htab : sst.tab = some root) : root.length = h.secSize * sst.len := by
  unfold cdfReadShortStream at hrun
  split at hrun
  · cases hrun
    cases htab
  · split at hrun
    · cases hrun
      cases htab
    · obtain ⟨tab, htab', hlen⟩ := cdfReadLongSectorChain_ok hrun
      rw [htab] at htab'
      cases htab'
      exact hlen

/-- The stream of the root begins nowhere, or with a sector. -/
theorem cdfReadShortStream_safe_iff : Safe (cdfReadShortStream info h sat dir) ↔
    ∀ d, dir.find? (·.type = rootStorage) = some d → Listed sat h.secSize d.streamFirstSector := by
  unfold cdfReadShortStream
  cases hroot : dir.find? (·.type = rootStorage) with
  | none => exact ⟨fun _ _ => nofun, fun _ => ⟨nofun, nofun⟩⟩
  | some d =>
    dsimp only
    split
    · rename_i hneg
      refine ⟨fun _ d' hd' ids id hlinked _ hid => ?_, fun _ => ⟨nofun, nofun⟩⟩
      cases hd'
      obtain ⟨-, rfl⟩ := linked_of_none (next_of_not fun h => absurd h.1 (by omega)) hlinked
      omega
    · rw [cdfReadLongSectorChain_safe_iff]
      exact ⟨fun hlisted d' hd' => by cases hd'; exact hlisted, fun hlisted => hlisted d rfl⟩

/-- A chain comes to no sector that is let pass without an entry in the table, and to no short sector that begins in the
stream of the root and ends behind it. -/
def ChainFits (h : Header) (sat ssat : Sat) (sst : Stream) (sid : ℤ) (len : ℕ) : Prop :=
  if len < h.minSizeStandardStream ∧ sst.tab.isSome then Listed ssat h.secSize sid ∧ Contained h ssat sst sid
  else Listed sat h.secSize sid

theorem cdfReadSectorChain_safe_iff (hrun : cdfReadShortStream info h sat dir = .ok sst) :
    Safe (cdfReadSectorChain info h sat ssat sst sid len) ↔ ChainFits h sat ssat sst sid len := by
  unfold cdfReadSectorChain ChainFits
  split
  · rename_i hshort
    obtain ⟨root, htab⟩ := Option.isSome_iff_exists.mp hshort.2
    exact cdfReadShortSectorChain_safe_iff htab (cdfReadShortStream_ok hrun htab)
  · exact cdfReadLongSectorChain_safe_iff

/-- The sector allocation table is read within bounds. The chains are followed and read within bounds if and only if they fit,
with any table. -/
theorem bounds_iff (info : Info) (h : Header) : Safe (cdfReadSat info h) ∧ ∀ sat,
    (∀ sid size, Safe (cdfCountChain sat sid size) ↔ Listed sat size sid) ∧
    (∀ sid len, Safe (cdfReadLongSectorChain info h sat sid len) ↔ Listed sat h.secSize sid) ∧
    (Safe (cdfReadSsat info h sat) ↔ Listed sat h.secSize h.secidFirstSectorInShortSat) ∧
    (Safe (cdfReadDir info h sat) ↔ Listed sat h.secSize h.secidFirstDirectory) ∧
    ∀ dir sst, cdfReadShortStream info h sat dir = .ok sst → ∀ ssat sid len,
      (Safe (cdfReadSectorChain info h sat ssat sst sid len) ↔ ChainFits h sat ssat sst sid len) := by
  refine ⟨(cdfReadSat_yields info h).safe, fun sat => ⟨?_, ?_, cdfReadSsat_safe_iff, cdfReadDir_safe_iff, ?_⟩⟩
  · intro sid size
    exact cdfCountChain_safe_iff
  · intro sid len
    exact cdfReadLongSectorChain_safe_iff
  · intro dir sst hrun ssat sid len
    exact cdfReadSectorChain_safe_iff hrun

/-- What is read of a file is within bounds: the sector allocation tables, the directory, the stream of the root, and the
stream of any entry of the directory. -/
def ReadsSafely (info : Info) (h : Header) : Prop :=
  Safe (cdfReadSat info h) ∧ ∀ sat, cdfReadSat info h = .ok sat →
    Safe (cdfReadSsat info h sat) ∧ Safe (cdfReadDir info h sat) ∧ ∀ dir, cdfReadDir info h sat = .ok dir →
      Safe (cdfReadShortStream info h sat dir) ∧ ∀ ssat sst, cdfReadSsat info h sat = .ok ssat →
        cdfReadShortStream info h sat dir = .ok sst → ∀ d ∈ dir,
          Safe (cdfReadSectorChain info h sat ssat sst d.streamFirstSector d.size)

/-- The chains of a file fit. -/
def Fits (info : Info) (h : Header) : Prop :=
  ∀ sat, cdfReadSat info h = .ok sat →
    Listed sat h.secSize h.secidFirstSectorInShortSat ∧ Listed sat h.secSize h.secidFirstDirectory ∧
      ∀ dir, cdfReadDir info h sat = .ok dir →
        (∀ d, dir.find? (·.type = rootStorage) = some d → Listed sat h.secSize d.streamFirstSector) ∧
          ∀ ssat sst, cdfReadSsat info h sat = .ok ssat → cdfReadShortStream info h sat dir = .ok sst → ∀ d ∈ dir,
            ChainFits h sat ssat sst d.streamFirstSector d.size

/-- A file is read within bounds if and only if its chains fit. -/
theorem readsSafely_iff (info : Info) (h : Header) : ReadsSafely info h ↔ Fits info h := by
  have hsat := (cdfReadSat_yields info h).safe
  unfold ReadsSafely Fits
  simp only [hsat, true_and, cdfReadSsat_safe_iff, cdfReadDir_safe_iff, cdfReadShortStream_safe_iff]
  refine forall_congr' fun sat => forall_congr' fun _ => and_congr_right fun _ => and_congr_right fun _ =>
    forall_congr' fun dir => forall_congr' fun _ => and_congr_right fun _ => forall_congr' fun ssat =>
    forall_congr' fun sst => forall_congr' fun _ => forall_congr' fun hrun => forall_congr' fun d =>
    forall_congr' fun _ => ?_
  exact cdfReadSectorChain_safe_iff hrun

end Files

/-! ## A directory behind the table -/

/-- A file of zeros with one sector, of 512 bytes. -/
def zeros : Info := ⟨some (List.replicate 1024 0), none⟩

/-- Its header: the sector is the sector allocation table, and the directory begins with the sector `sid`. -/
def zerosHeader (sid : ℤ) : Header where
  secSizeP2 := 9
  shortSecSizeP2 := 6
  secidFirstDirectory := sid
  minSizeStandardStream := 4096
  secidFirstSectorInShortSat := -2
  secidFirstSectorInMasterSat := -2
  numSectorsInMasterSat := 0
  masterSat := 0 :: List.replicate 108 (-1)
  secSizeP2_le := by decide
  shortSecSizeP2_le := by decide
  length_masterSat := by decide

/-- Its table, a directory with a root that has no stream, and a short chain. -/
theorem bounds_iff_zeros : ∃ sat root, cdfReadSat zeros (zerosHeader 0) = .ok sat ∧
    cdfReadShortStream zeros (zerosHeader 0) sat [root] = .ok ⟨none, 0, 0⟩ ∧
    (Safe (cdfReadSectorChain zeros (zerosHeader 0) sat sat ⟨none, 0, 0⟩ 5 100) ↔
      ChainFits (zerosHeader 0) sat sat ⟨none, 0, 0⟩ 5 100) := by
  have hok : (cdfReadSat zeros (zerosHeader 0)).isOk = true := by decide +kernel
  cases hsat : cdfReadSat zeros (zerosHeader 0) with
  | error e =>
    rw [hsat] at hok
    cases hok
  | ok sat =>
    have hroot : cdfReadShortStream zeros (zerosHeader 0) sat
        [{ cdfUnpackDir (calloc 1 cdfDirectorySize) with type := rootStorage, streamFirstSector := -2 }] =
        .ok ⟨none, 0, 0⟩ := rfl
    exact ⟨sat, _, rfl, hroot, ((bounds_iff zeros (zerosHeader 0)).2 sat).2.2.2.2 _ _ hroot sat 5 100⟩

/-- There are 128 entries in the table, and 200 is let pass. -/
theorem not_readsSafely : ¬ ∀ info h, ReadsSafely info h := by
  intro hsafe
  have hfault : (cdfReadSat zeros (zerosHeader 200) >>= cdfReadDir zeros (zerosHeader 200)) = .error .fault := by
    decide +kernel
  have hread := (hsafe zeros (zerosHeader 200)).2
  cases hsat : cdfReadSat zeros (zerosHeader 200) with
  | error e =>
    have hok : (cdfReadSat zeros (zerosHeader 200)).isOk = true := by decide +kernel
    rw [hsat] at hok
    cases hok
  | ok sat =>
    rw [hsat] at hfault
    exact (hread sat hsat).2.1.1 hfault

end CodingExercises.File.Cdf
