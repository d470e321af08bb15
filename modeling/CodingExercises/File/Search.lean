import Mathlib.Order.Bounds.Basic
import CodingExercises.File.Bounds
import CodingExercises.File.Traps

/-!
# file: `search`

What `mget` and `magiccheck` of `softmagic.c` find for `search` with `=` and without flags. `mget` looks whether there is room for
the value at the offset, but looks for it behind the offset of the `use` entry as well; where there is no room there, nothing is
compared, and that is a match (`finds_iff`).
-/

namespace CodingExercises.File

variable {R : Type}

/-- `mconvert` for `search`, and `magiccheck` behind its first `switch`. -/
def searching (x : Outside R) : Outside R :=
  { x with
    mconvert := fun _ _ v r => (true, v, r)
    relate := fun m v r => (relate m.reln (m.has flagUnsigned) (fileSignextend m.type (m.has flagUnsigned) v) 0, r) }

/-- The value stands at a position of the file, and all of it is in the file. -/
def Occurs (mem : ℤ → UInt8) (s nbytes : ℕ) (value : List UInt8) (p : ℕ) : Prop :=
  p + value.length ≤ nbytes ∧ bytesAt mem (s + p) value.length = value

/-- Where the value of an entry stands, from a position on and in the range of the entry. -/
def occurrences (mem : ℤ → UInt8) (call : Call) (m : Entry) (first : ℕ) : Set ℕ :=
  {p | Occurs mem call.s call.nbytes (m.value.take m.vallen) p ∧
    ∃ idx, p = first + idx ∧ (m.strRange.toNat = 0 ∨ idx < m.strRange.toNat)}

/-- `mget` and `magiccheck` say whether there is such a position behind both offsets, and which is the first. -/
def Finds (x : Outside R) (db : Database) (enter : Call → Bool → MagicSet (Work R) → Ended (Work R)) (call : Call) (m : Entry)
    (contLevel : ℕ) (returnval : Bool) (ms : MagicSet (Work R)) : Prop :=
  let r := mget (leaves (searching x)) db enter call m contLevel returnval ms
  let v := magiccheck (searching x) m r.2.2.work
  let found := occurrences x.mem call m (ms.offset.toNat + call.offset)
  (r.1 = .yes ∧ v.1 = some true ↔ found.Nonempty) ∧ (r.1 = .yes ∧ v.1 = some true → IsLeast found v.2.search.offset)

/-- The address is computed in 32 bits. -/
def searchStart (call : Call) (offset : BitVec 32) : ℕ := (offset + BitVec.ofNat 32 call.offset).toNat

/-- What goes right: the value is longer than what `mget` takes for the rest of the file, or there is room for it where it is looked
for, and that is where it is asked for, or it does not stand there. -/
def SearchRight (mem : ℤ → UInt8) (call : Call) (m : Entry) (offset : BitVec 32) : Prop :=
  short call.nbytes offset m.vallen = true ∨
    searchStart call offset + m.vallen ≤ call.nbytes ∧
      (searchStart call offset = offset.toNat + call.offset ∨ ¬(occurrences mem call m (searchStart call offset)).Nonempty)

variable {x : Outside R} {m : Entry} {w : Work R}

/-! ## Comparing -/

theorem diff_eq_zero {b a : UInt8} : diff b a = 0 ↔ b = a := by
  constructor
  · intro h
    have hb := b.toNat_lt
    have ha := a.toNat_lt
    have hint := congrArg BitVec.toInt h
    rw [diff, BitVec.toInt_ofInt] at hint
    apply UInt8.toNat_inj.mp
    have hmod : ((b.toNat : ℤ) - a.toNat).bmod (2 ^ 64) = b.toNat - a.toNat := Int.bmod_eq_of_le (by omega) (by omega)
    rw [hmod] at hint
    have hzero : (b.toNat : ℤ) - a.toNat = 0 := hint
    omega
  · rintro rfl
    rw [diff, sub_self]
    rfl

/-- Without flags the bytes are compared. -/
theorem strncmp_eq_zero {b : ℤ} {len j reach : ℕ} {a : List UInt8} (hlen : len ≤ a.length) :
    (strncmp x 0 b len a j reach).1 = 0 ↔ bytesAt x.mem (b + j) len = a.take len := by
  induction len generalizing a j reach with
  | zero => simp [strncmp, bytesAt]
  | succ len ih =>
    obtain ⟨c, a, rfl⟩ : ∃ c a', a = c :: a' := List.exists_cons_of_length_pos (by omega)
    have hstep : strncmpStep x 0 (c :: a) b j = (diff (x.mem (b + j)) c, j + 1, j + 1) := by
      simp [strncmpStep]
    have hb : b + j + 1 = b + (j + 1 : ℕ) := by omega
    rw [strncmp, hstep, bytesAt, List.take_succ_cons, List.cons.injEq, hb, ← diff_eq_zero]
    dsimp only
    split
    case isTrue hne => exact iff_of_false hne (fun h => hne h.1)
    case isFalse heq =>
      rw [ne_eq, not_not] at heq
      rw [and_iff_right heq]
      exact ih (Nat.le_of_succ_le_succ hlen)

/-! ## The loop -/

/-- The loop of `FILE_SEARCH` ends at the first place where the value stands; or it stands nowhere, and the last difference is left,
if there was a place at all. -/
theorem searchLoop_cases (x : Outside R) (m : Entry) (n idx : ℕ) (v : BitVec 64) (w : Work R) :
    (∃ i, idx ≤ i ∧ i < idx + n ∧ min m.vallen maxString + i ≤ w.search.sLen ∧ (compareAt x m w.search.s i).1 = 0 ∧
      (∀ j, idx ≤ j → j < i → (compareAt x m w.search.s j).1 ≠ 0) ∧
      (searchLoop x m n idx v w).1 = 0 ∧ (searchLoop x m n idx v w).2.search.offset = w.search.offset + i) ∨
    ((∀ i, idx ≤ i → i < idx + n → min m.vallen maxString + i ≤ w.search.sLen → (compareAt x m w.search.s i).1 ≠ 0) ∧
      if n = 0 ∨ w.search.sLen < min m.vallen maxString + idx then (searchLoop x m n idx v w).1 = v
      else (searchLoop x m n idx v w).1 ≠ 0) := by
  induction n generalizing idx v w with
  | zero => exact .inr ⟨fun i hlo hhi => absurd hlo (Nat.not_le.mpr hhi), by simp [searchLoop]⟩
  | succ n ih =>
    rw [searchLoop]
    dsimp only
    split
    case isTrue hlen =>
      refine .inr ⟨fun i hlo _ hin => absurd hlen (by omega), ?_⟩
      rw [if_pos (.inr hlen)]
    case isFalse hlen =>
      split
      case isTrue heq =>
        exact .inl ⟨idx, le_rfl, by omega, by omega, heq, fun j hlo hhi => absurd hlo (by omega), rfl, rfl⟩
      case isFalse hne =>
        have hfirst (j : ℕ) (hlo : idx ≤ j) : j = idx ∨ idx + 1 ≤ j := by omega
        rcases ih (idx + 1) (compareAt x m w.search.s idx).1
            (w.note (.bytes (w.search.s + idx) (compareAt x m w.search.s idx).2)) with
          ⟨i, hlo, hhi, hin, heq, hbefore, hv, hoff⟩ | ⟨hnone, hv⟩
        · refine .inl ⟨i, by omega, by omega, hin, heq, fun j hlo' hj => ?_, hv, hoff⟩
          rcases hfirst j hlo' with rfl | hlater
          · exact hne
          · exact hbefore j hlater hj
        · refine .inr ⟨fun i hlo hhi hin => ?_, ?_⟩
          · rcases hfirst i hlo with rfl | hlater
            · exact hne
            · exact hnone i hlater (by omega) hin
          · rw [if_neg (by omega)]
            split at hv
            case isTrue =>
              rw [hv]
              exact hne
            case isFalse => exact hv

theorem searching_relate (htype : m.type = .search) (hreln : m.reln = '=') (v : BitVec 64) (r : R) :
    ((searching x).relate m v r).1 = some (decide (v = 0)) := by
  have hextend : fileSignextend m.type (m.has flagUnsigned) v = v := by
    rw [htype, fileSignextend]
    split <;> rfl
  rw [searching]
  dsimp only
  rw [hextend, hreln]
  rfl

/-- How far behind the start the value stands, in the range of the entry and in the region. -/
def hits (mem : ℤ → UInt8) (m : Entry) (search : Search) : Set ℕ :=
  {i | m.vallen + i ≤ search.sLen ∧ (m.strRange.toNat = 0 ∨ i < m.strRange.toNat) ∧
    bytesAt mem (search.s + i) m.vallen = m.value.take m.vallen}

/-- A region that is too short is a match; else it is one just if the value stands in the region. -/
theorem magiccheck_search (x : Outside R) (w : Work R) (htype : m.type = .search) (hreln : m.reln = '=')
    (hflags : m.strFlags = 0) (hval : m.vallen ≤ m.value.length) (hmax : m.value.length ≤ maxString) :
    (w.search.sLen < m.vallen → (magiccheck (searching x) m w).1 = some true) ∧
      (m.vallen ≤ w.search.sLen →
        ((magiccheck (searching x) m w).1 = some true ↔ (hits x.mem m w.search).Nonempty) ∧
          ((magiccheck (searching x) m w).1 = some true → ∃ i, IsLeast (hits x.mem m w.search) i ∧
            (magiccheck (searching x) m w).2.search.offset = w.search.offset + i)) := by
  have hmin : min m.vallen maxString = m.vallen := Nat.min_eq_left (hval.trans hmax)
  have hcompare (i : ℕ) : (compareAt (searching x) m w.search.s i).1 = 0 ↔
      bytesAt x.mem (w.search.s + i) m.vallen = m.value.take m.vallen := by
    rw [compareAt, hflags, hmin, strncmp_eq_zero hval, Nat.cast_zero, Int.add_zero]
    rfl
  generalize hn : (if m.strRange.toNat = 0 then w.search.sLen + 1 else m.strRange.toNat) = n
  have hrun : (magiccheck (searching x) m w).1 = some (decide ((searchLoop (searching x) m n 0 0 w).1 = 0)) ∧
      (magiccheck (searching x) m w).2.search = (searchLoop (searching x) m n 0 0 w).2.search := by
    rw [magiccheck, htype]
    dsimp only
    rw [hn, searching_relate htype hreln]
    exact ⟨rfl, rfl⟩
  have hrange (i : ℕ) (hin : m.vallen + i ≤ w.search.sLen) : i < 0 + n ↔ m.strRange.toNat = 0 ∨ i < m.strRange.toNat := by
    split at hn <;> omega
  have hloop := searchLoop_cases (searching x) m n 0 0 w
  simp only [hmin, hcompare, ne_eq] at hloop
  rw [hrun.1, hrun.2, Option.some.injEq, decide_eq_true_iff]
  rcases hloop with ⟨i, -, hhi, hin, hstands, hbefore, hv, hoff⟩ | ⟨hnone, hv⟩
  · have hleast : IsLeast (hits x.mem m w.search) i := by
      refine ⟨⟨hin, (hrange i hin).mp hhi, hstands⟩, fun j hj => ?_⟩
      by_contra hlt
      exact hbefore j (Nat.zero_le j) (by omega) hj.2.2
    exact ⟨fun _ => hv, fun _ => ⟨iff_of_true hv ⟨i, hleast.1⟩, fun _ => ⟨i, hleast, hoff⟩⟩⟩
  · have hempty : ¬ (hits x.mem m w.search).Nonempty := by
      rintro ⟨i, hin, hi, hstands⟩
      exact hnone i (Nat.zero_le i) ((hrange i hin).mpr hi) hin hstands
    constructor
    · intro hshort
      rwa [if_pos (.inr hshort)] at hv
    · intro hroom
      have hpos : n ≠ 0 := by split at hn <;> omega
      rw [if_neg (by omega)] at hv
      exact ⟨iff_of_false hv hempty, fun hmatch => absurd hmatch hv⟩

/-! ## Both -/

variable {call : Call} {ms : MagicSet (Work R)}

/-- The region that `mcopy` sets up. -/
def region (call : Call) (offset : BitVec 32) (rmLen : ℕ) : Search :=
  ⟨call.s + searchStart call offset, sizeT (call.nbytes - searchStart call offset), searchStart call offset, rmLen⟩

/-- `mget` looks at the length, and leaves the region. -/
theorem mget_search (x : Outside R) (db : Database) (enter : Call → Bool → MagicSet (Work R) → Ended (Work R))
    (contLevel : ℕ) (returnval : Bool) (ms : MagicSet (Work R)) (htype : m.type = .search)
    (hdirect : m.has flagIndir = false) (hbytes : call.nbytes < 2 ^ 32) :
    ((mget (leaves (searching x)) db enter call m contLevel returnval ms).1 = .yes ↔
        short call.nbytes ms.offset m.vallen = false) ∧
      (mget (leaves (searching x)) db enter call m contLevel returnval ms).2.2.work.search =
        region call ms.offset ms.work.search.rmLen := by
  have hlow : low32 call.nbytes = call.nbytes := Nat.mod_eq_of_lt hbytes
  have hlocate : locate (leaves (searching x)) call m contLevel ms =
      (.ok ms.offset, { ms with work := { ms.work with search := region call ms.offset ms.work.search.rmLen } }) := by
    rw [locate, hdirect, hlow]
    simp only [leaves, mcopy, htype, Bool.false_eq_true, if_false, Bool.not_true]
    rfl
  have hneeds : needs m = some m.vallen := by rw [needs, htype]
  rw [mget, hlocate, htype]
  dsimp only
  rw [hneeds, Option.any_some]
  cases short call.nbytes ms.offset m.vallen
  · exact ⟨iff_of_true rfl rfl, rfl⟩
  · exact ⟨iff_of_false (fun h => by cases h) (fun h => by cases h), rfl⟩

theorem sizeT_eq {a b : ℕ} (hle : b ≤ a) (hlt : a < 2 ^ 32) : sizeT (a - b) = a - b := by
  unfold sizeT
  omega

/-- With room at the start, the region is the rest of the file. -/
theorem mem_hits_iff (mem : ℤ → UInt8) {offset : BitVec 32} (rmLen i : ℕ) (hval : m.vallen ≤ m.value.length)
    (hbytes : call.nbytes < 2 ^ 32) (hroom : searchStart call offset + m.vallen ≤ call.nbytes) :
    i ∈ hits mem m (region call offset rmLen) ↔
      searchStart call offset + i ∈ occurrences mem call m (searchStart call offset) := by
  have hlen : (m.value.take m.vallen).length = m.vallen := List.length_take_of_le hval
  have hsize : (region call offset rmLen).sLen = call.nbytes - searchStart call offset := sizeT_eq (by omega) hbytes
  have haddr : (call.s : ℤ) + (searchStart call offset + i : ℕ) = (region call offset rmLen).s + i := by
    rw [region, Nat.cast_add, Int.add_assoc]
  rw [hits, occurrences, Set.mem_ofPred_eq, Set.mem_ofPred_eq, Occurs, hlen, hsize, haddr]
  constructor
  · rintro ⟨hin, hrange, hstands⟩
    exact ⟨⟨by omega, hstands⟩, i, rfl, hrange⟩
  · rintro ⟨⟨hin, hstands⟩, j, hj, hrange⟩
    obtain rfl : i = j := by omega
    exact ⟨by omega, hrange, hstands⟩

/-- With room at the start, the value is found where it stands. -/
theorem magiccheck_room (x : Outside R) (w : Work R) {offset : BitVec 32} {rmLen : ℕ} (htype : m.type = .search)
    (hreln : m.reln = '=') (hflags : m.strFlags = 0) (hval : m.vallen ≤ m.value.length) (hmax : m.value.length ≤ maxString)
    (hbytes : call.nbytes < 2 ^ 32) (hroom : searchStart call offset + m.vallen ≤ call.nbytes)
    (hregion : w.search = region call offset rmLen) :
    ((magiccheck (searching x) m w).1 = some true ↔ (occurrences x.mem call m (searchStart call offset)).Nonempty) ∧
      ((magiccheck (searching x) m w).1 = some true →
        IsLeast (occurrences x.mem call m (searchStart call offset)) (magiccheck (searching x) m w).2.search.offset) := by
  have hsize : w.search.sLen = call.nbytes - searchStart call offset := by
    rw [hregion]
    exact sizeT_eq (by omega) hbytes
  obtain ⟨hmatch, hfirst⟩ := (magiccheck_search x w htype hreln hflags hval hmax).2 (by omega)
  rw [hregion] at hmatch hfirst
  have hmem (i : ℕ) := mem_hits_iff x.mem rmLen i hval hbytes hroom
  constructor
  · rw [hmatch]
    constructor
    · rintro ⟨i, hi⟩
      exact ⟨_, (hmem i).mp hi⟩
    · rintro ⟨p, hp⟩
      obtain ⟨i, rfl, -⟩ := hp.2
      exact ⟨i, (hmem i).mpr hp⟩
  · intro hyes
    obtain ⟨i, hleast, hoff⟩ := hfirst hyes
    rw [hoff]
    refine ⟨(hmem i).mp hleast.1, fun p hp => ?_⟩
    obtain ⟨j, rfl, -⟩ := hp.2
    exact Nat.add_le_add_left (hleast.2 ((hmem j).mpr hp)) _

/-! ## What is behind the file -/

theorem bytesAt_congr {mem mem' : ℤ → UInt8} {b : ℤ} {k : ℕ} (h : ∀ i < k, mem' (b + i) = mem (b + i)) :
    bytesAt mem' b k = bytesAt mem b k := by
  induction k generalizing b with
  | zero => rfl
  | succ k ih =>
    have hzero := h 0 (Nat.succ_pos k)
    rw [Nat.cast_zero, Int.add_zero] at hzero
    rw [bytesAt, bytesAt, hzero, ih fun i hi => ?_]
    have hnext := h (i + 1) (Nat.succ_lt_succ hi)
    have hb : b + (i + 1 : ℕ) = b + 1 + i := by omega
    rwa [hb] at hnext

/-- Where the value stands, only the file counts. -/
theorem occurrences_congr {mem mem' : ℤ → UInt8} (first : ℕ) (hval : m.vallen ≤ m.value.length)
    (h : ∀ i < call.nbytes, mem' (call.s + i) = mem (call.s + i)) :
    occurrences mem' call m first = occurrences mem call m first := by
  have hlen : (m.value.take m.vallen).length = m.vallen := List.length_take_of_le hval
  ext p
  refine and_congr_left fun _ => and_congr_right fun hin => ?_
  rw [bytesAt_congr fun i hi => ?_]
  have hp : (call.s : ℤ) + p + i = call.s + (p + i : ℕ) := by omega
  rw [hp]
  exact h (p + i) (by omega)

/-- A file with some bytes behind it, from an address on. -/
def withBehind (mem : ℤ → UInt8) (last b : ℤ) (value : List UInt8) : ℤ → UInt8 :=
  fun a => if last ≤ a then value.getD (a - b).toNat 0 else mem a

theorem bytesAt_withBehind (mem : ℤ → UInt8) {last b : ℤ} (hb : last ≤ b) (value : List UInt8) :
    bytesAt (withBehind mem last b value) b value.length = value := by
  apply List.ext_getElem (length_bytesAt _ _ _)
  intro i hi hlt
  have hget := bytesAt_getD (withBehind mem last b value) b hlt
  have hsub : (b + (i : ℤ) - b).toNat = i := by omega
  rw [withBehind, if_pos (by omega), hsub] at hget
  simpa [hi, hlt] using hget

/-- Behind the end of a file of 32 bits the value stands nowhere. -/
theorem occurrences_behind (mem : ℤ → UInt8) {first : ℕ} (hval : m.vallen ≤ m.value.length)
    (hbehind : call.nbytes < first + m.vallen) : ¬(occurrences mem call m first).Nonempty := by
  rintro ⟨p, ⟨hin, -⟩, i, rfl, -⟩
  rw [List.length_take_of_le hval] at hin
  omega

theorem searchStart_cases (call : Call) (offset : BitVec 32) : searchStart call offset ≤ offset.toNat + call.offset ∧
    (searchStart call offset ≠ offset.toNat + call.offset → 2 ^ 32 ≤ offset.toNat + call.offset) := by
  have hstart : searchStart call offset = (offset.toNat + call.offset) % 2 ^ 32 := by
    rw [searchStart, BitVec.toNat_add, BitVec.toNat_ofNat, Nat.add_mod_mod]
  rw [hstart]
  refine ⟨Nat.mod_le _ _, fun hne => ?_⟩
  by_contra hlt
  exact hne (Nat.mod_eq_of_lt (by omega))

theorem short_of_behind {first : ℕ} (h : short call.nbytes ms.offset m.vallen = true)
    (hfirst : ms.offset.toNat ≤ first) : call.nbytes < first + m.vallen := by
  have hsum : (ms.offset + BitVec.ofNat 32 m.vallen).toNat ≤ ms.offset.toNat + m.vallen := by
    rw [BitVec.toNat_add, BitVec.toNat_ofNat, Nat.add_mod_mod]
    exact Nat.mod_le _ _
  have hlt := of_decide_eq_true h
  omega

/-- Where a search goes right, it finds the value. -/
theorem finds_of_right (x : Outside R) (db : Database) (enter : Call → Bool → MagicSet (Work R) → Ended (Work R))
    (contLevel : ℕ) (returnval : Bool) (ms : MagicSet (Work R)) (htype : m.type = .search) (hreln : m.reln = '=')
    (hflags : m.strFlags = 0) (hdirect : m.has flagIndir = false) (hval : m.vallen ≤ m.value.length) (hmax : m.value.length ≤ maxString)
    (hbytes : call.nbytes < 2 ^ 32) (hright : SearchRight x.mem call m ms.offset) :
    Finds x db enter call m contLevel returnval ms := by
  obtain ⟨hle, hwrap⟩ := searchStart_cases call ms.offset
  obtain ⟨hyes, hregion⟩ := mget_search x db enter contLevel returnval ms htype hdirect hbytes
  unfold Finds
  dsimp only
  generalize mget (leaves (searching x)) db enter call m contLevel returnval ms = r at hyes hregion
  rw [hyes]
  cases hshort : short call.nbytes ms.offset m.vallen with
  | true =>
    have hnone := occurrences_behind x.mem hval (short_of_behind hshort (Nat.le_add_right ms.offset.toNat call.offset))
    exact ⟨iff_of_false (fun h => by cases h.1) hnone, fun h => by cases h.1⟩
  | false =>
    rw [and_iff_right rfl]
    obtain ⟨hroom, hplace⟩ := hright.resolve_left (by rw [hshort]; decide)
    obtain ⟨hmatch, hleast⟩ := magiccheck_room x r.2.2.work htype hreln hflags hval hmax hbytes hroom hregion
    by_cases heq : searchStart call ms.offset = ms.offset.toNat + call.offset
    · rw [← heq]
      exact ⟨hmatch, hleast⟩
    · have hempty := hplace.resolve_left heq
      have hfar := hwrap heq
      rw [hmatch]
      exact ⟨iff_of_false hempty (occurrences_behind x.mem hval (by omega)), fun h => absurd h hempty⟩

/-- Where it does not go right, it finds what is not there, for some bytes behind the file. -/
theorem not_finds_of_wrong (x : Outside R) (db : Database) (enter : Call → Bool → MagicSet (Work R) → Ended (Work R))
    (contLevel : ℕ) (returnval : Bool) (ms : MagicSet (Work R)) (htype : m.type = .search) (hreln : m.reln = '=')
    (hflags : m.strFlags = 0) (hdirect : m.has flagIndir = false) (hval : m.vallen ≤ m.value.length) (hmax : m.value.length ≤ maxString)
    (hbytes : call.nbytes < 2 ^ 32) (hwrong : ¬SearchRight x.mem call m ms.offset) :
    ∃ mem', (∀ i < call.nbytes, mem' (call.s + i) = x.mem (call.s + i)) ∧
      ¬Finds { x with mem := mem' } db enter call m contLevel returnval ms := by
  obtain ⟨hle, hwrap⟩ := searchStart_cases call ms.offset
  obtain ⟨hshort, hroom⟩ := not_or.mp hwrong
  rw [Bool.not_eq_true] at hshort
  have hget (mem' : ℤ → UInt8) := mget_search { x with mem := mem' } db enter contLevel returnval ms htype hdirect hbytes
  -- A match is wrong, as there is no room for the value behind both offsets.
  have hrefute (mem' : ℤ → UInt8) (hbehind : call.nbytes < ms.offset.toNat + call.offset + m.vallen)
      (hmatch : (magiccheck (searching { x with mem := mem' }) m
        (mget (leaves (searching { x with mem := mem' })) db enter call m contLevel returnval ms).2.2.work).1 = some true) :
      ¬Finds { x with mem := mem' } db enter call m contLevel returnval ms :=
    fun hfinds => occurrences_behind mem' hval hbehind (hfinds.1.mp ⟨(hget mem').1.mpr hshort, hmatch⟩)
  by_cases hin : searchStart call ms.offset + m.vallen ≤ call.nbytes
  · obtain ⟨hne, hsome⟩ := not_or.mp fun h => hroom ⟨hin, h⟩
    have hfar := hwrap hne
    refine ⟨x.mem, fun i _ => rfl, hrefute x.mem (by omega) ?_⟩
    exact (magiccheck_room x _ htype hreln hflags hval hmax hbytes hin (hget x.mem).2).1.mpr (not_not.mp hsome)
  · by_cases hstart : searchStart call ms.offset ≤ call.nbytes
    · refine ⟨x.mem, fun i _ => rfl, hrefute x.mem (by omega) ?_⟩
      refine (magiccheck_search x _ htype hreln hflags hval hmax).1 ?_
      rw [(hget x.mem).2]
      have hsize : (region call ms.offset ms.work.search.rmLen).sLen = call.nbytes - searchStart call ms.offset :=
        sizeT_eq hstart hbytes
      omega
    · refine ⟨withBehind x.mem (call.s + call.nbytes) (call.s + searchStart call ms.offset) (m.value.take m.vallen),
        fun i hi => if_neg (by omega), hrefute _ (by omega) ?_⟩
      have hlen : (m.value.take m.vallen).length = m.vallen := List.length_take_of_le hval
      have hlarge : m.vallen ≤ (region call ms.offset ms.work.search.rmLen).sLen := by
        have hstart' : searchStart call ms.offset < 2 ^ 32 := BitVec.isLt _
        have hvallen := hval.trans hmax
        unfold maxString at hvallen
        simp only [region, sizeT]
        omega
      refine ((magiccheck_search _ _ htype hreln hflags hval hmax).2 ?_).1.mpr ⟨0, ?_, Nat.eq_zero_or_pos _, ?_⟩
      · rwa [(hget _).2]
      · rwa [(hget _).2, Nat.add_zero]
      · rw [(hget _).2, Nat.cast_zero, Int.add_zero]
        have hle' : (call.s + call.nbytes : ℤ) ≤ call.s + searchStart call ms.offset := by omega
        have hbehind := bytesAt_withBehind x.mem hle' (m.value.take m.vallen)
        rwa [hlen] at hbehind

/-- Whatever is behind the file, a search finds the value behind both offsets just if it goes right. -/
theorem finds_iff (x : Outside R) (db : Database) (enter : Call → Bool → MagicSet (Work R) → Ended (Work R)) (call : Call)
    (m : Entry) (contLevel : ℕ) (returnval : Bool) (ms : MagicSet (Work R)) (htype : m.type = .search)
    (hreln : m.reln = '=') (hflags : m.strFlags = 0) (hdirect : m.has flagIndir = false) (hval : m.vallen ≤ m.value.length)
    (hmax : m.value.length ≤ maxString) (hbytes : call.nbytes < 2 ^ 32) :
    (∀ mem', (∀ i < call.nbytes, mem' (call.s + i) = x.mem (call.s + i)) →
      Finds { x with mem := mem' } db enter call m contLevel returnval ms) ↔ SearchRight x.mem call m ms.offset := by
  constructor
  · intro h
    by_contra hwrong
    obtain ⟨mem', hagree, hno⟩ :=
      not_finds_of_wrong x db enter contLevel returnval ms htype hreln hflags hdirect hval hmax hbytes hwrong
    exact hno (h mem' hagree)
  · intro hright mem' hagree
    refine finds_of_right { x with mem := mem' } db enter contLevel returnval ms htype hreln hflags hdirect hval hmax hbytes ?_
    rwa [SearchRight, occurrences_congr _ hval hagree]

/-- `0 search/1 ab`. -/
def searchAb : Entry :=
  { plainEntry 0 with type := .search, reln := '=', vallen := 2, strRange := 1, value := [97, 98] }

/-- The entries used at an offset, on a file of three bytes. -/
def useAt (offset : ℕ) : Call := ⟨[], 0, 3, offset, 0, false, false⟩

/-- There is room at 1. -/
theorem finds_at_one : Finds { sevens with mem := fun _ => 7 } ⟨[], []⟩ (fun _ b ms => ⟨.no, b, ms⟩) (useAt 1) searchAb 0 false
    ⟨fun _ => ⟨0, false, false⟩, 0, 0, ⟨[], ⟨0, 0, 0, 0⟩, (), []⟩⟩ := by
  refine (finds_iff sevens ⟨[], []⟩ (fun _ b ms => ⟨.no, b, ms⟩) (useAt 1) searchAb 0 false
    ⟨fun _ => ⟨0, false, false⟩, 0, 0, ⟨[], ⟨0, 0, 0, 0⟩, (), []⟩⟩ rfl rfl rfl rfl (by decide) (by decide) (by decide)).mpr ?_
    (fun _ => 7) fun _ _ => rfl
  exact .inr ⟨by decide, .inl (by decide)⟩

/-- There is none at 2, but the search says yes. -/
theorem not_finds_at_two : ¬ ∀ (x : Outside Unit) (db : Database)
    (enter : Call → Bool → MagicSet (Work Unit) → Ended (Work Unit)) (call : Call) (m : Entry) (contLevel : ℕ) (returnval : Bool)
    (ms : MagicSet (Work Unit)), m.type = .search → m.reln = '=' → m.strFlags = 0 → m.has flagIndir = false →
    0 < m.vallen → m.vallen ≤ m.value.length → m.value.length ≤ maxString → call.nbytes < 2 ^ 32 →
    Finds x db enter call m contLevel returnval ms := by
  intro h
  have hfinds := h sevens ⟨[], []⟩ (fun _ b ms => ⟨.no, b, ms⟩) (useAt 2) searchAb 0 false
    ⟨fun _ => ⟨0, false, false⟩, 0, 0, ⟨[], ⟨0, 0, 0, 0⟩, (), []⟩⟩ rfl rfl rfl rfl (by decide) (by decide) (by decide) (by decide)
  obtain ⟨p, ⟨hin, -⟩, i, rfl, -⟩ := hfinds.1.mp ⟨rfl, by decide⟩
  have hno : 0 + 2 + i + 2 ≤ 3 := hin
  omega

end CodingExercises.File
