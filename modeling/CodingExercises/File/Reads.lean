import Mathlib.Data.List.Count
import Mathlib.Data.List.TakeWhile
import CodingExercises.Lib.Journal
import CodingExercises.File.Data

/-!
# file: the reads of an entry

What `mget` is assumed to be called with (`GetFits`), and that what `mcopy`, `mget` and `magiccheck` read then lies in the file.
-/

namespace CodingExercises.File

open CodingExercises.Lib

variable {R : Type}

/-! ## What is assumed and what is promised -/

/-- The line ends in the data: each newline and, where there is no newline behind it, each carriage return. -/
def lineEnds (data : List UInt8) : ℕ := data.count 10 + (data.reverse.takeWhile (· ≠ 10)).count 13

/-- No copy from `p` on looks at the byte behind the file: a regular expression has fewer lines than it takes to come to a
carriage return at the end, and no character of 16 bits is cut off behind a zero. `n` is the length that `mcopy` is told. -/
def CopyFits (x : Outside R) (m : Entry) (call : Call) (p n : ℕ) : Prop :=
  n = call.nbytes →
    match m.type with
    | .regex => p < n → x.mem (call.s + n - 1) = 13 →
        m.strRange.toNat < lineEnds (bytesAt x.mem (call.s + p) (n - p))
    | .lestring16 => ∀ j < maxString - 1, p + 2 * j + 1 = n → x.mem (call.s + n - 1) ≠ 0
    | _ => True

/-- A search comes to the position. -/
def Tried (x : Outside R) (m : Entry) (start : ℤ) (sLen idx : ℕ) : Prop :=
  min m.vallen maxString + idx ≤ sLen ∧ (m.strRange.toNat = 0 ∨ idx < m.strRange.toNat) ∧
    ∀ i < idx, (compareAt x m start i).1 ≠ 0

/-- What is searched from `p` on is in the file: a search begins in it, and white space does not lead it out. -/
def SearchFits (x : Outside R) (m : Entry) (call : Call) (p n : ℕ) : Prop :=
  match m.type with
  | .search => (p ≤ n ∧ m.strFlags &&& (stringCompact ||| stringOptional) = 0) ∨
      ∀ idx, Tried x m (call.s + p) (sizeT (n - p)) idx → p + idx + (compareAt x m (call.s + p) idx).2 ≤ call.nbytes
  | .regex => x.regcomp m = true → p ≤ n
  | _ => True

/-- The offset that the data of an entry says. -/
def dataOffset (x : Outside R) (call : Call) (m : Entry) (offset : BitVec 32) : Option (BitVec 32) :=
  let type := cvtFlip m.inType call.flip
  indirectOf m type (copied x.mem call.s (offset + .ofNat 32 call.offset).toNat (low32 call.nbytes))
    (indirectOff x.mem m type call.s offset) call.nbytes offset

/-- Where the entry is tested: the position that is copied from, the length that `mcopy` is told, and `ms->offset`. -/
def located (x : Outside R) (call : Call) (m : Entry) (offset base : BitVec 32) : Option (ℕ × ℕ × BitVec 32) :=
  if m.has flagIndir then
    (dataOffset x call m offset).map fun off => ((off + base).toNat, call.nbytes, off + base)
  else some ((offset + .ofNat 32 call.offset).toNat, low32 call.nbytes, offset)

/-- The operand of an indirect offset is in the file, there is a level below if its offset is added, and what is copied and
searched is in the file. -/
structure GetFits (x : Outside R) (call : Call) (m : Entry) (contLevel : ℕ) (offset base : BitVec 32) : Prop where
  operand : m.has flagIndir = true → m.inHas opIndirect = true → ∀ width ∈ inWidth (cvtFlip m.inType call.flip),
    call.s ≤ operandAddr m call.s offset ∧ operandAddr m call.s offset + width ≤ call.s + call.nbytes
  level : m.has flagIndir = true → m.has flagIndirOffAdd = true → (dataOffset x call m offset).isSome → 0 < contLevel
  copy : ∀ p n f, located x call m offset base = some (p, n, f) → CopyFits x m call p n
  search : ∀ p n f, located x call m offset base = some (p, n, f) → (needs m).any (short call.nbytes f) = false →
    SearchFits x m call p n

/-- What is assumed of an event: `GetFits`, and that a group that matched is not the last one. -/
def Event.Fits (x : Outside R) : Event → Prop
  | .get call m contLevel offset base => GetFits x call m contLevel offset base
  | .group behind => ∃ m ∈ behind, m.contLevel = 0
  | _ => True

/-- What is promised: bytes in the file, levels below `ms->c.len`, entries of the array. -/
def Event.InBounds (s nbytes : ℕ) : Event → Prop
  | .bytes addr count => count = 0 ∨ ((s : ℤ) ≤ addr ∧ addr + count ≤ s + nbytes)
  | .level index len => 0 ≤ index ∧ index < len
  | .entry index nmagic => index < nmagic
  | _ => True

/-! ## Bytes -/

variable {x : Outside R} {s nbytes : ℕ} {w : Work R}

theorem length_bytesAt (mem : ℤ → UInt8) (b : ℤ) (k : ℕ) : (bytesAt mem b k).length = k := by
  induction k generalizing b with
  | zero => rfl
  | succ k ih => rw [bytesAt, List.length_cons, ih]

theorem bytesAt_getD (mem : ℤ → UInt8) (b : ℤ) {i k : ℕ} (h : i < k) : (bytesAt mem b k).getD i 0 = mem (b + i) := by
  induction k generalizing b i with
  | zero => exact absurd h (Nat.not_lt_zero i)
  | succ k ih =>
    cases i with
    | zero => simp [bytesAt]
    | succ i =>
      have hb : b + 1 + i = b + (i + 1 : ℕ) := by omega
      rw [bytesAt, List.getD_cons_succ, ih (b + 1) (Nat.lt_of_succ_lt_succ h), hb]

theorem bytesAt_split (mem : ℤ → UInt8) {i k : ℕ} (b : ℤ) (h : i < k) :
    bytesAt mem b k = bytesAt mem b i ++ mem (b + i) :: bytesAt mem (b + i + 1) (k - (i + 1)) := by
  induction i generalizing b k with
  | zero =>
    obtain ⟨k, rfl⟩ : ∃ k', k = k' + 1 := ⟨k - 1, by omega⟩
    simp [bytesAt]
  | succ i ih =>
    obtain ⟨k, rfl⟩ : ∃ k', k = k' + 1 := ⟨k - 1, by omega⟩
    have hb : b + 1 + (i : ℤ) = b + (i + 1 : ℕ) := by omega
    rw [bytesAt, bytesAt, ih (b + 1) (by omega), List.cons_append, hb, show k + 1 - (i + 1 + 1) = k - (i + 1) by omega]

theorem findByte_some {mem : ℤ → UInt8} {c : UInt8} {n i : ℕ} {b : ℤ} (h : findByte mem c n b = some i) :
    i < n ∧ mem (b + i) = c ∧ c ∉ bytesAt mem b i := by
  induction n generalizing b i with
  | zero => cases h
  | succ n ih =>
    rw [findByte] at h
    split at h
    case isTrue hc =>
      cases h
      exact ⟨by omega, by simpa using hc, by simp [bytesAt]⟩
    case isFalse hc =>
      obtain ⟨i', hi', rfl⟩ := Option.map_eq_some_iff.mp h
      obtain ⟨hlt, hmem, hnot⟩ := ih hi'
      refine ⟨by omega, ?_, ?_⟩
      · rw [← hmem]
        congr 1
        omega
      · rw [bytesAt, List.mem_cons, not_or]
        exact ⟨fun h => hc h.symm, hnot⟩

theorem findByte_none {mem : ℤ → UInt8} {c : UInt8} {n : ℕ} {b : ℤ} (h : findByte mem c n b = none) :
    c ∉ bytesAt mem b n := by
  induction n generalizing b with
  | zero => simp [bytesAt]
  | succ n ih =>
    rw [findByte] at h
    split at h
    case isTrue => cases h
    case isFalse hc =>
      rw [bytesAt, List.mem_cons, not_or]
      exact ⟨fun h => hc h.symm, ih (Option.map_eq_none_iff.mp h)⟩

/-! ## Line ends -/

theorem takeWhile_append_neg {α : Type} {p : α → Bool} {a : α} (h : p a = false) (l l' : List α) :
    (l ++ a :: l').takeWhile p = l.takeWhile p := by
  rw [List.takeWhile_append]
  split
  case isTrue hlen =>
    rw [List.takeWhile_cons_of_neg (by simp [h]), List.append_nil]
    exact ((List.takeWhile_prefix p).eq_of_length hlen).symm
  case isFalse => rfl

theorem lineEnds_newline {pre data : List UInt8} (h : 10 ∉ pre) : lineEnds (pre ++ 10 :: data) = lineEnds data + 1 := by
  unfold lineEnds
  rw [List.count_append, List.count_eq_zero_of_not_mem h, List.count_cons_self, List.reverse_append, List.reverse_cons,
    List.append_assoc, List.singleton_append, takeWhile_append_neg (by simp)]
  omega

theorem lineEnds_return {pre data : List UInt8} (h : 10 ∉ pre ++ 13 :: data) (hpre : 13 ∉ pre) :
    lineEnds (pre ++ 13 :: data) = lineEnds data + 1 := by
  have hall {l : List UInt8} (hl : 10 ∉ l) : lineEnds l = l.count 13 := by
    unfold lineEnds
    rw [List.count_eq_zero_of_not_mem hl, List.takeWhile_eq_self_iff.mpr, List.count_reverse, Nat.zero_add]
    intro a ha
    have hne : a ≠ 10 := fun heq => hl (heq ▸ List.mem_reverse.mp ha)
    simpa using hne
  have hdata : 10 ∉ data := fun hmem => h (List.mem_append_right _ (List.mem_cons_of_mem _ hmem))
  rw [hall h, hall hdata, List.count_append, List.count_eq_zero_of_not_mem hpre, List.count_cons_self]
  omega

/-! ## What `mcopy` reads -/

theorem inBounds_bytes {addr : ℤ} {count : ℕ} (hlo : s ≤ addr) (hhi : addr + count ≤ s + nbytes) :
    Event.InBounds s nbytes (.bytes addr count) := .inr ⟨hlo, hhi⟩

/-- A read is noted. -/
theorem note_keeps {e : Event} (h : Event.InBounds s nbytes e) :
    Keeps (Event.Fits x) (Event.InBounds s nbytes) w.log (w.note e).log := .note fun _ => h

theorem memchr_keeps {b : ℤ} {c : UInt8} {n : ℕ} (hlo : s ≤ b) (hhi : b + n ≤ s + nbytes) :
    Keeps (Event.Fits x) (Event.InBounds s nbytes) w.log (memchr x b c n w).2.log := by
  refine note_keeps (inBounds_bytes hlo ?_)
  cases hfind : findByte x.mem c n b with
  | none => exact hhi
  | some i =>
    have := (findByte_some hfind).1
    simp only [Option.elim_some]
    omega

/-- Where a line ends: at the first newline or, if there is none, at the first carriage return. -/
inductive EndsAt (mem : ℤ → UInt8) (b : ℤ) (k i : ℕ) : Prop
  | newline : mem (b + i) = 10 → 10 ∉ bytesAt mem b i → EndsAt mem b k i
  | return : mem (b + i) = 13 → 10 ∉ bytesAt mem b k → 13 ∉ bytesAt mem b i → EndsAt mem b k i

theorem lineEnd_some {b : ℤ} {k i : ℕ} (h : (lineEnd x b k w).1 = some i) : i < k ∧ EndsAt x.mem b k i := by
  unfold lineEnd memchr at h
  dsimp only at h
  split at h
  case isTrue hnone =>
    obtain ⟨hlt, hmem, hnot⟩ := findByte_some h
    exact ⟨hlt, .return hmem (findByte_none (Option.isNone_iff_eq_none.mp hnone)) hnot⟩
  case isFalse =>
    obtain ⟨hlt, hmem, hnot⟩ := findByte_some h
    exact ⟨hlt, .newline hmem hnot⟩

theorem lineEnd_keeps {b : ℤ} {k : ℕ} (hlo : s ≤ b) (hhi : b + k ≤ s + nbytes) :
    Keeps (Event.Fits x) (Event.InBounds s nbytes) w.log (lineEnd x b k w).2.log := by
  unfold lineEnd
  dsimp only
  split
  case isTrue => exact (memchr_keeps hlo hhi).trans (memchr_keeps hlo hhi)
  case isFalse => exact memchr_keeps hlo hhi

/-- Behind a line end there is one less. -/
theorem EndsAt.lineEnds {mem : ℤ → UInt8} {b : ℤ} {k i : ℕ} (h : EndsAt mem b k i) (hi : i < k) :
    lineEnds (bytesAt mem b k) = lineEnds (bytesAt mem (b + i + 1) (k - (i + 1))) + 1 := by
  have hsplit := bytesAt_split mem b hi
  cases h with
  | newline hmem hnot => rw [hsplit, hmem, lineEnds_newline hnot]
  | «return» hmem hnone hnot =>
    rw [hsplit, hmem] at hnone
    rw [hsplit, hmem, lineEnds_return hnone hnot]

theorem lineLoop_end {lines : ℕ} {b last : ℤ} : lineLoop x lines b 0 last w = ((last, lines), w) := by
  cases lines <;> rfl

/-- The loop over lines reads from `b` to the end, unless it comes to a carriage return there; and so the last line end is. -/
theorem lineLoop_keeps {lines k : ℕ} {b last : ℤ} (hlo : s ≤ b) (hhi : b + k ≤ s + nbytes)
    (hfew : Relies (Event.Fits x) w.log
      (b + k = s + nbytes → 0 < k → x.mem (b + k - 1) = 13 → lines < lineEnds (bytesAt x.mem b k))) :
    Keeps (Event.Fits x) (Event.InBounds s nbytes) w.log (lineLoop x lines b k last w).2.log ∧
      ((lineLoop x lines b k last w).1.1 = last ∨
        b ≤ (lineLoop x lines b k last w).1.1 ∧ (lineLoop x lines b k last w).1.1 < b + k) := by
  induction lines generalizing b k last w with
  | zero => exact ⟨.refl _, .inl rfl⟩
  | succ lines ih =>
    rw [lineLoop]
    dsimp only
    split
    case isTrue => exact ⟨.refl _, .inl rfl⟩
    case isFalse hk =>
      have hend := @lineEnd_keeps _ x s nbytes w b k hlo hhi
      cases hi : (lineEnd x b k w).1 with
      | none => exact ⟨hend, .inl rfl⟩
      | some i =>
        obtain ⟨hlt, hat⟩ := lineEnd_some hi
        have hnote : Keeps (Event.Fits x) (Event.InBounds s nbytes) w.log
            ((lineEnd x b k w).2.note (.bytes (b + i) 1)).log :=
          hend.trans (note_keeps (inBounds_bytes (by omega) (by push_cast; omega)))
        -- what is left of the data ends where it did, and has one line end less
        have hfew' (w' : Work R) (hgrows : w.log <:+ w'.log) : Relies (Event.Fits x) w'.log
            (b + i + 1 + (k - (i + 1) : ℕ) = s + nbytes → 0 < k - (i + 1) →
              x.mem (b + i + 1 + (k - (i + 1) : ℕ) - 1) = 13 →
                lines < lineEnds (bytesAt x.mem (b + i + 1) (k - (i + 1)))) := by
          refine (hfew.mono hgrows).imp fun h hlast hpos hreturn => ?_
          have hsame : b + i + 1 + (k - (i + 1) : ℕ) = b + k := by omega
          rw [hsame] at hlast hreturn
          have := h hlast (by omega) hreturn
          rw [hat.lineEnds hlt] at this
          omega
        dsimp only
        split
        case isTrue hreturn =>
          have hmem : 10 ∉ bytesAt x.mem b k := by
            cases hat with
            | newline hmem => cases hmem.symm.trans hreturn
            | «return» _ hnone => exact hnone
          have hnext : Keeps (Event.Fits x) (Event.InBounds s nbytes) w.log
              (((lineEnd x b k w).2.note (.bytes (b + i) 1)).note (.bytes (b + i + 1) 1)).log := by
            refine hnote.trans (.note (((hfew.mono hnote.grows).mono (List.suffix_cons _ _)).imp fun h => ?_))
            refine inBounds_bytes (by omega) ?_
            by_contra hout
            -- the carriage return is the last byte of the file: there is no other line end
            have hlast : k = i + 1 := by push_cast at hout; omega
            subst hlast
            have hone := hat.lineEnds hlt
            rw [Nat.sub_self] at hone
            have := h (by push_cast at hout ⊢; omega) (by omega) (by rw [← hreturn]; congr 1; omega)
            rw [hone] at this
            simp only [bytesAt, lineEnds, List.count_nil, List.reverse_nil, List.takeWhile_nil] at this
            omega
          by_cases hrest : k - (i + 1) = 0
          · have hdone : k - (if x.mem (b + i + 1) = 10 then i + 2 else i + 1) = 0 := by
              split <;> omega
            rw [hdone, lineLoop_end]
            refine ⟨hnext, .inr ?_⟩
            dsimp only
            omega
          · have hnat : b + (i + 1 : ℕ) = b + i + 1 := by omega
            have hten : x.mem (b + i + 1) ≠ 10 := by
              intro hten
              rw [bytesAt_split x.mem b (show i + 1 < k by omega), hnat, hten] at hmem
              exact hmem (List.mem_append_right _ List.mem_cons_self)
            rw [if_neg hten, hnat]
            obtain ⟨hkeeps, hlast⟩ := @ih _ _ _ (b + i) (by omega) (by omega) (hfew' _ hnext.grows)
            refine ⟨hnext.trans hkeeps, .inr ?_⟩
            rcases hlast with hlast | ⟨hle, hlt'⟩
            · rw [hlast]
              omega
            · omega
        case isFalse =>
          obtain ⟨hkeeps, hlast⟩ := @ih _ _ _ (b + i) (by omega) (by omega) (hfew' _ hnote.grows)
          refine ⟨hnote.trans hkeeps, .inr ?_⟩
          rcases hlast with hlast | ⟨hle, hlt'⟩
          · rw [hlast]
            omega
          · omega

/-- The loop over characters of 16 bits reads from `src` to the end: in front of the zeros, or behind them. -/
theorem string16Loop_keeps {be : Bool} {room : ℕ} {src esrc : ℤ} (hlo : s + (if be then 1 else 0) ≤ src)
    (hhi : esrc ≤ s + nbytes) (hwhole : Relies (Event.Fits x) w.log (be = false → esrc = s + nbytes →
      ∀ j < room, src + 2 * (j : ℕ) + 1 = esrc → x.mem (esrc - 1) ≠ 0)) :
    Keeps (Event.Fits x) (Event.InBounds s nbytes) w.log (string16Loop x be esrc room src w).2.log := by
  induction room generalizing src w with
  | zero => exact .refl _
  | succ room ih =>
    rw [string16Loop]
    dsimp only
    split
    case isTrue => exact .refl _
    case isFalse hsrc =>
      have hsrc' : (s : ℤ) ≤ src := by
        split at hlo <;> omega
      have hnote : Keeps (Event.Fits x) (Event.InBounds s nbytes) w.log (w.note (.bytes src 1)).log :=
        note_keeps (inBounds_bytes hsrc' (by omega))
      have hwhole' (w' : Work R) (hgrows : w.log <:+ w'.log) : Relies (Event.Fits x) w'.log
          (be = false → esrc = s + nbytes → ∀ j < room, src + 2 + 2 * (j : ℕ) + 1 = esrc → x.mem (esrc - 1) ≠ 0) := by
        refine (hwhole.mono hgrows).imp fun h hbe hend j hj hlast => ?_
        exact h hbe hend (j + 1) (by omega) (by push_cast; omega)
      split
      case isTrue hzero =>
        have hnote' : Keeps (Event.Fits x) (Event.InBounds s nbytes) w.log
            ((w.note (.bytes src 1)).note (.bytes (if be then src - 1 else src + 1) 1)).log := by
          refine hnote.trans (.note (((hwhole.mono hnote.grows).mono (List.suffix_cons _ _)).imp fun h => ?_))
          cases be with
          | true =>
            rw [if_pos rfl] at hlo ⊢
            exact inBounds_bytes (by omega) (by push_cast; omega)
          | false =>
            rw [if_neg Bool.false_ne_true] at hlo ⊢
            refine inBounds_bytes (by omega) ?_
            by_contra hout
            refine h rfl (by push_cast at hout; omega) 0 (by omega) (by push_cast at hout ⊢; omega) ?_
            rw [← hzero]
            congr 1
            push_cast at hout
            omega
        exact hnote'.trans (ih (by omega) (hwhole' _ hnote'.grows))
      case isFalse => exact hnote.trans (ih (by omega) (hwhole' _ hnote.grows))

variable {call : Call} {m : Entry}

/-- The data of a call is a part of the file. -/
def Call.Inside (call : Call) (s nbytes : ℕ) : Prop := s ≤ call.s ∧ call.s + call.nbytes ≤ s + nbytes

theorem copyValue_keeps {p n : ℕ} (hin : call.Inside s nbytes) (hn : n ≤ call.nbytes) :
    Keeps (Event.Fits x) (Event.InBounds s nbytes) w.log (copyValue x call.s p n w).log := by
  obtain ⟨hlo, hhi⟩ := hin
  unfold copyValue
  dsimp only
  split
  case isTrue => exact .refl _
  case isFalse => exact note_keeps (inBounds_bytes (by omega) (by omega))

theorem copyString16_keeps {be : Bool} {p n : ℕ} (hin : call.Inside s nbytes) (hn : n ≤ call.nbytes)
    (hwhole : Relies (Event.Fits x) w.log (be = false → n = call.nbytes →
      ∀ j < maxString - 1, p + 2 * j + 1 = n → x.mem (call.s + n - 1) ≠ 0)) :
    Keeps (Event.Fits x) (Event.InBounds s nbytes) w.log (copyString16 x be call.s p n w).2.log := by
  obtain ⟨hlo, hhi⟩ := hin
  unfold copyString16
  split
  case isTrue => exact .refl _
  case isFalse =>
    refine string16Loop_keeps ?_ (by omega) (hwhole.imp fun h hbe hend j hj hlast => h hbe (by omega) j hj ?_)
    · split <;> omega
    · subst hbe
      rw [if_neg Bool.false_ne_true] at hlast
      omega

theorem copyRegex_keeps {p n lines : ℕ} (hin : call.Inside s nbytes) (hn : n ≤ call.nbytes)
    (hfew : Relies (Event.Fits x) w.log (n = call.nbytes → p < n → x.mem (call.s + n - 1) = 13 →
      lines < lineEnds (bytesAt x.mem (call.s + p) (n - p)))) :
    Keeps (Event.Fits x) (Event.InBounds s nbytes) w.log (copyRegex x call.s p n lines w).log ∧
      (p ≤ n → (copyRegex x call.s p n lines w).search.sLen ≤ n - p) := by
  obtain ⟨hlo, hhi⟩ := hin
  have hsize {last : ℤ} (hle : call.s + p ≤ last) (hlast : last ≤ call.s + n) :
      sizeT (last - (call.s + p)) ≤ n - p := by
    unfold sizeT
    omega
  unfold copyRegex
  dsimp only
  by_cases hp : p < n
  · obtain ⟨hkeeps, hlast⟩ := @lineLoop_keeps _ x s nbytes w lines (n - p) (call.s + p) (call.s + n) (by omega) (by omega)
      (hfew.imp fun h hend hpos hreturn => h (by omega) hp (by rw [← hreturn]; congr 1; omega))
    refine ⟨hkeeps, fun _ => ?_⟩
    split
    case isTrue => exact hsize (by omega) (by omega)
    case isFalse =>
      rcases hlast with hlast | ⟨hle, hlt⟩
      · rw [hlast]
        exact hsize (by omega) (by omega)
      · exact hsize hle (by omega)
  · rw [show n - p = 0 by omega, lineLoop_end]
    refine ⟨.refl _, fun hle => ?_⟩
    obtain rfl : p = n := by omega
    dsimp only
    rw [ite_self]
    have := @hsize (call.s + p) (by omega) (by omega)
    omega

/-- What `mcopy` reads is in the file. -/
theorem mcopy_keeps {indir : Bool} {p : BitVec 32} {n : ℕ} (hin : call.Inside s nbytes) (hn : n ≤ call.nbytes)
    (hfits : indir = false → Relies (Event.Fits x) w.log (CopyFits x m call p.toNat n)) :
    Keeps (Event.Fits x) (Event.InBounds s nbytes) w.log (mcopy x m.type indir call.s p n m.strRange w).2.log := by
  cases indir with
  | true => exact copyValue_keeps hin hn
  | false =>
    have hvalue := @copyValue_keeps _ x s nbytes w call p.toNat n hin hn
    have hfits := hfits rfl
    unfold CopyFits at hfits
    unfold mcopy
    rw [if_neg Bool.false_ne_true]
    cases htype : m.type
    all_goals rw [htype] at hfits
    case search => exact .refl _
    case regex => exact (copyRegex_keeps hin hn hfits).1
    case bestring16 => exact copyString16_keeps hin hn fun _ hbe => by cases hbe
    case lestring16 => exact copyString16_keeps hin hn (hfits.imp fun h _ => h)
    all_goals exact hvalue

/-! ## What `magiccheck` reads -/

/-- Without the flags for white space no more bytes are read than there are in the value. -/
theorem strncmp_reach {flags : BitVec 32} (hflags : flags &&& (stringCompact ||| stringOptional) = 0) {b : ℤ}
    {len : ℕ} {a : List UInt8} {j reach : ℕ} : (strncmp x flags b len a j reach).2 ≤ max reach (j + len) := by
  rw [BitVec.and_or_distrib_left] at hflags
  obtain ⟨hcompact, hoptional⟩ := BitVec.or_eq_zero_iff.mp hflags
  induction len generalizing a j reach with
  | zero => exact le_max_left _ _
  | succ len ih =>
    have hstep : (strncmpStep x flags a b j).2 = (j + 1, j + 1) := by
      unfold strncmpStep
      simp only [hcompact, hoptional, ne_eq]
      split
      case isTrue => rfl
      case isFalse => split <;> rfl
    rw [strncmp, hstep]
    split
    case isTrue => dsimp only; omega
    case isFalse =>
      have := @ih a.tail (j + 1) (max reach (j + 1))
      dsimp only
      omega

/-- What `magiccheck` is about to search is in the file. -/
def Ready (x : Outside R) (s nbytes : ℕ) (m : Entry) (search : Search) : Prop :=
  match m.type with
  | .search => ∀ idx, Tried x m search.s search.sLen idx →
      Event.InBounds s nbytes (.bytes (search.s + idx) (compareAt x m search.s idx).2)
  | .regex => x.regcomp m = true → Event.InBounds s nbytes (.bytes search.s search.sLen)
  | _ => True

theorem searchLoop_keeps (htype : m.type = .search) {count idx : ℕ} {v : BitVec 64}
    (hcount : m.strRange.toNat = 0 ∨ idx + count ≤ m.strRange.toNat)
    (hbefore : ∀ i < idx, (compareAt x m w.search.s i).1 ≠ 0)
    (hready : Relies (Event.Fits x) w.log (Ready x s nbytes m w.search)) :
    Keeps (Event.Fits x) (Event.InBounds s nbytes) w.log (searchLoop x m count idx v w).2.log := by
  induction count generalizing idx v w with
  | zero => exact .refl _
  | succ count ih =>
    rw [searchLoop]
    dsimp only
    split
    case isTrue => exact .refl _
    case isFalse hlen =>
      have hnote : Keeps (Event.Fits x) (Event.InBounds s nbytes) w.log
          (w.note (.bytes (w.search.s + idx) (compareAt x m w.search.s idx).2)).log := by
        refine .note ((hready.mono (List.suffix_cons _ _)).imp fun h => ?_)
        unfold Ready at h
        rw [htype] at h
        exact h idx ⟨by omega, by omega, hbefore⟩
      split
      case isTrue => exact hnote
      case isFalse hne =>
        refine hnote.trans (ih (w := w.note _) (by omega) (fun i hi => ?_) (hready.mono hnote.grows))
        rcases Nat.lt_succ_iff_lt_or_eq.mp hi with hi | rfl
        · exact hbefore i hi
        · exact hne

/-- What `magiccheck` reads is in the file. -/
theorem magiccheck_keeps (hready : Relies (Event.Fits x) w.log (Ready x s nbytes m w.search)) :
    Keeps (Event.Fits x) (Event.InBounds s nbytes) w.log (magiccheck x m w).2.log := by
  unfold magiccheck
  cases htype : m.type
  case search =>
    dsimp only
    refine searchLoop_keeps htype ?_ (fun i hi => absurd hi (Nat.not_lt_zero i)) hready
    split <;> omega
  case regex =>
    dsimp only
    split
    case isTrue => exact .refl _
    case isFalse hcomp =>
      have hnote : Keeps (Event.Fits x) (Event.InBounds s nbytes) w.log
          (w.note (.bytes w.search.s w.search.sLen)).log := by
        refine .note ((hready.mono (List.suffix_cons _ _)).imp fun h => ?_)
        unfold Ready at h
        rw [htype] at h
        exact h (by simpa using hcomp)
      split <;> exact hnote
  all_goals exact .refl _

end CodingExercises.File
