import CodingExercises.Lib.BitSets
import CodingExercises.Coreutils.ModeChange
import Mathlib.Data.List.Induction

/-!
# coreutils: what chmod does to a mode

`mode_adjust` of `lib/modechange.c`, against what the records of a mode change mean for the set of bits of a file's mode
(`chmod`): an operator adds, removes or replaces bits.

- `adjust_mode`: what a record does in the code; only `+` does something else, since it drops the bits that it does not name;
- `adjustsRight_iff`: so all goes well as long as there are no such bits.
-/

namespace CodingExercises.Coreutils

open Lib

/-! ## The program -/

/-- `MODE_COPY_EXISTING`: the bits that are copied to the other two parts. -/
def spread (value : ModeT) : ModeT :=
  (if value &&& sIrugo ≠ 0 then sIrugo else 0) ||| (if value &&& sIwugo ≠ 0 then sIwugo else 0) |||
    (if value &&& sIxugo ≠ 0 then sIxugo else 0)

/-- The bits to add or remove, by the flag of the record. -/
def flagValue (dir : Bool) (change : ModeChange) (newmode : ModeT) : ModeT :=
  match change.flag with
  | .ordinaryChange => change.value
  | .copyExisting =>
    let value := change.value &&& newmode
    value ||| spread value
  | .xIfAnyX => if newmode &&& sIxugo ≠ 0 ∨ dir then change.value ||| sIxugo else change.value

/-- `omit_change`. -/
def omitChange (dir : Bool) (change : ModeChange) : ModeT :=
  (if dir then sIsuid ||| sIsgid else 0) &&& ~~~change.mentioned

/-- The body of the loop of `mode_adjust`, for `newmode` and `mode_bits`. -/
def adjust (dir : Bool) (umaskValue : ModeT) (s : ModeT × ModeT) (change : ModeChange) : ModeT × ModeT :=
  let newmode := s.1
  let modeBits := s.2
  let affected := change.affected
  let value := flagValue dir change newmode &&&
    ((if affected ≠ 0 then affected else ~~~umaskValue) &&& ~~~omitChange dir change)
  if change.op = byte '=' then
    let preserved := (if affected ≠ 0 then ~~~affected else 0) ||| omitChange dir change
    ((newmode &&& preserved) ||| value, modeBits ||| (chmodModeBits &&& ~~~preserved))
  else if change.op = byte '+' then (value, modeBits ||| value)
  else if change.op = byte '-' then (newmode &&& ~~~value, modeBits ||| value)
  else s

/-- `mode_adjust`: the mode, and `*pmode_bits`. -/
def modeAdjust (oldmode : ModeT) (dir : Bool) (umaskValue : ModeT) (changes : List ModeChange) : ModeT × ModeT :=
  changes.foldl (adjust dir umaskValue) (oldmode &&& chmodModeBits, 0)

/-! ## What is expected -/

/-- The bits of a mode. -/
def ModeT.bits (m : ModeT) : Set ℕ := Lib.bits m.toBitVec

instance (m : ModeT) (i : ℕ) : Decidable (i ∈ m.bits) := inferInstanceAs (Decidable (m.toBitVec.getLsbD i = true))

/-- The bits for execution (`k = 0`), writing (`1`) or reading (`2`). -/
def kind (k : ℕ) : Set ℕ := {i | i < 9 ∧ i % 3 = k}

variable (dir : Bool) (umask : ModeT) (c : ModeChange)

/-- The set-id bits, which a record leaves alone on a directory unless it mentions them. -/
def kept : Set ℕ := {i | dir = true ∧ (i = 10 ∨ i = 11) ∧ i ∉ ModeT.bits c.mentioned}

/-- The bits that a record can be about: those of its users, or all of them. -/
def scope : Set ℕ := {i | (c.affected ≠ 0 → i ∈ ModeT.bits c.affected) ∧ i ∉ kept dir c}

/-- The bits that a record names, in the mode `m`: its own, those for execution if there is one or the file is a directory, or
those that some of the users have. -/
def named (m : Set ℕ) : Set ℕ :=
  match c.flag with
  | .ordinaryChange => ModeT.bits c.value
  | .xIfAnyX => {i | i ∈ ModeT.bits c.value ∨ i ∈ kind 0 ∧ (dir = true ∨ ∃ j ∈ kind 0, j ∈ m)}
  | .copyExisting =>
    {i | i ∈ ModeT.bits c.value ∧ i ∈ m ∨ ∃ k, i ∈ kind k ∧ ∃ j ∈ kind k, j ∈ ModeT.bits c.value ∧ j ∈ m}

/-- What it grants or takes: where it names no users, not what the umask masks. -/
def granted (m : Set ℕ) : Set ℕ := {i | i ∈ named dir c m ∧ i ∈ scope dir c ∧ (c.affected = 0 → i ∉ ModeT.bits umask)}

/-- The mode behind a record. -/
def chmod (m : Set ℕ) : Set ℕ :=
  if c.op = byte '=' then m \ scope dir c ∪ granted dir umask c m
  else if c.op = byte '+' then m ∪ granted dir umask c m
  else if c.op = byte '-' then m \ granted dir umask c m
  else m

/-- The bits that a record determines. -/
def determined (m : Set ℕ) : Set ℕ :=
  if c.op = byte '=' then scope dir c
  else if c.op = byte '+' ∨ c.op = byte '-' then granted dir umask c m
  else ∅

/-- The mode behind some records. -/
def chmodAll (cs : List ModeChange) (m : Set ℕ) : Set ℕ := cs.foldl (fun m c => chmod dir umask c m) m

/-- The bits that some records determine. -/
def determinedAll : List ModeChange → Set ℕ → Set ℕ
  | [], _ => ∅
  | c :: cs, m => determined dir umask c m ∪ determinedAll cs (chmod dir umask c m)

/-- The mode that is returned is right, and so is `*pmode_bits`: every bit of `CHMOD_MODE_BITS` that is determined is in it, and
every other is as it was. -/
structure Adjusted (oldmode : ModeT) (changes : List ModeChange) (r : ModeT × ModeT) : Prop where
  mode : ModeT.bits r.1 = chmodAll dir umask changes (ModeT.bits (oldmode &&& chmodModeBits))
  covers : determinedAll dir umask changes (ModeT.bits (oldmode &&& chmodModeBits)) ∩ ModeT.bits chmodModeBits ⊆ ModeT.bits r.2
  outside : ∀ i ∈ ModeT.bits chmodModeBits, i ∉ ModeT.bits r.2 → (i ∈ ModeT.bits r.1 ↔ i ∈ ModeT.bits oldmode)

/-- `mode_adjust` is right about some records, and about those that they begin with. -/
def AdjustsRight (oldmode : ModeT) (changes : List ModeChange) : Prop :=
  ∀ cs, cs <+: changes → Adjusted dir umask oldmode cs (modeAdjust oldmode dir umask cs)

/-! ## Words and sets -/

variable {dir umask c} {x y newmode oldmode : ModeT} {i k : ℕ} {m : Set ℕ}

theorem ModeT.bits_or : ModeT.bits (x ||| y) = ModeT.bits x ∪ ModeT.bits y := by
  rw [ModeT.bits, UInt32.toBitVec_or, Lib.bits_or]
  rfl

theorem ModeT.bits_and : ModeT.bits (x &&& y) = ModeT.bits x ∩ ModeT.bits y := by
  rw [ModeT.bits, UInt32.toBitVec_and, Lib.bits_and]
  rfl

theorem ModeT.mem_bits_not : i ∈ ModeT.bits (~~~x) ↔ i < 32 ∧ i ∉ ModeT.bits x := by
  rw [ModeT.bits, UInt32.toBitVec_not, Lib.bits_not]
  rfl

theorem ModeT.bits_zero : ModeT.bits 0 = ∅ := Lib.bits_zero

theorem ModeT.lt_of_mem (h : i ∈ ModeT.bits x) : i < 32 := lt_of_mem_bits h

theorem ModeT.ne_zero_iff : x ≠ 0 ↔ ∃ i, i ∈ ModeT.bits x :=
  (not_congr UInt32.toBitVec_inj.symm).trans Lib.ne_zero_iff

/-- A constant, bit by bit. -/
theorem ModeT.bits_const {p : ℕ → Prop} [DecidablePred p] (h : ∀ i < 32, x.toBitVec.getLsbD i = true ↔ p i)
    (hlt : ∀ i, p i → i < 32) : ModeT.bits x = {i | p i} := by
  ext i
  by_cases hi : i < 32
  · exact h i hi
  · exact ⟨fun hmem => absurd (ModeT.lt_of_mem hmem) hi, fun hp => absurd (hlt i hp) hi⟩

theorem bits_x : ModeT.bits sIxugo = kind 0 := ModeT.bits_const (by decide) fun _ h => by omega

theorem bits_w : ModeT.bits sIwugo = kind 1 := ModeT.bits_const (by decide) fun _ h => by omega

theorem bits_r : ModeT.bits sIrugo = kind 2 := ModeT.bits_const (by decide) fun _ h => by omega

theorem bits_setIds : ModeT.bits (sIsuid ||| sIsgid) = {i | i = 10 ∨ i = 11} :=
  ModeT.bits_const (by decide) fun _ h => by omega

/-! ## One record -/

/-- One kind of bits that are copied. -/
theorem mem_spread_kind {mask : ModeT} (hmask : ModeT.bits mask = kind k) :
    i ∈ ModeT.bits (if x &&& mask ≠ 0 then mask else 0) ↔ i ∈ kind k ∧ ∃ j ∈ kind k, j ∈ ModeT.bits x := by
  by_cases h : x &&& mask ≠ 0
  · obtain ⟨j, hj⟩ := ModeT.ne_zero_iff.mp h
    rw [ModeT.bits_and, hmask] at hj
    rw [if_pos h, hmask]
    exact ⟨fun hi => ⟨hi, j, hj.2, hj.1⟩, And.left⟩
  · rw [if_neg h, ModeT.bits_zero]
    refine ⟨fun hi => absurd hi (Set.notMem_empty i), fun ⟨_, j, hk, hj⟩ => absurd (ModeT.ne_zero_iff.mpr ⟨j, ?_⟩) h⟩
    rw [ModeT.bits_and, hmask]
    exact ⟨hj, hk⟩

theorem mem_spread : i ∈ ModeT.bits (spread x) ↔ ∃ k, i ∈ kind k ∧ ∃ j ∈ kind k, j ∈ ModeT.bits x := by
  rw [spread, ModeT.bits_or, ModeT.bits_or, Set.mem_union, Set.mem_union, mem_spread_kind bits_r, mem_spread_kind bits_w,
    mem_spread_kind bits_x]
  constructor
  · rintro ((h | h) | h)
    · exact ⟨2, h⟩
    · exact ⟨1, h⟩
    · exact ⟨0, h⟩
  · rintro ⟨k, h⟩
    obtain rfl | rfl | rfl : k = 0 ∨ k = 1 ∨ k = 2 := by
      obtain ⟨⟨-, hmod⟩, -⟩ := h
      omega
    · exact .inr h
    · exact .inl (.inr h)
    · exact .inl (.inl h)

/-- The switch over the flag finds the bits that the record names. -/
theorem flagValue_bits : ModeT.bits (flagValue dir c newmode) = named dir c (ModeT.bits newmode) := by
  unfold flagValue named
  cases c.flag with
  | ordinaryChange => rfl
  | xIfAnyX =>
    have hany : newmode &&& sIxugo ≠ 0 ∨ dir = true ↔ dir = true ∨ ∃ j ∈ kind 0, j ∈ ModeT.bits newmode := by
      rw [ModeT.ne_zero_iff, ModeT.bits_and, bits_x, or_comm]
      exact or_congr_right (exists_congr fun j => and_comm)
    ext i
    dsimp only
    by_cases h : newmode &&& sIxugo ≠ 0 ∨ dir = true
    · rw [if_pos h, ModeT.bits_or, bits_x]
      exact or_congr_right ⟨fun hi => ⟨hi, hany.mp h⟩, And.left⟩
    · rw [if_neg h]
      exact ⟨.inl, fun hi => hi.resolve_right fun hx => h (hany.mpr hx.2)⟩
  | copyExisting =>
    ext i
    dsimp only
    rw [ModeT.bits_or, Set.mem_union, mem_spread, ModeT.bits_and]
    rfl

theorem mem_omitChange : i ∈ ModeT.bits (omitChange dir c) ↔ i ∈ kept dir c := by
  rw [omitChange, ModeT.bits_and, Set.mem_inter_iff, ModeT.mem_bits_not]
  cases dir with
  | false =>
    rw [if_neg Bool.false_ne_true, ModeT.bits_zero]
    exact ⟨fun h => absurd h.1 (Set.notMem_empty i), fun h => absurd h.1 Bool.false_ne_true⟩
  | true =>
    rw [if_pos rfl, bits_setIds]
    exact ⟨fun h => ⟨rfl, h.1, h.2.2⟩, fun h => ⟨h.2.1, by have := h.2.1; omega, h.2.2⟩⟩

/-- The bits that are added or removed are those that the record grants. -/
theorem value_bits : ModeT.bits (flagValue dir c newmode &&&
    ((if c.affected ≠ 0 then c.affected else ~~~umask) &&& ~~~omitChange dir c)) =
      granted dir umask c (ModeT.bits newmode) := by
  ext i
  rw [ModeT.bits_and, ModeT.bits_and, flagValue_bits, Set.mem_inter_iff, Set.mem_inter_iff, ModeT.mem_bits_not,
    mem_omitChange]
  by_cases h : c.affected ≠ 0
  · rw [if_pos h]
    exact ⟨fun hi => ⟨hi.1, ⟨fun _ => hi.2.1, hi.2.2.2⟩, fun hzero => absurd hzero h⟩,
      fun hi => ⟨hi.1, hi.2.1.1 h, ModeT.lt_of_mem (hi.2.1.1 h), hi.2.1.2⟩⟩
  · rw [if_neg h, ModeT.mem_bits_not]
    refine ⟨fun hi => ⟨hi.1, ⟨fun hne => absurd hne h, hi.2.2.2⟩, fun _ => hi.2.1.2⟩, fun hi => ?_⟩
    have hlt : i < 32 := by
      rw [granted, ← flagValue_bits] at hi
      exact ModeT.lt_of_mem hi.1
    exact ⟨hi.1, ⟨hlt, hi.2.2 (not_not.mp h)⟩, hlt, hi.2.1.2⟩

theorem mem_preserved : i ∈ ModeT.bits ((if c.affected ≠ 0 then ~~~c.affected else 0) ||| omitChange dir c) ↔
    i < 32 ∧ i ∉ scope dir c := by
  have hkept : i ∈ kept dir c → i < 32 := fun h => by
    have := h.2.1
    omega
  rw [ModeT.bits_or, Set.mem_union, mem_omitChange]
  by_cases h : c.affected ≠ 0
  · rw [if_pos h, ModeT.mem_bits_not]
    have hscope : i ∉ scope dir c ↔ i ∉ ModeT.bits c.affected ∨ i ∈ kept dir c := by
      rw [scope, Set.mem_ofPred_eq, not_and_or, not_not]
      exact or_congr_left (not_congr ⟨fun h' => h' h, fun h' _ => h'⟩)
    rw [hscope]
    exact ⟨fun h => h.elim (fun h => ⟨h.1, .inl h.2⟩) fun h => ⟨hkept h, .inr h⟩,
      fun h => h.2.elim (fun h' => .inl ⟨h.1, h'⟩) .inr⟩
  · rw [if_neg h, ModeT.bits_zero]
    have hscope : i ∉ scope dir c ↔ i ∈ kept dir c := by
      rw [scope, Set.mem_ofPred_eq, not_and_or, not_not]
      exact or_iff_right fun h' => h' fun hne => absurd hne h
    rw [hscope]
    exact ⟨fun h => h.elim (fun h => absurd h (Set.notMem_empty i)) fun h => ⟨hkept h, h⟩, fun h => .inr h.2⟩

theorem granted_subset : granted dir umask c m ⊆ scope dir c := fun _ h => h.2.1

/-- The mode behind a record: that of `chmod`, but for `+`, where there is nothing left but what is added. -/
theorem adjust_mode (s : ModeT × ModeT) : ModeT.bits (adjust dir umask s c).1 =
    if c.op = byte '+' then granted dir umask c (ModeT.bits s.1) else chmod dir umask c (ModeT.bits s.1) := by
  have hvalue := @value_bits dir umask c s.1
  unfold adjust chmod
  dsimp only
  generalize flagValue dir c s.1 &&& _ = value at hvalue ⊢
  by_cases hset : c.op = byte '='
  · rw [if_pos hset, if_neg (show c.op ≠ byte '+' by rw [hset]; decide), if_pos hset, ModeT.bits_or, hvalue]
    ext i
    rw [Set.mem_union, Set.mem_union, ModeT.bits_and, Set.mem_inter_iff, mem_preserved, Set.mem_sdiff]
    exact or_congr_left ⟨fun h => ⟨h.1, h.2.2⟩, fun h => ⟨h.1, ModeT.lt_of_mem h.1, h.2⟩⟩
  · rw [if_neg hset, if_neg hset]
    by_cases hadd : c.op = byte '+'
    · rw [if_pos hadd, if_pos hadd]
      exact hvalue
    · rw [if_neg hadd, if_neg hadd, if_neg hadd]
      by_cases hremove : c.op = byte '-'
      · rw [if_pos hremove, if_pos hremove]
        ext i
        rw [ModeT.bits_and, Set.mem_inter_iff, ModeT.mem_bits_not, hvalue, Set.mem_sdiff]
        exact ⟨fun h => ⟨h.1, h.2.2⟩, fun h => ⟨h.1, ModeT.lt_of_mem h.1, h.2⟩⟩
      · rw [if_neg hremove, if_neg hremove]

/-- `mode_bits` behind a record. -/
theorem adjust_modeBits (s : ModeT × ModeT) (hchmod : i ∈ ModeT.bits chmodModeBits) :
    i ∈ ModeT.bits (adjust dir umask s c).2 ↔ i ∈ ModeT.bits s.2 ∨ i ∈ determined dir umask c (ModeT.bits s.1) := by
  have hvalue := @value_bits dir umask c s.1
  unfold adjust determined
  dsimp only
  generalize flagValue dir c s.1 &&& _ = value at hvalue ⊢
  by_cases hset : c.op = byte '='
  · rw [if_pos hset, if_pos hset, ModeT.bits_or, ModeT.bits_and, Set.mem_union, Set.mem_inter_iff, ModeT.mem_bits_not,
      mem_preserved]
    refine or_congr_right ⟨fun h => ?_, fun h => ⟨hchmod, ModeT.lt_of_mem hchmod, fun h' => h'.2 h⟩⟩
    by_contra hnot
    exact h.2.2 ⟨ModeT.lt_of_mem hchmod, hnot⟩
  · rw [if_neg hset, if_neg hset]
    by_cases hadd : c.op = byte '+'
    · rw [if_pos hadd, if_pos (Or.inl hadd : c.op = byte '+' ∨ c.op = byte '-'), ModeT.bits_or, hvalue]
      rfl
    · rw [if_neg hadd]
      by_cases hremove : c.op = byte '-'
      · rw [if_pos hremove, if_pos (Or.inr hremove : c.op = byte '+' ∨ c.op = byte '-'), ModeT.bits_or, hvalue]
        rfl
      · rw [if_neg hremove, if_neg (not_or.mpr ⟨hadd, hremove⟩)]
        exact (or_iff_left (Set.notMem_empty i)).symm

/-- What is not determined stays. -/
theorem chmod_outside (h : i ∉ determined dir umask c m) : i ∈ chmod dir umask c m ↔ i ∈ m := by
  unfold determined at h
  unfold chmod
  by_cases hset : c.op = byte '='
  · rw [if_pos hset] at h ⊢
    exact ⟨fun hi => hi.elim And.left fun hi => absurd (granted_subset hi) h, fun hi => .inl ⟨hi, h⟩⟩
  · rw [if_neg hset] at h ⊢
    by_cases hadd : c.op = byte '+'
    · rw [if_pos (Or.inl hadd : c.op = byte '+' ∨ c.op = byte '-')] at h
      rw [if_pos hadd]
      exact or_iff_left h
    · rw [if_neg hadd]
      by_cases hremove : c.op = byte '-'
      · rw [if_pos (Or.inr hremove : c.op = byte '+' ∨ c.op = byte '-')] at h
        rw [if_pos hremove]
        exact and_iff_left h
      · rw [if_neg hremove]

/-! ## Some records -/

variable {cs changes : List ModeChange} {r : ModeT × ModeT}

theorem modeAdjust_concat : modeAdjust oldmode dir umask (cs ++ [c]) = adjust dir umask (modeAdjust oldmode dir umask cs) c :=
  List.foldl_concat ..

theorem chmodAll_concat : chmodAll dir umask (cs ++ [c]) m = chmod dir umask c (chmodAll dir umask cs m) :=
  List.foldl_concat ..

theorem determinedAll_concat : determinedAll dir umask (cs ++ [c]) m =
    determinedAll dir umask cs m ∪ determined dir umask c (chmodAll dir umask cs m) := by
  induction cs generalizing m with
  | nil => exact (Set.union_empty _).trans (Set.empty_union _).symm
  | cons d cs ih =>
    rw [List.cons_append, determinedAll, ih, determinedAll, Set.union_assoc]
    rfl

theorem adjusted_nil (oldmode : ModeT) : Adjusted dir umask oldmode [] (modeAdjust oldmode dir umask []) where
  mode := rfl
  covers := fun _ h => absurd h.1 (Set.notMem_empty _)
  outside i hi _ := by
    show i ∈ ModeT.bits (oldmode &&& chmodModeBits) ↔ _
    rw [ModeT.bits_and]
    exact and_iff_left hi

/-- What a record does that drops nothing. -/
theorem Adjusted.concat (h : Adjusted dir umask oldmode cs r)
    (hadd : c.op = byte '+' → ModeT.bits r.1 ⊆ granted dir umask c (ModeT.bits r.1)) :
    Adjusted dir umask oldmode (cs ++ [c]) (adjust dir umask r c) := by
  have hmode : ModeT.bits (adjust dir umask r c).1 = chmod dir umask c (ModeT.bits r.1) := by
    rw [adjust_mode]
    by_cases hop : c.op = byte '+'
    · rw [if_pos hop, chmod, if_neg (by rw [hop]; decide), if_pos hop]
      exact (Set.union_eq_self_of_subset_left (hadd hop)).symm
    · rw [if_neg hop]
  refine ⟨?_, ?_, ?_⟩
  · rw [hmode, chmodAll_concat, h.mode]
  · rintro i ⟨hi, hchmod⟩
    rw [determinedAll_concat, ← h.mode] at hi
    rw [adjust_modeBits r hchmod]
    exact hi.imp_left fun hi => h.covers ⟨hi, hchmod⟩
  · intro i hchmod hi
    rw [adjust_modeBits r hchmod, not_or] at hi
    rw [hmode, chmod_outside hi.2]
    exact h.outside i hchmod hi.1

/-- `mode_adjust` is right exactly when no `+` comes to a mode with a bit that it does not grant. -/
theorem adjustsRight_iff (dir : Bool) (umask oldmode : ModeT) (changes : List ModeChange) :
    AdjustsRight dir umask oldmode changes ↔ ∀ cs c, cs ++ [c] <+: changes → c.op = byte '+' →
      chmodAll dir umask cs (ModeT.bits (oldmode &&& chmodModeBits)) ⊆
        granted dir umask c (chmodAll dir umask cs (ModeT.bits (oldmode &&& chmodModeBits))) := by
  constructor
  · intro h cs c hpre hop
    have hbefore := (h cs ((List.prefix_append cs [c]).trans hpre)).mode
    have hafter := (h _ hpre).mode
    rw [modeAdjust_concat, adjust_mode, if_pos hop, chmodAll_concat, hbefore, chmod, if_neg (by rw [hop]; decide),
      if_pos hop] at hafter
    rw [hafter]
    exact Set.subset_union_left
  · intro h cs
    induction cs using List.reverseRecOn with
    | nil => exact fun _ => adjusted_nil oldmode
    | append_singleton cs c ih =>
      intro hpre
      have hbefore := ih ((List.prefix_append cs [c]).trans hpre)
      rw [modeAdjust_concat]
      refine hbefore.concat fun hop => ?_
      rw [hbefore.mode]
      exact h cs c hpre hop

/-- `u+x`. -/
def userExecute : ModeChange := ⟨byte '+', .ordinaryChange, sIsuid ||| sIrwxu, sIxugo, 0o100⟩

/-- `u+x` makes 0100 of 0644. -/
theorem not_adjustsRight_user : ¬AdjustsRight false 0o022 0o644 [userExecute] := by
  intro h
  have hmode := (h [userExecute] List.prefix_rfl).mode
  have hold : 8 ∈ chmodAll false 0o022 [userExecute] (ModeT.bits (0o644 &&& chmodModeBits)) := by
    refine Or.inl ?_
    decide
  rw [← hmode] at hold
  exact absurd hold (by decide)

end CodingExercises.Coreutils
