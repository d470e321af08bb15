import CodingExercises.Coreutils.FtsDescriptors

/-!
# fts: the accounts of the descriptors

Who owns the descriptors that are open: the stream, by `fts_cwd_fd`, the ring and `fts_rfd`; the entries on the path that
have been followed, by `fts_symfd`; and a call, for a while, a directory stream and what it has opened. Each function keeps
the accounts (`Holds`) but for what a followed symbolic link loses when its entry is left without closing `fts_symfd`.
-/

namespace CodingExercises.Coreutils.FtsDescriptors

open Lib Lib.Ledger
open Fts (Path Name Errno Kind Dirent Stat IRing iRingInit iRingPush iRingPop atFdcwd isDot)

variable {κ : Type} {env : Env κ} {s s' : FTS κ} {p p' : FTSENT} {m : Multiset ℤ} {n : ℕ}

/-! ## The ring -/

/-- The slots from `ir_back` to `ir_front`. -/
def defined (ir : IRing) (k : Fin 4) : Prop := ir.empty = false ∧ k - ir.back ≤ ir.front - ir.back

/-- The slots that are not defined hold no descriptor. -/
def RingOk (ir : IRing) : Prop := ∀ k, ¬ defined ir k → ir.data k < 0

theorem ringOk_init : RingOk iRingInit := by
  have hneg : ∀ k, iRingInit.data k < 0 := by decide
  exact fun k _ => hneg k

theorem ringOk_push {ir : IRing} (h : RingOk ir) (val : ℤ) : RingOk (iRingPush ir val).2 := by
  have hslots : ∀ (front back k : Fin 4) (empty : Bool),
      ¬ k - (if (if empty then front else front + 1) = back then (if empty then back else back + 1) else back) ≤
        (if empty then front else front + 1) -
          (if (if empty then front else front + 1) = back then (if empty then back else back + 1) else back) →
      k ≠ (if empty then front else front + 1) ∧ ¬ (empty = false ∧ k - back ≤ front - back) := by decide
  intro k hk
  have hk : ¬ k - (iRingPush ir val).2.back ≤ (iRingPush ir val).2.front - (iRingPush ir val).2.back :=
    fun hle => hk ⟨rfl, hle⟩
  obtain ⟨hne, hout⟩ := hslots ir.front ir.back k ir.empty hk
  unfold iRingPush
  dsimp only
  rw [Function.update_of_ne hne]
  exact h k hout

theorem ringOk_pop {ir ir' : IRing} {fd : ℤ} (h : RingOk ir) (hpop : iRingPop ir = some (fd, ir')) : RingOk ir' := by
  have hslots : ∀ (front back k : Fin 4),
      ¬ (decide (front = back) = false ∧ k - back ≤ (if front = back then front else front + 3) - back) →
      k = front ∨ ¬ k - back ≤ front - back := by decide
  unfold iRingPop at hpop
  split at hpop
  · cases hpop
  · cases hpop
    intro k hk
    dsimp only
    by_cases hfront : k = ir.front
    · rw [hfront, Function.update_self]
      decide
    · rw [Function.update_of_ne hfront]
      have hout := (hslots ir.front ir.back k hk).resolve_left hfront
      exact h k fun hdefined => hout hdefined.2

/-- What the ring owns. -/
def ringFds (ir : IRing) : Multiset ℤ := slot (ir.data 0) + slot (ir.data 1) + slot (ir.data 2) + slot (ir.data 3)

/-- A slot is taken from the ring and given another descriptor. -/
theorem ringFds_update {data : Fin 4 → ℤ} {front front' back back' : Fin 4} {empty empty' : Bool} (k : Fin 4) (v : ℤ) :
    ringFds ⟨Function.update data k v, front', back', empty'⟩ + slot (data k) =
      ringFds ⟨data, front, back, empty⟩ + slot v := by
  have hk : k = 0 ∨ k = 1 ∨ k = 2 ∨ k = 3 := by revert k; decide
  simp only [ringFds]
  obtain rfl | rfl | rfl | rfl := hk
  · simp [Function.update]
    ac_rfl
  · simp [Function.update]
    ac_rfl
  · simp [Function.update]
    ac_rfl
  · simp [Function.update]
    ac_rfl

theorem ringFds_eq_zero {ir : IRing} (h : RingOk ir) (hempty : ir.empty = true) : ringFds ir = 0 := by
  have hneg : ∀ k, slot (ir.data k) = 0 := by
    intro k
    apply slot_of_neg
    apply h k
    rintro ⟨hfull, -⟩
    rw [hempty] at hfull
    cases hfull
  simp only [ringFds, hneg, add_zero]

/-! ## Streams -/

/-- What the stream owns by `fts_rfd`. -/
def ownRfd (s : FTS κ) : Multiset ℤ := if s.options.nochdir || s.options.cwdfd then 0 else {s.rfd}

/-- What the stream owns. -/
def own (s : FTS κ) : Multiset ℤ := slot s.cwdFd + ringFds s.ring + ownRfd s

/-- The accounts are right when others than the stream own `m`, and no more than `n` have been open at a time. -/
structure Holds (s : FTS κ) (m : Multiset ℤ) (n : ℕ) : Prop where
  owned : Owned s.ledger (own s + m) n
  here : s.cwdFd = atFdcwd ∨ s.options.cwdfd = true ∧ 0 ≤ s.cwdFd
  ring : RingOk s.ring

/-- What no function changes but `fts_open` and those that end a call. -/
structure Kept (s s' : FTS κ) : Prop where
  cur : s'.cur = s.cur
  options : s'.options = s.options
  rfd : s'.rfd = s.rfd

theorem Kept.refl (s : FTS κ) : Kept s s := ⟨rfl, rfl, rfl⟩

theorem Kept.trans {s₁ : FTS κ} (h : Kept s s₁) (h' : Kept s₁ s') : Kept s s' :=
  ⟨h'.cur.trans h.cur, h'.options.trans h.options, h'.rfd.trans h.rfd⟩

theorem card_ringFds_le (ir : IRing) : (ringFds ir).card ≤ 4 := by
  have h := fun k => card_slot_le (ir.data k)
  have h0 := h 0
  have h1 := h 1
  have h2 := h 2
  have h3 := h 3
  simp only [ringFds, Multiset.card_add]
  omega

/-- The stream owns at most the ring and two more. -/
theorem card_own_le (s : FTS κ) : (own s).card ≤ 6 := by
  have hcwd := card_slot_le s.cwdFd
  have hring := card_ringFds_le s.ring
  unfold own ownRfd
  split <;> simp only [Multiset.card_add, Multiset.card_zero, Multiset.card_singleton] <;> omega

theorem Holds.congr (h : Holds s m n) {m' : Multiset ℤ} (hm : m = m') : Holds s m' n := hm ▸ h

theorem Holds.mono (h : Holds s m n) {n' : ℕ} (hn : n ≤ n') : Holds s m n' := ⟨h.owned.mono hn, h.here, h.ring⟩

theorem Holds.tick (h : Holds s m n) : Holds s.tick m n := ⟨h.owned, h.here, h.ring⟩

/-- A descriptor that somebody owns is used. -/
theorem Holds.uses (h : Holds s m n) {fd : ℤ} (hfd : fd = atFdcwd ∨ fd ∈ own s + m) : Holds (s.uses fd) m n := by
  unfold FTS.uses
  split
  · exact h
  · rename_i hne
    exact ⟨h.owned.use (hfd.resolve_left hne), h.here, h.ring⟩

theorem Holds.cwd_mem (h : Holds s m n) : s.cwdFd = atFdcwd ∨ s.cwdFd ∈ own s + m := by
  obtain hat | ⟨-, hpos⟩ := h.here
  · exact .inl hat
  · right
    have hslot : s.cwdFd ∈ slot s.cwdFd := by
      rw [slot_of_nonneg hpos]
      exact Multiset.mem_singleton_self _
    simp only [own, Multiset.mem_add]
    exact .inl (.inl (.inl hslot))

/-- A descriptor that is owned besides is closed. -/
theorem Holds.closes {fd : ℤ} (h : Holds s (fd ::ₘ m) n) : Holds (s.closes fd) m n := by
  refine ⟨?_, h.here, h.ring⟩
  have howned := h.owned
  rw [Multiset.add_cons] at howned
  exact howned.release

theorem kept_tick (s : FTS κ) : Kept s s.tick := ⟨rfl, rfl, rfl⟩

theorem kept_uses (s : FTS κ) (fd : ℤ) : Kept s (s.uses fd) := by
  unfold FTS.uses
  split <;> exact ⟨rfl, rfl, rfl⟩

/-- What a call that opens leaves: an error, or a descriptor that is owned besides. -/
structure Opened (s : FTS κ) (m : Multiset ℤ) (n : ℕ) (r : Except Errno ℤ × FTS κ) : Prop where
  holds : Holds r.2 (match r.1 with | .error _ => m | .ok fd => fd ::ₘ m) n
  nonneg : ∀ fd, r.1 = .ok fd → 0 ≤ fd
  kept : Kept s r.2

theorem Holds.opens (env : Env κ) (h : Holds s m n) (hn : m.card + 7 ≤ n) : Opened s m n (s.opens env) := by
  unfold FTS.opens
  cases env.os.fails s.now with
  | some e => exact ⟨h.tick, nofun, ⟨rfl, rfl, rfl⟩⟩
  | none =>
    have hcard : (own s + m).card + 1 ≤ n := by
      have hown := card_own_le s
      rw [Multiset.card_add]
      omega
    have howned := h.owned.acquire hcard
    refine ⟨⟨?_, h.here, h.ring⟩, ?_, ⟨rfl, rfl, rfl⟩⟩
    · exact howned.congr (Multiset.add_cons _ _ _).symm
    · rintro fd hfd
      cases hfd
      exact Int.natCast_nonneg _

theorem Opened.of_kept {s₁ : FTS κ} {r : Except Errno ℤ × FTS κ} (h : Opened s₁ m n r) (hkept : Kept s s₁) : Opened s m n r :=
  ⟨h.holds, h.nonneg, hkept.trans h.kept⟩

theorem Holds.diropen (env : Env κ) (h : Holds s m n) (hn : m.card + 7 ≤ n) : Opened s m n (diropen env s) := by
  unfold FtsDescriptors.diropen
  split
  · exact ((h.uses h.cwd_mem).opens env hn).of_kept (kept_uses s s.cwdFd)
  · exact h.opens env hn

/-- What the functions that look at an entry leave as it is. -/
structure SameEntry (p p' : FTSENT) : Prop where
  level : p'.level = p.level
  symfollow : p'.symfollow = p.symfollow
  symfd : p'.symfd = p.symfd
  symOpen : p'.symOpen = p.symOpen
  instr : p'.instr = p.instr

theorem SameEntry.refl (p : FTSENT) : SameEntry p p := ⟨rfl, rfl, rfl, rfl, rfl⟩

theorem ftsStat_same (env : Env κ) (s : FTS κ) (p : FTSENT) (follow : Bool) :
    SameEntry p (ftsStat env s p follow).1 ∧ Kept s (ftsStat env s p follow).2 := by
  have hkept : Kept s (s.uses s.cwdFd).tick := (kept_uses s s.cwdFd).trans ⟨rfl, rfl, rfl⟩
  unfold ftsStat
  dsimp only
  split
  · split
    · exact ⟨⟨rfl, rfl, rfl, rfl, rfl⟩, rfl, rfl, rfl⟩
    · split
      · split <;> exact ⟨⟨rfl, rfl, rfl, rfl, rfl⟩, rfl, rfl, rfl⟩
      · exact ⟨⟨rfl, rfl, rfl, rfl, rfl⟩, rfl, rfl, rfl⟩
  · split <;> exact ⟨⟨rfl, rfl, rfl, rfl, rfl⟩, hkept⟩

theorem Holds.stat (h : Holds s m n) (env : Env κ) (p : FTSENT) (follow : Bool) : Holds (ftsStat env s p follow).2 m n := by
  have huses := (h.uses h.cwd_mem).tick
  unfold ftsStat
  dsimp only
  split
  · split
    · exact h.tick
    · split
      · split <;> exact h.tick.tick
      · exact h.tick
  · split <;> exact huses

/-! ## The virtual working directory -/

theorem ringFds_push (ir : IRing) (val : ℤ) :
    ringFds (iRingPush ir val).2 + slot (iRingPush ir val).1 = ringFds ir + slot val := by
  unfold iRingPush
  exact ringFds_update _ val

theorem ringFds_pop {ir ir' : IRing} {fd : ℤ} (hpop : iRingPop ir = some (fd, ir')) : ringFds ir' + slot fd = ringFds ir := by
  unfold iRingPop at hpop
  split at hpop
  · cases hpop
  · cases hpop
    rw [ringFds_update ir.front (-1)]
    exact add_zero _

theorem atFdcwd_neg : atFdcwd < 0 := by decide

/-- The descriptor of `fts_cwd_fd` goes to the ring, and the one that is displaced is closed. -/
theorem Holds.advance {fd : ℤ} (h : Holds s (slot fd + m) n) (hcwdfd : s.options.cwdfd = true) (hfd : fd = atFdcwd ∨ 0 ≤ fd)
    (hrun : cwdAdvancedFd s fd true = some s') : Holds s' m n ∧ Kept s s' := by
  have hring := ringOk_push h.ring s.cwdFd
  have hfds := ringFds_push s.ring s.cwdFd
  unfold cwdAdvancedFd at hrun
  dsimp only at hrun
  generalize hpush : iRingPush s.ring s.cwdFd = push at hring hfds hrun
  obtain ⟨prev, ring⟩ := push
  -- the stream gives `fts_cwd_fd` to the ring, and takes `fd`
  have hshare : own s + (slot fd + m) = slot prev + (own { s with ring, cwdFd := fd } + m) := by
    calc own s + (slot fd + m)
        = (ringFds s.ring + slot s.cwdFd) + (slot fd + ownRfd s + m) := by rw [own]; ac_rfl
      _ = (ringFds ring + slot prev) + (slot fd + ownRfd s + m) := by rw [← hfds]
      _ = slot prev + (slot fd + ringFds ring + ownRfd s + m) := by ac_rfl
  have howned := h.owned.congr hshare
  have hfd' : fd = atFdcwd ∨ s.options.cwdfd = true ∧ 0 ≤ fd := hfd.imp_right fun hpos => ⟨hcwdfd, hpos⟩
  split at hrun
  · cases hrun
  · simp only [if_true] at hrun
    cases hrun
    by_cases hprev : 0 ≤ prev
    · rw [slot_of_nonneg hprev, Multiset.singleton_add] at howned
      rw [if_pos hprev]
      exact ⟨⟨howned.release, hfd', hring⟩, rfl, rfl, rfl⟩
    · rw [slot_of_neg (Int.not_le.mp hprev), zero_add] at howned
      rw [if_neg hprev]
      exact ⟨⟨howned, hfd', hring⟩, rfl, rfl, rfl⟩

/-- One turn of clearing closes a descriptor of the ring, if it takes one. -/
theorem clearOne_owned (hring : RingOk s.ring) (h : Owned s.ledger (ringFds s.ring + m) n) :
    Owned (fdRingClearOne s).ledger (ringFds (fdRingClearOne s).ring + m) n ∧ RingOk (fdRingClearOne s).ring := by
  unfold fdRingClearOne
  cases hpop : iRingPop s.ring with
  | none => exact ⟨h, hring⟩
  | some popped =>
    obtain ⟨fd, ring⟩ := popped
    have hshare : ringFds s.ring + m = slot fd + (ringFds ring + m) := by
      rw [← ringFds_pop hpop]
      ac_rfl
    have howned := h.congr hshare
    have hring' := ringOk_pop hring hpop
    dsimp only
    by_cases hfd : 0 ≤ fd
    · rw [slot_of_nonneg hfd, Multiset.singleton_add] at howned
      rw [if_pos hfd]
      exact ⟨howned.release, hring'⟩
    · rw [slot_of_neg (Int.not_le.mp hfd), zero_add] at howned
      rw [if_neg hfd]
      exact ⟨howned, hring'⟩

theorem kept_clearOne (s : FTS κ) : Kept s (fdRingClearOne s) ∧ (fdRingClearOne s).cwdFd = s.cwdFd := by
  unfold fdRingClearOne
  split
  · exact ⟨.refl s, rfl⟩
  · split <;> exact ⟨⟨rfl, rfl, rfl⟩, rfl⟩

theorem kept_clear (s : FTS κ) : Kept s (fdRingClear s) ∧ (fdRingClear s).cwdFd = s.cwdFd := by
  have h₁ := kept_clearOne s
  have h₂ := kept_clearOne (fdRingClearOne s)
  have h₃ := kept_clearOne (fdRingClearOne (fdRingClearOne s))
  have h₄ := kept_clearOne (fdRingClearOne (fdRingClearOne (fdRingClearOne s)))
  exact ⟨h₁.1.trans (h₂.1.trans (h₃.1.trans h₄.1)), h₄.2.trans (h₃.2.trans (h₂.2.trans h₁.2))⟩

theorem size_fdRingClearOne (s : FTS κ) : (fdRingClearOne s).ring.size = s.ring.size - 1 := by
  unfold fdRingClearOne
  split
  · rename_i hpop
    rw [IRing.size_of_pop_none hpop]
  · rename_i hpop
    have hsize := IRing.size_pop hpop
    split <;> simp only [FTS.closes] <;> omega

theorem fdRingClear_empty (s : FTS κ) : (fdRingClear s).ring.empty = true := by
  have hle := s.ring.size_le
  apply IRing.empty_of_size
  simp only [fdRingClear, size_fdRingClearOne]
  omega

/-- The ring is cleared. -/
theorem clear_owned (hring : RingOk s.ring) (h : Owned s.ledger (ringFds s.ring + m) n) :
    Owned (fdRingClear s).ledger m n ∧ RingOk (fdRingClear s).ring ∧ ringFds (fdRingClear s).ring = 0 := by
  obtain ⟨h₁, hring₁⟩ := clearOne_owned hring h
  obtain ⟨h₂, hring₂⟩ := clearOne_owned hring₁ h₁
  obtain ⟨h₃, hring₃⟩ := clearOne_owned hring₂ h₂
  obtain ⟨h₄, hring₄⟩ := clearOne_owned hring₃ h₃
  have hzero := ringFds_eq_zero hring₄ (fdRingClear_empty s)
  exact ⟨h₄.congr (by rw [hzero, zero_add]), hring₄, hzero⟩

theorem Holds.clear (h : Holds s m n) : Holds (fdRingClear s) m n ∧ Kept s (fdRingClear s) := by
  obtain ⟨hkept, hcwd⟩ := kept_clear s
  have hshare : own s + m = ringFds s.ring + (slot s.cwdFd + ownRfd s + m) := by
    rw [own]
    ac_rfl
  obtain ⟨howned, hring, hzero⟩ := clear_owned h.ring (h.owned.congr hshare)
  have hown : own (fdRingClear s) = slot s.cwdFd + ownRfd s := by
    rw [own, hcwd, hzero, add_zero, ownRfd, ownRfd, hkept.options, hkept.rfd]
  refine ⟨⟨howned.congr (by rw [hown]), ?_, hring⟩, hkept⟩
  rw [hcwd, hkept.options]
  exact h.here

theorem Holds.fchdir {fd : ℤ} (env : Env κ) (h : Holds s m n) (hfd : fd = atFdcwd ∨ fd ∈ own s + m) :
    Holds (s.fchdir env fd).2 m n ∧ Kept s (s.fchdir env fd).2 :=
  ⟨(h.uses hfd).tick, (kept_uses s fd).trans ⟨rfl, rfl, rfl⟩⟩

/-- Back to the initial working directory. -/
theorem Holds.restore {err : Option Errno} (h : Holds s m n) (hrun : restoreInitialCwd env s = some (err, s')) :
    Holds s' m n ∧ Kept s s' := by
  obtain ⟨hclear, hkept⟩ := h.clear
  unfold restoreInitialCwd ftsFchdir at hrun
  dsimp only at hrun
  split at hrun
  · cases hrun
    exact ⟨hclear, hkept⟩
  · rename_i hnochdir
    split at hrun
    · obtain ⟨s₁, hadvance, heq⟩ := Option.map_eq_some_iff.mp hrun
      cases heq
      have hslot : Holds (fdRingClear s) (slot atFdcwd + m) n :=
        hclear.congr (by rw [slot_of_neg atFdcwd_neg, zero_add])
      rename_i hcwdfd
      obtain ⟨hholds, hkept'⟩ := hslot.advance hcwdfd (.inl rfl) hadvance
      exact ⟨hholds, hkept.trans hkept'⟩
    · rename_i hcwdfd
      have hrfd : (fdRingClear s).rfd ∈ own (fdRingClear s) + m := by
        have hown : ownRfd (fdRingClear s) = {(fdRingClear s).rfd} := by
          simp [ownRfd, hnochdir, hcwdfd]
        simp [own, hown]
      obtain ⟨hholds, hkept'⟩ := hclear.fchdir env (.inr hrfd)
      cases hrun
      exact ⟨hholds, hkept.trans hkept'⟩

/-- Down to a directory, by a descriptor that goes to the stream with `FTS_CWDFD`. -/
theorem Holds.changedir {fd : ℤ} {err : Option Errno} (hfd : 0 ≤ fd) (hmem : s.options.cwdfd = false → fd ∈ m)
    (hmode : s.options.nochdir = true → s.options.cwdfd = false)
    (h : Holds s (if s.options.cwdfd then slot fd + m else m) n) (hrun : ftsSafeChangedir env s fd none = some (err, s')) :
    Holds s' m n ∧ Kept s s' ∧ (s.options.cwdfd = true → err = none) := by
  have hneg : ¬ fd < 0 := Int.not_lt.mpr hfd
  unfold ftsSafeChangedir at hrun
  dsimp only at hrun
  split at hrun
  · rename_i hnochdir
    have hcwdfd := hmode hnochdir
    simp only [hcwdfd, Bool.false_eq_true, false_and, if_false] at h hrun
    cases hrun
    exact ⟨h, .refl s, fun _ => rfl⟩
  · simp only [hneg, false_and, if_false, Option.bind_eq_bind, Option.bind_some] at hrun
    split at hrun
    · rename_i hcwdfd
      rw [if_pos hcwdfd] at h
      obtain ⟨s₁, hadvance, heq⟩ := Option.map_eq_some_iff.mp hrun
      cases heq
      have hdotdot : (!decide ((none : Option Path) = some [])) = true := by decide
      rw [hdotdot] at hadvance
      obtain ⟨hholds, hkept⟩ := h.advance hcwdfd (.inr hfd) hadvance
      exact ⟨hholds, hkept, fun _ => rfl⟩
    · rename_i hcwdfd
      rw [if_neg hcwdfd] at h
      have hmem := hmem (by simpa using hcwdfd)
      obtain ⟨hholds, hkept⟩ := h.fchdir env (.inr (Multiset.mem_add.mpr (.inr hmem)))
      cases hrun
      exact ⟨hholds, hkept, fun hc => absurd hc hcwdfd⟩

/-- Up to the directory above. -/
theorem Holds.dotdot {err : Option Errno} (h : Holds s m n) (hn : m.card + 7 ≤ n)
    (hrun : ftsSafeChangedir env s (-1) (some [46, 46]) = some (err, s')) : Holds s' m n ∧ Kept s s' := by
  have hopened := h.diropen env hn
  have hisDotdot : decide (some [46, 46] = some ([] : Path)) = false := by decide
  have hneg : (-1 : ℤ) < 0 := by decide
  unfold ftsSafeChangedir at hrun
  simp only [hisDotdot, hneg, Bool.false_eq_true, false_and, and_false, if_false, if_true, Option.bind_eq_bind,
    Option.bind_some, Bool.not_false] at hrun
  split at hrun
  · cases hrun
    have hnot : ¬ (s.options.cwdfd = true ∧ (-1 : ℤ) ≥ 0) := fun hc => absurd hc.2 (by decide)
    rw [if_neg hnot]
    exact ⟨h, .refl s⟩
  · split at hrun
    · rename_i e s₁ hopen
      cases hrun
      rw [hopen] at hopened
      exact ⟨hopened.holds, hopened.kept⟩
    · rename_i newfd s₁ hopen
      rw [hopen] at hopened
      have hfd := hopened.nonneg newfd rfl
      have hholds : Holds s₁ (newfd ::ₘ m) n := hopened.holds
      split at hrun
      · rename_i hcwdfd
        obtain ⟨s₂, hadvance, heq⟩ := Option.map_eq_some_iff.mp hrun
        cases heq
        have hslot : Holds s₁ (slot newfd + m) n := hholds.congr (by rw [slot_of_nonneg hfd, Multiset.singleton_add])
        obtain ⟨hholds', hkept⟩ := hslot.advance hcwdfd (.inr hfd) hadvance
        exact ⟨hholds', hopened.kept.trans hkept⟩
      · have hmem : newfd ∈ own s₁ + newfd ::ₘ m :=
          Multiset.mem_add.mpr (.inr (Multiset.mem_cons_self newfd m))
        obtain ⟨hholds', hkept⟩ := hholds.fchdir env (.inr hmem)
        cases hrun
        exact ⟨hholds'.closes, hopened.kept.trans (hkept.trans ⟨rfl, rfl, rfl⟩)⟩

/-! ## Reading a directory -/

theorem Holds.opendir (env : Env κ) (h : Holds s m n) (hn : m.card + 7 ≤ n) : Opened s m n (opendir env s) := by
  unfold FtsDescriptors.opendir
  split
  · have hopened := ((h.uses h.cwd_mem).opens env hn).of_kept (kept_uses s s.cwdFd)
    generalize (s.uses s.cwdFd).opens env = r at hopened
    obtain ⟨e | newFd, s₁⟩ := r
    · exact hopened
    · have hholds : Holds s₁ (newFd ::ₘ m) n := hopened.holds
      dsimp only
      split
      · exact ⟨hholds.tick.closes, nofun, hopened.kept.trans ⟨rfl, rfl, rfl⟩⟩
      · exact ⟨hholds.tick, hopened.nonneg, hopened.kept.trans ⟨rfl, rfl, rfl⟩⟩
  · exact h.opens env hn

theorem Holds.enter {ok : Bool} (h : Holds s m n) (hrun : enterDir env s p = some (ok, p', s')) :
    Holds s' m n ∧ Kept s s' ∧ SameEntry p p' := by
  simp only [enterDir, Option.bind_eq_bind, Option.bind_eq_some_iff, Option.some.injEq, Prod.mk.injEq] at hrun
  obtain ⟨⟨ok', cyclic, cycle⟩, -, -, hp, rfl⟩ := hrun
  refine ⟨⟨h.owned, h.here, h.ring⟩, ⟨rfl, rfl, rfl⟩, ?_⟩
  rw [← hp]
  split
  · exact ⟨rfl, rfl, rfl, rfl, rfl⟩
  · exact .refl p

theorem Holds.leave {parent : Option FTSENT} (h : Holds s m n) (hrun : leaveDir env s p parent = some s') :
    Holds s' m n ∧ Kept s s' := by
  simp only [leaveDir, Option.bind_eq_bind, Option.bind_eq_some_iff, Option.some.injEq] at hrun
  obtain ⟨cycle, -, rfl⟩ := hrun
  exact ⟨⟨h.owned, h.here, h.ring⟩, rfl, rfl, rfl⟩

theorem SameEntry.trans {p₁ : FTSENT} (h : SameEntry p p₁) (h' : SameEntry p₁ p') : SameEntry p p' :=
  ⟨h'.level.trans h.level, h'.symfollow.trans h.symfollow, h'.symfd.trans h.symfd, h'.symOpen.trans h.symOpen,
    h'.instr.trans h.instr⟩

theorem Holds.buildStat {ok : Bool} {parent : Option FTSENT} (h : Holds s m n)
    (hrun : ftsBuildStat env s p parent = some (ok, p', s')) : Holds s' m n ∧ Kept s s' ∧ SameEntry p p' := by
  unfold ftsBuildStat at hrun
  split at hrun
  · obtain ⟨s₁, hleave, hrun⟩ := Option.bind_eq_some_iff.mp hrun
    obtain ⟨hholds₁, hkept₁⟩ := h.leave hleave
    obtain ⟨hsame, hkept₂⟩ := ftsStat_same env s₁ p false
    have hholds₂ := hholds₁.stat env p false
    obtain ⟨hholds₃, hkept₃, hsame'⟩ := hholds₂.enter hrun
    refine ⟨hholds₃, hkept₁.trans (hkept₂.trans hkept₃), SameEntry.trans ?_ hsame'⟩
    exact ⟨hsame.level, hsame.symfollow, hsame.symfd, hsame.symOpen, hsame.instr⟩
  · cases hrun
    exact ⟨h, .refl s, .refl p⟩

/-- `fts_build` changes to the directory, or closes the stream of it. -/
theorem Holds.buildChange {descend : Bool} {dirp : ℤ} (h : Holds s (dirp ::ₘ m) n) (hn : m.card + 8 ≤ n) (hdirp : 0 ≤ dirp)
    (hmode : s.options.nochdir = true → s.options.cwdfd = false)
    (hrun : ftsBuildChange env s p dirp = some (descend, p', s')) :
    Holds s' (if descend then dirp ::ₘ m else m) n ∧ Kept s s' ∧ SameEntry p p' := by
  have hmem : dirp ∈ own s + dirp ::ₘ m := Multiset.mem_add.mpr (.inr (Multiset.mem_cons_self dirp m))
  have hcard : (dirp ::ₘ m).card + 7 ≤ n := by
    rw [Multiset.card_cons]
    omega
  have hopened := ((h.tick.uses (.inr hmem)).opens env hcard).of_kept
    ((kept_tick s).trans (kept_uses s.tick dirp))
  unfold ftsBuildChange at hrun
  dsimp only at hrun
  by_cases hcwdfd : s.options.cwdfd = true
  · rw [if_pos hcwdfd] at hrun
    generalize (s.tick.uses dirp).opens env = r at hopened hrun
    obtain ⟨e | dirFd, s₁⟩ := r
    · cases hrun
      have hholds : Holds s₁ (dirp ::ₘ m) n := hopened.holds
      exact ⟨hholds.closes, hopened.kept.trans ⟨rfl, rfl, rfl⟩, rfl, rfl, rfl, rfl, rfl⟩
    · have hdirFd := hopened.nonneg dirFd rfl
      have hholds : Holds s₁ (slot dirFd + dirp ::ₘ m) n := by
        have hholds : Holds s₁ (dirFd ::ₘ dirp ::ₘ m) n := hopened.holds
        exact hholds.congr (by rw [slot_of_nonneg hdirFd, Multiset.singleton_add])
      have hcwdfd₁ : s₁.options.cwdfd = true := by rw [hopened.kept.options]; exact hcwdfd
      have hmode₁ : s₁.options.nochdir = true → s₁.options.cwdfd = false := by
        rw [hopened.kept.options]
        exact hmode
      obtain ⟨⟨err, s₂⟩, hchange, hrun⟩ := Option.bind_eq_some_iff.mp hrun
      obtain ⟨hholds', hkept, hnone⟩ := Holds.changedir hdirFd (by rw [hcwdfd₁]; nofun) hmode₁
        (by rw [if_pos hcwdfd₁]; exact hholds) hchange
      obtain rfl := hnone hcwdfd₁
      cases hrun
      exact ⟨hholds', hopened.kept.trans hkept, .refl p⟩
  · rw [if_neg hcwdfd] at hrun
    have htick : ¬ s.tick.options.cwdfd = true := hcwdfd
    obtain ⟨⟨err, s₂⟩, hchange, hrun⟩ := Option.bind_eq_some_iff.mp hrun
    obtain ⟨hholds', hkept, -⟩ := Holds.changedir (s := s.tick) hdirp (fun _ => Multiset.mem_cons_self dirp m) hmode
      (by rw [if_neg htick]; exact h.tick) hchange
    have hkept' := (kept_tick s).trans hkept
    cases err with
    | none =>
      cases hrun
      exact ⟨hholds', hkept', .refl p⟩
    | some e =>
      have hcwdfd₂ : ¬ ((s₂.closes dirp).options.cwdfd = true ∧ dirp ≥ 0) := by
        rintro ⟨hc, -⟩
        apply hcwdfd
        rw [← hkept'.options]
        exact hc
      simp only [if_neg hcwdfd₂] at hrun
      cases hrun
      exact ⟨hholds'.closes, hkept'.trans ⟨rfl, rfl, rfl⟩, rfl, rfl, rfl, rfl, rfl⟩

/-- An entry that has just been made: nothing has been followed. -/
structure Fresh (p : FTSENT) : Prop where
  level : 0 ≤ p.level
  symfollow : p.symfollow = false
  symOpen : p.symOpen = false
  instr : p.instr = .noinstr

theorem Fresh.same (h : Fresh p) (hsame : SameEntry p p') : Fresh p' := by
  refine ⟨?_, hsame.symfollow.trans h.symfollow, hsame.symOpen.trans h.symOpen, hsame.instr.trans h.instr⟩
  rw [hsame.level]
  exact h.level

theorem Holds.buildEntry {level : ℤ} {dp : Dirent} {q : Option FTSENT} (h : Holds s m n) (hlevel : 0 ≤ level)
    (hrun : ftsBuildEntry env s level dp = (q, s')) :
    Holds s' m n ∧ Kept s s' ∧ ∀ p, q = some p → Fresh p := by
  unfold ftsBuildEntry at hrun
  split at hrun
  · obtain ⟨rfl, rfl⟩ := Prod.mk.inj hrun
    refine ⟨h.tick, ⟨rfl, rfl, rfl⟩, ?_⟩
    intro p hp
    cases hp
  · dsimp only at hrun
    split at hrun
    · obtain ⟨rfl, rfl⟩ := Prod.mk.inj hrun
      refine ⟨h.tick, ⟨rfl, rfl, rfl⟩, ?_⟩
      rintro p hp
      cases hp
      exact ⟨hlevel, rfl, rfl, rfl⟩
    · obtain ⟨hsame, hkept⟩ := ftsStat_same env s.tick { ftsAlloc dp.name with level, stat := ⟨none, 0, dp.ino⟩ } false
      obtain ⟨rfl, rfl⟩ := Prod.mk.inj hrun
      refine ⟨h.tick.stat env _ false, (kept_tick s).trans hkept, ?_⟩
      rintro p hp
      obtain rfl := Option.some.inj hp
      exact Fresh.same ⟨hlevel, rfl, rfl, rfl⟩ hsame

theorem Holds.buildLoop {level dirp : ℤ} {dps : List Dirent} {head : Option (List FTSENT)} (h : Holds s (dirp ::ₘ m) n)
    (hlevel : 0 ≤ level) (hrun : ftsBuildLoop env level dirp s dps = (head, s')) :
    Holds s' (dirp ::ₘ m) n ∧ Kept s s' ∧ ∀ l, head = some l → ∀ p ∈ l, Fresh p := by
  induction dps generalizing s s' head with
  | nil =>
    cases hrun
    have hmem : dirp ∈ own s + dirp ::ₘ m := Multiset.mem_add.mpr (.inr (Multiset.mem_cons_self dirp m))
    refine ⟨h.uses (.inr hmem), kept_uses s dirp, ?_⟩
    rintro l hl p hp
    cases hl
    cases hp
  | cons dp dps ih =>
    have hmem : dirp ∈ own s + dirp ::ₘ m := Multiset.mem_add.mpr (.inr (Multiset.mem_cons_self dirp m))
    have huses := h.uses (.inr hmem)
    have hkept := kept_uses s dirp
    rw [ftsBuildLoop] at hrun
    split at hrun
    · obtain ⟨hholds, hkept', hfresh⟩ := ih huses hrun
      exact ⟨hholds, hkept.trans hkept', hfresh⟩
    · split at hrun
      · rename_i s₁ hentry
        obtain ⟨hholds, hkept', -⟩ := huses.buildEntry hlevel hentry
        cases hrun
        exact ⟨hholds, hkept.trans hkept', nofun⟩
      · rename_i q s₁ hentry
        obtain ⟨hholds₁, hkept₁, hq⟩ := huses.buildEntry hlevel hentry
        split at hrun
        · rename_i s₂ hloop
          obtain ⟨hholds₂, hkept₂, -⟩ := ih hholds₁ hloop
          cases hrun
          exact ⟨hholds₂, hkept.trans (hkept₁.trans hkept₂), nofun⟩
        · rename_i rest s₂ hloop
          obtain ⟨hholds₂, hkept₂, hrest⟩ := ih hholds₁ hloop
          cases hrun
          refine ⟨hholds₂, hkept.trans (hkept₁.trans hkept₂), ?_⟩
          rintro l hl
          cases hl
          exact List.forall_mem_cons.mpr ⟨hq q rfl, hrest rest rfl⟩

theorem mem_of_sortEntries {head : List FTSENT} (hp : p ∈ sortEntries env head) : p ∈ head := by
  unfold sortEntries at hp
  split at hp
  · split at hp
    · exact (env.qsort_perm _ _).subset hp
    · exact hp
  · exact hp

theorem Holds.buildSort (h : Holds s m n) (env : Env κ) (head : List FTSENT) :
    Holds (ftsBuildSort env s head).2 m n ∧ Kept s (ftsBuildSort env s head).2 ∧
      ∀ p ∈ (ftsBuildSort env s head).1, p ∈ head := by
  unfold ftsBuildSort
  dsimp only
  split
  · refine ⟨(h.uses h.cwd_mem).tick, (kept_uses s s.cwdFd).trans (kept_tick _), ?_⟩
    intro p hp
    have hmem := mem_of_sortEntries hp
    split at hmem
    · exact (env.qsort_perm _ _).subset hmem
    · exact hmem
  · exact ⟨h, .refl s, fun p hp => mem_of_sortEntries hp⟩

/-- What `fts_build` leaves, up to `FTS_STOP`. -/
structure Built (s s' : FTS κ) (p p' : FTSENT) (child : List FTSENT) : Prop where
  cur : s'.cur = s.cur
  nochdir : s'.options.nochdir = s.options.nochdir
  cwdfd : s'.options.cwdfd = s.options.cwdfd
  same : SameEntry p p'
  fresh : ∀ q ∈ child, Fresh q

theorem Kept.built {child : List FTSENT} (h : Kept s s') (hsame : SameEntry p p') (hfresh : ∀ q ∈ child, Fresh q) :
    Built s s' p p' child :=
  ⟨h.cur, by rw [h.options], by rw [h.options], hsame, hfresh⟩

theorem Holds.setStop (h : Holds s m n) : Holds s.setStop m n := ⟨h.owned, h.here, h.ring⟩

theorem Built.of_kept {s₁ : FTS κ} {p₁ : FTSENT} {child : List FTSENT} (h : Built s₁ s' p₁ p' child) (hkept : Kept s s₁)
    (hsame : SameEntry p p₁) : Built s s' p p' child :=
  ⟨h.cur.trans hkept.cur, h.nochdir.trans (by rw [hkept.options]), h.cwdfd.trans (by rw [hkept.options]), hsame.trans h.same,
    h.fresh⟩

theorem Built.setStop {child : List FTSENT} (h : Built s s' p p' child) : Built s s'.setStop p p' child :=
  ⟨h.cur, h.nochdir, h.cwdfd, h.same, h.fresh⟩

theorem fresh_nil : ∀ q ∈ ([] : List FTSENT), Fresh q := fun _ hq => absurd hq List.not_mem_nil

/-- The end of `fts_build`, after it has gone back or not. -/
theorem Holds.buildEnd {head : List FTSENT} (h : Holds s m n) (env : Env κ) (hhead : ∀ q ∈ head, Fresh q) (p : FTSENT) (type : ℕ)
    (err : Option Errno) : Holds (ftsBuildEnd env s p type err head).2.2 m n ∧
      Built s (ftsBuildEnd env s p type err head).2.2 p (ftsBuildEnd env s p type err head).2.1
        (ftsBuildEnd env s p type err head).1 := by
  unfold ftsBuildEnd
  split
  · refine ⟨h.setStop, ((Kept.refl s).built ?_ fresh_nil).setStop⟩
    exact ⟨rfl, rfl, rfl, rfl, rfl⟩
  · split
    · refine ⟨h, (Kept.refl s).built ?_ fresh_nil⟩
      dsimp only
      split
      · exact ⟨rfl, rfl, rfl, rfl, rfl⟩
      · exact .refl p
    · obtain ⟨hholds, hkept, hsub⟩ := h.buildSort env head
      exact ⟨hholds, hkept.built (.refl p) fun q hq => hhead q (hsub q hq)⟩

theorem Holds.buildReturn {goesBack : Bool} {err : Option Errno} (h : Holds s m n) (hn : m.card + 7 ≤ n)
    (hrun : ftsBuildReturn env s p goesBack = some (err, s')) : Holds s' m n ∧ Kept s s' := by
  unfold ftsBuildReturn at hrun
  split at hrun
  · split at hrun
    · exact h.restore hrun
    · exact h.dotdot hn hrun
  · cases hrun
    exact ⟨h, .refl s⟩

theorem Holds.buildBack {descend : Bool} {head child : List FTSENT} (h : Holds s m n) (hn : m.card + 7 ≤ n)
    (hhead : ∀ q ∈ head, Fresh q) (hrun : ftsBuildBack env s p descend head = some (child, p', s')) :
    Holds s' m n ∧ Built s s' p p' child := by
  unfold ftsBuildBack at hrun
  obtain ⟨⟨err, s₁⟩, hback, hrun⟩ := Option.bind_eq_some_iff.mp hrun
  obtain ⟨hholds, hkept⟩ := h.buildReturn hn hback
  have hend := hholds.buildEnd env hhead p (if descend then (if bchild ≠ 0 ∨ head = [] then 1 else 0) else bread) err
  rw [Option.some.inj hrun] at hend
  exact ⟨hend.1, hend.2.of_kept hkept (.refl p)⟩

/-- `enter_dir` has memory when `fts_build` calls it once more. -/
def Reenters (env : Env κ) (s : FTS κ) (p : FTSENT) (parent : Option FTSENT) : Prop :=
  ∀ dirp s₁ r, opendir env s = (.ok dirp, s₁) → ftsBuildStat env s₁ p parent = some r → r.1 = true

/-- `fts_build` reads a directory. -/
theorem Holds.build {child : List FTSENT} {parent : Option FTSENT} (h : Holds s m n) (hn : m.card + 8 ≤ n)
    (hmode : s.options.nochdir = true → s.options.cwdfd = false) (hlevel : -1 ≤ p.level) (hreenters : Reenters env s p parent)
    (hrun : ftsBuild env s p parent = some (child, p', s')) : Holds s' m n ∧ Built s s' p p' child := by
  have hopened := h.opendir env (by omega)
  unfold ftsBuild at hrun
  cases hopen : FtsDescriptors.opendir env s with
  | mk r s₁ =>
    rw [hopen] at hopened hrun
    cases r with
    | error e =>
      cases hrun
      exact ⟨hopened.holds, hopened.kept.built ⟨rfl, rfl, rfl, rfl, rfl⟩ fresh_nil⟩
    | ok dirp =>
      have hdirp := hopened.nonneg dirp rfl
      have hholds₁ : Holds s₁ (dirp ::ₘ m) n := hopened.holds
      have hkept₁ : Kept s s₁ := hopened.kept
      obtain ⟨⟨ok, p₂, s₂⟩, hbuildStat, hrun⟩ := Option.bind_eq_some_iff.mp hrun
      obtain rfl : ok = true := hreenters dirp s₁ _ hopen hbuildStat
      obtain ⟨hholds₂, hkept₂, hsame₂⟩ := hholds₁.buildStat hbuildStat
      simp only [Bool.not_true, Bool.false_eq_true, if_false] at hrun
      obtain ⟨⟨descend, p₃, s₃⟩, hchange, hrun⟩ := Option.bind_eq_some_iff.mp hrun
      have hmode₂ : s₂.options.nochdir = true → s₂.options.cwdfd = false := by
        rw [hkept₂.options, hkept₁.options]
        exact hmode
      obtain ⟨hholds₃, hkept₃, hsame₃⟩ := hholds₂.buildChange hn hdirp hmode₂ hchange
      have hkept := hkept₁.trans (hkept₂.trans hkept₃)
      have hsame := hsame₂.trans hsame₃
      cases descend with
      | false =>
        simp only [Bool.not_false, if_true] at hrun
        have hclosed : Holds s₃ m n := hholds₃
        obtain ⟨hholds, hbuilt⟩ := hclosed.buildBack (by omega) fresh_nil hrun
        exact ⟨hholds, hbuilt.of_kept hkept hsame⟩
      | true =>
        simp only [Bool.not_true, Bool.false_eq_true, if_false] at hrun
        have hlevel' : 0 ≤ p₃.level + 1 := by
          rw [hsame.level]
          omega
        split at hrun
        · rename_i s₄ hloop
          obtain ⟨hholds₄, hkept₄, -⟩ := Holds.buildLoop hholds₃ hlevel' hloop
          cases hrun
          have hkept' : Kept s (s₄.closes dirp) := hkept.trans (hkept₄.trans ⟨rfl, rfl, rfl⟩)
          refine ⟨hholds₄.closes.setStop, (hkept'.built ?_ fresh_nil).setStop⟩
          exact ⟨hsame.level, hsame.symfollow, hsame.symfd, hsame.symOpen, hsame.instr⟩
        · rename_i head s₄ hloop
          obtain ⟨hholds₄, hkept₄, hfresh⟩ := Holds.buildLoop hholds₃ hlevel' hloop
          obtain ⟨hholds, hbuilt⟩ := hholds₄.closes.buildBack (by omega) (hfresh head rfl) hrun
          exact ⟨hholds, hbuilt.of_kept (hkept.trans (hkept₄.trans ⟨rfl, rfl, rfl⟩)) hsame⟩

end CodingExercises.Coreutils.FtsDescriptors
