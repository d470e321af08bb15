import CodingExercises.PeotrixNginx.TimesText

/-!
# Peotrix on nginx: runs of updates

- `ptrx_time_update` never sets `gmtoff`, so that the strings tell their second only where the local time is GMT; and a first
  clock of 0 leaves the pointers to the strings as they are (`cached_times`).
- A slot keeps its contents for 63 further seconds (`Env.kept`).
-/

namespace CodingExercises.PeotrixNginx

open Lib

/-! ## What the strings tell -/

/-- The strings of a slot tell its second: one in GMT, the others in a local time whose offset they have. -/
structure Slot.Tells (c : Slot) : Prop where
  gmt : ∃ dt : DateTime, dt.instant = c.sec ∧ c.http = httpText dt
  offset : ∃ (dt : DateTime) (offset : ℤ), dt.date.year < 10000 ∧ offset.natAbs < 6000 ∧ dt.instant = c.sec + 60 * offset ∧
    c.errLog = errLogText dt ∧ c.httpLog = logText dt offset ∧ c.iso8601 = isoText dt offset

/-- What the code relies on: that the names and the local time are right, and that `ptrx_sprintf` prints the text of a format. -/
structure Env.Correct (env : Env) (cfg : Config) (offset : ℤ → ℤ) : Prop where
  sprintf : ∀ fmt args text, Renders cfg fmt args text → env.sprintf fmt args = text
  week : ∀ i < 7, env.week i = weekdays.getD i []
  months : ∀ i < 12, env.months i = monthNames.getD i []
  localtime : ∀ s, 0 ≤ s → s < 2 ^ 32 → (env.ptrxLocaltime s).IsAt (s + 60 * offset s)

theorem Tm.IsAt.exists_dateTime {tm : Tm} {t : ℤ} (h : tm.IsAt t) :
    ∃ dt : DateTime, dt.instant = t ∧ tm = ⟨dt.sec, dt.min, dt.hour, dt.date.day, dt.date.month, dt.date.year, dt.date.weekday⟩ := by
  obtain ⟨d, hnumber, hyear, hmon, hmday, hwday, hhour, hmin, hsec⟩ := h
  refine ⟨⟨d, (t % 86400 / 3600).toNat, (t % 3600 / 60).toNat, (t % 60).toNat, by omega, by omega, by omega⟩, ?_, ?_⟩
  · simp only [DateTime.instant, hnumber]
    omega
  · ext
    all_goals dsimp only
    all_goals omega

/-- The years of the seconds that fit into an `unsigned int`, in any local time, have four digits. -/
theorem year_bounds {dt : DateTime} (hlo : -2 ^ 32 ≤ dt.instant) (hhi : dt.instant < 2 ^ 33) :
    1000 ≤ dt.date.year ∧ dt.date.year < 10000 := by
  have hday := dt.date.dayNumber_bounds
  have := dt.hour_lt
  have := dt.min_lt
  have := dt.sec_lt
  simp only [DateTime.instant, dayNumber_epoch] at hlo hhi
  omega

section

variable {env : Env} {cfg : Config} {offset : ℤ → ℤ}

/-- The strings for a second are those of its date and time, with the offset of the slot. -/
theorem Env.Correct.fill_eq (henv : env.Correct cfg offset) {c : Slot} (hlo : 0 ≤ c.sec) (hhi : c.sec < 2 ^ 32)
    (hoffset : (offset c.sec).natAbs < 6000) (hgmtoff : c.gmtoff.natAbs < 6000) :
    ∃ dt dt' : DateTime, dt.instant = c.sec ∧ dt'.instant = c.sec + 60 * offset c.sec ∧ dt'.date.year < 10000 ∧
      env.fill c = { c with http := httpText dt, errLog := errLogText dt', httpLog := logText dt' c.gmtoff,
                            iso8601 := isoText dt' c.gmtoff } := by
  have hgmt : (gmtime c.sec).IsAt c.sec := gmtime_eq hlo hhi ▸ gmtimeBy_id hlo
  obtain ⟨dt, hinstant, hdt⟩ := hgmt.exists_dateTime
  obtain ⟨dt', hinstant', hdt'⟩ := (henv.localtime c.sec hlo hhi).exists_dateTime
  obtain ⟨hge, hlt⟩ := @year_bounds dt (by omega) (by omega)
  obtain ⟨hge', hlt'⟩ := @year_bounds dt' (by omega) (by omega)
  refine ⟨dt, dt', hinstant, hinstant', hlt', ?_⟩
  have hweek : env.week dt.date.weekday = weekdayName dt := henv.week _ (Nat.mod_lt _ (by decide))
  have hmonth : ∀ dt : DateTime, env.months ((dt.date.month : ℤ) - 1).toNat = monthName dt := by
    intro dt
    have := dt.date.month_le
    have hindex : ((dt.date.month : ℤ) - 1).toNat = dt.date.month - 1 := by omega
    rw [hindex, henv.months _ (by omega)]
    rfl
  have h60 : (60 : ℤ).natAbs = 60 := rfl
  have hdiv : |c.gmtoff.tdiv 60| = (c.gmtoff.natAbs / 60 : ℕ) := by
    rw [Int.abs_eq_natAbs, Int.natAbs_tdiv, h60]
    rfl
  have hmod : |c.gmtoff.tmod 60| = (c.gmtoff.natAbs % 60 : ℕ) := by
    rw [Int.abs_eq_natAbs, Int.natAbs_tmod, h60]
  simp only [Env.fill, hdt, hdt', hdiv, hmod, Int.toNat_natCast, hweek, hmonth]
  rw [henv.sprintf _ _ _ (renders_http hge hlt), henv.sprintf _ _ _ (renders_errLog hge' hlt'),
    henv.sprintf _ _ _ (renders_log hge' hlt' hgmtoff), henv.sprintf _ _ _ (renders_iso hge' hlt' hgmtoff)]

/-! ## The slots -/

namespace Env

variable (env : Env)

/-- The update obtains the lock and sees a second that is not that of the current slot. -/
def SeesNew (st : Times) (u : Update) : Prop := u.locked = true ∧ (st.cachedTime st.slot).sec ≠ u.sec

instance (st : Times) (u : Update) : Decidable (SeesNew st u) := inferInstanceAs (Decidable (_ ∧ _))

/-- The updates that see a new second. -/
def newSeconds (st : Times) : List Update → ℕ
  | [] => 0
  | u :: us => (if SeesNew st u then 1 else 0) + newSeconds (env.timeUpdate st u) us

/-- A current slot keeps its contents, apart from the milliseconds, for 63 new seconds, and all of them from the first of these
on. -/
def Kept (st : Times) : Prop :=
  ∀ us us', env.newSeconds st (us ++ us') ≤ 63 →
    (∃ msec, (env.run st us).cachedTime st.slot = { st.cachedTime st.slot with msec := msec }) ∧
      (0 < env.newSeconds st us →
        (env.run st (us ++ us')).cachedTime st.slot = (env.run st us).cachedTime st.slot)

theorem next_slot (slot : Fin 64) : (if slot = 63 then 0 else slot + 1) = slot + 1 := by
  split_ifs with h
  · rw [h]
    rfl
  · rfl

/-- What an update does: nothing, or the milliseconds of the current slot, or the next slot is filled and becomes current. -/
theorem timeUpdate_cases (st : Times) (u : Update) :
    u.locked = false ∧ env.timeUpdate st u = st ∨
    (u.locked = true ∧ (st.cachedTime st.slot).sec = u.sec ∧ ∃ msec currentMsec, env.timeUpdate st u =
      { st with
        currentMsec := currentMsec
        cachedTime := Function.update st.cachedTime st.slot { st.cachedTime st.slot with msec := msec } }) ∨
    (SeesNew st u ∧ ∃ msec currentMsec, env.timeUpdate st u =
      { slot := st.slot + 1
        currentMsec := currentMsec
        cachedTime := Function.update st.cachedTime (st.slot + 1)
          (env.fill { st.cachedTime (st.slot + 1) with sec := u.sec, msec := msec })
        ptrxCachedTime := some (st.slot + 1)
        cachedHttpTime := some (st.slot + 1)
        cachedErrLogTime := some (st.slot + 1)
        cachedHttpLogTime := some (st.slot + 1)
        cachedHttpLogIso8601 := some (st.slot + 1) }) := by
  cases hlocked : u.locked with
  | false => exact .inl ⟨rfl, by simp [timeUpdate, hlocked]⟩
  | true =>
    by_cases hsec : (st.cachedTime st.slot).sec = u.sec
    · refine .inr (.inl ⟨rfl, hsec, u.usec / 1000, ((u.sec % 2 ^ 32).toNat * 1000 + u.usec / 1000) % 2 ^ 32, ?_⟩)
      simp only [timeUpdate, hlocked, hsec, if_true]
    · refine .inr (.inr ⟨⟨hlocked, hsec⟩, u.usec / 1000, ((u.sec % 2 ^ 32).toNat * 1000 + u.usec / 1000) % 2 ^ 32, ?_⟩)
      simp only [timeUpdate, hlocked, if_neg hsec, if_true, next_slot]

/-- An update that sees no new second leaves all slots but the current one. -/
theorem timeUpdate_old {st : Times} {u : Update} (h : ¬SeesNew st u) :
    (env.timeUpdate st u).slot = st.slot ∧
      (∃ msec, (env.timeUpdate st u).cachedTime st.slot = { st.cachedTime st.slot with msec := msec }) ∧
      ∀ k, k ≠ st.slot → (env.timeUpdate st u).cachedTime k = st.cachedTime k := by
  obtain ⟨-, heq⟩ | ⟨-, -, msec, _, heq⟩ | ⟨hnew, -⟩ := env.timeUpdate_cases st u
  · rw [heq]
    exact ⟨rfl, ⟨_, rfl⟩, fun _ _ => rfl⟩
  · rw [heq]
    exact ⟨rfl, ⟨msec, Function.update_self _ _ _⟩, fun k hk => Function.update_of_ne hk _ _⟩
  · exact absurd hnew h

/-- An update that sees a new second fills the next slot. -/
theorem timeUpdate_new {st : Times} {u : Update} (h : SeesNew st u) :
    (env.timeUpdate st u).slot = st.slot + 1 ∧
      ∀ k, k ≠ st.slot + 1 → (env.timeUpdate st u).cachedTime k = st.cachedTime k := by
  obtain ⟨hlocked, -⟩ | ⟨-, hsec, -⟩ | ⟨-, _, _, heq⟩ := env.timeUpdate_cases st u
  · exact absurd h.1 (by simp [hlocked])
  · exact absurd hsec h.2
  · rw [heq]
    exact ⟨rfl, fun k hk => Function.update_of_ne hk _ _⟩

/-- A slot that is not current is left until the current one comes round to it. -/
theorem run_left (k : Fin 64) : ∀ {us : List Update} {st : Times}, k ≠ st.slot →
    env.newSeconds st us ≤ (k - st.slot - 1).val → (env.run st us).cachedTime k = st.cachedTime k
  | [], _, _, _ => rfl
  | u :: us, st, hk, hnew => by
    rw [newSeconds] at hnew
    by_cases hsees : SeesNew st u
    · obtain ⟨hslot, hsame⟩ := env.timeUpdate_new hsees
      rw [if_pos hsees] at hnew
      have hnext : k ≠ st.slot + 1 := by
        rintro rfl
        omega
      have hrest := @run_left k us (env.timeUpdate st u) (hslot ▸ hnext) (by rw [hslot]; omega)
      exact hrest.trans (hsame k hnext)
    · obtain ⟨hslot, -, hsame⟩ := env.timeUpdate_old hsees
      rw [if_neg hsees, Nat.zero_add] at hnew
      have hrest := @run_left k us (env.timeUpdate st u) (hslot ▸ hk) (by rwa [hslot])
      exact hrest.trans (hsame k hk)

theorem newSeconds_append_le (st : Times) (us us' : List Update) : env.newSeconds st us ≤ env.newSeconds st (us ++ us') := by
  induction us generalizing st with
  | nil => exact Nat.zero_le _
  | cons u us ih => exact Nat.add_le_add_left (ih _) _

theorem kept (st : Times) : env.Kept st := by
  intro us us'
  induction us generalizing st with
  | nil => exact fun _ => ⟨⟨_, rfl⟩, fun h => absurd h (Nat.lt_irrefl 0)⟩
  | cons u us ih =>
    intro hnew
    rw [List.cons_append, newSeconds] at hnew
    by_cases hsees : SeesNew st u
    · -- from here on the slot is not current
      obtain ⟨hslot, hsame⟩ := env.timeUpdate_new hsees
      rw [if_pos hsees] at hnew
      have hne : st.slot ≠ (env.timeUpdate st u).slot := by
        rw [hslot]
        omega
      have hleft : 62 ≤ (st.slot - (env.timeUpdate st u).slot - 1).val := by
        rw [hslot]
        omega
      have hkeep : ∀ {us}, env.newSeconds (env.timeUpdate st u) us ≤ 62 →
          (env.run (env.timeUpdate st u) us).cachedTime st.slot = st.cachedTime st.slot := by
        intro us hus
        exact (env.run_left st.slot hne (hus.trans hleft)).trans (hsame st.slot (hslot ▸ hne))
      have hboth := @hkeep (us ++ us') (by omega)
      have hfirst := @hkeep us ((env.newSeconds_append_le (env.timeUpdate st u) us us').trans (by omega))
      exact ⟨⟨_, hfirst⟩, fun _ => hboth.trans hfirst.symm⟩
    · obtain ⟨hslot, ⟨msec, hcurrent⟩, -⟩ := env.timeUpdate_old hsees
      rw [if_neg hsees, Nat.zero_add] at hnew
      obtain ⟨⟨msec', hrest⟩, hlater⟩ := ih (env.timeUpdate st u) hnew
      rw [hslot, hcurrent] at hrest
      rw [hslot] at hlater
      refine ⟨⟨msec', hrest⟩, fun hpos => hlater ?_⟩
      rwa [newSeconds, if_neg hsees, Nat.zero_add] at hpos

end Env

/-! ## Runs -/

/-- All pointers lead to one slot, and its strings tell its second. -/
def Times.Current (st : Times) : Prop :=
  ∃ k, st.ptrxCachedTime = some k ∧ st.cachedHttpTime = some k ∧ st.cachedErrLogTime = some k ∧
    st.cachedHttpLogTime = some k ∧ st.cachedHttpLogIso8601 = some k ∧ (st.cachedTime k).Tells

/-- The clock is one of an `unsigned int`, not 0 before any other second has been seen, and the local time is GMT. -/
def Update.Fits (offset : ℤ → ℤ) (st : Times) (u : Update) : Prop :=
  u.locked = true → 0 ≤ u.sec ∧ u.sec < 2 ^ 32 ∧ offset u.sec = 0 ∧ (st.cachedHttpTime = none → u.sec ≠ 0)

namespace Env

variable (env : Env)

/-- Every update of the run does. -/
def Fits (offset : ℤ → ℤ) (st : Times) : List Update → Prop
  | [] => True
  | u :: us => u.Fits offset st ∧ Fits offset (env.timeUpdate st u) us

end Env

/-- Nothing has been seen, or the current slot is right; no offset is ever set. -/
structure Times.Inv (st : Times) : Prop where
  gmtoff : ∀ k, (st.cachedTime k).gmtoff = 0
  current : (st.cachedHttpTime = none ∧ (st.cachedTime st.slot).sec = 0) ∨
    (st.ptrxCachedTime = some st.slot ∧ st.cachedHttpTime = some st.slot ∧ st.cachedErrLogTime = some st.slot ∧
      st.cachedHttpLogTime = some st.slot ∧ st.cachedHttpLogIso8601 = some st.slot ∧ (st.cachedTime st.slot).Tells)

theorem inv_start : Times.start.Inv := ⟨fun _ => rfl, .inl ⟨rfl, rfl⟩⟩

/-- The strings of a slot that is filled tell its second where the local time is GMT. -/
theorem Env.Correct.fill_tells (henv : env.Correct cfg offset) {c : Slot} (hlo : 0 ≤ c.sec) (hhi : c.sec < 2 ^ 32)
    (hoffset : offset c.sec = 0) (hgmtoff : c.gmtoff = 0) : (env.fill c).Tells := by
  obtain ⟨dt, dt', hinstant, hinstant', hyear, heq⟩ :=
    henv.fill_eq hlo hhi (by rw [hoffset]; decide) (by rw [hgmtoff]; decide)
  rw [heq]
  refine ⟨⟨dt, hinstant, rfl⟩, dt', 0, hyear, by decide, ?_, rfl, ?_, ?_⟩
  · rw [hinstant', hoffset]
  · simp only [hgmtoff]
  · simp only [hgmtoff]

theorem Slot.Tells.with_msec {c : Slot} (h : c.Tells) (msec : ℕ) : { c with msec := msec }.Tells := ⟨h.gmt, h.offset⟩

theorem Env.gmtoff_timeUpdate {st : Times} (h : ∀ k, (st.cachedTime k).gmtoff = 0) (u : Update) (k : Fin 64) :
    ((env.timeUpdate st u).cachedTime k).gmtoff = 0 := by
  obtain ⟨-, heq⟩ | ⟨-, -, msec, _, heq⟩ | ⟨-, msec, _, heq⟩ := env.timeUpdate_cases st u
  · rw [heq]
    exact h k
  · simp only [heq, Function.update_apply]
    split
    · exact h st.slot
    · exact h k
  · simp only [heq, Function.update_apply]
    split
    · exact h (st.slot + 1)
    · exact h k

/-- A step of a run. -/
theorem Env.Correct.inv_timeUpdate (henv : env.Correct cfg offset) {st : Times} {u : Update} (hinv : st.Inv)
    (hfits : u.Fits offset st) :
    (env.timeUpdate st u).Inv ∧ (u.locked = true → (env.timeUpdate st u).Current) := by
  have hgmtoff := env.gmtoff_timeUpdate hinv.gmtoff u
  obtain ⟨hlocked, heq⟩ | ⟨hlocked, hsec, msec, _, heq⟩ | ⟨⟨hlocked, -⟩, msec, _, heq⟩ := env.timeUpdate_cases st u
  · rw [heq]
    exact ⟨hinv, fun h => absurd h (by simp [hlocked])⟩
  · obtain ⟨-, -, -, hzero⟩ := hfits hlocked
    obtain ⟨hnone, h0⟩ | ⟨h₁, h₂, h₃, h₄, h₅, htells⟩ := hinv.current
    · exact absurd (hsec.symm.trans h0) (hzero hnone)
    · have htells' := htells.with_msec msec
      have hslot : (env.timeUpdate st u).cachedTime st.slot = { st.cachedTime st.slot with msec := msec } := by
        rw [heq]
        exact Function.update_self _ _ _
      rw [← hslot] at htells'
      rw [heq] at htells' hgmtoff ⊢
      exact ⟨⟨hgmtoff, .inr ⟨h₁, h₂, h₃, h₄, h₅, htells'⟩⟩, fun _ => ⟨st.slot, h₁, h₂, h₃, h₄, h₅, htells'⟩⟩
  · obtain ⟨hlo, hhi, hoffset, -⟩ := hfits hlocked
    have htells := henv.fill_tells (c := { st.cachedTime (st.slot + 1) with sec := u.sec, msec := msec }) hlo hhi hoffset
      (hinv.gmtoff _)
    have hslot : (env.timeUpdate st u).cachedTime (st.slot + 1) =
        env.fill { st.cachedTime (st.slot + 1) with sec := u.sec, msec := msec } := by
      rw [heq]
      exact Function.update_self _ _ _
    rw [← hslot] at htells
    rw [heq] at htells hgmtoff ⊢
    exact ⟨⟨hgmtoff, .inr ⟨rfl, rfl, rfl, rfl, rfl, htells⟩⟩, fun _ => ⟨st.slot + 1, rfl, rfl, rfl, rfl, rfl, htells⟩⟩

theorem Env.Correct.run_current (henv : env.Correct cfg offset) : ∀ {us : List Update} {st : Times}, st.Inv →
    env.Fits offset st us → ∀ us₁ u us₂, us = us₁ ++ u :: us₂ → u.locked = true → (env.run st (us₁ ++ [u])).Current
  | [], _, _, _, us₁, u, us₂, heq, _ => absurd heq (by simp)
  | v :: us, st, hinv, hfits, us₁, u, us₂, heq, hlocked => by
    obtain ⟨hinv', hcurrent⟩ := henv.inv_timeUpdate hinv hfits.1
    cases us₁ with
    | nil =>
      cases heq
      exact hcurrent hlocked
    | cons w us₁ =>
      cases heq
      exact henv.run_current hinv' hfits.2 us₁ u us₂ rfl hlocked

/-- In a run whose updates fit, all pointers lead to one slot with strings that tell its second, after each update that obtains
the lock; and every slot keeps its contents while 63 further seconds are seen. -/
theorem cached_times (henv : env.Correct cfg offset) {us : List Update} (hfits : env.Fits offset .start us) :
    (∀ us₁ u us₂, us = us₁ ++ u :: us₂ → u.locked = true → (env.run .start (us₁ ++ [u])).Current) ∧
      ∀ us₁, env.Kept (env.run .start us₁) :=
  ⟨henv.run_current inv_start hfits, fun _ => env.kept _⟩

end

/-- A system in a time zone. -/
def zone (offset : ℤ) : Env where
  sprintf fmt args := (render lp64 uint (pieces fmt).1 args).getD []
  week i := weekdays.getD i []
  months i := monthNames.getD i []
  localtime s :=
    let tm := gmtimeBy id id (s + 60 * offset)
    { tm with mon := tm.mon - 1, year := tm.year - 1900 }

theorem zone_correct {offset : ℤ} (h : 0 ≤ offset) : (zone offset).Correct lp64 fun _ => offset where
  sprintf _ _ _ htext := congrArg (Option.getD · []) htext.2
  week _ _ := rfl
  months _ _ := rfl
  localtime s hlo _ := by
    have hlocal : (zone offset).ptrxLocaltime s = gmtimeBy id id (s + 60 * offset) := by
      simp only [Env.ptrxLocaltime, zone, sub_add_cancel]
    rw [hlocal]
    exact gmtimeBy_id (by omega)

/-- One update, a second after the epoch. -/
theorem cached_times_first :
    (∀ us₁ u us₂, [⟨true, 1, 0⟩] = us₁ ++ u :: us₂ → u.locked = true → ((zone 0).run .start (us₁ ++ [u])).Current) ∧
      ∀ us₁, (zone 0).Kept ((zone 0).run .start us₁) :=
  cached_times (zone_correct (le_refl 0)) ⟨fun _ => ⟨by decide, by decide, rfl, fun _ => by decide⟩, trivial⟩

/-- The same one hour east of Greenwich. -/
theorem not_cached_times :
    ¬∀ (env : Env) (cfg : Config) (offset : ℤ → ℤ), env.Correct cfg offset → ∀ us : List Update,
      (∀ us₁ u us₂, us = us₁ ++ u :: us₂ → u.locked = true → (env.run .start (us₁ ++ [u])).Current) ∧
        ∀ us₁, env.Kept (env.run .start us₁) := by
  intro h
  have henv : (zone 60).Correct lp64 fun _ => 60 := zone_correct (by decide)
  obtain ⟨k, hk, -, -, -, -, htells⟩ := (h _ _ _ henv [⟨true, 1, 0⟩]).1 [] ⟨true, 1, 0⟩ [] rfl rfl
  obtain rfl : k = 1 := (Option.some.inj hk).symm
  obtain ⟨dt, dt', -, hinstant, hyear, hfill⟩ := henv.fill_eq (c := ⟨1, 0, 0, [], [], [], []⟩) (by decide) (by decide) (by decide)
    (by decide)
  obtain ⟨dt'', offset, hyear', hoffset, hinstant', -, -, hiso⟩ := htells.offset
  have hslot : ((zone 60).run .start ([] ++ [⟨true, 1, 0⟩])).cachedTime 1 = (zone 60).fill ⟨1, 0, 0, [], [], [], []⟩ := rfl
  rw [hslot, hfill] at hiso hinstant'
  obtain ⟨heq, hzero⟩ := isoText_inj hyear hyear' (by decide) hoffset hiso
  rw [heq, hinstant', ← hzero] at hinstant
  exact absurd hinstant (show ¬(1 + 60 * 0 : ℤ) = 1 + 60 * 60 by decide)

end CodingExercises.PeotrixNginx
