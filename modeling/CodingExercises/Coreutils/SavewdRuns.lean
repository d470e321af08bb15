import Mathlib.Data.List.Nodup
import Mathlib.Data.Nat.Find
import CodingExercises.Coreutils.Savewd

/-!
# savewd: runs

Main lemmas:

- `Main.step`, `Helper.step`: what a step does to the process that was there first, and to a child that is at work;
- `Inv.step`: at any time one process is at work, and the files that are done are the ones before the file it is at;
- `runs_right`: what that says at the end.
-/

namespace CodingExercises.Coreutils.SaveWd

open Lib

variable {δ : Type}

/-! ## The last relative file -/

section

variable {file : List (List Byte)}

theorem lastRelativeFrom_lt (n : ℕ) : lastRelativeFrom file n < n := by
  induction n with
  | zero => simp [lastRelativeFrom]
  | succ n ih =>
    rw [lastRelativeFrom]
    split <;> omega

theorem relative_lastRelativeFrom {n : ℕ} (h : 0 ≤ lastRelativeFrom file n) :
    relative file (lastRelativeFrom file n).toNat := by
  induction n with
  | zero => simp [lastRelativeFrom] at h
  | succ n ih =>
    rw [lastRelativeFrom] at h ⊢
    split
    · next hn => simpa using hn
    · next hn =>
      rw [if_neg hn] at h
      exact ih h

theorem le_lastRelativeFrom {n k : ℕ} (hk : k < n) (h : relative file k) : (k : ℤ) ≤ lastRelativeFrom file n := by
  induction n with
  | zero => omega
  | succ n ih =>
    rw [lastRelativeFrom]
    split
    · omega
    · next hn =>
      have hkn : k ≠ n := by
        rintro rfl
        exact hn h
      exact ih (by omega)

theorem lt_length_of_relative {k : ℕ} (h : relative file k) : k < file.length := by
  by_contra hk
  simp [relative, List.getElem?_eq_none (Nat.le_of_not_lt hk)] at h

theorem le_lastRelative {k : ℕ} (h : relative file k) : (k : ℤ) ≤ lastRelative file :=
  le_lastRelativeFrom (lt_length_of_relative h) h

theorem relative_last {k : ℕ} (h : lastRelative file = k) : relative file k := by
  have hrel : relative file (lastRelative file).toNat := relative_lastRelativeFrom (by unfold lastRelative at h; omega)
  rwa [h, Int.toNat_natCast] at hrel

theorem lastRelative_lt : lastRelative file < file.length := lastRelativeFrom_lt _

end

/-- The files from `i` to `e` are worked on between two calls of `savewd_restore`. -/
structure Segment (file : List (List Byte)) (i e : ℕ) : Prop where
  le : i ≤ e
  next : relative file (e + 1)
  first : ∀ k, i ≤ k → k < e → ¬ relative file (k + 1)

theorem exists_segment {file : List (List Byte)} {i : ℕ} (h : (i : ℤ) < lastRelative file) : ∃ e, Segment file i e := by
  have hex : ∃ e, i ≤ e ∧ relative file (e + 1) = true := by
    have hlast : relative file (lastRelative file).toNat := relative_lastRelativeFrom (by unfold lastRelative at h; omega)
    refine ⟨(lastRelative file).toNat - 1, by omega, ?_⟩
    rwa [show (lastRelative file).toNat - 1 + 1 = (lastRelative file).toNat by omega]
  classical
  refine ⟨Nat.find hex, (Nat.find_spec hex).1, (Nat.find_spec hex).2, ?_⟩
  intro k hik hk hrel
  exact Nat.find_min hex hk ⟨hik, hrel⟩

namespace Segment

variable {file : List (List Byte)} {i e : ℕ}

theorem lt_last (h : Segment file i e) : (e : ℤ) < lastRelative file := by
  have := le_lastRelative h.next
  omega

theorem eq (h : Segment file i e) (hi : relative file (i + 1)) : i = e := by
  by_contra hne
  exact h.first i (Nat.le_refl i) (by have := h.le; omega) hi

theorem succ (h : Segment file i e) (hi : ¬ relative file (i + 1)) : Segment file (i + 1) e where
  le := by
    have hle := h.le
    have hne : i ≠ e := by
      rintro rfl
      exact hi h.next
    omega
  next := h.next
  first := fun k hk => h.first k (by omega)

end Segment

/-! ## The first process -/

/-- The saved directory is the initial one. -/
def Saved (home : δ) : Savewd δ → δ → Prop
  | .initial, cwd => cwd = home
  | .fd d, cwd => d = home ∧ cwd = home
  | .fdPostChdir d, _ => d = home
  | .forking .none, cwd => cwd = home
  | .error _, _ => True
  | .forking _, _ => False
  | .final, _ => False

/-- And the process is there, or knows that it is not. -/
def There (home : δ) : Savewd δ → δ → Prop
  | .fdPostChdir _, _ => False
  | wd, cwd => Saved home wd cwd

theorem There.saved {home : δ} {wd : Savewd δ} {cwd : δ} (h : There home wd cwd) : Saved home wd cwd := by
  cases wd <;> first
    | exact h
    | exact h.elim

theorem There.eq_home {home : δ} {wd : Savewd δ} {cwd : δ} (h : There home wd cwd) (he : wd.errno = none) :
    cwd = home := by
  cases wd with
  | initial => exact h
  | fd d => exact h.2
  | fdPostChdir d => exact h.elim
  | forking c =>
    cases c with
    | none => exact h
    | self => exact h.elim
    | pid p => exact h.elim
  | error e => cases he
  | final => exact h.elim

theorem Saved.not_delegating {home : δ} {wd : Savewd δ} {cwd : δ} (h : Saved home wd cwd) : wd.delegating = false := by
  cases wd with
  | forking c =>
    cases c with
    | none => rfl
    | self => exact h.elim
    | pid p => exact h.elim
  | _ => rfl

theorem Saved.finish {home : δ} {wd : Savewd δ} {cwd : δ} (h : Saved home wd cwd) : savewdFinish wd = some .final := by
  cases wd with
  | forking c =>
    cases c with
    | none => rfl
    | self => exact h.elim
    | pid p => exact h.elim
  | final => exact h.elim
  | _ => rfl

section

variable {home : δ} {wd : Savewd δ} {cwd : δ} {a : Answers δ}

/-- `savewd_save` keeps what is saved, where it does not fork. -/
theorem Saved.save {e : Errno} (h : Saved home wd cwd) (ha : a.forked = .error e) :
    (savewdSave wd cwd a).1 = false ∧ Saved home (savewdSave wd cwd a).2 cwd ∧
      (savewdSave wd cwd a).2 ≠ .initial ∧ ∀ c, (savewdSave wd cwd a).2 ≠ .forking c := by
  cases wd with
  | initial =>
    unfold savewdSave
    dsimp only
    split
    · exact ⟨rfl, ⟨h, h⟩, by simp, by simp⟩
    · split
      · exact ⟨rfl, trivial, by simp, by simp⟩
      · simp [savewdFork, ha, Saved]
  | fd d => exact ⟨rfl, h, by simp [savewdSave], by simp [savewdSave]⟩
  | fdPostChdir d => exact ⟨rfl, h, by simp [savewdSave], by simp [savewdSave]⟩
  | forking c =>
    cases c with
    | none => simp [savewdSave, savewdFork, ha, Saved]
    | self => exact h.elim
    | pid p => exact h.elim
  | error e' => exact ⟨rfl, h, by simp [savewdSave], by simp [savewdSave]⟩
  | final => exact h.elim

/-- `savewd_chdir` keeps what is saved. -/
theorem Saved.chdir {workingNofollow openResult : Bool} {o : ChdirOptions} {e : Errno} (h : Saved home wd cwd)
    (ha : a.forked = .error e) :
    ∃ r wd' cwd', savewdChdir workingNofollow o openResult wd cwd a = some (r, wd', cwd') ∧ r ≠ .delegated ∧
      Saved home wd' cwd' := by
  obtain ⟨hno, hsaved, hinit, hfork⟩ := h.save ha
  unfold savewdChdir
  dsimp only
  split
  · exact ⟨_, _, _, rfl, by simp, h⟩
  · split
    · exact ⟨_, _, _, rfl, by simp, h⟩
    · generalize savewdSave wd cwd a = s at hno hsaved hinit hfork
      obtain ⟨delegates, wd'⟩ := s
      subst hno
      dsimp only at hsaved hinit hfork ⊢
      split
      · contradiction
      · split
        · exact ⟨_, _, _, rfl, by simp, hsaved⟩
        · cases wd' with
          | initial => exact absurd rfl hinit
          | fd d => exact ⟨_, _, _, rfl, by simp, hsaved.1⟩
          | fdPostChdir d => exact ⟨_, _, _, rfl, by simp, hsaved⟩
          | forking c => exact absurd rfl (hfork c)
          | error e => exact ⟨_, _, _, rfl, by simp, trivial⟩
          | final => exact hsaved.elim

/-- Where the work is done by a child, or nothing is saved any more, `savewd_chdir` only changes the directory. -/
theorem chdir_of_save (workingNofollow openResult : Bool) (o : ChdirOptions)
    (hsave : savewdSave wd cwd a = (false, wd)) (hwd : wd = .forking .self ∨ wd = .final) :
    ∃ r cwd', savewdChdir workingNofollow o openResult wd cwd a = some (r, wd, cwd') ∧ r ≠ .delegated := by
  unfold savewdChdir
  dsimp only
  split
  · exact ⟨_, _, rfl, by simp⟩
  · split
    · exact ⟨_, _, rfl, by simp⟩
    · rw [hsave]
      dsimp only
      split
      · contradiction
      · split
        · exact ⟨_, _, rfl, by simp⟩
        · rcases hwd with rfl | rfl
          · exact ⟨_, _, rfl, by simp⟩
          · exact ⟨_, _, rfl, by simp⟩

theorem chdir_final (workingNofollow openResult : Bool) (o : ChdirOptions) (h : wd = .final) :
    ∃ r wd' cwd', savewdChdir workingNofollow o openResult wd cwd a = some (r, wd', cwd') ∧ r ≠ .delegated ∧
      wd' = .final := by
  subst h
  obtain ⟨r, cwd', hr, hno⟩ := chdir_of_save workingNofollow openResult o rfl (.inr rfl)
  exact ⟨r, _, cwd', hr, hno, rfl⟩

theorem chdir_self (workingNofollow openResult : Bool) (o : ChdirOptions) (h : wd = .forking .self) :
    ∃ r wd' cwd', savewdChdir workingNofollow o openResult wd cwd a = some (r, wd', cwd') ∧ r ≠ .delegated ∧
      wd' = .forking .self := by
  subst h
  obtain ⟨r, cwd', hr, hno⟩ := chdir_of_save workingNofollow openResult o rfl (.inl rfl)
  exact ⟨r, _, cwd', hr, hno, rfl⟩

/-- `savewd_restore` leads back to the initial directory, or to the error state. -/
theorem Saved.restore (h : Saved home wd cwd) (status : ℤ) (a : Answers δ) :
    ∃ r wd' cwd', savewdRestore wd cwd status a = .returns r wd' cwd' ∧ There home wd' cwd' := by
  cases wd with
  | initial => exact ⟨_, _, _, rfl, h⟩
  | fd d => exact ⟨_, _, _, rfl, h⟩
  | fdPostChdir d =>
    unfold savewdRestore
    dsimp only
    split
    · exact ⟨_, _, _, rfl, h, h⟩
    · exact ⟨_, _, _, rfl, trivial⟩
  | forking c =>
    cases c with
    | none => exact ⟨_, _, _, rfl, h⟩
    | self => exact h.elim
    | pid p => exact h.elim
  | error e => exact ⟨_, _, _, rfl, trivial⟩
  | final => exact h.elim

/-- `savewd_save` calls `fork` in the initial directory. -/
theorem Saved.save_delegates {p : ℕ} (h : Saved home wd cwd)
    (hd : (savewdSave wd cwd { a with forked := .ok (.parent p) }).1 = true) :
    cwd = home ∧ ∀ f, savewdSave wd cwd { a with forked := f } = savewdFork { a with forked := f } := by
  cases wd with
  | initial =>
    unfold savewdSave at hd ⊢
    dsimp only at hd ⊢
    split at hd
    · cases hd
    · split at hd
      · cases hd
      · next hno => exact ⟨h, fun f => if_neg hno⟩
  | forking c =>
    cases c with
    | none => exact ⟨h, fun f => rfl⟩
    | self => exact h.elim
    | pid p => exact h.elim
  | _ => cases hd

/-- A `savewd_chdir` that delegates, in the parent and in the child. -/
theorem Saved.delegates {workingNofollow openResult : Bool} {o : ChdirOptions} {p : ℕ} {wd' : Savewd δ} {cwd' : δ}
    (h : Saved home wd cwd)
    (hd : savewdChdir workingNofollow o openResult wd cwd { a with forked := .ok (.parent p) } =
      some (.delegated, wd', cwd')) :
    cwd = home ∧ (∀ pid, savewdChdir workingNofollow o openResult wd cwd { a with forked := .ok (.parent pid) } =
      some (.delegated, .forking (.pid pid), cwd)) ∧
      ∃ r cwd'', savewdChdir workingNofollow o openResult wd cwd { a with forked := .ok .child } =
        some (r, .forking .self, cwd'') ∧ r ≠ .delegated := by
  have hsave : (savewdSave wd cwd { a with forked := .ok (.parent p) }).1 = true := by
    unfold savewdChdir at hd
    dsimp only at hd
    by_contra hno
    rw [if_neg hno] at hd
    split at hd
    · cases hd
    · split at hd
      · cases hd
      · split at hd
        · cases hd
        · split at hd <;> cases hd
  obtain ⟨hhome, hfork⟩ := h.save_delegates hsave
  unfold savewdChdir at hd ⊢
  dsimp only at hd ⊢
  split at hd
  · cases hd
  · split at hd
    · cases hd
    · next hfailed hskip =>
      simp only [if_neg hfailed, if_neg hskip, hfork, savewdFork, if_true]
      refine ⟨hhome, fun _ => trivial, ?_⟩
      cases a.changed with
      | error e => exact ⟨_, _, rfl, by simp⟩
      | ok dir => exact ⟨_, _, rfl, by simp⟩

end

/-- The number of files that are done when a process is where it is. -/
def Proc.done (p : Proc δ) : ℕ :=
  match p.ctl with
  | .restore | .exited _ => p.i + 1
  | _ => p.i

/-- What a step of the process at work adds to the log. -/
structure Effect (home : δ) (file : List (List Byte)) (p : Proc δ) (l : List (Event δ)) (p' : Proc δ) : Prop where
  done : List.range p.done ++ handled l = List.range p'.done
  statuses : ∀ r ∈ statuses l, r ≤ p'.exitStatus
  mono : p.exitStatus ≤ p'.exitStatus
  works : ∀ i d, .works i d ∈ l → relative file i → d = home

/-- A step that is not seen. -/
theorem Effect.silent {home : δ} {file : List (List Byte)} {p p' : Proc δ} (hdone : p.done = p'.done)
    (hmono : p.exitStatus ≤ p'.exitStatus) : Effect home file p [] p' where
  done := by simp [hdone, handled]
  statuses := by simp [SaveWd.statuses]
  mono := hmono
  works := by simp

/-- A file is done. -/
theorem Effect.handled {home : δ} {file : List (List Byte)} {p p' : Proc δ} {r : ℤ} (hp : p.done = p.i)
    (hdone : p'.done = p.i + 1) (hstatus : p'.exitStatus = max p.exitStatus r) :
    Effect home file p [.handled p.i r] p' where
  done := by rw [hp, hdone, List.range_succ]; rfl
  statuses := by
    intro r' hr'
    rw [hstatus, List.mem_singleton.mp hr']
    exact le_max_right _ _
  mono := by
    rw [hstatus]
    exact le_max_left _ _
  works := by simp

/-- The first process, while no child is at work. -/
structure Main (home : δ) (file : List (List Byte)) (p : Proc δ) : Prop where
  nonneg : 0 ≤ p.exitStatus
  point : match p.ctl with
    | .loop => Saved home p.wd p.cwd ∧ (relative file p.i ∨ ¬ (p.i : ℤ) < lastRelative file → There home p.wd p.cwd) ∧
        ((p.i : ℤ) ≤ lastRelative file ∨ p.i = 0)
    | .acting false _ | .restore => Saved home p.wd p.cwd ∧ (p.i : ℤ) < lastRelative file
    | .acting true _ => p.wd = .final ∧ lastRelative file ≤ p.i ∧ p.i < file.length
    | .tail => p.wd = .final ∧ lastRelative file ≤ p.i ∧ p.i ≤ file.length ∧ (relative file p.i → p.cwd = home)
    | .returned => p.i = file.length
    | .exited _ | .aborted => False

/-- A child at work, or gone, on the files up to `e`. -/
structure Helper (file : List (List Byte)) (e : ℕ) (p : Proc δ) : Prop where
  nonneg : 0 ≤ p.exitStatus
  wd : p.wd = .forking .self
  segment : Segment file p.i e
  point : match p.ctl with
    | .loop => ¬ relative file p.i
    | .acting false _ | .restore => True
    | .exited status => status = p.exitStatus ∧ p.i = e
    | _ => False

section

variable {workingNofollow : Bool} {c : Client} {file : List (List Byte)} {home : δ} {p p' : Proc δ} {a : Answers δ}
  {exited : ℕ → Option ℤ} {l : List (Event δ)}

theorem Client.errno_of_works {wd : Savewd δ} {f : List Byte} (h : (c.call f wd).2 = true)
    (hf : isRelativeFileName f) : wd.errno = none := by
  unfold Client.call at h
  rw [if_pos hf] at h
  split at h
  · cases h
  · assumption

/-- A call of `act` begins. -/
theorem Proc.start_cases {tail : Bool} (h : p.start c file tail = some (p', l)) :
    p.i < file.length ∧ ∃ act, p' = { p with ctl := .acting tail act } ∧
      (l = [.works p.i p.cwd] ∧ (relative file p.i → p.wd.errno = none) ∨ l = []) := by
  unfold Proc.start at h
  split at h
  · cases h
  · next f hf =>
    have hlt : p.i < file.length := (List.getElem?_eq_some_iff.mp hf).1
    cases h
    refine ⟨hlt, _, rfl, ?_⟩
    by_cases hworks : (c.call f p.wd).2 = true
    · refine .inl ⟨if_pos hworks, fun hrel => ?_⟩
      have hf' : isRelativeFileName f = true := by simpa [relative, hf] using hrel
      exact Client.errno_of_works hworks hf'
    · exact .inr (if_neg hworks)

/-- It begins at home. -/
theorem Proc.start_effect {tail : Bool} (h : p.start c file tail = some (p', l)) (hp : p.done = p.i)
    (hhome : relative file p.i → p.wd.errno = none → p.cwd = home) : Effect home file p l p' := by
  obtain ⟨-, act, rfl, ⟨rfl, herr⟩ | rfl⟩ := Proc.start_cases h
  · exact {
      done := by
        rw [hp]
        exact List.append_nil _
      statuses := by simp [SaveWd.statuses]
      mono := Int.le_refl _
      works := by
        intro i d hd hrel
        cases List.mem_singleton.mp hd
        exact hhome hrel (herr hrel) }
  · exact Effect.silent hp (Int.le_refl _)

/-- A step of `act` that does not delegate: it ends, or it goes on. -/
theorem Proc.act_cases (P : Savewd δ → δ → Prop) (hP : P p.wd p.cwd) {tail : Bool} {act : Act}
    (hchdir : ∀ o openResult, ∃ r wd' cwd', savewdChdir workingNofollow o openResult p.wd p.cwd a = some (r, wd', cwd') ∧
      r ≠ .delegated ∧ P wd' cwd') (h : p.act workingNofollow tail a act = (p', l)) :
    (∃ s, p' = p.after tail s ∧ l = [.handled p.i s]) ∨
      ∃ act' wd' cwd', P wd' cwd' ∧ p' = { p with wd := wd', cwd := cwd', ctl := .acting tail act' } ∧ l = [] := by
  cases act with
  | ret s =>
    cases h
    exact .inl ⟨s, rfl, rfl⟩
  | savewdErrno k =>
    cases h
    exact .inr ⟨_, _, _, hP, rfl, rfl⟩
  | work k =>
    cases h
    exact .inr ⟨_, _, _, hP, rfl, rfl⟩
  | chdir o openResult delegated k =>
    obtain ⟨r, wd', cwd', hr, hno, hP'⟩ := hchdir o openResult
    simp only [Proc.act, hr] at h
    cases r with
    | ok =>
      cases h
      exact .inr ⟨_, _, _, hP', rfl, rfl⟩
    | failed =>
      cases h
      exact .inr ⟨_, _, _, hP', rfl, rfl⟩
    | delegated => exact absurd rfl hno

/-- A step of the first process, while no child is at work. -/
theorem Main.step (h : Main home file p) {e : Errno} (ha : a.forked = .error e)
    (hfine : p.ctl matches .loop → ¬ (p.i : ℤ) < lastRelative file → p.wd.errno.isSome → p.cwd = home)
    (hstep : p.step workingNofollow c file a exited = some (p', l)) : Main home file p' ∧ Effect home file p l p' := by
  obtain ⟨hnonneg, hpoint⟩ := h
  unfold Proc.step at hstep
  cases hctl : p.ctl with
  | loop =>
    simp only [hctl] at hpoint hstep hfine
    obtain ⟨hsaved, hthere, hle⟩ := hpoint
    have hdone : p.done = p.i := by simp [Proc.done, hctl]
    split at hstep
    · next hlt =>
      rw [hsaved.not_delegating] at hstep
      simp only [Bool.false_eq_true, if_false] at hstep
      refine ⟨?_, Proc.start_effect hstep hdone fun hrel herr => (hthere (.inl hrel)).eq_home herr⟩
      obtain ⟨-, act, rfl, -⟩ := Proc.start_cases hstep
      exact ⟨hnonneg, hsaved, hlt⟩
    · next hlt =>
      -- `savewd_finish`
      have hthere := hthere (.inr hlt)
      have hhome : p.cwd = home := by
        cases herr : p.wd.errno with
        | none => exact hthere.eq_home herr
        | some e => exact hfine trivial hlt (by simp [herr])
      have hfinish : savewdFinish p.wd = some .final := hsaved.finish
      rw [hfinish] at hstep
      cases hstep
      have hlen : lastRelative file < file.length := lastRelative_lt
      have hge : lastRelative file ≤ p.i := by omega
      have hile : p.i ≤ file.length := by omega
      exact ⟨⟨hnonneg, rfl, hge, hile, fun _ => hhome⟩, Effect.silent hdone (Int.le_refl _)⟩
  | acting tail act =>
    have hdone : p.done = p.i := by simp [Proc.done, hctl]
    simp only [hctl, Option.some.injEq] at hstep
    cases tail with
    | false =>
      simp only [hctl] at hpoint
      obtain ⟨hsaved, hlt⟩ := hpoint
      rcases Proc.act_cases (Saved home) hsaved (fun o r => hsaved.chdir ha) hstep with
        ⟨s, rfl, rfl⟩ | ⟨act', wd', cwd', hsaved', rfl, rfl⟩
      · exact ⟨⟨le_trans hnonneg (le_max_left _ _), hsaved, hlt⟩, Effect.handled hdone rfl rfl⟩
      · exact ⟨⟨hnonneg, hsaved', hlt⟩, Effect.silent hdone (Int.le_refl _)⟩
    | true =>
      simp only [hctl] at hpoint
      obtain ⟨hfinal, hle, hlt⟩ := hpoint
      rcases Proc.act_cases (fun wd _ => wd = .final) hfinal (fun o r => chdir_final _ _ _ hfinal) hstep with
        ⟨s, rfl, rfl⟩ | ⟨act', wd', cwd', hfinal', rfl, rfl⟩
      · have hrel : relative file (p.i + 1) → p.cwd = home := by
          intro hrel
          have := le_lastRelative hrel
          omega
        have hle' : lastRelative file ≤ (p.i + 1 : ℕ) := by omega
        exact ⟨⟨le_trans hnonneg (le_max_left _ _), hfinal, hle', hlt, hrel⟩, Effect.handled hdone rfl rfl⟩
      · exact ⟨⟨hnonneg, hfinal', hle, hlt⟩, Effect.silent hdone (Int.le_refl _)⟩
  | restore =>
    simp only [hctl] at hpoint hstep
    obtain ⟨hsaved, hlt⟩ := hpoint
    have hdone : p.done = p.i + 1 := by simp [Proc.done, hctl]
    have hle : ((p.i + 1 : ℕ) : ℤ) ≤ lastRelative file := by omega
    unfold Proc.restore at hstep
    split at hstep
    · next hrel =>
      obtain ⟨r, wd', cwd', hrestore, hthere⟩ := hsaved.restore p.exitStatus a
      rw [hrestore] at hstep
      cases hstep
      exact ⟨⟨le_trans hnonneg (le_max_left _ _), hthere.saved, fun _ => hthere, .inl hle⟩,
        Effect.silent hdone (le_max_left _ _)⟩
    · next hrel =>
      cases hstep
      have hthere : relative file (p.i + 1) ∨ ¬ ((p.i + 1 : ℕ) : ℤ) < lastRelative file → There home p.wd p.cwd := by
        rintro (h | h)
        · exact absurd h hrel
        · exact absurd (relative_last (show lastRelative file = (p.i + 1 : ℕ) by omega)) hrel
      exact ⟨⟨hnonneg, hsaved, hthere, .inl hle⟩, Effect.silent hdone (Int.le_refl _)⟩
  | tail =>
    simp only [hctl] at hpoint hstep
    obtain ⟨hfinal, hle, hlen, hhome⟩ := hpoint
    have hdone : p.done = p.i := by simp [Proc.done, hctl]
    split at hstep
    · next hlt =>
      refine ⟨?_, Proc.start_effect hstep hdone fun hrel _ => hhome hrel⟩
      obtain ⟨-, act, rfl, -⟩ := Proc.start_cases hstep
      exact ⟨hnonneg, hfinal, hle, hlt⟩
    · cases hstep
      exact ⟨⟨hnonneg, show p.i = file.length by omega⟩, Effect.silent hdone (Int.le_refl _)⟩
  | returned =>
    simp [hctl] at hstep
  | exited status =>
    simp [hctl] at hstep
  | aborted =>
    simp [hctl] at hstep

/-- A step of a child. It exits when the next file is relative. -/
theorem Helper.step {e : ℕ} (h : Helper file e p)
    (hfine : p.ctl matches .restore → p.wd matches .forking .self → relative file (p.i + 1) → p.exitStatus < 256)
    (hstep : p.step workingNofollow c file a exited = some (p', l)) : Helper file e p' ∧ Effect home file p l p' := by
  obtain ⟨hnonneg, hwd, hsegment, hpoint⟩ := h
  unfold Proc.step at hstep
  cases hctl : p.ctl with
  | loop =>
    simp only [hctl] at hpoint hstep
    have hdone : p.done = p.i := by simp [Proc.done, hctl]
    have hlt : (p.i : ℤ) < lastRelative file := by
      have := hsegment.le
      have := hsegment.lt_last
      omega
    rw [if_pos hlt, hwd] at hstep
    simp only [Savewd.delegating, Bool.false_eq_true, if_false] at hstep
    refine ⟨?_, Proc.start_effect hstep hdone fun hrel => absurd hrel hpoint⟩
    obtain ⟨-, act, rfl, -⟩ := Proc.start_cases hstep
    exact ⟨hnonneg, hwd, hsegment, trivial⟩
  | acting tail act =>
    have hdone : p.done = p.i := by simp [Proc.done, hctl]
    simp only [hctl, Option.some.injEq] at hpoint hstep
    cases tail with
    | false =>
      rcases Proc.act_cases (fun wd _ => wd = .forking .self) hwd (fun o r => chdir_self _ _ _ hwd) hstep with
        ⟨s, rfl, rfl⟩ | ⟨act', wd', cwd', hwd', rfl, rfl⟩
      · exact ⟨⟨le_trans hnonneg (le_max_left _ _), hwd, hsegment, trivial⟩, Effect.handled hdone rfl rfl⟩
      · exact ⟨⟨hnonneg, hwd', hsegment, trivial⟩, Effect.silent hdone (Int.le_refl _)⟩
    | true => exact hpoint.elim
  | restore =>
    simp only [hctl] at hpoint hstep hfine
    have hdone : p.done = p.i + 1 := by simp [Proc.done, hctl]
    unfold Proc.restore at hstep
    split at hstep
    · next hrel =>
      have hlt := hfine trivial (by simp [hwd]) hrel
      rw [hwd] at hstep
      cases hstep
      have hmod : p.exitStatus % 256 = p.exitStatus := Int.emod_eq_of_lt hnonneg hlt
      exact ⟨⟨hnonneg, rfl, hsegment, hmod, hsegment.eq hrel⟩, Effect.silent hdone (Int.le_refl _)⟩
    · next hrel =>
      cases hstep
      exact ⟨⟨hnonneg, hwd, hsegment.succ hrel, hrel⟩, Effect.silent hdone (Int.le_refl _)⟩
  | tail =>
    simp only [hctl] at hpoint
  | returned =>
    simp only [hctl] at hpoint
  | exited status =>
    simp [hctl] at hstep
  | aborted =>
    simp only [hctl] at hpoint

end

/-! ## All processes -/

/-- A child that is gone. -/
def Proc.gone (p : Proc δ) : Prop := p.ctl matches .exited _

/-- No child is at work. -/
structure Alone (home : δ) (file : List (List Byte)) (s : Sys δ) (main : Proc δ) (kids : List (Proc δ)) : Prop where
  procs : s.procs = main :: kids
  gone : ∀ k ∈ kids, k.gone
  first : Main home file main
  handled : handled s.log = List.range main.done
  statuses : ∀ r ∈ statuses s.log, r ≤ main.exitStatus

/-- The last child is at work, or is gone and the first process has not seen that yet. -/
structure Busy (home : δ) (file : List (List Byte)) (s : Sys δ) (main : Proc δ) (kids : List (Proc δ))
    (child : Proc δ) (e : ℕ) : Prop where
  procs : s.procs = main :: (kids ++ [child])
  gone : ∀ k ∈ kids, k.gone
  wd : main.wd = .forking (.pid (kids.length + 1))
  cwd : main.cwd = home
  nonneg : 0 ≤ main.exitStatus
  ctl : main.ctl matches .loop ∨ main.ctl matches .restore
  segment : Segment file main.i e
  helper : Helper file e child
  handled : handled s.log = List.range child.done
  statuses : ∀ r ∈ statuses s.log, r ≤ max main.exitStatus child.exitStatus

/-- **The invariant**: one process is at work. -/
structure Inv (home : δ) (file : List (List Byte)) (s : Sys δ) : Prop where
  works : ∀ i d, .works i d ∈ s.log → relative file i → d = home
  one : (∃ main kids, Alone home file s main kids) ∨ ∃ main kids child e, Busy home file s main kids child e

section

variable {workingNofollow : Bool} {c : Client} {file : List (List Byte)} {home : δ} {s s' : Sys δ}

theorem handled_append (l l' : List (Event δ)) : handled (l ++ l') = handled l ++ handled l' :=
  List.filterMap_append

theorem statuses_append (l l' : List (Event δ)) : statuses (l ++ l') = statuses l ++ statuses l' :=
  List.filterMap_append

theorem Proc.gone.step {p : Proc δ} (h : p.gone) (a : Answers δ) (exited : ℕ → Option ℤ) :
    p.step workingNofollow c file a exited = none := by
  unfold Proc.gone at h
  unfold Proc.step
  cases hctl : p.ctl <;> simp_all

theorem Proc.gone.forks {p : Proc δ} (h : p.gone) (a : Answers δ) : p.forks workingNofollow a = false := by
  unfold Proc.gone at h
  unfold Proc.forks
  cases hctl : p.ctl <;> simp_all

/-- The first process forks: it waits for the child, which goes on with the same file. -/
theorem Main.fork {p p' q : Proc δ} {a : Answers δ} {exited : ℕ → Option ℤ} {pid : ℕ} {l l' : List (Event δ)}
    (h : Main home file p) (hforks : p.forks workingNofollow a = true)
    (hstep : p.step workingNofollow c file { a with forked := .ok (.parent pid) } exited = some (p', l))
    (hstep' : p.step workingNofollow c file { a with forked := .ok .child } exited = some (q, l')) :
    ∃ e r act, Segment file p.i e ∧ p.done = p.i ∧ p.cwd = home ∧
      p' = { p with wd := .forking (.pid pid), exitStatus := max p.exitStatus r, ctl := .restore } ∧
      l = [.delegated p.i r] ∧ q.wd = .forking .self ∧ q.i = p.i ∧ q.exitStatus = p.exitStatus ∧
      q.ctl = .acting false act ∧ l' = [] := by
  obtain ⟨hnonneg, hpoint⟩ := h
  cases hctl : p.ctl with
  | acting tail act =>
    cases act with
    | chdir o openResult d k =>
      simp only [Proc.forks, hctl] at hforks
      split at hforks
      · next wd' cwd' hd =>
        cases tail with
        | false =>
          simp only [hctl] at hpoint
          obtain ⟨hsaved, hlt⟩ := hpoint
          obtain ⟨hhome, hparent, r, cwd'', hchild, hno⟩ := hsaved.delegates hd
          obtain ⟨e, hsegment⟩ := exists_segment hlt
          simp only [Proc.step, hctl, Proc.act, hparent] at hstep
          cases hstep
          simp only [Proc.step, hctl, Proc.act, hchild] at hstep'
          have hdone : p.done = p.i := by simp [Proc.done, hctl]
          cases r with
          | ok =>
            cases hstep'
            exact ⟨e, d, _, hsegment, hdone, hhome, rfl, rfl, rfl, rfl, rfl, rfl, rfl⟩
          | failed =>
            cases hstep'
            exact ⟨e, d, _, hsegment, hdone, hhome, rfl, rfl, rfl, rfl, rfl, rfl, rfl⟩
          | delegated => exact absurd rfl hno
        | true =>
          simp only [hctl] at hpoint
          obtain ⟨r, wd'', cwd'', hr, hno, -⟩ := chdir_final _ _ _ hpoint.1
          rw [hd] at hr
          cases hr
          exact absurd rfl hno
      · cases hforks
    | _ => simp [Proc.forks, hctl] at hforks
  | _ => simp [Proc.forks, hctl] at hforks

/-- Children do not fork. -/
theorem Helper.forks {e : ℕ} {p : Proc δ} (h : Helper file e p) (a : Answers δ) :
    p.forks workingNofollow a = false := by
  unfold Proc.forks
  split
  · split
    · next hd =>
      obtain ⟨r, wd', cwd', hr, hno, -⟩ := chdir_self _ _ _ h.wd
      rw [hd] at hr
      cases hr
      exact absurd rfl hno
    · rfl
  · rfl

theorem Alone.step {main : Proc δ} {kids : List (Proc δ)} (h : Alone home file s main kids)
    (hfine : s.Fine home file) (hstep : Step workingNofollow c file s s') :
    (∃ l, s'.log = s.log ++ l ∧ ∀ i d, .works i d ∈ l → relative file i → d = home) ∧
      ((∃ main kids, Alone home file s' main kids) ∨
        ∃ main kids child e, Busy home file s' main kids child e) := by
  obtain ⟨hprocs, hgone, hmain, hhandled, hstatuses⟩ := h
  cases hstep with
  | @one j p p' a e l hj ha hstep =>
    rw [hprocs] at hj
    cases j with
    | zero =>
      cases hj
      have hfine := (hfine main (by simp [hprocs])).1
      obtain ⟨hmain', heffect⟩ := hmain.step ha hfine hstep
      refine ⟨⟨l, rfl, heffect.works⟩, .inl ⟨p', kids, ?_, hgone, hmain', ?_, ?_⟩⟩
      · simp [hprocs]
      · rw [handled_append, hhandled, heffect.done]
      · intro r hr
        rw [statuses_append] at hr
        rcases List.mem_append.mp hr with hr | hr
        · exact le_trans (hstatuses r hr) heffect.mono
        · exact heffect.statuses r hr
    | succ j =>
      have hp := hgone p (List.mem_of_getElem? hj)
      rw [hp.step] at hstep
      cases hstep
  | @fork j p p' q a l l' hj hforks hstep hstep' =>
    rw [hprocs] at hj
    cases j with
    | zero =>
      cases hj
      obtain ⟨e, r, act, hsegment, hdone, hhome, rfl, rfl, hqwd, hqi, hqstatus, hqctl, rfl⟩ :=
        hmain.fork hforks hstep hstep'
      have hqdone : q.done = main.i := by simp [Proc.done, hqctl, hqi]
      refine ⟨⟨_, rfl, by simp⟩, .inr ⟨{ main with
        wd := .forking (.pid s.procs.length), exitStatus := max main.exitStatus r, ctl := .restore }, kids, q, e, ?_⟩⟩
      exact {
        procs := by simp [hprocs]
        gone := hgone
        wd := by simp [hprocs]
        cwd := hhome
        nonneg := le_trans hmain.nonneg (le_max_left _ _)
        ctl := .inr rfl
        segment := hsegment
        helper := ⟨hqstatus ▸ hmain.nonneg, hqwd, hqi ▸ hsegment, by simp [hqctl]⟩
        handled := by
          rw [handled_append, hhandled, hdone, hqdone]
          exact List.append_nil _
        statuses := by
          intro r' hr'
          rw [statuses_append] at hr'
          apply le_trans _ (le_max_left _ _)
          rcases List.mem_append.mp hr' with hr' | hr'
          · exact le_trans (hstatuses r' hr') (le_max_left _ _)
          · rw [List.mem_singleton.mp hr']
            exact le_max_right _ _ }
    | succ j =>
      have hp := hgone p (List.mem_of_getElem? hj)
      rw [hp.forks] at hforks
      cases hforks

theorem Sys.exited_eq {k : ℕ} {child : Proc δ} (h : s.procs[k]? = some child) {r : ℤ} (hr : s.exited k = some r) :
    child.ctl = .exited r := by
  unfold Sys.exited at hr
  rw [h] at hr
  split at hr
  · next hchild =>
    cases hr
    cases hchild
    rfl
  · cases hr

/-- The first process, when it has waited for a child that exited with `r`. -/
def Proc.resumed (p : Proc δ) (r : ℤ) : Proc δ where
  i := p.i + 1
  exitStatus := max p.exitStatus r
  wd := .forking .none
  cwd := p.cwd
  ctl := .loop

/-- The first process, while the child is at work: it passes over files, and waits. -/
theorem Busy.wait {main p' : Proc δ} {kids : List (Proc δ)} {child : Proc δ} {e : ℕ} {a : Answers δ}
    {l : List (Event δ)} (h : Busy home file s main kids child e)
    (hstep : main.step workingNofollow c file a s.exited = some (p', l)) :
    l = [] ∧ ((∃ i ctl, p' = { main with i, ctl } ∧ (ctl matches .loop ∨ ctl matches .restore) ∧ Segment file i e) ∨
      ∃ r, child.ctl = .exited r ∧ main.i = e ∧ p' = main.resumed r) := by
  unfold Proc.step at hstep
  rcases h.ctl with hctl | hctl
  · have hctl : main.ctl = .loop := by
      cases hm : main.ctl <;> simp_all
    have hlt : (main.i : ℤ) < lastRelative file := by
      have := h.segment.le
      have := h.segment.lt_last
      omega
    have hdelegating : main.wd.delegating = true := by rw [h.wd]; rfl
    simp only [hctl, if_pos hlt, if_pos hdelegating] at hstep
    cases hstep
    exact ⟨rfl, .inl ⟨main.i, .restore, rfl, .inr rfl, h.segment⟩⟩
  · have hctl : main.ctl = .restore := by
      cases hm : main.ctl <;> simp_all
    simp only [hctl, Proc.restore] at hstep
    split at hstep
    · next hrel =>
      simp only [h.wd, savewdRestore] at hstep
      have hlen : s.procs[kids.length + 1]? = some child := by simp [h.procs]
      cases hexited : s.exited (kids.length + 1) with
      | none =>
        rw [hexited] at hstep
        cases hstep
      | some r =>
        rw [hexited] at hstep
        cases hstep
        exact ⟨rfl, .inr ⟨r, Sys.exited_eq hlen hexited, h.segment.eq hrel, rfl⟩⟩
    · next hrel =>
      cases hstep
      exact ⟨rfl, .inl ⟨main.i + 1, .loop, rfl, .inl rfl, h.segment.succ hrel⟩⟩

/-- When it goes on, it has the status of the child. -/
theorem Busy.resume {main : Proc δ} {kids : List (Proc δ)} {child : Proc δ} {e : ℕ} {r : ℤ}
    (h : Busy home file s main kids child e) (hr : child.ctl = .exited r) (he : main.i = e) :
    Alone home file { s with procs := s.procs.set 0 (main.resumed r) } (main.resumed r) (kids ++ [child]) := by
  obtain ⟨-, -, hsegment, hpoint⟩ := h.helper
  simp only [hr] at hpoint
  obtain ⟨rfl, hie⟩ := hpoint
  have hle : ((main.i + 1 : ℕ) : ℤ) ≤ lastRelative file := by
    have := h.segment.lt_last
    omega
  exact {
    procs := by simp [h.procs]
    gone := by
      intro k hk
      rcases List.mem_append.mp hk with hk | hk
      · exact h.gone k hk
      · rw [List.mem_singleton.mp hk]
        simp [Proc.gone, hr]
    first := ⟨le_trans h.nonneg (le_max_left _ _), h.cwd, fun _ => h.cwd, .inl hle⟩
    handled := by
      have hdone : child.done = (main.resumed child.exitStatus).done := by
        simp [Proc.done, Proc.resumed, hr, hie, he]
      rw [← hdone]
      exact h.handled
    statuses := h.statuses }

/-- The children that are not gone. -/
theorem Busy.kid {main p : Proc δ} {kids : List (Proc δ)} {child : Proc δ} {e j : ℕ}
    (h : Busy home file s main kids child e) (hj : (kids ++ [child])[j]? = some p) :
    p.gone ∨ j = kids.length ∧ child = p := by
  rcases Nat.lt_or_ge j kids.length with hlt | hge
  · rw [List.getElem?_append_left hlt] at hj
    exact .inl (h.gone p (List.mem_of_getElem? hj))
  · rw [List.getElem?_append_right hge] at hj
    have hlt := (List.getElem?_eq_some_iff.mp hj).1
    have hzero : j - kids.length = 0 := by
      simp only [List.length_singleton] at hlt
      omega
    rw [hzero] at hj
    exact .inr ⟨by omega, Option.some.inj hj⟩

theorem Busy.step {main : Proc δ} {kids : List (Proc δ)} {child : Proc δ} {e : ℕ}
    (h : Busy home file s main kids child e) (hfine : s.Fine home file) (hstep : Step workingNofollow c file s s') :
    (∃ l, s'.log = s.log ++ l ∧ ∀ i d, .works i d ∈ l → relative file i → d = home) ∧
      ((∃ main kids, Alone home file s' main kids) ∨
        ∃ main kids child e, Busy home file s' main kids child e) := by
  cases hstep with
  | @one j p p' a e' l hj ha hstep =>
    rw [h.procs] at hj
    cases j with
    | zero =>
      cases hj
      obtain ⟨rfl, ⟨i, ctl, rfl, hctl, hsegment⟩ | ⟨r, hr, he, rfl⟩⟩ := h.wait hstep
      · refine ⟨⟨[], rfl, by simp⟩, .inr ⟨{ main with i, ctl }, kids, child, e, ?_⟩⟩
        exact {
          procs := by simp [h.procs]
          gone := h.gone
          wd := h.wd
          cwd := h.cwd
          nonneg := h.nonneg
          ctl := hctl
          segment := hsegment
          helper := h.helper
          handled := by rw [List.append_nil]; exact h.handled
          statuses := by rw [List.append_nil]; exact h.statuses }
      · refine ⟨⟨[], rfl, by simp⟩, .inl ⟨main.resumed r, kids ++ [child], ?_⟩⟩
        rw [List.append_nil]
        exact h.resume hr he
    | succ j =>
      rw [List.getElem?_cons_succ] at hj
      rcases h.kid hj with hgone | ⟨rfl, rfl⟩
      · rw [hgone.step] at hstep
        cases hstep
      · have hfine := (hfine child (by simp [h.procs])).2
        obtain ⟨hhelper, heffect⟩ : Helper file e p' ∧ Effect home file child l p' := h.helper.step hfine hstep
        refine ⟨⟨l, rfl, heffect.works⟩, .inr ⟨main, kids, p', e, ?_⟩⟩
        exact {
          procs := by simp [h.procs]
          gone := h.gone
          wd := h.wd
          cwd := h.cwd
          nonneg := h.nonneg
          ctl := h.ctl
          segment := h.segment
          helper := hhelper
          handled := by rw [handled_append, h.handled, heffect.done]
          statuses := by
            intro r hr
            rw [statuses_append] at hr
            rcases List.mem_append.mp hr with hr | hr
            · exact le_trans (h.statuses r hr) (max_le (le_max_left _ _) (le_trans heffect.mono (le_max_right _ _)))
            · exact le_trans (heffect.statuses r hr) (le_max_right _ _) }
  | @fork j p p' q a l l' hj hforks hstep hstep' =>
    rw [h.procs] at hj
    cases j with
    | zero =>
      cases hj
      have hctl := h.ctl
      unfold Proc.forks at hforks
      split at hforks
      · next hact => simp [hact] at hctl
      · cases hforks
    | succ j =>
      rw [List.getElem?_cons_succ] at hj
      rcases h.kid hj with hgone | ⟨rfl, rfl⟩
      · rw [hgone.forks] at hforks
        cases hforks
      · rw [h.helper.forks] at hforks
        cases hforks

/-- Every step keeps the invariant. -/
theorem Inv.step (h : Inv home file s) (hfine : s.Fine home file) (hstep : Step workingNofollow c file s s') :
    Inv home file s' := by
  have hone : (∃ l, s'.log = s.log ++ l ∧ ∀ i d, .works i d ∈ l → relative file i → d = home) ∧
      ((∃ main kids, Alone home file s' main kids) ∨
        ∃ main kids child e, Busy home file s' main kids child e) := by
    rcases h.one with ⟨main, kids, halone⟩ | ⟨main, kids, child, e, hbusy⟩
    · exact halone.step hfine hstep
    · exact hbusy.step hfine hstep
  obtain ⟨⟨l, hlog, hworks⟩, hone⟩ := hone
  refine ⟨?_, hone⟩
  intro i d hd hrel
  rw [hlog] at hd
  rcases List.mem_append.mp hd with hd | hd
  · exact h.works i d hd hrel
  · exact hworks i d hd hrel

theorem inv_init (home : δ) (file : List (List Byte)) : Inv home file (Sys.init home) where
  works := by simp [Sys.init]
  one := by
    left
    refine ⟨_, [], rfl, by simp, ⟨Int.le_refl 0, rfl, fun _ => rfl, .inr rfl⟩, rfl, by simp [Sys.init, statuses]⟩

/-- What the invariant says of the whole. -/
theorem Inv.right (h : Inv home file s) : Right home file s := by
  have hnodup : ∀ n, (List.range n).Nodup := fun n => List.nodup_range
  rcases h.one with ⟨main, kids, halone⟩ | ⟨main, kids, child, e, hbusy⟩
  · have hmain : ∀ p, s.procs[0]? = some p → p = main := by
      intro p hp
      rw [halone.procs] at hp
      exact (Option.some.inj hp).symm
    have hdone : main.ctl = .returned → main.done = file.length := by
      intro hctl
      have hpoint := halone.first.point
      simp only [hctl] at hpoint
      simp [Proc.done, hctl, hpoint]
    exact {
      atHome := h.works
      notTwice := by
        rw [halone.handled]
        exact hnodup _
      once := by
        intro p hp hctl i hi
        obtain rfl := hmain p hp
        rw [halone.handled, hdone (by cases hm : p.ctl <;> simp_all)]
        exact List.count_eq_one_of_mem (hnodup _) (List.mem_range.mpr hi)
      status := by
        intro p hp hctl r hr _
        obtain rfl := hmain p hp
        exact halone.statuses r hr }
  · have hnot : ∀ p, s.procs[0]? = some p → p.ctl ≠ .returned := by
      intro p hp hctl
      rw [hbusy.procs] at hp
      obtain rfl := Option.some.inj hp
      have hm := hbusy.ctl
      simp_all
    exact {
      atHome := h.works
      notTwice := by
        rw [hbusy.handled]
        exact hnodup _
      once := fun p hp hctl => absurd (by cases hc : p.ctl <;> simp_all) (hnot p hp)
      status := fun p hp hctl => absurd (by cases hc : p.ctl <;> simp_all) (hnot p hp) }

end

/-- **When `savewd_process_files` does what it is for**: in every run where, before each step, neither is the error state
about to be forgotten away from the initial directory, nor does a child exit with a status of more than 8 bits. -/
theorem runs_right (workingNofollow : Bool) (c : Client) (file : List (List Byte)) (home : δ) (s : Sys δ)
    (hrun : Relation.ReflTransGen (fun s s' => Step workingNofollow c file s s' ∧ s.Fine home file) (Sys.init home) s) :
    Right home file s :=
  (invariant_of_reaches (I := Inv home file) (fun _ _ h hstep => Inv.step h hstep.2 hstep.1) hrun
    (inv_init home file)).right

/-- `open` finds the directory itself, `chdir` leads to the directory 5, and `fchdir` does not lead back. -/
def lost : Answers ℕ where
  openDot := none
  opened := none
  forked := .error (.other 11)
  changed := .ok 5
  restored := some (.other 5)
  reply := 0

/-- An `act` that changes the directory once, and returns 0. -/
def visitor : Client where
  acts := fun _ => .chdir ⟨false, false, false⟩ false 0 fun _ _ => .ret 0
  reports := fun _ _ => 1

/-- One file, with nothing in the way. -/
theorem runs_right_one : ∃ s : Sys ℕ, (∃ p, s.procs = [p] ∧ p.ctl matches .returned) ∧ Right 0 [[97]] s := by
  have hfine : ∀ (p : Proc ℕ) (l : List (Event ℕ)), p.wd = .initial ∨ p.wd = .final → Sys.Fine 0 [[97]] ⟨[p], l⟩ := by
    intro p l hwd q hq
    cases List.mem_singleton.mp hq
    rcases hwd with hwd | hwd <;> simp [hwd, Savewd.errno]
  refine ⟨_, ⟨_, rfl, ?_⟩, runs_right false ⟨fun _ => .ret 3, fun _ _ => 1⟩ [[97]] 0 _ <|
    .head ⟨.one (j := 0) (a := lost) rfl rfl rfl, hfine _ _ (.inl rfl)⟩ <|
    .head ⟨.one (j := 0) (a := lost) rfl rfl rfl, hfine _ _ (.inr rfl)⟩ <|
    .head ⟨.one (j := 0) (a := lost) rfl rfl rfl, hfine _ _ (.inr rfl)⟩ <|
    .head ⟨.one (j := 0) (a := lost) rfl rfl rfl, hfine _ _ (.inr rfl)⟩ .refl⟩
  rfl

/-- Two relative files, where the way back from the first one is lost: the second one is worked on elsewhere. -/
theorem error_forgotten : ∃ s : Sys ℕ,
    Relation.ReflTransGen (Step false visitor [[97], [98]]) (Sys.init 0) s ∧ ¬ Right 0 [[97], [98]] s := by
  refine ⟨_, .head (.one (j := 0) (a := lost) rfl rfl rfl) <| .head (.one (j := 0) (a := lost) rfl rfl rfl) <|
    .head (.one (j := 0) (a := lost) rfl rfl rfl) <| .head (.one (j := 0) (a := lost) rfl rfl rfl) <|
    .head (.one (j := 0) (a := lost) rfl rfl rfl) <| .head (.one (j := 0) (a := lost) rfl rfl rfl) .refl, ?_⟩
  intro hright
  have hhome : (5 : ℕ) = 0 := hright.atHome 1 5 (by decide) rfl
  cases hhome

end CodingExercises.Coreutils.SaveWd
