import CodingExercises.Coreutils.CanonicalizeRuns

/-!
# coreutils: the answers of `canonicalize_filename_mode`

A call is answered, with a name or with an error, if and only if it meets no symbolic link (`canonicalize_answers_iff`). A
name that is returned is canonical, and with `CAN_EXISTING` it is the one that the file has; so what has to fail then does
fail, unless a link is met before (`canonicalize_sound_iff`).
-/

namespace CodingExercises.Coreutils.Canonicalize

open Lib (Segment Files Lost)

/-! ## Runs -/

section Runs

variable {disk : Disk} {mode : CanMode} {env : Env} {name : Option (List Byte)}

theorem canonicalizeLoop_mono {fuel fuel' : ℕ} {s : State} {start : List Byte} {r : Result} (hle : fuel ≤ fuel')
    (h : canonicalizeLoop disk mode fuel s start = some r) : canonicalizeLoop disk mode fuel' s start = some r := by
  induction fuel generalizing fuel' s start with
  | zero => cases h
  | succ fuel ih =>
    obtain ⟨fuel', rfl⟩ := Nat.exists_eq_add_of_le' hle
    have hle : fuel ≤ fuel' + fuel := Nat.le_add_left fuel fuel'
    rw [← Nat.add_assoc, canonicalizeLoop]
    rw [canonicalizeLoop] at h
    split_ifs at h ⊢
    · exact h
    · exact ih hle h
    · exact ih hle h
    · split at h
      · exact h
      · exact ih hle h

/-- A call comes to a result. -/
def Ends (env : Env) (mode : CanMode) (name : Option (List Byte)) (r : Result) : Prop :=
  ∃ fuel, canonicalizeFilenameMode env mode fuel name = some r

theorem canonicalizeFilenameMode_mono {fuel fuel' : ℕ} {r : Result} (hle : fuel ≤ fuel')
    (h : canonicalizeFilenameMode env mode fuel name = some r) :
    canonicalizeFilenameMode env mode fuel' name = some r := by
  unfold canonicalizeFilenameMode at h ⊢
  split at h
  · exact h
  · exact h
  · split_ifs at h ⊢
    · exact canonicalizeLoop_mono hle h
    · split at h <;> rename_i hc
      · exact h
      · exact canonicalizeLoop_mono hle h

/-- A call comes to one result. -/
theorem Ends.unique {r r' : Result} (h : Ends env mode name r) (h' : Ends env mode name r') : r = r' := by
  obtain ⟨fuel, h⟩ := h
  obtain ⟨fuel', h'⟩ := h'
  have hmax := canonicalizeFilenameMode_mono (Nat.le_max_left fuel fuel') h
  rw [canonicalizeFilenameMode_mono (Nat.le_max_right fuel fuel') h'] at hmax
  exact (Option.some.inj hmax).symm

/-- Where a string is followed from; nothing without a current directory. -/
def startOf (env : Env) (s : List Byte) : Option (List Name) :=
  if s.head? = some slash then some [] else env.cwd.toOption

theorem start_dir {s : List Byte} {p : List Name} (h : startOf env s = some p) : env.disk.file p = some .dir := by
  unfold startOf at h
  split at h
  · cases h
    exact env.disk.root
  · cases hcwd : env.cwd with
    | error e =>
      rw [hcwd] at h
      cases h
    | ok q =>
      rw [hcwd] at h
      cases h
      exact env.cwd_dir p hcwd

/-- The names of a place that there is. -/
theorem Disk.ordinary_of_file (disk : Disk) {p : List Name} (h : disk.file p ≠ none) : ∀ c ∈ p, Ordinary c := by
  induction p using List.reverseRecOn with
  | nil => simp
  | append_singleton p c ih =>
    have hp : disk.file p ≠ none := by
      rw [disk.closed p c h]
      exact Option.some_ne_none _
    intro d hd
    rcases List.mem_append.mp hd with hd | hd
    · exact ih hp d hd
    · obtain rfl := List.mem_singleton.mp hd
      exact disk.ordinary p d h

/-- There are directories only on the way to a directory. -/
theorem straight_of_dir {p : List Name} (h : disk.file p = some .dir) : disk.files.Straight p := by
  rintro q ⟨r, rfl⟩
  apply Lib.not_isLink_of_dir
  cases r with
  | nil => exact node_dir.mpr (by simpa using h)
  | cons c r =>
    apply disk.files.dir_of_append
    rw [node_dir.mpr h]
    exact Option.some_ne_none _

/-- What a call comes to. -/
theorem ends_lexical {s : List Byte} (hs : s ≠ []) {p : List Name} (hp : startOf env s = some p) :
    ∃ r, Ends env mode (some s) r ∧ Agrees (lexical env.disk mode p (tokens s)) (some r) := by
  have hdir := start_dir hp
  have hstart : ∀ rname, Rep p rname →
      At env.disk mode p ⟨rname, s, none, env.world⟩ (tokens s) := by
    intro rname hrep
    refine ⟨hrep, env.disk.ordinary_of_file ?_, straight_of_dir hdir, rfl, fun _ _ => hdir⟩
    rw [hdir]
    exact Option.some_ne_none _
  have hrun : ∃ rname, Rep p rname ∧ ∀ fuel, canonicalizeFilenameMode env mode fuel (some s) =
      canonicalizeLoop env.disk mode fuel ⟨rname, s, none, env.world⟩ s := by
    cases s with
    | nil => exact absurd rfl hs
    | cons c s =>
      unfold startOf at hp
      simp only [canonicalizeFilenameMode]
      split at hp
      · rename_i hc
        cases hp
        exact ⟨[slash], .inr rfl, fun fuel => if_pos hc⟩
      · rename_i hc
        cases hcwd : env.cwd with
        | error e =>
          rw [hcwd] at hp
          cases hp
        | ok q =>
          rw [hcwd] at hp
          cases hp
          exact ⟨render p, rep_render p, fun fuel => if_neg hc⟩
  obtain ⟨rname, hrep, hrun⟩ := hrun
  have hloop := canonicalizeLoop_lexical (Nat.lt_succ_self s.length) (hstart rname hrep)
  cases hr : canonicalizeLoop env.disk mode (s.length + 1) ⟨rname, s, none, env.world⟩ s with
  | none =>
    rw [Nat.succ_eq_add_one, hr] at hloop
    unfold Agrees at hloop
    split at hloop <;> simp at hloop
  | some r =>
    rw [Nat.succ_eq_add_one, hr] at hloop
    exact ⟨r, ⟨s.length + 1, by rw [hrun, hr]⟩, hloop⟩

end Runs

/-! ## Meeting a link -/

section Meets

variable {disk : Disk} {mode : CanMode} {p : List Name} {ts : List Name}

/-- Among the names that a string has from a place on, each in the place that the ones before it lead to, one is that of a
symbolic link, and those before it are directories; with `CAN_MISSING` they may be anything else. -/
def Meets (disk : Disk) (mode : CanMode) : List Name → List Name → Prop
  | _, [] => False
  | p, t :: ts =>
    match part t with
    | .here => Meets disk mode p ts
    | .up => Meets disk mode p.dropLast ts
    | .name c =>
      disk.files.IsLink (p ++ [c]) ∨
        (disk.file (p ++ [c]) = some .dir ∨ mode = .missing) ∧ Meets disk mode (p ++ [c]) ts

/-- Slashes lead nowhere. -/
theorem lexical_slashes (h : ∀ t ∈ ts, t = []) : lexical disk mode p ts = .place p := by
  induction ts with
  | nil => rfl
  | cons t ts ih =>
    obtain rfl := h t List.mem_cons_self
    exact ih fun t ht => h t (List.mem_cons_of_mem _ ht)

theorem lexical_eq_link_iff : lexical disk mode p ts = .link ↔ Meets disk mode p ts := by
  induction ts generalizing p with
  | nil => simp [lexical, Meets]
  | cons t ts ih =>
    rw [lexical, Meets]
    cases part t with
    | here => exact ih
    | up => exact ih
    | name c =>
      dsimp only
      rw [isLink_iff]
      cases hfile : disk.file (p ++ [c]) with
      | none =>
        cases mode with
        | existing => simp
        | missing => simpa using ih
        | allButLast =>
          by_cases hts : ∃ u ∈ ts, u ≠ []
          · simp [hts]
          · have hslashes : ∀ u ∈ ts, u = [] := by simpa using hts
            simp [hts, lexical_slashes hslashes]
      | some f =>
        cases f with
        | dir => simpa using ih
        | link target => simp
        | file =>
          by_cases hmode : mode = .missing
          · simpa [hmode] using ih
          · cases ts with
            | nil => simp [lexical, Meets]
            | cons u ts => simp [hmode]

/-- A name is followed through a link. -/
def MeetsLink (env : Env) (mode : CanMode) (name : Option (List Byte)) : Prop :=
  ∃ s p, name = some s ∧ startOf env s = some p ∧ Meets env.disk mode p (tokens s)

/-- A name or an error. -/
def Result.IsAnswer (r : Result) : Prop := ∀ h, r ≠ .halts h

theorem ends_halts {env : Env} {name : Option (List Byte)} (h : MeetsLink env mode name) :
    ∃ halt, Ends env mode name (.halts halt) := by
  obtain ⟨s, p, rfl, hp, hmeets⟩ := h
  have hs : s ≠ [] := by
    rintro rfl
    exact hmeets
  obtain ⟨r, hends, hagrees⟩ := ends_lexical hs hp
  rw [lexical_eq_link_iff.mpr hmeets] at hagrees
  obtain ⟨halt, hr⟩ := hagrees
  cases hr
  exact ⟨halt, hends⟩

/-- What a call that meets no link comes to. -/
theorem ends_answer {env : Env} {name : Option (List Byte)} (h : ¬ MeetsLink env mode name) :
    (∃ s p q, name = some s ∧ startOf env s = some p ∧ lexical env.disk mode p (tokens s) = .place q ∧
        Ends env mode name (.returns (render q))) ∨
      ∃ e, Ends env mode name (.fails e) := by
  cases name with
  | none => exact .inr ⟨.einval, 0, rfl⟩
  | some s =>
    cases s with
    | nil => exact .inr ⟨.enoent, 0, rfl⟩
    | cons c s =>
      cases hp : startOf env (c :: s) with
      | none =>
        right
        unfold startOf at hp
        split at hp
        · cases hp
        · rename_i hc
          cases hcwd : env.cwd with
          | ok q =>
            rw [hcwd] at hp
            cases hp
          | error e =>
            refine ⟨e, 0, ?_⟩
            simp only [canonicalizeFilenameMode, if_neg hc, hcwd]
      | some p =>
        obtain ⟨r, hends, hagrees⟩ : ∃ r, Ends env mode (some (c :: s)) r ∧ _ := ends_lexical (List.cons_ne_nil c s) hp
        cases hway : lexical env.disk mode p (tokens (c :: s)) with
        | place q =>
          rw [hway] at hagrees
          cases hagrees
          exact .inl ⟨c :: s, p, q, rfl, hp, hway, hends⟩
        | fails e =>
          rw [hway] at hagrees
          cases hagrees
          exact .inr ⟨e, hends⟩
        | link => exact absurd ⟨c :: s, p, rfl, hp, lexical_eq_link_iff.mp hway⟩ h

end Meets

/-! ## What an answer says -/

section Lexical

variable {disk : Disk} {mode : CanMode} {p q : List Name} {ts : List Name}

theorem ordinary_of_part {t c : Name} (hslash : slash ∉ t) (h : part t = .name c) : Ordinary c := by
  obtain rfl := part_eq_name h
  exact ⟨hslash, h⟩

/-- The names of a place that comes of ordinary names are ordinary. -/
theorem lexical_ordinary (hp : ∀ c ∈ p, Ordinary c) (hts : ∀ t ∈ ts, slash ∉ t) (h : lexical disk mode p ts = .place q) :
    ∀ c ∈ q, Ordinary c := by
  induction ts generalizing p with
  | nil =>
    cases h
    exact hp
  | cons t ts ih =>
    rw [List.forall_mem_cons] at hts
    rw [lexical] at h
    cases hpart : part t with
    | here =>
      rw [hpart] at h
      exact ih hp hts.2 h
    | up =>
      rw [hpart] at h
      exact ih (fun c hc => hp c (List.mem_of_mem_dropLast hc)) hts.2 h
    | name c =>
      have hp' : ∀ d ∈ p ++ [c], Ordinary d := by
        intro d hd
        rcases List.mem_append.mp hd with hd | hd
        · exact hp d hd
        · obtain rfl := List.mem_singleton.mp hd
          exact ordinary_of_part hts.1 hpart
      rw [hpart] at h
      dsimp only at h
      split at h
      · exact ih hp' hts.2 h
      · split at h
        · cases h
        · exact ih hp' hts.2 h
      · cases h
      · split at h
        · cases h
        · split at h
          · cases h
          · exact ih hp' hts.2 h
        · exact ih hp' hts.2 h

/-- With `CAN_EXISTING`, a place that a string comes to lexically is the one that it is followed to. -/
theorem lexical_follows (hstraight : disk.files.Straight p) (hp : disk.file p ≠ none)
    (hdir : ts ≠ [] → disk.file p = some .dir) (h : lexical disk .existing p ts = .place q) :
    disk.files.Straight q ∧ disk.file q ≠ none ∧ Lib.Follows disk.files disk.Readable p (ts.map part) q := by
  induction ts generalizing p with
  | nil =>
    cases h
    exact ⟨hstraight, hp, .done _⟩
  | cons t ts ih =>
    have hdir := hdir (List.cons_ne_nil t ts)
    have hnode := node_dir.mpr hdir
    rw [lexical] at h
    rw [List.map_cons]
    cases hpart : part t with
    | here =>
      rw [hpart] at h
      obtain ⟨hq, hfile, hfollows⟩ := ih hstraight hp (fun _ => hdir) h
      exact ⟨hq, hfile, .here hnode hfollows⟩
    | up =>
      rw [hpart] at h
      have hup := file_dropLast hdir
      obtain ⟨hq, hfile, hfollows⟩ := ih hstraight.dropLast (by rw [hup]; exact Option.some_ne_none _) (fun _ => hup) h
      exact ⟨hq, hfile, .up hnode hfollows⟩
    | name c =>
      rw [hpart] at h
      dsimp only at h
      cases hc : disk.file (p ++ [c]) with
      | none =>
        rw [hc] at h
        cases h
      | some f =>
        have hsome : disk.file (p ++ [c]) ≠ none := by
          rw [hc]
          exact Option.some_ne_none f
        rw [hc] at h
        cases f with
        | link target => cases h
        | dir =>
          have hnext := node_dir.mpr hc
          obtain ⟨hq, hfile, hfollows⟩ := ih (hstraight.snoc (Lib.not_isLink_of_dir hnext)) hsome (fun _ => hc) h
          exact ⟨hq, hfile, .name hnode (.inl hnext) hfollows⟩
        | file =>
          have hlink : ¬ disk.files.IsLink (p ++ [c]) := by simp [isLink_iff, hc]
          have hnext : disk.files.node (p ++ [c]) = some .file := Option.map_eq_some_iff.mpr ⟨_, hc, rfl⟩
          dsimp only at h
          split at h
          · cases h
          · rename_i hmore
            have hlast : ts = [] := by
              by_contra hts
              exact hmore ⟨hts, by decide⟩
            obtain ⟨hq, hfile, hfollows⟩ := ih (hstraight.snoc hlink) hsome (fun hts => absurd hlast hts) h
            exact ⟨hq, hfile, .name hnode (.inr hnext) hfollows⟩

/-- With `CAN_EXISTING`, a string that is lost comes to no place. -/
theorem lexical_lost (hdir : ts ≠ [] → disk.file p = some .dir) (hlost : Lost disk.files disk.Readable p (ts.map part)) :
    lexical disk .existing p ts ≠ .place q := by
  induction ts generalizing p with
  | nil => cases hlost
  | cons t ts ih =>
    have hdir := hdir (List.cons_ne_nil t ts)
    have hnode := node_dir.mpr hdir
    rw [List.map_cons] at hlost
    rw [lexical]
    cases hpart : part t with
    | here =>
      rw [hpart] at hlost
      cases hlost with
      | notDir h => exact absurd hnode h
      | here _ hlost => exact ih (fun _ => hdir) hlost
    | up =>
      rw [hpart] at hlost
      cases hlost with
      | notDir h => exact absurd hnode h
      | up _ hlost => exact ih (fun _ => file_dropLast hdir) hlost
    | name c =>
      rw [hpart] at hlost
      dsimp only
      cases hc : disk.file (p ++ [c]) with
      | none => exact Way.noConfusion
      | some f =>
        have hnext : disk.files.node (p ++ [c]) = some f.node := Option.map_eq_some_iff.mpr ⟨_, hc, rfl⟩
        cases f with
        | link target => exact Way.noConfusion
        | dir =>
          cases hlost with
          | notDir h => exact absurd hnode h
          | missing _ h => simp [hnext] at h
          | unreadable _ h => exact absurd h (Lib.not_isLink_of_dir hnext)
          | name _ _ hlost => exact ih (fun _ => hc) hlost
          | link _ h => simp [hnext, File.node] at h
        | file =>
          dsimp only
          split
          · exact Way.noConfusion
          · rename_i hmore
            have hlast : ts = [] := by
              by_contra hts
              exact hmore ⟨hts, by decide⟩
            subst hlast
            cases hlost with
            | notDir h => exact absurd hnode h
            | missing _ h => simp [hnext] at h
            | unreadable _ h =>
              rw [isLink_iff, hc] at h
              simp at h
            | name _ _ hlost => cases hlost
            | link _ h => simp [hnext, File.node] at h

end Lexical

/-- The name of a place, as a string, leads to the place. -/
theorem follows_render {disk : Disk} {q : List Name} (hstraight : disk.files.Straight q) (hq : disk.file q ≠ none) :
    Lib.Follows disk.files disk.Readable [] (parts (render q)) q := by
  have hnames := disk.ordinary_of_file hq
  rcases List.eq_nil_or_concat' q with rfl | ⟨p, c, rfl⟩
  · exact .here disk.files.root (.done [])
  · have hrender : render (p ++ [c]) = body (p ++ [c]) := if_neg (by simp)
    rw [hrender, parts_body hnames]
    have hne : disk.files.node ([] ++ p ++ [c]) ≠ none := by
      rw [List.nil_append, Ne, node_none]
      exact hq
    exact Lib.follows_place hne (hstraight _ (List.prefix_refl _))

/-- A name is followed, with links expanded, to one that is missing, to more names behind what is no directory, or to a link
that cannot be read. -/
def IsLost (env : Env) (name : Option (List Byte)) : Prop :=
  ∃ s p, name = some s ∧ startOf env s = some p ∧ Lost env.disk.files env.disk.Readable p (parts s)

/-- What a call promises. A name that it returns is the absolute name of a place, without empty names, `.` and `..`. With
`CAN_EXISTING` there is a file at every place on the way, and no link; the name leads to the file that the one that was given
leads to; and a name that leads to no file fails. -/
structure Sound (env : Env) (mode : CanMode) (name : Option (List Byte)) : Prop where
  canonical : ∀ r, Ends env mode name (.returns r) → ∃ q, r = render q ∧ ∀ c ∈ q, Ordinary c
  existing : mode = .existing → ∀ r, Ends env mode name (.returns r) → ∃ q, r = render q ∧
    (∀ q', q' <+: q → env.disk.file q' ≠ none ∧ ¬ env.disk.files.IsLink q') ∧
    Lib.Follows env.disk.files env.disk.Readable [] (parts r) q ∧
    ∃ s p, name = some s ∧ startOf env s = some p ∧ Lib.Follows env.disk.files env.disk.Readable p (parts s) q
  fails : mode = .existing → IsLost env name → ∃ e, Ends env mode name (.fails e)

/-- Without a link that is met, a call keeps what it promises. -/
theorem sound_of_not_meets {env : Env} {mode : CanMode} {name : Option (List Byte)} (h : ¬ MeetsLink env mode name) :
    Sound env mode name := by
  obtain ⟨s, p, q, rfl, hp, hway, hends⟩ | ⟨e, hends⟩ := ends_answer h
  · have hdir := start_dir hp
    have hsome : env.disk.file p ≠ none := by
      rw [hdir]
      exact Option.some_ne_none _
    have hreturns : ∀ r, Ends env mode (some s) (.returns r) → r = render q :=
      fun r hr => Result.returns.inj (hr.unique hends)
    constructor
    · intro r hr
      exact ⟨q, hreturns r hr, lexical_ordinary (env.disk.ordinary_of_file hsome) (slash_not_mem_tokens s) hway⟩
    · rintro rfl r hr
      obtain ⟨hstraight, hq, hfollows⟩ := lexical_follows (straight_of_dir hdir) hsome (fun _ => hdir) hway
      refine ⟨q, hreturns r hr, ?_, ?_, s, p, rfl, hp, hfollows⟩
      · rintro q' ⟨t, rfl⟩
        refine ⟨?_, hstraight q' ⟨t, rfl⟩⟩
        cases t with
        | nil => simpa using hq
        | cons c t =>
          have hne : env.disk.files.node (q' ++ c :: t) ≠ none := by rwa [Ne, node_none]
          rw [node_dir.mp (env.disk.files.dir_of_append hne)]
          exact Option.some_ne_none _
      · rw [hreturns r hr]
        exact follows_render hstraight hq
    · rintro rfl ⟨s', p', hs, hp', hlost⟩
      cases hs
      rw [hp] at hp'
      cases hp'
      exact absurd hway (lexical_lost (fun _ => hdir) hlost)
  · have hreturns : ∀ r, ¬ Ends env mode name (.returns r) := fun r hr => Result.noConfusion (hr.unique hends)
    constructor
    · intro r hr
      exact absurd hr (hreturns r)
    · intro _ r hr
      exact absurd hr (hreturns r)
    · intro _ _
      exact ⟨e, hends⟩

/-- For every name, mode and file system: a call comes to a name or an error, after finitely many components, if and only if
the name meets no symbolic link. -/
theorem canonicalize_answers_iff (env : Env) (mode : CanMode) (name : Option (List Byte)) :
    (∃ r, Ends env mode name r ∧ r.IsAnswer) ↔ ¬ MeetsLink env mode name := by
  constructor
  · rintro ⟨r, hends, hanswer⟩ hmeets
    obtain ⟨halt, hhalts⟩ := ends_halts hmeets
    exact hanswer halt (hends.unique hhalts)
  · intro hmeets
    obtain ⟨s, p, q, -, -, -, hends⟩ | ⟨e, hends⟩ := ends_answer hmeets
    · exact ⟨_, hends, fun _ => Result.noConfusion⟩
    · exact ⟨_, hends, fun _ => Result.noConfusion⟩

/-- For every name, mode and file system: a call keeps what it promises unless, with `CAN_EXISTING`, the name meets a link
and leads to no file. -/
theorem canonicalize_sound_iff (env : Env) (mode : CanMode) (name : Option (List Byte)) :
    Sound env mode name ↔ ¬ (mode = .existing ∧ MeetsLink env mode name ∧ IsLost env name) := by
  constructor
  · rintro hsound ⟨hmode, hmeets, hlost⟩
    obtain ⟨halt, hhalts⟩ := ends_halts hmeets
    obtain ⟨e, hends⟩ := hsound.fails hmode hlost
    exact Result.noConfusion (hends.unique hhalts)
  · intro h
    by_cases hmeets : MeetsLink env mode name
    · obtain ⟨halt, hhalts⟩ := ends_halts hmeets
      have hreturns : ∀ r, ¬ Ends env mode name (.returns r) := fun r hr => Result.noConfusion (hr.unique hhalts)
      constructor
      · intro r hr
        exact absurd hr (hreturns r)
      · intro _ r hr
        exact absurd hr (hreturns r)
      · intro hmode hlost
        exact absurd ⟨hmode, hmeets, hlost⟩ h
    · exact sound_of_not_meets hmeets

/-! ## One link -/

/-- A root with a link `l` to `d`, which there is not. -/
def oneLink (unreadable : Option Errno) : Disk where
  file p := if p = [] then some .dir else if p = [[108]] then some (.link [100]) else none
  root := rfl
  closed p c h := by
    cases p with
    | nil => rfl
    | cons d p => simp at h
  ordinary p c h := by
    have hc : c = [108] := by
      by_contra hc
      cases p <;> simp_all
    subst hc
    exact ⟨by decide, by decide⟩
  dev _ := 1
  ino p := p.length
  size _ := 1
  unreadable _ := unreadable

/-- A process in the root. -/
def oneLinkEnv (unreadable : Option Errno) : Env where
  disk := oneLink unreadable
  cwd := .ok []
  cwd_dir p h := by
    cases h
    rfl
  world := ⟨fun _ => true, 0, []⟩

theorem oneLink_meets (unreadable : Option Errno) (mode : CanMode) :
    MeetsLink (oneLinkEnv unreadable) mode (some [47, 108]) := by
  refine ⟨_, [], rfl, rfl, .inl ?_⟩
  exact isLink_iff.mpr ⟨[100], rfl⟩

/-- The name `/l` has no answer. -/
theorem not_answers_l : ¬ ∃ r, Ends (oneLinkEnv none) .existing (some [47, 108]) r ∧ r.IsAnswer := by
  rintro ⟨r, hends, hanswer⟩
  obtain ⟨halt, hhalts⟩ := ends_halts (oneLink_meets none .existing)
  exact hanswer halt (hends.unique hhalts)

/-- The name `/l`, where the link cannot be read, does not fail. -/
theorem not_sound_l : ¬ Sound (oneLinkEnv (some (.other 13))) .existing (some [47, 108]) := by
  intro hsound
  obtain ⟨halt, hhalts⟩ := ends_halts (oneLink_meets (some (.other 13)) .existing)
  have hlost : IsLost (oneLinkEnv (some (.other 13))) (some [47, 108]) := by
    refine ⟨_, [], rfl, rfl, .here rfl (.unreadable rfl ?_ ?_)⟩
    · exact isLink_iff.mpr ⟨[100], rfl⟩
    · intro h
      cases h
  obtain ⟨e, hends⟩ := hsound.fails rfl hlost
  exact Result.noConfusion (hends.unique hhalts)

end CodingExercises.Coreutils.Canonicalize
