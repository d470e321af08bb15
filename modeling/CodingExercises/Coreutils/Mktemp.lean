import CodingExercises.Coreutils.FileNameConcat

/-!
# mktemp: names of temporary files

`main` of `src/mktemp.c`, from where its options are read, and `gen_tempname_len` of `lib/tempname.c`, for any system and any
source of random numbers. Options that do not concern the name, and what is printed, are left out.

A suffix with slashes at its end is not refused, since `last_component` skips no slash there. And the length of the suffix is an
`int` in `gen_tempname_len` (`rightFor_iff`).
-/

namespace CodingExercises.Coreutils.Mktemp

/-! ## gen_tempname_len -/

/-- `'X'`. -/
def X : Byte := 88

/-- `letters`. -/
def letters : List Byte :=
  ((List.range 26).map fun i => UInt8.ofNat (97 + i)) ++ ((List.range 26).map fun i => UInt8.ofNat (65 + i)) ++
    (List.range 10).map fun i => UInt8.ofNat (48 + i)

/-- `GT_FILE`, `GT_DIR` and `GT_NOCREATE`. -/
inductive Kind
  | file
  | dir
  | nocreate

/-- What `open` or `mkdir` comes to: success, `EEXIST` or another failure; for `lstat`, there is no file, there is one, or
another failure. -/
inductive Answer
  | free
  | taken
  | trouble

/-- A system, with its state: whether `randint_all_new` gets a source, `randint_genmax` up to `sizeof letters - 2`, and the call
for a name. -/
structure System (σ : Type) where
  randintAllNew : σ → Bool × σ
  randintGenmax : σ → Fin 62 × σ
  attempt : Kind → List Byte → σ → Answer × σ

/-- How `gen_tempname_len` ends: `EINVAL` for the template, no source, a name that is free, a failure, or no attempt left. -/
inductive Outcome
  | invalid
  | noSource
  | found
  | failed
  | exhausted
deriving DecidableEq

/-- How it ends, the names that have been tried, and the template. -/
structure Temp where
  outcome : Outcome
  tried : List (List Byte)
  tmpl : List Byte

section

variable {σ : Type} (sys : System σ)

/-- The loop over `XXXXXX[i]`. -/
def fillLetters : ℕ → ℕ → List Byte → σ → List Byte × σ
  | 0, _, tmpl, s => (tmpl, s)
  | n + 1, p, tmpl, s =>
    let (i, s) := sys.randintGenmax s
    fillLetters n (p + 1) (tmpl.set p (letters.getD i 0)) s

/-- The loop over the attempts. -/
def attemptsLoop (kind : Kind) (xSuffixLen p : ℕ) : ℕ → List Byte → σ → Temp × σ
  | 0, tmpl, s => (⟨.exhausted, [], tmpl⟩, s)
  | n + 1, tmpl, s =>
    let (tmpl, s) := fillLetters sys xSuffixLen p tmpl s
    match sys.attempt kind tmpl s with
    | (.free, s) => (⟨.found, [tmpl], tmpl⟩, s)
    | (.trouble, s) => (⟨.failed, [tmpl], tmpl⟩, s)
    | (.taken, s) =>
      let (t, s) := attemptsLoop kind xSuffixLen p n tmpl s
      (⟨t.outcome, tmpl :: t.tried, t.tmpl⟩, s)

/-- `ATTEMPTS_MIN`, which is `TMP_MAX`. -/
def attemptsMin : ℕ := 62 * 62 * 62

/-- A number as a `size_t`. -/
def sizeT (x : ℤ) : ℕ := (x % 2 ^ 64).toNat

/-- `check_x_suffix`. -/
def checkXSuffix (s : List Byte) (len : ℕ) : Bool := len ≤ (s.takeWhile (· = X)).length

/-- `gen_tempname_len`. -/
def genTempnameLen (tmpl : List Byte) (suffixlen : ℤ) (kind : Kind) (xSuffixLen : ℕ) (s : σ) : Temp × σ :=
  let len := tmpl.length
  let p := sizeT (len - xSuffixLen - suffixlen)
  if len < sizeT (xSuffixLen + suffixlen) ∨ checkXSuffix (tmpl.drop p) xSuffixLen = false then (⟨.invalid, [], tmpl⟩, s)
  else
    match sys.randintAllNew s with
    | (false, s) => (⟨.noSource, [], tmpl⟩, s)
    | (true, s) => attemptsLoop sys kind xSuffixLen p attemptsMin tmpl s

end

/-! ## main -/

/-- The variables that the options are read into, the template among the arguments, and `TMPDIR`. -/
structure Options where
  template : Option (List Byte)
  suffix : Option (List Byte)
  useDestDir : Bool
  deprecatedTOption : Bool
  destDirArg : Option (List Byte)
  createDirectory : Bool
  dryRun : Bool
  tmpdir : Option (List Byte)

/-- Why the program ends before a name is made. -/
inductive Refusal
  | notEndingInX
  | suffixSeparator
  | tooFewXs
  | templateSeparator
  | templateAbsolute
  | memory
deriving DecidableEq

/-- The name that `gen_tempname_len` is called with, `suffix_len` and `x_count`. -/
structure Prepared where
  template : List Byte
  suffixLen : ℕ
  xCount : ℕ
deriving DecidableEq

/-- `"tmp.XXXXXXXXXX"`. -/
def defaultTemplate : List Byte := [116, 109, 112, 46] ++ List.replicate 10 X

/-- `"/tmp"`. -/
def tmp : List Byte := [slash, 116, 109, 112]

/-- `count_consecutive_X_s`. -/
def countConsecutiveXs (s : List Byte) : ℕ → ℕ
  | 0 => 0
  | len + 1 => if s[len]? = some X then countConsecutiveXs s len + 1 else 0

/-- A string has its storage; no object has more than `PTRDIFF_MAX` bytes. -/
def allocate (s : List Byte) : Except Refusal (List Byte) := if s.length + 1 < 2 ^ 63 then .ok s else .error .memory

/-- The template with its suffix, and where this begins. -/
def suffixed (template : List Byte) : Option (List Byte) → Except Refusal (List Byte × ℕ)
  | some suffix =>
    if template.getLast? = some X then (allocate (template ++ suffix)).map (·, template.length) else .error .notEndingInX
  | none =>
    -- behind `strrchr (template, 'X')`, or the end
    let body := template.rdropWhile (· ≠ X)
    (allocate template).map (·, if body = [] then template.length else body.length)

/-- `env && *env ? env : …`. -/
def orElse (env : Option (List Byte)) (other : List Byte) : List Byte :=
  match env with
  | some env => if env ≠ [] then env else other
  | none => other

/-- The name in its directory. -/
def joined (o : Options) (template : List Byte) : Except Refusal (List Byte) :=
  if o.useDestDir || o.template.isNone then
    if o.deprecatedTOption then
      let destDir := orElse o.tmpdir (o.destDirArg.getD tmp)
      if lastComponent template ≠ template then .error .templateSeparator else allocate (concatText destDir template)
    else
      let destDir := orElse o.destDirArg (orElse o.tmpdir tmp)
      if isAbsoluteFileName template then .error .templateAbsolute else allocate (concatText destDir template)
  else .ok template

/-- `main` up to the call of `mkdtemp_len` or `mkstemp_len`. -/
def prepare (o : Options) : Except Refusal Prepared :=
  match suffixed (o.template.getD defaultTemplate) o.suffix with
  | .error e => .error e
  | .ok (template, start) =>
    let suffix := template.drop start
    if suffix.length ≠ 0 ∧ lastComponent suffix ≠ suffix then .error .suffixSeparator
    else
      let xCount := countConsecutiveXs template start
      if xCount < 3 then .error .tooFewXs
      else (joined o template).map fun template => ⟨template, suffix.length, xCount⟩

/-- `mkdtemp_len` or `mkstemp_len`. -/
def Options.kind (o : Options) : Kind := if o.dryRun then .nocreate else if o.createDirectory then .dir else .file

/-- The call of `gen_tempname_len`, whose parameter for the length of the suffix is an `int`. -/
def Prepared.generate {σ : Type} (p : Prepared) (o : Options) (sys : System σ) (s : σ) : Temp × σ :=
  genTempnameLen sys p.template ((p.suffixLen : ℤ).bmod (2 ^ 32)) o.kind p.xCount s

/-! ## What is right -/

/-- The user's template up to the X's, without the suffix. -/
def Options.body (o : Options) : List Byte :=
  match o.suffix with
  | some _ => o.template.getD defaultTemplate
  | none => (o.template.getD defaultTemplate).rdropWhile (· ≠ X)

/-- The suffix: that of the option, or what stands behind the last X. -/
def Options.userSuffix (o : Options) : List Byte :=
  match o.suffix with
  | some suffix => suffix
  | none => (o.template.getD defaultTemplate).rtakeWhile (· ≠ X)

/-- A letter or a digit. -/
def IsAlnum (c : Byte) : Prop := 97 ≤ c ∧ c ≤ 122 ∨ 65 ≤ c ∧ c ≤ 90 ∨ 48 ≤ c ∧ c ≤ 57

/-- The name is that of the user behind a directory or nothing, and in every attempt all X's at the end of what is before the
suffix, and nothing else, are letters and digits; and the suffix has no slash. -/
def Right (o : Options) (p : Prepared) : Prop :=
  ∃ dir stem, p.template = dir ++ stem ++ List.replicate p.xCount X ++ o.userSuffix ∧
    o.body = stem ++ List.replicate p.xCount X ∧ ¬[X] <:+ stem ∧ slash ∉ o.userSuffix ∧
    ∀ (σ : Type) (sys : System σ) (s : σ), (p.generate o sys s).1.outcome ≠ .invalid ∧
      ∀ name ∈ (p.generate o sys s).1.tried, ∃ w, name = dir ++ stem ++ w ++ o.userSuffix ∧ w.length = p.xCount ∧
        ∀ c ∈ w, IsAlnum c

/-! ## The template -/

/-- The X's at the end are counted. -/
theorem countConsecutiveXs_spec (body rest : List Byte) :
    ∃ stem, body = stem ++ List.replicate (countConsecutiveXs (body ++ rest) body.length) X ∧ ¬[X] <:+ stem := by
  induction body using List.reverseRecOn generalizing rest with
  | nil => exact ⟨[], rfl, by simp⟩
  | append_singleton body c ih =>
    have hlast : (body ++ [c] ++ rest)[body.length]? = some c := by simp
    rw [List.length_append, List.length_singleton, countConsecutiveXs, hlast]
    by_cases hc : c = X
    · obtain ⟨stem, hbody, hstem⟩ := ih ([c] ++ rest)
      rw [← List.append_assoc] at hbody
      refine ⟨stem, ?_, hstem⟩
      rw [if_pos (congrArg some hc), List.replicate_succ', ← List.append_assoc, ← hbody, hc]
    · refine ⟨body ++ [c], ?_, ?_⟩
      · rw [if_neg fun h => hc (Option.some.inj h)]
        exact (List.append_nil _).symm
      · rintro ⟨y, hy⟩
        exact hc (List.cons.inj (List.append_inj' hy rfl).2).1.symm

/-- What is known of a template that is accepted. -/
structure Accepts (o : Options) (p : Prepared) (dir stem : List Byte) : Prop where
  template : p.template = dir ++ stem ++ List.replicate p.xCount X ++ o.userSuffix
  body : o.body = stem ++ List.replicate p.xCount X
  stem : ¬[X] <:+ stem
  suffixLen : p.suffixLen = o.userSuffix.length
  xCount : 3 ≤ p.xCount
  suffix : o.userSuffix = [] ∨ lastComponent o.userSuffix = o.userSuffix
  length : p.template.length + 1 < 2 ^ 63

theorem allocate_ok {s t : List Byte} (h : allocate s = .ok t) : t = s ∧ s.length + 1 < 2 ^ 63 := by
  unfold allocate at h
  split at h
  · next hlt => exact ⟨(Except.ok.inj h).symm, hlt⟩
  · cases h

/-- The template is cut where its suffix begins; without an X there is none to count. -/
theorem suffixed_ok {o : Options} {template : List Byte} {start : ℕ}
    (h : suffixed (o.template.getD defaultTemplate) o.suffix = .ok (template, start)) :
    template.length + 1 < 2 ^ 63 ∧ (template = o.body ++ o.userSuffix ∧ start = o.body.length ∨ countConsecutiveXs template start = 0) := by
  unfold suffixed at h
  unfold Options.body Options.userSuffix
  generalize o.template.getD defaultTemplate = t at h ⊢
  cases hsuffix : o.suffix with
  | some suffix =>
    simp only [hsuffix] at h
    split at h
    · cases halloc : allocate (t ++ suffix) with
      | error e =>
        rw [halloc] at h
        cases h
      | ok full =>
        rw [halloc] at h
        cases h
        obtain ⟨rfl, hlt⟩ := allocate_ok halloc
        exact ⟨hlt, .inl ⟨rfl, rfl⟩⟩
    · cases h
  | none =>
    simp only [hsuffix] at h
    cases halloc : allocate t with
    | error e =>
      rw [halloc] at h
      cases h
    | ok full =>
      rw [halloc] at h
      cases h
      obtain ⟨rfl, hlt⟩ := allocate_ok halloc
      refine ⟨hlt, ?_⟩
      by_cases hbody : template.rdropWhile (· ≠ X) = []
      · right
        rw [if_pos hbody]
        have hno := List.rdropWhile_eq_nil_iff.mp hbody
        cases hlen : template.length with
        | zero => rfl
        | succ n =>
          have hlast : template[n]? ≠ some X := fun heq => by simpa using hno X (List.mem_of_getElem? heq)
          rw [countConsecutiveXs, if_neg hlast]
      · left
        rw [if_neg hbody]
        exact ⟨List.rdropWhile_append_rtakeWhile.symm, rfl⟩

/-- A name that is its own last component does not begin with a slash. -/
theorem not_absolute_of_lastComponent {name : List Byte} (h : lastComponent name = name) : isAbsoluteFileName name = false := by
  rcases exists_parts name with ⟨k, rfl⟩ | ⟨pre, comp, k, hparts⟩
  · rw [lastComponent_replicate] at h
    rw [← h]
    rfl
  · rw [hparts.lastComponent, hparts.eq] at h
    have hpre : pre = [] := by
      have hlen := congrArg List.length h
      simp only [List.length_append] at hlen
      exact List.eq_nil_of_length_eq_zero (by omega)
    obtain ⟨c, comp', rfl⟩ := List.exists_cons_of_ne_nil hparts.ne
    have hc : c ≠ slash := fun heq => hparts.noSlash (heq ▸ List.mem_cons_self)
    rw [hparts.eq, hpre]
    simpa [isAbsoluteFileName] using hc

theorem joined_ok {o : Options} {t template : List Byte} (h : joined o t = .ok template) (ht : t.length + 1 < 2 ^ 63) :
    template.length + 1 < 2 ^ 63 ∧ ∃ dir, template = dir ++ t := by
  have hconcat : ∀ destDir, isAbsoluteFileName t = false → concatText destDir t = dirPart destDir ++ t := by
    intro destDir habs
    rw [concatText, longestRelativeSuffix_of_relative habs]
  unfold joined at h
  split at h
  · split at h
    · dsimp only at h
      split at h
      · cases h
      · next hlast =>
        obtain ⟨rfl, hlt⟩ := allocate_ok h
        exact ⟨hlt, _, hconcat _ (not_absolute_of_lastComponent (not_not.mp hlast))⟩
    · dsimp only at h
      split at h
      · cases h
      · next habs =>
        obtain ⟨rfl, hlt⟩ := allocate_ok h
        exact ⟨hlt, _, hconcat _ (Bool.eq_false_iff.mpr habs)⟩
  · cases h
    exact ⟨ht, [], rfl⟩

theorem prepare_ok {o : Options} {p : Prepared} (h : prepare o = .ok p) : ∃ dir stem, Accepts o p dir stem := by
  unfold prepare at h
  split at h
  · cases h
  · next template start hsuffixed =>
    obtain ⟨hlen, hcut⟩ := suffixed_ok hsuffixed
    dsimp only at h
    split at h
    · cases h
    · next hsuffix =>
      split at h
      · cases h
      · next hcount =>
        cases hjoined : joined o template with
        | error e =>
          rw [hjoined] at h
          cases h
        | ok full =>
          rw [hjoined] at h
          cases h
          obtain ⟨hfull, dir, hdir⟩ := joined_ok hjoined hlen
          obtain ⟨htemplate, hstart⟩ := hcut.resolve_right (by omega)
          obtain ⟨stem, hbody, hstem⟩ := countConsecutiveXs_spec o.body o.userSuffix
          rw [← htemplate, ← hstart] at hbody
          have hdrop : template.drop start = o.userSuffix := by
            rw [htemplate, hstart]
            exact List.drop_left
          refine ⟨dir, stem, ?_, hbody, hstem, ?_, Nat.le_of_not_lt hcount, ?_, hfull⟩
          · dsimp only
            rw [hdir, List.append_assoc dir, ← hbody, List.append_assoc, ← htemplate]
          · dsimp only
            rw [hdrop]
          · rw [hdrop] at hsuffix
            by_cases hnil : o.userSuffix = []
            · exact .inl hnil
            · exact .inr (by_contra fun hne => hsuffix ⟨fun h0 => hnil (List.eq_nil_of_length_eq_zero h0), hne⟩)

/-! ## The names -/

instance (c : Byte) : Decidable (IsAlnum c) := inferInstanceAs (Decidable (_ ∨ _))

theorem isAlnum_letters (i : Fin 62) : IsAlnum (letters.getD i 0) := by
  revert i
  decide

section

variable {σ : Type} (sys : System σ)

/-- Just the bytes between `a` and `c` are replaced. -/
theorem fillLetters_spec (a b c : List Byte) (s : σ) :
    ∃ w s', fillLetters sys b.length a.length (a ++ b ++ c) s = (a ++ w ++ c, s') ∧ w.length = b.length ∧
      ∀ c ∈ w, ∃ s, c = letters.getD (sys.randintGenmax s).1 0 := by
  induction b generalizing a s with
  | nil => exact ⟨[], s, rfl, rfl, List.forall_mem_nil _⟩
  | cons x b ih =>
    have hset : (a ++ x :: b ++ c).set a.length (letters.getD (sys.randintGenmax s).1 0) =
        a ++ [letters.getD (sys.randintGenmax s).1 0] ++ b ++ c := by
      simp
    obtain ⟨w, s', hfill, hlen, hw⟩ := ih (a ++ [letters.getD (sys.randintGenmax s).1 0]) (sys.randintGenmax s).2
    rw [List.length_append, List.length_singleton] at hfill
    refine ⟨letters.getD (sys.randintGenmax s).1 0 :: w, s', ?_, by simp [hlen], List.forall_mem_cons.mpr ⟨⟨s, rfl⟩, hw⟩⟩
    rw [List.length_cons, fillLetters]
    dsimp only
    rw [hset, hfill, List.append_assoc a [_] w, List.singleton_append]

/-- In every attempt. -/
theorem attemptsLoop_spec (kind : Kind) (a c : List Byte) {x : ℕ} (n : ℕ) {b : List Byte} (hb : b.length = x) (s : σ) :
    (attemptsLoop sys kind x a.length n (a ++ b ++ c) s).1.outcome ≠ .invalid ∧
      ∀ name ∈ (attemptsLoop sys kind x a.length n (a ++ b ++ c) s).1.tried,
        ∃ w, name = a ++ w ++ c ∧ w.length = x ∧ ∀ c ∈ w, IsAlnum c := by
  subst hb
  induction n generalizing b s with
  | zero => exact ⟨by simp [attemptsLoop], List.forall_mem_nil _⟩
  | succ n ih =>
    obtain ⟨w, s', hfill, hlen, hw⟩ := fillLetters_spec sys a b c s
    have hname : ∃ w', a ++ w ++ c = a ++ w' ++ c ∧ w'.length = b.length ∧ ∀ c ∈ w', IsAlnum c := by
      refine ⟨w, rfl, hlen, fun c hc => ?_⟩
      obtain ⟨s, rfl⟩ := hw c hc
      exact isAlnum_letters _
    simp only [attemptsLoop, hfill]
    split
    · exact ⟨by simp, List.forall_mem_singleton.mpr hname⟩
    · exact ⟨by simp, List.forall_mem_singleton.mpr hname⟩
    · next s'' _ =>
      obtain ⟨houtcome, htried⟩ := ih (b := w) s''
      rw [hlen] at houtcome htried
      exact ⟨houtcome, List.forall_mem_cons.mpr ⟨hname, htried⟩⟩

/-- The X's that are selected, where the lengths are those of the name. -/
theorem genTempnameLen_spec (kind : Kind) (a c : List Byte) (x : ℕ) (hlen : (a ++ List.replicate x X ++ c).length < 2 ^ 63) (s : σ) :
    (genTempnameLen sys (a ++ List.replicate x X ++ c) c.length kind x s).1.outcome ≠ .invalid ∧
      ∀ name ∈ (genTempnameLen sys (a ++ List.replicate x X ++ c) c.length kind x s).1.tried,
        ∃ w, name = a ++ w ++ c ∧ w.length = x ∧ ∀ c ∈ w, IsAlnum c := by
  have hsum : sizeT ((x : ℤ) + c.length) = x + c.length := by
    simp only [List.length_append, List.length_replicate] at hlen
    unfold sizeT
    omega
  have hp : sizeT (((a ++ List.replicate x X ++ c).length : ℕ) - (x : ℤ) - c.length) = a.length := by
    simp only [List.length_append, List.length_replicate] at hlen ⊢
    unfold sizeT
    omega
  have hcheck : checkXSuffix ((a ++ List.replicate x X ++ c).drop a.length) x = true := by
    rw [List.append_assoc, List.drop_left, checkXSuffix, decide_eq_true_eq, List.takeWhile_append_of_pos (by simp),
      List.length_append, List.length_replicate]
    exact Nat.le_add_right _ _
  have hpass : ¬((a ++ List.replicate x X ++ c).length < sizeT ((x : ℤ) + c.length) ∨
      checkXSuffix ((a ++ List.replicate x X ++ c).drop a.length) x = false) := by
    rw [hsum, hcheck]
    rintro (hlt | hfalse)
    · simp only [List.length_append, List.length_replicate] at hlt
      omega
    · cases hfalse
  simp only [genTempnameLen, hp, if_neg hpass]
  split
  · exact ⟨by simp, List.forall_mem_nil _⟩
  · exact attemptsLoop_spec sys kind a c attemptsMin List.length_replicate _

end

/-- A suffix that is accepted has no slash but at its end. -/
theorem slash_mem_iff {suffix : List Byte} (h : suffix = [] ∨ lastComponent suffix = suffix) : slash ∈ suffix ↔ [slash] <:+ suffix := by
  constructor
  · intro hmem
    rcases exists_parts suffix with ⟨k, rfl⟩ | ⟨pre, comp, k, hparts⟩
    · obtain ⟨n, rfl⟩ : ∃ n, k = n + 1 := Nat.exists_eq_succ_of_ne_zero (List.mem_replicate.mp hmem).1
      exact ⟨List.replicate n slash, List.replicate_succ'.symm⟩
    · have hpre : pre = [] := by
        rcases h with rfl | h
        · exact absurd hmem List.not_mem_nil
        · rw [hparts.lastComponent] at h
          have hlen := (congrArg List.length h).trans (congrArg List.length hparts.eq)
          simp only [List.length_append] at hlen
          exact List.eq_nil_of_length_eq_zero (by omega)
      obtain _ | k := k
      · rw [hparts.eq, hpre] at hmem
        exact absurd (by simpa using hmem) hparts.noSlash
      · refine ⟨comp ++ List.replicate k slash, ?_⟩
        rw [hparts.eq, hpre, List.append_assoc, ← List.replicate_succ']
        rfl
  · rintro ⟨y, hy⟩
    rw [← hy]
    simp

/-! ## Long suffixes -/

/-- A system that draws an `a` every time, and where every name is free. -/
def drawingA : System Unit := ⟨fun s => (true, s), fun s => (0, s), fun _ _ s => (.free, s)⟩

/-- Where the X's are selected, with the letter `a` for them. -/
theorem genTempnameLen_drawingA {tmpl : List Byte} {i : ℤ} {kind : Kind} {x : ℕ}
    (h : (genTempnameLen drawingA tmpl i kind x ()).1.outcome ≠ .invalid) :
    sizeT (x + i) ≤ tmpl.length ∧ ∃ a c, tmpl = a ++ List.replicate x X ++ c ∧ a.length = sizeT (tmpl.length - x - i) ∧
      (genTempnameLen drawingA tmpl i kind x ()).1.tried = [a ++ List.replicate x 97 ++ c] := by
  unfold genTempnameLen at h ⊢
  dsimp only at h ⊢
  split at h
  · exact absurd rfl h
  · next hpass =>
    obtain ⟨hle, hcheck⟩ := not_or.mp hpass
    rw [Bool.not_eq_false] at hcheck
    rw [if_neg hpass]
    generalize hp : sizeT (tmpl.length - x - i) = p at hcheck ⊢
    have hx : x ≤ ((tmpl.drop p).takeWhile (· = X)).length := of_decide_eq_true hcheck
    have hpl : p ≤ tmpl.length := by
      rw [← hp]
      unfold sizeT at hle ⊢
      omega
    have hXs : (tmpl.drop p).take x = List.replicate x X := by
      have hbegins : (tmpl.drop p).take x <+: (tmpl.drop p).takeWhile (· = X) :=
        List.prefix_of_prefix_length_le (List.take_prefix _ _) (List.takeWhile_prefix _) (List.length_take_le _ _ |>.trans hx)
      refine List.eq_replicate_iff.mpr ⟨?_, fun b hb => ?_⟩
      · have := (List.takeWhile_prefix (fun b => decide (b = X)) (l := tmpl.drop p)).length_le
        rw [List.length_take]
        omega
      · simpa using List.mem_takeWhile_imp (hbegins.subset hb)
    have hcut : tmpl = tmpl.take p ++ List.replicate x X ++ (tmpl.drop p).drop x := by
      rw [List.append_assoc, ← hXs, List.take_append_drop, List.take_append_drop]
    have hplen : (tmpl.take p).length = p := by
      rw [List.length_take]
      omega
    refine ⟨Nat.le_of_not_lt hle, _, _, hcut, hplen, ?_⟩
    obtain ⟨w, s', hfill, hlen, hw⟩ := fillLetters_spec drawingA (tmpl.take p) (List.replicate x X) ((tmpl.drop p).drop x) ()
    rw [List.length_replicate, hplen, ← hcut] at hfill
    have ha : w = List.replicate x 97 := by
      refine List.eq_replicate_iff.mpr ⟨by rw [hlen, List.length_replicate], fun c hc => ?_⟩
      obtain ⟨s, rfl⟩ := hw c hc
      rfl
    have hattempts : ∃ n, attemptsMin = n + 1 := ⟨238327, rfl⟩
    obtain ⟨n, hn⟩ := hattempts
    simp only [drawingA, hn, attemptsLoop] at hfill ⊢
    rw [hfill, ha]

/-- The same X's are replaced in the same way just at the same place. -/
theorem length_eq_of_replaced {a c a' c' w : List Byte} {x : ℕ} (hx : 0 < x) (hw : w.length = x)
    (h : a ++ List.replicate x X ++ c = a' ++ List.replicate x X ++ c')
    (h' : a ++ List.replicate x 97 ++ c = a' ++ w ++ c') : a.length = a'.length := by
  have hat : ∀ j, a.length ≤ j → j < a.length + x →
      (a' ++ List.replicate x X ++ c')[j]? = some X ∧ (a' ++ w ++ c')[j]? = some 97 := by
    intro j hlo hhi
    have hmid : ∀ b : Byte, (a ++ List.replicate x b ++ c)[j]? = some b := by
      intro b
      rw [List.append_assoc, List.getElem?_append_right hlo, List.getElem?_append_left (by
        rw [List.length_replicate]
        omega)]
      exact List.getElem?_replicate_of_lt (by omega)
    exact ⟨h ▸ hmid X, h' ▸ hmid 97⟩
  rcases Nat.lt_trichotomy a.length a'.length with hlt | heq | hgt
  · obtain ⟨hX, ha⟩ := hat a.length (Nat.le_refl _) (by omega)
    rw [List.append_assoc, List.getElem?_append_left hlt] at hX ha
    exact absurd (hX.symm.trans ha) (by decide)
  · exact heq
  · obtain ⟨hX, ha⟩ := hat (a.length + x - 1) (by omega) (by omega)
    rw [List.getElem?_append_right (by simp only [List.length_append, List.length_replicate]; omega), List.length_append,
      List.length_replicate] at hX
    rw [List.getElem?_append_right (by simp only [List.length_append, hw]; omega), List.length_append, hw] at ha
    exact absurd (hX.symm.trans ha) (by decide)

/-! ## The program -/

/-- Where a template is accepted, all is right just if the suffix does not end in a slash and its length is an `int`. -/
theorem rightFor_iff {o : Options} {p : Prepared} (h : prepare o = .ok p) :
    Right o p ↔ ¬[slash] <:+ o.userSuffix ∧ o.userSuffix.length < 2 ^ 31 := by
  obtain ⟨dir, stem, hacc⟩ := prepare_ok h
  have hlen := hacc.length
  constructor
  · rintro ⟨dir', stem', htemplate, -, -, hslash, hgen⟩
    refine ⟨mt (slash_mem_iff hacc.suffix).mpr hslash, ?_⟩
    obtain ⟨hvalid, htried⟩ := hgen Unit drawingA ()
    unfold Prepared.generate at hvalid htried
    obtain ⟨hle, a, c, hcut, ha, hname⟩ := genTempnameLen_drawingA hvalid
    rw [hname] at htried
    obtain ⟨w, hw, hwlen, -⟩ := htried _ List.mem_cons_self
    have hplace := length_eq_of_replaced (by have := hacc.xCount; omega) hwlen (hcut.symm.trans htemplate) hw
    have hlo := Int.le_bmod (x := p.suffixLen) (m := 2 ^ 32) (by decide)
    have hhi := Int.bmod_lt (x := p.suffixLen) (m := 2 ^ 32) (by decide)
    have htotal := congrArg List.length htemplate
    rw [hacc.suffixLen] at *
    simp only [List.length_append, List.length_replicate] at htotal hplace
    generalize (o.userSuffix.length : ℤ).bmod (2 ^ 32) = i at *
    unfold sizeT at ha hle
    omega
  · rintro ⟨hend, hint⟩
    refine ⟨dir, stem, hacc.template, hacc.body, hacc.stem, mt (slash_mem_iff hacc.suffix).mp hend, fun σ sys s => ?_⟩
    have hbmod : (p.suffixLen : ℤ).bmod (2 ^ 32) = o.userSuffix.length := by
      rw [hacc.suffixLen]
      exact Int.bmod_eq_of_le (by omega) (by omega)
    rw [Prepared.generate, hbmod, hacc.template]
    rw [hacc.template] at hlen
    exact genTempnameLen_spec sys o.kind (dir ++ stem) o.userSuffix p.xCount (by omega) s

/-- `mktemp aXXX`. -/
theorem rightFor_aXXX :
    Right ⟨some [97, X, X, X], none, false, false, none, false, false, none⟩ ⟨[97, X, X, X], 0, 3⟩ ↔
      ¬[slash] <:+ Options.userSuffix ⟨some [97, X, X, X], none, false, false, none, false, false, none⟩ ∧
        (Options.userSuffix ⟨some [97, X, X, X], none, false, false, none, false, false, none⟩).length < 2 ^ 31 :=
  rightFor_iff (by decide)

/-- `mktemp --suffix=b/ aXXX`. -/
theorem not_rightFor : ¬∀ o p, prepare o = .ok p → Right o p := by
  intro h
  have hprepare : prepare ⟨some [97, X, X, X], some [98, slash], false, false, none, false, false, none⟩ =
      .ok ⟨[97, X, X, X, 98, slash], 2, 3⟩ := by decide
  obtain ⟨_, _, -, -, -, hslash, -⟩ := h _ _ hprepare
  exact hslash (by decide)

end CodingExercises.Coreutils.Mktemp
