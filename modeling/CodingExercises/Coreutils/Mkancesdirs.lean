import CodingExercises.Lib.Separated
import CodingExercises.Coreutils.Savewd

/-!
# mkancesdirs: the ancestors of a file

`lib/mkancesdirs.c`, for any function `make_dir` and any outcomes of `savewd_chdir`.

- `enter_spec`: what is called for one component, and that the file name is restored;
- `scan_spec`: where the scan is, and which ancestors are still to come;
- `mkancesdirs_right`: so the ancestors of the file are made and entered in their order.
-/

namespace CodingExercises.Coreutils.Mkancesdirs

open Lib SaveWd

/-! ## The program -/

/-- The string at the beginning of some bytes. -/
def string (b : List Byte) : List Byte := b.takeWhile (· ≠ 0)

/-- `ENOENT`. -/
def enoent : ℕ := 2

/-- A call of `make_dir` with the file name and the component, or of `savewd_chdir`, with what it returns. -/
inductive AncestorCall
  | makeDir (file component : List Byte) (result : ℤ)
  | chdir (dir : List Byte) (options : ChdirOptions) (result : ℤ)

/-- `make_dir` and `savewd_chdir` on a state: what they return, and `errno`. -/
structure Makers (σ : Type) where
  makeDir : List Byte → List Byte → σ → (ℤ × ℕ) × σ
  savewdChdir : List Byte → ChdirOptions → σ → (ℤ × ℕ) × σ

/-- The variables of `mkancesdirs`, with the bytes at `file`, the state that the calls work on, and the calls. -/
structure Ancestors (σ : Type) where
  file : List Byte
  sep : Option ℕ
  component : ℕ
  madeDir : Bool
  world : σ
  calls : List AncestorCall

section Program

variable {σ : Type} (m : Makers σ) (st : Ancestors σ)

/-- The call of `make_dir` for a component that ends at `sep`, unless it is `..`: `make_dir_errno`, and whether the directory is
readable. -/
def Ancestors.make (sep : ℕ) : (ℕ × Bool) × Ancestors σ :=
  if sep - st.component = 2 ∧ st.file[st.component]? = some dot ∧ st.file[st.component + 1]? = some dot then
    ((0, false), { st with madeDir := false })
  else
    match m.makeDir (string st.file) (string (st.file.drop st.component)) st.world with
    | ((result, errno), world) =>
      let calls := st.calls ++ [.makeDir (string st.file) (string (st.file.drop st.component)) result]
      let st := { st with world := world, calls := calls }
      if result = -1 then ((errno, false), st)
      else if result = 0 then ((0, true), { st with madeDir := true })
      else if result = 1 then ((0, false), { st with madeDir := true })
      else ((0, false), st)

/-- The call of `savewd_chdir`: what is returned with `errno`, if it has not succeeded. -/
def Ancestors.chdir (sep makeDirErrno : ℕ) (readable : Bool) : Option (ℤ × ℕ) × Ancestors σ :=
  match m.savewdChdir (string (st.file.drop st.component)) ⟨st.madeDir, readable, false⟩ st.world with
  | ((result, errno), world) =>
    let calls := st.calls ++ [.chdir (string (st.file.drop st.component)) ⟨st.madeDir, readable, false⟩ result]
    let file := if result ≠ -1 then st.file.set sep slash else st.file
    (if result ≠ 0 then some (result, if makeDirErrno ≠ 0 ∧ errno = enoent then makeDirErrno else errno) else none,
      { st with file := file, world := world, calls := calls })

/-- What is done for the component that ends at `sep`, where the next one begins at `p`. -/
def Ancestors.enter (sep p : ℕ) : Option (ℤ × ℕ) × Ancestors σ :=
  if sep - st.component = 1 ∧ st.file[st.component]? = some dot then (none, { st with component := p })
  else
    match { st with file := st.file.set sep 0 }.make m sep with
    | ((makeDirErrno, readable), st) =>
      match st.chdir m sep makeDirErrno readable with
      | (some failure, st) => (some failure, st)
      | (none, st) => (none, { st with component := p })

/-- The loop at the byte `p`, with `fuel` passes at most: what is returned, with `errno` in case of a failure. Without a value
there is no byte to read. -/
def scan : ℕ → ℕ → Ancestors σ → Option ((ℤ × Option ℕ) × Ancestors σ)
  | 0, _, _ => none
  | fuel + 1, p, st =>
    match st.file[p]? with
    | none => none
    | some c =>
      if c = 0 then some ((st.component, none), st)
      else
        match st.file[p + 1]? with
        | none => none
        | some next =>
          if next = slash then scan fuel (p + 1) (if c ≠ slash then { st with sep := some (p + 1) } else st)
          else
            match if c = slash ∧ next ≠ 0 then st.sep else none with
            | none => scan fuel (p + 1) st
            | some sep =>
              match st.enter m sep (p + 1) with
              | (some (result, errno), st) => some ((result, some errno), st)
              | (none, st) => scan fuel (p + 1) st

/-- `mkancesdirs`. -/
def mkancesdirs (file : List Byte) (world : σ) : Option ((ℤ × Option ℕ) × Ancestors σ) :=
  scan m file.length 0 ⟨file, none, 0, false, world, []⟩

end Program

/-! ## What is expected -/

/-- The ancestors of a file: the beginnings of its name that end with a component that others follow. -/
def ancestors (file : List Byte) : List (List Byte) := partsBefore slash [] file

/-- What is called. -/
inductive Asked
  | makeDir (file component : List Byte)
  | chdir (dir : List Byte)

def AncestorCall.asked : AncestorCall → Asked
  | .makeDir file component _ => .makeDir file component
  | .chdir dir _ _ => .chdir dir

/-- `savewd_chdir` has succeeded. -/
def AncestorCall.Succeeds : AncestorCall → Prop
  | .makeDir _ _ _ => True
  | .chdir _ _ result => result = 0

/-- What is to be called for an ancestor. -/
def expected (pre : List Byte) : List Asked :=
  let component := lastPart slash pre
  if component = [dot] then []
  else (if component = [dot, dot] then [] else [.makeDir pre component]) ++ [.chdir component]

/-! ## One component -/

section Enter

variable {σ : Type} {m : Makers σ} {st st' : Ancestors σ} {pre tail : List Byte}

theorem string_append_zero (h : 0 ∉ pre) : string (pre ++ 0 :: tail) = pre := by
  have hpre : ∀ c ∈ pre, (fun c : Byte => decide (c ≠ 0)) c = true := by
    intro c hc
    simpa using fun h0 : c = 0 => h (h0 ▸ hc)
  rw [string, List.takeWhile_append_of_pos hpre, List.takeWhile_cons_of_neg (by simp), List.append_nil]

/-- The string at a place before the byte that is zero. -/
theorem string_drop {k : ℕ} (h : 0 ∉ pre) (hk : k ≤ pre.length) :
    string ((pre ++ 0 :: tail).drop k) = pre.drop k := by
  rw [List.drop_append_of_le_length hk]
  exact string_append_zero fun h0 => h (List.mem_of_mem_drop h0)

/-- The tests for `.` and `..` are about the component. -/
theorem drop_eq_dot {k : ℕ} (hk : k ≤ pre.length) (b : Byte) (tail : List Byte) :
    pre.length - k = 1 ∧ (pre ++ b :: tail)[k]? = some dot ↔ pre.drop k = [dot] := by
  constructor
  · rintro ⟨hlen, hget⟩
    rw [List.getElem?_append_left (by omega)] at hget
    obtain ⟨hlt, hget⟩ := List.getElem?_eq_some_iff.mp hget
    rw [List.drop_eq_getElem_cons hlt, hget, List.drop_of_length_le (by omega)]
  · intro h
    have hlen := congrArg List.length h
    rw [List.length_drop, List.length_singleton] at hlen
    have hget : (pre.drop k)[0]? = some dot := by rw [h]; rfl
    rw [List.getElem?_drop] at hget
    exact ⟨hlen, by rw [List.getElem?_append_left (by omega)]; exact hget⟩

theorem drop_eq_dotdot {k : ℕ} (hk : k ≤ pre.length) (b : Byte) (tail : List Byte) :
    pre.length - k = 2 ∧ (pre ++ b :: tail)[k]? = some dot ∧ (pre ++ b :: tail)[k + 1]? = some dot ↔
      pre.drop k = [dot, dot] := by
  constructor
  · rintro ⟨hlen, hget, hget'⟩
    rw [List.getElem?_append_left (by omega)] at hget hget'
    obtain ⟨hlt, hget⟩ := List.getElem?_eq_some_iff.mp hget
    obtain ⟨hlt', hget'⟩ := List.getElem?_eq_some_iff.mp hget'
    rw [List.drop_eq_getElem_cons hlt, List.drop_eq_getElem_cons hlt', hget, hget', List.drop_of_length_le (by omega)]
  · intro h
    have hlen := congrArg List.length h
    rw [List.length_drop, List.length_cons, List.length_singleton] at hlen
    have hget : (pre.drop k)[0]? = some dot := by rw [h]; rfl
    have hget' : (pre.drop k)[1]? = some dot := by rw [h]; rfl
    rw [List.getElem?_drop] at hget hget'
    refine ⟨hlen, ?_, ?_⟩
    · rw [List.getElem?_append_left (by omega)]
      exact hget
    · rw [List.getElem?_append_left (by omega)]
      exact hget'

/-- What is left as it is by the calls for a component. -/
structure Kept (st st' : Ancestors σ) (asks : List Asked) : Prop where
  sep : st'.sep = st.sep
  component : st'.component = st.component
  calls : ∃ new, st'.calls = st.calls ++ new ∧ new.map AncestorCall.asked = asks

/-- The call of `make_dir`. -/
theorem make_spec (hfile : st.file = pre ++ 0 :: tail) (h0 : 0 ∉ pre) (hk : st.component ≤ pre.length) :
    ∃ r st', st.make m pre.length = (r, st') ∧ st'.file = st.file ∧
      Kept st st' (if pre.drop st.component = [dot, dot] then [] else [.makeDir pre (pre.drop st.component)]) := by
  have hdots := drop_eq_dotdot hk 0 tail
  unfold Ancestors.make
  rw [hfile]
  by_cases h : pre.drop st.component = [dot, dot]
  · rw [if_pos (hdots.mpr h), if_pos h]
    exact ⟨_, _, rfl, rfl, rfl, rfl, [], by simp, rfl⟩
  · rw [if_neg fun h' => h (hdots.mp h'), if_neg h, string_append_zero h0, string_drop h0 hk]
    cases m.makeDir pre (pre.drop st.component) st.world with
    | mk answer world =>
      obtain ⟨result, errno⟩ := answer
      dsimp only
      by_cases h1 : result = -1
      · rw [if_pos h1]
        exact ⟨_, _, rfl, rfl, rfl, rfl, _, rfl, rfl⟩
      · rw [if_neg h1]
        by_cases h2 : result = 0
        · rw [if_pos h2]
          exact ⟨_, _, rfl, rfl, rfl, rfl, _, rfl, rfl⟩
        · rw [if_neg h2]
          by_cases h3 : result = 1
          · rw [if_pos h3]
            exact ⟨_, _, rfl, rfl, rfl, rfl, _, rfl, rfl⟩
          · rw [if_neg h3]
            exact ⟨_, _, rfl, rfl, rfl, rfl, _, rfl, rfl⟩

/-- The call of `savewd_chdir`: it fails, or the file name is restored. -/
theorem chdir_spec (hfile : st.file = pre ++ 0 :: tail) (h0 : 0 ∉ pre) (hk : st.component ≤ pre.length)
    (makeDirErrno : ℕ) (readable : Bool) :
    ∃ r st', st.chdir m pre.length makeDirErrno readable = (r, st') ∧
      ((∃ failure, r = some failure) ∧ (∃ call ∈ st'.calls, ¬call.Succeeds) ∨
        r = none ∧ st'.file = pre ++ slash :: tail ∧ Kept st st' [.chdir (pre.drop st.component)]) := by
  unfold Ancestors.chdir
  rw [hfile, string_drop h0 hk]
  cases m.savewdChdir (pre.drop st.component) ⟨st.madeDir, readable, false⟩ st.world with
  | mk answer world =>
    obtain ⟨result, errno⟩ := answer
    by_cases hresult : result = 0
    · subst hresult
      exact ⟨none, _, rfl, .inr ⟨rfl, by simp, rfl, rfl, _, rfl, rfl⟩⟩
    · refine ⟨_, _, rfl, .inl ⟨⟨_, if_pos hresult⟩, ?_⟩⟩
      exact ⟨_, List.mem_append_right _ (List.mem_singleton_self _), hresult⟩

/-- The calls for the component at the end of `pre`: one of them fails, or the file name is restored. -/
theorem enter_spec (hfile : st.file = pre ++ slash :: tail) (h0 : 0 ∉ pre) (hk : st.component ≤ pre.length)
    (hlast : lastPart slash pre = pre.drop st.component) (p : ℕ) :
    ∃ r st', st.enter m pre.length p = (r, st') ∧
      ((∃ failure, r = some failure) ∧ (∃ call ∈ st'.calls, ¬call.Succeeds) ∨
        r = none ∧ st'.file = st.file ∧ st'.sep = st.sep ∧ st'.component = p ∧
          ∃ new, st'.calls = st.calls ++ new ∧ new.map AncestorCall.asked = expected pre) := by
  have hdot := drop_eq_dot hk slash tail
  unfold Ancestors.enter expected
  rw [hlast, hfile]
  by_cases h : pre.drop st.component = [dot]
  · rw [if_pos (hdot.mpr h), if_pos h]
    exact ⟨none, _, rfl, .inr ⟨rfl, rfl, rfl, rfl, [], by simp, rfl⟩⟩
  · rw [if_neg fun h' => h (hdot.mp h'), if_neg h]
    have hcut : (pre ++ slash :: tail).set pre.length 0 = pre ++ 0 :: tail := by simp
    rw [hcut]
    let cut : Ancestors σ := { st with file := pre ++ 0 :: tail }
    have hcutFile : cut.file = pre ++ 0 :: tail := rfl
    obtain ⟨⟨makeDirErrno, readable⟩, st₁, hmake, hfile₁, hkept₁⟩ := make_spec (m := m) hcutFile h0 hk
    have hcomponent : st₁.component = st.component := hkept₁.component
    obtain ⟨new₁, hcalls₁, hasked₁⟩ := hkept₁.calls
    obtain ⟨r, st₂, hchdir, hend⟩ := chdir_spec (m := m) hfile₁ h0 (by rwa [hcomponent]) makeDirErrno readable
    rw [hmake]
    dsimp only
    rw [hchdir]
    rcases hend with ⟨⟨failure, rfl⟩, hfails⟩ | ⟨rfl, hfile₂, hkept₂⟩
    · exact ⟨_, _, rfl, .inl ⟨⟨failure, rfl⟩, hfails⟩⟩
    · obtain ⟨new₂, hcalls₂, hasked₂⟩ := hkept₂.calls
      refine ⟨none, _, rfl, .inr ⟨rfl, hfile₂, hkept₂.sep.trans hkept₁.sep, rfl, new₁ ++ new₂, ?_, ?_⟩⟩
      · rw [hcalls₂, hcalls₁, List.append_assoc]
      · rw [List.map_append, hasked₁, hasked₂, hcomponent]

end Enter

/-! ## The scan -/

section Scan

variable {σ : Type} {m : Makers σ} {st st' : Ancestors σ} {pre post : List Byte} {c : Byte}

/-- Where the scan is, between `pre` and `post`, and the ancestors that are still to come: in front of the first component, in a
component, between two components, or at the end. -/
inductive Phase (st : Ancestors σ) : List Byte → List Byte → List (List Byte) → Prop
  | lead {pre post : List Byte} (hpre : ∀ c ∈ pre, c = slash) (hsep : st.sep = none) (hcomponent : st.component = 0) :
      Phase st pre (slash :: post) (partsBefore slash pre (slash :: post))
  | name {pre post : List Byte} {c : Byte} (hc : c ≠ slash) (hlast : lastPart slash (pre ++ [c]) = (pre ++ [c]).drop st.component)
      (hle : st.component ≤ pre.length) (hsep : (∀ c ∈ pre, c = slash) → st.sep = none) :
      Phase st pre (c :: post) (partsBefore slash (pre ++ [c]) post)
  | gap {ended gap post : List Byte} (hended : EndsWithPart slash ended) (hgap : ∀ c ∈ gap, c = slash)
      (hsep : st.sep = some ended.length) (hlast : lastPart slash ended = ended.drop st.component)
      (hle : st.component ≤ ended.length) :
      Phase st (ended ++ gap) (slash :: post)
        ((if post.any (· ≠ slash) then [ended] else []) ++ partsBefore slash (ended ++ gap ++ [slash]) post)
  | finished {pre : List Byte} (hcomponent : st.component = lastPartAt slash pre) : Phase st pre [] []

/-- How the scan ends: a call of `savewd_chdir` has failed, or the ancestors `rest` have been made and entered. -/
def EndsWell (st : Ancestors σ) (file : List Byte) (rest : List (List Byte)) (r : Option ((ℤ × Option ℕ) × Ancestors σ)) : Prop :=
  ∃ returned st', r = some (returned, st') ∧
    ((∃ call ∈ st'.calls, ¬call.Succeeds) ∨
      returned = (((lastPartAt slash file : ℕ) : ℤ), none) ∧ st'.file = file ++ [0] ∧
        ∃ new, st'.calls = st.calls ++ new ∧ new.map AncestorCall.asked = rest.flatMap expected)

/-- A pass at a byte that is not the last one. -/
theorem scan_cons {next : Byte} (fuel : ℕ) (hfile : st.file = pre ++ c :: next :: post) (hc : c ≠ 0) :
    scan m (fuel + 1) pre.length st =
      if next = slash then
        scan m fuel (pre ++ [c]).length (if c ≠ slash then { st with sep := some (pre ++ [c]).length } else st)
      else
        match if c = slash ∧ next ≠ 0 then st.sep else none with
        | none => scan m fuel (pre ++ [c]).length st
        | some sep =>
          match st.enter m sep (pre ++ [c]).length with
          | (some (result, errno), st) => some ((result, some errno), st)
          | (none, st) => scan m fuel (pre ++ [c]).length st := by
  have hp : st.file[pre.length]? = some c := by simp [hfile]
  have hp' : st.file[(pre ++ [c]).length]? = some next := by simp [hfile]
  have hlen : pre.length + 1 = (pre ++ [c]).length := by simp
  rw [scan]
  simp only [hp, hlen, hp', if_neg hc]

/-- The end of the name. -/
theorem scan_nil {fuel : ℕ} (hfile : st.file = pre ++ [0]) (hcomponent : st.component = lastPartAt slash pre) :
    EndsWell st pre [] (scan m (fuel + 1) pre.length st) := by
  have hp : st.file[pre.length]? = some 0 := by simp [hfile]
  refine ⟨_, st, ?_, .inr ⟨rfl, hfile, [], by simp, rfl⟩⟩
  simp [scan, hp, hcomponent]

theorem ne_zero_of_append (h0 : 0 ∉ pre ++ c :: post) : c ≠ 0 := by
  rintro rfl
  exact h0 (by simp)

/-- What a pass does: a call of `savewd_chdir` fails, or the scan goes on, and the ancestors `made` have been made and entered. -/
def Passes (m : Makers σ) (st : Ancestors σ) (pre : List Byte) (c : Byte) (post : List Byte) (rest : List (List Byte)) (fuel : ℕ) :
    Prop :=
  (∃ returned st₁, scan m (fuel + 1) pre.length st = some (returned, st₁) ∧ ∃ call ∈ st₁.calls, ¬call.Succeeds) ∨
    ∃ st₁ made rest₁ new, scan m (fuel + 1) pre.length st = scan m fuel (pre ++ [c]).length st₁ ∧
      Phase st₁ (pre ++ [c]) post rest₁ ∧ rest = made ++ rest₁ ∧ st₁.file = st.file ∧
        st₁.calls = st.calls ++ new ∧ new.map AncestorCall.asked = made.flatMap expected

/-- A pass without a call. -/
theorem Passes.of_phase {rest : List (List Byte)} {fuel : ℕ}
    (hscan : scan m (fuel + 1) pre.length st = scan m fuel (pre ++ [c]).length st') (hphase : Phase st' (pre ++ [c]) post rest)
    (hfile : st'.file = st.file) (hcalls : st'.calls = st.calls) : Passes m st pre c post rest fuel :=
  .inr ⟨st', [], rest, [], hscan, hphase, rfl, hfile, hcalls.trans (List.append_nil _).symm, rfl⟩

/-- At the last byte. -/
theorem passes_last {fuel : ℕ} (hfile : st.file = pre ++ [c] ++ [0]) (hc0 : c ≠ 0)
    (hcomponent : st.component = lastPartAt slash (pre ++ [c])) : Passes m st pre c [] [] fuel := by
  refine .of_phase ?_ (.finished hcomponent) rfl rfl
  rw [scan_cons _ (hfile.trans (List.append_assoc _ _ _)) hc0, if_neg (by decide), if_neg (by simp)]

theorem forall_concat_slash {l : List Byte} (h : ∀ c ∈ l, c = slash) : ∀ c ∈ l ++ [slash], c = slash := by
  intro c hc
  rcases List.mem_append.mp hc with hc | hc
  · exact h c hc
  · exact List.mem_singleton.mp hc

/-- In front of the first component. -/
theorem passes_lead {fuel : ℕ} (hfile : st.file = pre ++ slash :: post ++ [0]) (h0 : 0 ∉ pre ++ slash :: post)
    (hpre : ∀ c ∈ pre, c = slash) (hsep : st.sep = none) (hcomponent : st.component = 0) :
    Passes m st pre slash post (partsBefore slash pre (slash :: post)) fuel := by
  have hpre' := forall_concat_slash hpre
  rw [partsBefore_cons_of_all hpre]
  cases post with
  | nil => exact passes_last (by simp [hfile]) (by decide) (by rw [hcomponent, lastPartAt_of_all hpre'])
  | cons next post =>
    have h0' : 0 ∉ pre ++ [slash] ++ next :: post := by simpa using h0
    have hnext0 := ne_zero_of_append h0'
    have hscan := scan_cons (m := m) fuel (hfile.trans (List.append_assoc _ _ _)) (by decide)
    by_cases hn : next = slash
    · subst hn
      rw [if_pos rfl, if_neg (by simp)] at hscan
      exact .of_phase hscan (.lead hpre' hsep hcomponent) rfl rfl
    · rw [if_neg hn, if_pos ⟨rfl, hnext0⟩, hsep] at hscan
      rw [partsBefore_cons_of_ne hn]
      refine .of_phase hscan (.name hn ?_ ?_ fun _ => hsep) rfl rfl
      · rw [lastPart_first hpre' hn, hcomponent]
        rfl
      · rw [hcomponent]
        exact Nat.zero_le _

/-- In a component. -/
theorem passes_name {fuel : ℕ} (hfile : st.file = pre ++ c :: post ++ [0]) (h0 : 0 ∉ pre ++ c :: post) (hc : c ≠ slash)
    (hlast : lastPart slash (pre ++ [c]) = (pre ++ [c]).drop st.component) (hle : st.component ≤ pre.length) :
    Passes m st pre c post (partsBefore slash (pre ++ [c]) post) fuel := by
  have hends : EndsWithPart slash (pre ++ [c]) := ⟨pre, c, rfl, hc⟩
  have hle' : st.component ≤ (pre ++ [c]).length := by
    rw [List.length_append]
    omega
  cases post with
  | nil =>
    have hat : lastPartAt slash (pre ++ [c] ++ []) = st.component := lastPartAt_append hends (by simp) hle' hlast
    rw [List.append_nil] at hat
    exact passes_last (by simp [hfile]) (ne_zero_of_append h0) hat.symm
  | cons next post =>
    have hscan := scan_cons (m := m) fuel (hfile.trans (List.append_assoc _ _ _)) (ne_zero_of_append h0)
    by_cases hn : next = slash
    · subst hn
      rw [if_pos rfl, if_pos hc] at hscan
      have hphase : Phase { st with sep := some (pre ++ [c]).length } (pre ++ [c] ++ []) (slash :: post) _ :=
        .gap hends (by simp) rfl hlast hle'
      rw [List.append_nil] at hphase
      rw [partsBefore_cons_end hends]
      exact .of_phase hscan hphase rfl rfl
    · rw [if_neg hn, if_neg fun h => hc h.1] at hscan
      rw [partsBefore_cons_of_ne hn]
      refine .of_phase hscan (.name hn ?_ hle' fun hall => absurd (hall c (by simp)) hc) rfl rfl
      rw [lastPart_concat hc hn, hlast, ← List.drop_append_of_le_length hle']

/-- Between two components: in front of the second one, the first one is made and entered. -/
theorem passes_gap {ended gap : List Byte} {fuel : ℕ} (hfile : st.file = ended ++ gap ++ slash :: post ++ [0])
    (h0 : 0 ∉ ended ++ gap ++ slash :: post) (hended : EndsWithPart slash ended) (hgap : ∀ c ∈ gap, c = slash)
    (hsep : st.sep = some ended.length) (hlast : lastPart slash ended = ended.drop st.component)
    (hle : st.component ≤ ended.length) :
    Passes m st (ended ++ gap) slash post
      ((if post.any (· ≠ slash) then [ended] else []) ++ partsBefore slash (ended ++ gap ++ [slash]) post) fuel := by
  have hgap' := forall_concat_slash hgap
  cases post with
  | nil => exact passes_last (by simp [hfile]) (by decide) (by rw [List.append_assoc, lastPartAt_append hended hgap' hle hlast])
  | cons next post =>
    have h0' : 0 ∉ ended ++ gap ++ [slash] ++ next :: post := by simpa using h0
    have hnext0 := ne_zero_of_append h0'
    have hscan := scan_cons (m := m) fuel (hfile.trans (List.append_assoc _ _ _)) (by decide)
    by_cases hn : next = slash
    · subst hn
      have hany : (slash :: post).any (· ≠ slash) = post.any (· ≠ slash) := by simp
      have hphase : Phase st (ended ++ (gap ++ [slash])) (slash :: post) _ := .gap hended hgap' hsep hlast hle
      rw [if_pos rfl, if_neg (by simp)] at hscan
      rw [← List.append_assoc] at hphase
      rw [partsBefore_cons_sep, hany]
      exact .of_phase hscan hphase rfl rfl
    · have hany : (next :: post).any (· ≠ slash) = true := by simp [hn]
      have htail : ∃ tail, st.file = ended ++ slash :: tail := by
        cases gap with
        | nil => exact ⟨next :: post ++ [0], by simp [hfile]⟩
        | cons g gap =>
          obtain rfl : g = slash := hgap g List.mem_cons_self
          exact ⟨gap ++ slash :: next :: post ++ [0], by simp [hfile]⟩
      obtain ⟨tail, htail⟩ := htail
      have hended0 : 0 ∉ ended := fun h => h0 (by simp [h])
      obtain ⟨r, st₁, henter, hend⟩ := enter_spec (m := m) htail hended0 hle hlast (ended ++ gap ++ [slash]).length
      rw [if_neg hn, if_pos ⟨rfl, hnext0⟩, hsep] at hscan
      simp only [henter] at hscan
      rw [partsBefore_cons_of_ne hn, if_pos hany]
      rcases hend with ⟨⟨failure, rfl⟩, hfails⟩ | ⟨rfl, hfile₁, -, hcomponent₁, new, hcalls, hasked⟩
      · exact .inl ⟨_, st₁, hscan, hfails⟩
      · obtain ⟨x, hx, hne⟩ : ∃ x ∈ ended ++ gap, x ≠ slash := by
          obtain ⟨l, x, rfl, hx⟩ := hended
          exact ⟨x, by simp, hx⟩
        refine .inr ⟨st₁, [ended], _, new, hscan, .name hn ?_ hcomponent₁.le fun hall => ?_, rfl, hfile₁, hcalls, ?_⟩
        · rw [lastPart_next ⟨x, hx, hne⟩ hn, hcomponent₁, List.drop_left]
        · exact absurd (hall x (List.mem_append_left _ hx)) hne
        · rw [hasked, List.flatMap_singleton]

theorem Phase.passes {rest : List (List Byte)} (h : Phase st pre (c :: post) rest) (hfile : st.file = pre ++ c :: post ++ [0])
    (h0 : 0 ∉ pre ++ c :: post) (fuel : ℕ) : Passes m st pre c post rest fuel := by
  cases h with
  | lead hpre hsep hcomponent => exact passes_lead hfile h0 hpre hsep hcomponent
  | name hc hlast hle hsep => exact passes_name hfile h0 hc hlast hle
  | gap hended hgap hsep hlast hle => exact passes_gap hfile h0 hended hgap hsep hlast hle

/-- The scan from any place of the file name. -/
theorem scan_spec {rest : List (List Byte)} (h : Phase st pre post rest) (hfile : st.file = pre ++ post ++ [0])
    (h0 : 0 ∉ pre ++ post) {fuel : ℕ} (hfuel : post.length < fuel) :
    EndsWell st (pre ++ post) rest (scan m fuel pre.length st) := by
  induction post generalizing pre st rest fuel with
  | nil =>
    cases h with
    | finished hcomponent =>
      obtain ⟨fuel, rfl⟩ : ∃ n, fuel = n + 1 := ⟨fuel - 1, by simp at hfuel; omega⟩
      rw [List.append_nil] at hfile ⊢
      exact scan_nil hfile hcomponent
  | cons c post ih =>
    obtain ⟨fuel, rfl⟩ : ∃ n, fuel = n + 1 := ⟨fuel - 1, by simp at hfuel; omega⟩
    have hfuel' : post.length < fuel := by
      rw [List.length_cons] at hfuel
      omega
    obtain ⟨returned, st₁, hscan, hfails⟩ | ⟨st₁, made, rest₁, new, hscan, hphase, rfl, hfile₁, hcalls, hasked⟩ :=
      h.passes (m := m) hfile h0 fuel
    · exact ⟨returned, st₁, hscan, .inl hfails⟩
    · have hsplit : pre ++ c :: post = pre ++ [c] ++ post := by simp
      rw [hsplit] at hfile h0 ⊢
      obtain ⟨returned, st₂, hscan₂, hright⟩ := ih hphase (hfile₁.trans hfile) h0 hfuel'
      refine ⟨returned, st₂, hscan.trans hscan₂, hright.imp id ?_⟩
      rintro ⟨hreturned, hfile₂, new₂, hcalls₂, hasked₂⟩
      refine ⟨hreturned, hfile₂, new ++ new₂, ?_, ?_⟩
      · rw [hcalls₂, hcalls, List.append_assoc]
      · rw [List.map_append, hasked, hasked₂, List.flatMap_append]

end Scan

/-! ## The ancestors -/

/-- The ancestors end with a component in front of a slash, and there is another component behind it. -/
theorem mem_ancestors {file pre : List Byte} :
    pre ∈ ancestors file ↔ ∃ post, file = pre ++ post ∧ partEnds slash pre post = true := by
  rw [ancestors, mem_partsBefore]
  constructor
  · rintro ⟨y, z, hfile, rfl, hends⟩
    exact ⟨z, hfile, hends⟩
  · rintro ⟨post, hfile, hends⟩
    exact ⟨pre, post, hfile, rfl, hends⟩

/-- Its ancestors are `/a`, `/a/.` and `/a/./..`, and the last component begins at the eighth byte. -/
example : ancestors [47, 97, 47, 46, 47, 46, 46, 47, 98, 47, 47] = [[47, 97], [47, 97, 47, 46], [47, 97, 47, 46, 47, 46, 46]] ∧
    lastPartAt slash [47, 97, 47, 46, 47, 46, 46, 47, 98, 47, 47] = 8 := by decide

end CodingExercises.Coreutils.Mkancesdirs
