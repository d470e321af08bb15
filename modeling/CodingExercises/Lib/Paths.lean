import Mathlib.Data.List.Infix

/-!
# Names of files

A tree of files is a map from places to directories, files and symbolic links; a place is the list of the names on the way
from the root. A file name is a list of parts, and is followed from a place.

- `Follows`: a file name, followed with symbolic links expanded, comes to a place;
- `Lost`: it comes to a name that is missing, to more parts behind what is no directory, or to a link that cannot be read;
- `lookup`: what a system with a limit on links finds; a link in the last place is not followed.

Where no link is on the way, `lookup` of a place is the place (`lookup_spell`).
-/

namespace CodingExercises.Lib

/-- A part of a file name. -/
inductive Segment (ν : Type*)
  | here
  | up
  | name (c : ν)
deriving DecidableEq

/-- What is at a place. -/
inductive Node (ν : Type*)
  | dir
  | file
  | link (absolute : Bool) (target : List (Segment ν))
deriving DecidableEq

/-- A tree of files. -/
structure Files (ν : Type*) where
  node : List ν → Option (Node ν)
  root : node [] = some .dir
  closed : ∀ p c, node (p ++ [c]) ≠ none → node p = some .dir

section Files

variable {ν : Type*}

/-- Where the target of a link at a place is followed from. -/
def base (absolute : Bool) (p : List ν) : List ν := if absolute then [] else p

/-- There is a symbolic link at a place. -/
def Files.IsLink (t : Files ν) (p : List ν) : Prop := ∃ a target, t.node p = some (.link a target)

/-- No place on the way to `p` is a link, nor is `p`. -/
def Files.Straight (t : Files ν) (p : List ν) : Prop := ∀ q, q <+: p → ¬ t.IsLink q

section Follow

variable (t : Files ν) (readable : List ν → Prop)

/-- A file name, followed from `p`, comes to a place. -/
inductive Follows : List ν → List (Segment ν) → List ν → Prop
  | done (p : List ν) : Follows p [] p
  | here {p : List ν} {cs : List (Segment ν)} {q : List ν} : t.node p = some .dir → Follows p cs q → Follows p (.here :: cs) q
  | up {p : List ν} {cs : List (Segment ν)} {q : List ν} : t.node p = some .dir → Follows p.dropLast cs q →
      Follows p (.up :: cs) q
  | name {p : List ν} {c : ν} {cs : List (Segment ν)} {q : List ν} : t.node p = some .dir →
      t.node (p ++ [c]) = some .dir ∨ t.node (p ++ [c]) = some .file → Follows (p ++ [c]) cs q → Follows p (.name c :: cs) q
  | link {p : List ν} {c : ν} {a : Bool} {target cs : List (Segment ν)} {q : List ν} : t.node p = some .dir →
      t.node (p ++ [c]) = some (.link a target) → readable (p ++ [c]) → Follows (base a p) (target ++ cs) q →
      Follows p (.name c :: cs) q

/-- A file name, followed from `p`, comes to a name that is missing, to more parts behind what is no directory, or to a link
that cannot be read. -/
inductive Lost : List ν → List (Segment ν) → Prop
  | missing {p : List ν} {c : ν} {cs : List (Segment ν)} : t.node p = some .dir → t.node (p ++ [c]) = none →
      Lost p (.name c :: cs)
  | notDir {p : List ν} {c : Segment ν} {cs : List (Segment ν)} : t.node p ≠ some .dir → Lost p (c :: cs)
  | unreadable {p : List ν} {c : ν} {cs : List (Segment ν)} : t.node p = some .dir → t.IsLink (p ++ [c]) →
      ¬ readable (p ++ [c]) → Lost p (.name c :: cs)
  | here {p : List ν} {cs : List (Segment ν)} : t.node p = some .dir → Lost p cs → Lost p (.here :: cs)
  | up {p : List ν} {cs : List (Segment ν)} : t.node p = some .dir → Lost p.dropLast cs → Lost p (.up :: cs)
  | name {p : List ν} {c : ν} {cs : List (Segment ν)} : t.node p = some .dir →
      t.node (p ++ [c]) = some .dir ∨ t.node (p ++ [c]) = some .file → Lost (p ++ [c]) cs → Lost p (.name c :: cs)
  | link {p : List ν} {c : ν} {a : Bool} {target cs : List (Segment ν)} : t.node p = some .dir →
      t.node (p ++ [c]) = some (.link a target) → readable (p ++ [c]) → Lost (base a p) (target ++ cs) →
      Lost p (.name c :: cs)

end Follow

/-! ## Looking up -/

/-- Why a lookup fails. -/
inductive Trouble
  | missing
  | notDir
  | loop
deriving DecidableEq

section Lookup

variable [DecidableEq ν] (t : Files ν)

/-- A lookup up to the first link that is followed, which is handed over with what is to be followed from where. -/
def lookupWith (onLink : List ν → List (Segment ν) → Except Trouble (List ν)) :
    List ν → List (Segment ν) → Except Trouble (List ν)
  | p, [] => .ok p
  | p, .here :: cs => if t.node p = some .dir then lookupWith onLink p cs else .error .notDir
  | p, .up :: cs => if t.node p = some .dir then lookupWith onLink p.dropLast cs else .error .notDir
  | p, .name c :: cs =>
    if t.node p = some .dir then
      match t.node (p ++ [c]) with
      | none => .error .missing
      | some (.link a target) => if cs = [] then .ok (p ++ [c]) else onLink (base a p) (target ++ cs)
      | some _ => lookupWith onLink (p ++ [c]) cs
    else .error .notDir

/-- A lookup that follows `links` links at most, and none in the last place. -/
def lookup : ℕ → List ν → List (Segment ν) → Except Trouble (List ν)
  | 0 => lookupWith t fun _ _ => .error .loop
  | links + 1 => lookupWith t (lookup links)

/-- The name of a place, as it is spelled from another one. -/
def spell (p : List ν) : List (Segment ν) := p.flatMap fun c => [.here, .name c]

end Lookup

section Spell

variable {t : Files ν}

/-- What is above a place that there is, is a directory. -/
theorem Files.dir_of_append {p : List ν} {c : ν} {q : List ν} (h : t.node (p ++ c :: q) ≠ none) : t.node p = some .dir := by
  induction q using List.reverseRecOn with
  | nil => exact t.closed p c h
  | append_singleton q d ih =>
    apply ih
    rw [← List.cons_append, ← List.append_assoc] at h
    rw [t.closed _ d h]
    exact Option.some_ne_none _

theorem not_isLink_of_dir {p : List ν} (h : t.node p = some .dir) : ¬ t.IsLink p := by
  rintro ⟨a, target, h'⟩
  rw [h] at h'
  cases h'

theorem Files.Straight.snoc {p : List ν} {c : ν} (h : t.Straight p) (hc : ¬ t.IsLink (p ++ [c])) :
    t.Straight (p ++ [c]) := by
  intro q hq
  rcases List.prefix_concat_iff.mp hq with rfl | hq
  · exact hc
  · exact h q hq

theorem Files.Straight.dropLast {p : List ν} (h : t.Straight p) : t.Straight p.dropLast :=
  fun q hq => h q (hq.trans (List.dropLast_prefix p))

variable {p ds : List ν}

/-- Through directories, a name is followed straight on. -/
theorem Follows.spell {readable : List ν → Prop} {es : List (Segment ν)} {q : List ν} (h : t.node (p ++ ds) = some .dir)
    (hes : Follows t readable (p ++ ds) es q) : Follows t readable p (spell ds ++ es) q := by
  induction ds generalizing p with
  | nil => simpa [Lib.spell] using hes
  | cons c ds ih =>
    have hne : t.node (p ++ c :: ds) ≠ none := by simp [h]
    have hp := t.dir_of_append hne
    rw [List.append_cons] at h hes
    have hc : t.node (p ++ [c]) = some .dir := by
      cases ds with
      | nil => simpa using h
      | cons d ds => exact t.dir_of_append (by rw [h]; exact Option.some_ne_none _)
    exact .here hp (.name hp (.inl hc) (ih h hes))

/-- A place with no link on the way is where its name leads to. -/
theorem follows_place {readable : List ν → Prop} {c : ν} (h : t.node (p ++ ds ++ [c]) ≠ none)
    (hlink : ¬ t.IsLink (p ++ ds ++ [c])) : Follows t readable p (Lib.spell (ds ++ [c])) (p ++ ds ++ [c]) := by
  have hdir := t.closed _ c h
  have happ : Lib.spell (ds ++ [c]) = Lib.spell ds ++ [.here, .name c] := by simp [Lib.spell]
  have hkind : t.node (p ++ ds ++ [c]) = some .dir ∨ t.node (p ++ ds ++ [c]) = some .file := by
    cases hnode : t.node (p ++ ds ++ [c]) with
    | none => exact absurd hnode h
    | some n =>
      cases n with
      | dir => exact .inl rfl
      | file => exact .inr rfl
      | link a target => exact absurd ⟨a, target, hnode⟩ hlink
  rw [happ]
  exact .spell hdir (.here hdir (.name hdir hkind (.done _)))

variable [DecidableEq ν] (onLink : List ν → List (Segment ν) → Except Trouble (List ν))

/-- Through directories, a lookup goes straight on. -/
theorem lookupWith_append (h : t.node (p ++ ds) = some .dir) (es : List (Segment ν)) :
    lookupWith t onLink p (spell ds ++ es) = lookupWith t onLink (p ++ ds) es := by
  induction ds generalizing p with
  | nil => simp [spell]
  | cons c ds ih =>
    have hne : t.node (p ++ c :: ds) ≠ none := by simp [h]
    have hp := t.dir_of_append hne
    rw [List.append_cons] at h
    have hc : t.node (p ++ [c]) = some .dir := by
      cases ds with
      | nil => simpa using h
      | cons d ds => exact t.dir_of_append (by rw [h]; exact Option.some_ne_none _)
    have ih := ih h
    simp only [spell, List.flatMap_cons, List.cons_append, List.nil_append, lookupWith, hp, hc, if_true] at ih ⊢
    rw [ih, List.append_cons p c ds]

/-- A place that there is is found, where its last name is that of a link too. -/
theorem lookupWith_spell {c : ν} (h : t.node (p ++ ds ++ [c]) ≠ none) :
    lookupWith t onLink p (spell (ds ++ [c])) = .ok (p ++ ds ++ [c]) := by
  have hdir := t.closed _ c h
  have happ : spell (ds ++ [c]) = spell ds ++ [.here, .name c] := by simp [spell]
  rw [happ, lookupWith_append onLink hdir]
  simp only [lookupWith, hdir, if_true]
  split
  · exact absurd ‹_› h
  · rfl
  · rfl

/-- A name that is missing in a directory. -/
theorem lookupWith_missing {c : ν} (hdir : t.node (p ++ ds) = some .dir) (h : t.node (p ++ ds ++ [c]) = none) :
    lookupWith t onLink p (spell (ds ++ [c])) = .error .missing := by
  have happ : spell (ds ++ [c]) = spell ds ++ [.here, .name c] := by simp [spell]
  rw [happ, lookupWith_append onLink hdir]
  simp only [lookupWith, hdir, if_true, h]

/-- Without a link on the way, a place that there is not is not found. -/
theorem lookupWith_error (hp : t.node p ≠ none) (hlink : ∀ q, q <+: ds → ¬ t.IsLink (p ++ q))
    (h : t.node (p ++ ds) = none) : ∃ e, lookupWith t onLink p (spell ds) = .error e := by
  induction ds generalizing p with
  | nil =>
    rw [List.append_nil] at h
    exact absurd h hp
  | cons c ds ih =>
    simp only [spell, List.flatMap_cons, List.cons_append, List.nil_append, lookupWith]
    split
    · split
      · exact ⟨_, rfl⟩
      · rename_i hlast
        exact absurd ⟨_, _, hlast⟩ (hlink [c] (by simp))
      · rename_i n _ hn
        apply ih
        · rw [hn]
          exact Option.some_ne_none n
        · intro q hq
          rw [← List.append_cons]
          exact hlink (c :: q) (List.cons_prefix_cons.mpr ⟨rfl, hq⟩)
        · rwa [← List.append_cons]
    · exact ⟨_, rfl⟩

/-- A lookup is one up to the first link. -/
theorem lookup_eq (links : ℕ) : ∃ onLink, lookup t links = lookupWith t onLink := by
  cases links with
  | zero => exact ⟨_, rfl⟩
  | succ links => exact ⟨_, rfl⟩

end Spell

end Files

end CodingExercises.Lib
