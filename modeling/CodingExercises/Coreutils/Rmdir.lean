import CodingExercises.Coreutils.DirName

/-!
# rmdir: parents of a directory

`remove_parent` of `src/rmdir.c` and what `main` does with an operand, for any system. What is printed is left out.

A turn of the loop cuts the name in its buffer to what `strip_trailing_slashes` leaves of the part before the last slash
(`take_skipSlashes`). So the names that `rmdir` is called with are those of the ancestors (`removeParent_spec`), if the operand is
not the root; and for the root, `remove_parent` is not called (`rmdirOperand_spec`).
-/

namespace CodingExercises.Coreutils.Rmdir

/-! ## The program -/

/-- The values of `errno` that the program tells apart. -/
inductive Errno
  | enotempty
  | eexist
  | eacces
  | eperm
  | erofs
  | ebusy
  | other (n : ℕ)
deriving DecidableEq

/-- A system, with its state: why `rmdir` fails, if it does, and whether a directory is empty. -/
structure System (σ : Type) where
  rmdir : List Byte → σ → Option Errno × σ
  isEmptyDir : List Byte → σ → Bool × σ

/-- A call of `rmdir`; a failure can be ignorable. -/
structure Call where
  name : List Byte
  failed : Bool
  ignorable : Bool
deriving DecidableEq

/-- `strrchr`. -/
def strrchr (c : Byte) : List Byte → Option ℕ
  | [] => none
  | b :: s =>
    match strrchr c s with
    | some i => some (i + 1)
    | none => if b = c then some 0 else none

/-- `while(slash > dir && *slash == '/') --slash`. -/
def skipSlashes (dir : List Byte) : ℕ → ℕ
  | 0 => 0
  | i + 1 => if dir[i + 1]? = some slash then skipSlashes dir i else i + 1

/-- `errno_rmdir_non_empty`. -/
def errnoRmdirNonEmpty (e : Errno) : Bool := e = .enotempty || e = .eexist

/-- `errno_may_be_empty`. -/
def errnoMayBeEmpty : Errno → Bool
  | .eacces | .eperm | .erofs | .eexist | .ebusy => true
  | _ => false

section

variable {σ : Type} (sys : System σ) (ignoreFailOnNonEmpty : Bool)

/-- `ignorable_failure`. -/
def ignorableFailure (e : Errno) (dir : List Byte) (s : σ) : Bool × σ :=
  if ignoreFailOnNonEmpty then
    if errnoRmdirNonEmpty e then (true, s)
    else if errnoMayBeEmpty e then sys.isEmptyDir dir s
    else (false, s)
  else (false, s)

/-- The loop of `remove_parent`: what is returned, and the calls. -/
def removeParentLoop : ℕ → List Byte → σ → Option ((Bool × List Call) × σ)
  | 0, _, _ => none
  | fuel + 1, dir, s =>
    match strrchr slash dir with
    | none => some ((true, []), s)
    | some i =>
      -- `slash[1] = 0`
      let dir := dir.take (skipSlashes dir i + 1)
      match sys.rmdir dir s with
      | (none, s) => (removeParentLoop fuel dir s).map fun r => ((r.1.1, ⟨dir, false, false⟩ :: r.1.2), r.2)
      | (some e, s) =>
        let (ignorable, s) := ignorableFailure sys ignoreFailOnNonEmpty e dir s
        some ((ignorable, [⟨dir, true, ignorable⟩]), s)

/-- `remove_parent`. -/
def removeParent (fuel : ℕ) (dir : List Byte) (s : σ) : Option ((Bool × List Call) × σ) :=
  removeParentLoop sys ignoreFailOnNonEmpty fuel (stripTrailingSlashes dir).2 s

/-- What `main` does with an operand: whether it has not failed, and the calls. -/
def rmdirOperand (removeEmptyParents : Bool) (fuel : ℕ) (dir : List Byte) (s : σ) : Option ((Bool × List Call) × σ) :=
  match sys.rmdir dir s with
  | (some e, s) =>
    let (ignorable, s) := ignorableFailure sys ignoreFailOnNonEmpty e dir s
    some ((ignorable, [⟨dir, true, ignorable⟩]), s)
  | (none, s) =>
    if removeEmptyParents then
      (removeParent sys ignoreFailOnNonEmpty fuel dir s).map fun r => ((r.1.1, ⟨dir, false, false⟩ :: r.1.2), r.2)
    else some ((true, [⟨dir, false, false⟩]), s)

end

/-! ## Ancestors -/

/-- A name of the root. -/
def IsRoot (file : List Byte) : Prop := file ≠ [] ∧ ∀ c ∈ file, c = slash

/-- The components of the ancestors of a file, from the longest on. The root is an ancestor of an absolute name. -/
def ancestors (file : List Byte) : List (List (List Byte)) :=
  let n := (comps file).length
  let lengths := if isAbsoluteFileName file then List.range n else List.range' 1 (n - 1)
  lengths.reverse.map (comps file).take

/-- The calls are for ancestors of a file, by names that are beginnings of its own, up to the first that fails; what is returned
says that none failed but for a reason that can be ignored. -/
structure Removes (file : List Byte) (calls : List Call) (returned : Bool) : Prop where
  names : ∀ c ∈ calls, c.name <+: file ∧ isAbsoluteFileName c.name = isAbsoluteFileName file
  order : calls.map (comps ·.name) <+: ancestors file
  stops : ∀ c ∈ calls.dropLast, c.failed = false
  goesOn : (∀ c ∈ calls, c.failed = false) → calls.map (comps ·.name) = ancestors file
  returned_iff : returned = true ↔ ∀ c ∈ calls, c.failed = true → c.ignorable = true

/-! ## A turn -/

theorem strrchr_notMem {c : Byte} {s : List Byte} (h : c ∉ s) : strrchr c s = none := by
  induction s with
  | nil => rfl
  | cons b s ih =>
    simp only [List.mem_cons, not_or] at h
    simp only [strrchr, ih h.2, if_neg (Ne.symm h.1)]

theorem strrchr_append {c : Byte} {s : List Byte} (h : c ∉ s) (x : List Byte) : strrchr c (x ++ c :: s) = some x.length := by
  induction x with
  | nil => simp only [List.nil_append, strrchr, strrchr_notMem h, if_true, List.length_nil]
  | cons b x ih => simp only [List.cons_append, strrchr, ih, List.length_cons]

/-- The slashes behind `x` are skipped, but for one at the beginning. -/
theorem skipSlashes_append {x : List Byte} (hx : ¬[slash] <:+ x) (k : ℕ) (y : List Byte) :
    skipSlashes (x ++ List.replicate (k + 1) slash ++ y) (x.length + k) = x.length - 1 := by
  induction k generalizing y with
  | zero =>
    rcases List.eq_nil_or_concat' x with rfl | ⟨x, c, rfl⟩
    · rfl
    · have hc : c ≠ slash := by
        rintro rfl
        exact hx (List.suffix_append x [slash])
      have hslash : (x ++ [c] ++ List.replicate 1 slash ++ y)[x.length + 1]? = some slash := by simp
      rw [Nat.add_zero, List.length_append, List.length_singleton, Nat.add_sub_cancel, skipSlashes, if_pos hslash]
      cases x with
      | nil => rfl
      | cons b x =>
        have hlast : (b :: x ++ [c] ++ List.replicate 1 slash ++ y)[x.length + 1]? ≠ some slash := by simpa using hc
        rw [List.length_cons, skipSlashes, if_neg hlast]
  | succ k ih =>
    have hslash : (x ++ List.replicate (k + 1 + 1) slash ++ y)[x.length + k + 1]? = some slash := by
      rw [List.append_assoc, List.getElem?_append_right (by omega), List.getElem?_append_left (by
        rw [List.length_replicate]
        omega)]
      exact List.getElem?_replicate_of_lt (by omega)
    have hmove : x ++ List.replicate (k + 1 + 1) slash ++ y = x ++ List.replicate (k + 1) slash ++ slash :: y := by
      rw [List.replicate_succ', ← List.append_assoc, List.append_assoc _ [slash]]
      rfl
    rw [← Nat.add_assoc, skipSlashes, if_pos hslash, hmove]
    exact ih (slash :: y)

/-- The cut of a turn leaves no slashes at the end. -/
theorem take_skipSlashes (x y : List Byte) :
    (x ++ slash :: y).take (skipSlashes (x ++ slash :: y) x.length + 1) = stripped (x ++ [slash]) := by
  have happ : x ++ slash :: y = x ++ [slash] ++ y := by simp
  rcases exists_parts (x ++ [slash]) with ⟨k, hk⟩ | ⟨pre, comp, k, h⟩
  · obtain _ | k := k
    · exact absurd hk (by simp)
    · have hlen : x.length = k := by simpa using congrArg List.length hk
      have hskip := skipSlashes_append (x := []) (by simp) k y
      rw [List.nil_append, List.length_nil, Nat.zero_add] at hskip
      rw [happ, hk, hlen, hskip, stripped, strip_replicate, Nat.min_eq_right (by omega)]
      rfl
  · obtain _ | k := k
    · exact absurd ⟨x, h.eq.trans (List.append_nil _)⟩ h.not_slash_end
    · have hlen : x.length = (pre ++ comp).length + k := by
        have := congrArg List.length h.eq
        simp only [List.length_append, List.length_replicate, List.length_singleton] at this ⊢
        omega
      have hpos := List.length_pos_iff.mpr h.ne
      have hone : (pre ++ comp).length - 1 + 1 = (pre ++ comp).length := by
        simp only [List.length_append]
        omega
      rw [stripped, h.strip, happ, h.eq, hlen, skipSlashes_append h.not_slash_end, hone, List.append_assoc, List.take_left]

/-! ## Ancestors by turns -/

/-- Without a slash there is no ancestor. -/
theorem ancestors_name {file : List Byte} (hno : slash ∉ file) : ancestors file = [] := by
  have hrel : isAbsoluteFileName file = false := by
    cases file with
    | nil => rfl
    | cons c file => simpa [isAbsoluteFileName] using fun h : c = slash => hno (h ▸ List.mem_cons_self)
  by_cases hne : file = []
  · rw [hne]
    rfl
  · rw [ancestors, comps_name hne hno, hrel]
    rfl

/-- The root has no ancestor. -/
theorem ancestors_root (k : ℕ) : ancestors (List.replicate k slash) = [] := by
  have hrange : (if isAbsoluteFileName (List.replicate k slash) = true then List.range 0 else List.range' 1 (0 - 1)) = [] := by
    split <;> rfl
  rw [ancestors, comps_replicate, List.length_nil, hrange]
  rfl

/-- A relative name that is not empty has a component. -/
theorem comps_ne_nil {x : List Byte} (hne : x ≠ []) (hrel : isAbsoluteFileName x = false) : comps x ≠ [] := by
  rcases exists_parts x with ⟨k, rfl⟩ | ⟨pre, comp, k, h⟩
  · obtain _ | k := k
    · exact absurd rfl hne
    · exact absurd hrel (by simp [isAbsoluteFileName])
  · rw [h.comps]
    simp

/-- The lengths of the ancestors, with those of the first one. -/
theorem lengths_succ (absolute : Bool) {m : ℕ} (hm : absolute = false → 0 < m) :
    (if absolute then List.range (m + 1) else List.range' 1 (m + 1 - 1)) =
      (if absolute then List.range m else List.range' 1 (m - 1)) ++ [m] := by
  cases absolute with
  | true => exact List.range_succ
  | false =>
    obtain ⟨m, rfl⟩ : ∃ n, m = n + 1 := ⟨m - 1, by have := hm rfl; omega⟩
    simp only [Bool.false_eq_true, if_false, Nat.add_sub_cancel, List.range'_1_concat, Nat.add_comm 1 m]

/-- The part before the last slash names the first of the ancestors. -/
theorem ancestors_cons {x comp : List Byte} (hne : comp ≠ []) (hno : slash ∉ comp) :
    ancestors (x ++ slash :: comp) = comps (stripped (x ++ [slash])) :: ancestors (stripped (x ++ [slash])) := by
  have habs : isAbsoluteFileName (x ++ slash :: comp) = isAbsoluteFileName (stripped (x ++ [slash])) := by
    rw [absolute_stripped, isAbsoluteFileName, isAbsoluteFileName]
    cases x <;> rfl
  have hcomps : comps (stripped (x ++ [slash])) = comps x := by
    rw [comps_stripped, comps_slash, comps_nil, List.append_nil]
  have hfile : comps (x ++ slash :: comp) = comps x ++ [comp] := by
    rw [comps_slash, comps_name hne hno]
  have hm : isAbsoluteFileName (stripped (x ++ [slash])) = false → 0 < (comps x).length := by
    intro hrel
    rw [absolute_stripped] at hrel
    have hx : x ≠ [] := by
      rintro rfl
      exact absurd hrel (by decide)
    refine List.length_pos_iff.mpr (comps_ne_nil hx ?_)
    rw [isAbsoluteFileName] at hrel ⊢
    rwa [List.getElem?_append_left (List.length_pos_iff.mpr hx)] at hrel
  simp only [ancestors, habs, hcomps, hfile, List.length_append, List.length_singleton, lengths_succ _ hm, List.reverse_append,
    List.reverse_singleton, List.singleton_append, List.map_cons, List.take_left]
  congr 1
  refine List.map_congr_left fun j hj => List.take_append_of_le_length ?_
  have hmem := List.mem_reverse.mp hj
  split at hmem
  · exact (List.mem_range.mp hmem).le
  · obtain ⟨-, hlt⟩ := List.mem_range'_1.mp hmem
    omega

/-! ## The loop -/

section

variable {σ : Type} (sys : System σ) (ignoreFailOnNonEmpty : Bool)

/-- One more ancestor is removed. -/
theorem Removes.cons {file first : List Byte} {calls : List Call} {returned : Bool} (hname : first <+: file)
    (habs : isAbsoluteFileName first = isAbsoluteFileName file) (hancestors : ancestors file = comps first :: ancestors first)
    (h : Removes first calls returned) : Removes file (⟨first, false, false⟩ :: calls) returned := by
  refine ⟨?_, ?_, ?_, ?_, ?_⟩
  · intro c hc
    rcases List.mem_cons.mp hc with rfl | hc
    · exact ⟨hname, habs⟩
    · exact ⟨(h.names c hc).1.trans hname, (h.names c hc).2.trans habs⟩
  · rw [hancestors, List.map_cons]
    exact (List.prefix_cons_inj _).mpr h.order
  · intro c hc
    cases calls with
    | nil => exact absurd hc List.not_mem_nil
    | cons d calls =>
      rcases List.mem_cons.mp hc with rfl | hc
      · rfl
      · exact h.stops c hc
  · intro hall
    rw [hancestors, List.map_cons, h.goesOn fun c hc => hall c (List.mem_cons_of_mem _ hc)]
  · rw [h.returned_iff]
    simp

/-- The removal of the first ancestor fails. -/
theorem Removes.fail {file first : List Byte} {ignorable : Bool} (hname : first <+: file)
    (habs : isAbsoluteFileName first = isAbsoluteFileName file) (hancestors : ancestors file = comps first :: ancestors first) :
    Removes file [⟨first, true, ignorable⟩] ignorable := by
  refine ⟨?_, ?_, ?_, ?_, ?_⟩
  · intro c hc
    cases List.mem_singleton.mp hc
    exact ⟨hname, habs⟩
  · rw [hancestors]
    exact (List.prefix_cons_inj _).mpr (List.nil_prefix)
  · exact fun c hc => absurd hc List.not_mem_nil
  · exact fun hall => absurd (hall _ List.mem_cons_self) (by simp)
  · simp

theorem Removes.nil {file : List Byte} (h : ancestors file = []) : Removes file [] true := by
  refine ⟨?_, ?_, ?_, ?_, ?_⟩
  · exact fun c hc => absurd hc List.not_mem_nil
  · exact List.nil_prefix
  · exact fun c hc => absurd hc List.not_mem_nil
  · exact fun _ => h.symm
  · simp

variable {sys}

/-- With the root staying, the loop ends, and it removes the ancestors of a name that is not the root. -/
theorem removeParentLoop_spec (hroot : ∀ name s, IsRoot name → (sys.rmdir name s).1 ≠ none) {fuel : ℕ} {pre comp : List Byte}
    {file : List Byte} (h : Parts file pre comp 0) (hfuel : file.length < fuel) (s : σ) :
    ∃ returned calls s', removeParentLoop sys ignoreFailOnNonEmpty fuel file s = some ((returned, calls), s') ∧
      Removes file calls returned := by
  induction fuel generalizing file pre comp s with
  | zero => exact absurd hfuel (Nat.not_lt_zero _)
  | succ fuel ih =>
    have hfile : file = pre ++ comp := by simpa using h.eq
    rcases h.pre with rfl | ⟨x, rfl⟩
    · rw [List.nil_append] at hfile
      have hno : slash ∉ file := hfile ▸ h.noSlash
      exact ⟨true, [], s, by simp only [removeParentLoop, strrchr_notMem hno], .nil (ancestors_name hno)⟩
    · have hcut : file = x ++ slash :: comp := by simpa using hfile
      have hstrrchr : strrchr slash file = some x.length := hcut ▸ strrchr_append h.noSlash x
      have htake : file.take (skipSlashes file x.length + 1) = stripped (x ++ [slash]) := hcut ▸ take_skipSlashes x comp
      have hname : stripped (x ++ [slash]) <+: file := htake ▸ List.take_prefix _ _
      have habs : isAbsoluteFileName (stripped (x ++ [slash])) = isAbsoluteFileName file := by
        rw [absolute_stripped, hcut, isAbsoluteFileName, isAbsoluteFileName]
        cases x <;> rfl
      have hancestors : ancestors file = comps (stripped (x ++ [slash])) :: ancestors (stripped (x ++ [slash])) :=
        hcut ▸ ancestors_cons h.ne h.noSlash
      have hshort : (stripped (x ++ [slash])).length < fuel := by
        have hle : (stripped (x ++ [slash])).length ≤ (x ++ [slash]).length := List.length_take_le' _ _
        have hcomp := List.length_pos_iff.mpr h.ne
        have hlen := congrArg List.length hcut
        simp only [List.length_append, List.length_cons, List.length_nil] at hle hlen
        omega
      simp only [removeParentLoop, hstrrchr, htake]
      cases hrmdir : sys.rmdir (stripped (x ++ [slash])) s with
      | mk failure s' =>
        cases failure with
        | some e => exact ⟨_, _, _, rfl, .fail hname habs hancestors⟩
        | none =>
          -- what has been removed is not the root
          have hnotRoot : ¬IsRoot (stripped (x ++ [slash])) := fun hr => hroot _ s hr (by rw [hrmdir])
          obtain ⟨pre', comp', k, hparts⟩ : ∃ pre' comp' k, Parts (x ++ [slash]) pre' comp' k := by
            rcases exists_parts (x ++ [slash]) with ⟨k, hk⟩ | hparts
            · obtain _ | k := k
              · exact absurd hk (by simp)
              · refine absurd ?_ hnotRoot
                rw [hk, stripped, strip_replicate, Nat.min_eq_right (by omega)]
                exact ⟨by simp, by simp⟩
            · exact hparts
          have hstrip : stripped (x ++ [slash]) = pre' ++ comp' := hparts.strip
          obtain ⟨returned, calls, s'', hloop, hcalls⟩ := ih (hstrip ▸ hparts.pre_comp) hshort s'
          exact ⟨returned, ⟨_, false, false⟩ :: calls, s'', by simp only [hloop, Option.map_some], hcalls.cons hname habs hancestors⟩

/-- `remove_parent` for a name that is not the root. -/
theorem removeParent_spec (hroot : ∀ name s, IsRoot name → (sys.rmdir name s).1 ≠ none) {fuel : ℕ} {file : List Byte}
    (hfile : ¬IsRoot file) (hfuel : file.length < fuel) (s : σ) :
    ∃ returned calls s', removeParent sys ignoreFailOnNonEmpty fuel file s = some ((returned, calls), s') ∧
      Removes file calls returned := by
  rcases exists_parts file with ⟨k, rfl⟩ | ⟨pre, comp, k, h⟩
  · obtain _ | k := k
    · obtain _ | fuel := fuel
      · exact absurd hfuel (Nat.not_lt_zero _)
      · exact ⟨true, [], s, rfl, .nil rfl⟩
    · exact absurd ⟨by simp, by simp⟩ hfile
  · have hstrip : stripped file = pre ++ comp := h.strip
    have hlen : (stripped file).length ≤ file.length := List.length_take_le' _ _
    obtain ⟨returned, calls, s', hloop, hcalls⟩ :=
      removeParentLoop_spec ignoreFailOnNonEmpty hroot (hstrip ▸ h.pre_comp) (hlen.trans_lt hfuel) s
    refine ⟨returned, calls, s', hloop, ?_⟩
    have hprefix : stripped file <+: file := List.take_prefix _ _
    have hancestors : ancestors (stripped file) = ancestors file := by
      rw [ancestors, ancestors, comps_stripped, absolute_stripped]
    exact ⟨fun c hc => ⟨(hcalls.names c hc).1.trans hprefix, (hcalls.names c hc).2.trans (absolute_stripped file)⟩,
      hancestors ▸ hcalls.order, hcalls.stops, hancestors ▸ hcalls.goesOn, hcalls.returned_iff⟩

/-- `rmdir -p` of any operand, with the root staying: it ends; if the operand is not removed, nothing else is tried; and if it is,
`remove_parent` removes its ancestors. -/
theorem rmdirOperand_spec (hroot : ∀ name s, IsRoot name → (sys.rmdir name s).1 ≠ none) {fuel : ℕ} (file : List Byte)
    (hfuel : file.length < fuel) (s : σ) :
    ∃ returned first calls s', rmdirOperand sys ignoreFailOnNonEmpty true fuel file s = some ((returned, first :: calls), s') ∧
      first.name = file ∧ (first.failed = true → calls = [] ∧ returned = first.ignorable) ∧
      (first.failed = false → Removes file calls returned) := by
  unfold rmdirOperand
  cases hrmdir : sys.rmdir file s with
  | mk failure s' =>
    cases failure with
    | some e => exact ⟨_, _, [], _, rfl, rfl, fun _ => ⟨rfl, rfl⟩, fun h => absurd h (by simp)⟩
    | none =>
      have hfile : ¬IsRoot file := fun hr => hroot _ s hr (by rw [hrmdir])
      obtain ⟨returned, calls, s'', heq, hcalls⟩ := removeParent_spec ignoreFailOnNonEmpty hroot hfile hfuel s'
      exact ⟨returned, ⟨file, false, false⟩, calls, s'', by simp only [heq, if_true, Option.map_some], rfl,
        fun h => absurd h (by simp), fun _ => hcalls⟩

variable (sys)

end

/-- A system where all directories but the root are removed. -/
def emptying : System Unit := ⟨fun name s => (if name.all (· = slash) then some .ebusy else none, s), fun _ s => (false, s)⟩

example : removeParent emptying false 7 [slash, slash, 97, slash, 98, slash] () =
    some ((false, [⟨[slash, slash, 97], false, false⟩, ⟨[slash], true, false⟩]), ()) := by decide

end CodingExercises.Coreutils.Rmdir
