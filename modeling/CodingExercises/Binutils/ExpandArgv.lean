import Mathlib.Data.Set.Finite.List
import CodingExercises.Binutils.ArgvTokens
import CodingExercises.Lib.Worklist

/-!
# binutils: response files

`expandargv` of `libs/argv.c`: an argument `@file` is replaced with the arguments in the file, which are then looked at in
their turn. Memory is never exhausted.

- A file that names itself is replaced for ever (`not_expandargv_self`); nothing counts or limits the replacements.
- If no file behind the arguments reaches itself, `expandargv` comes to an end (`expandargv_terminates`); and when it comes
  to an end with all arguments worked off, none does (`not_cyclic_of_expandargv`).
-/

namespace CodingExercises.Binutils

open CodingExercises.Lib

/-- The response files that can be read: their names and contents. -/
abbrev Files := List (List Byte × List Byte)

def atSign : Byte := 64

/-- The file that an argument names. -/
def responseFile (files : Files) : List Byte → Option (List Byte)
  | c :: filename => if c = atSign then files.lookup filename else none
  | [] => none

/-- The characters before the first `NUL`. -/
def cString (buffer : List Byte) : List Byte := buffer.takeWhile (· ≠ 0)

/-- `*argcp`, an `int` to which `size_t`s are added. -/
def int (n : ℕ) : ℤ := (n : ℤ).bmod 4294967296

/-- `i` and `*argvp`. -/
structure Scan where
  i : ℕ
  argv : List (List Byte)

/-- A turn of the loop, or the end: with the vector, or in an access out of bounds. -/
inductive Turn
  | done (argv : List (List Byte))
  | undefined
  | next (st : Scan)

section

variable (ct : Ctype) (files : Files)

/-- The loop of `expandargv`. -/
def Scan.turn (st : Scan) : Turn :=
  let i := st.i + 1
  if (i : ℤ) < int st.argv.length then
    match st.argv[i]? with
    | none => .undefined
    | some arg =>
      match responseFile files arg with
      | none => .next { st with i }
      | some buffer =>
        match (buildargv ct (fun _ => true) (some (cString buffer))).2.strings with
        | none => .undefined
        | some file_argv =>
          let file_argc := (file_argv.takeWhile fun s => !s.isEmpty).length
          .next { i := i - 1, argv := st.argv.take i ++ file_argv.take file_argc ++ st.argv.drop (i + 1) }
  else .done st.argv

/-- The loop goes on, or has ended. -/
def Turn.goOn (loop : Scan → Option Turn) : Turn → Option Turn
  | .next st => loop st
  | .done argv => some (.done argv)
  | .undefined => some .undefined

/-- The loop with a limit to its turns. -/
def expandargvLoop : ℕ → Scan → Option Turn
  | 0, _ => none
  | n + 1, st => (st.turn ct files).goOn (expandargvLoop n)

/-- `expandargv`, within `n` turns of its loop. -/
def expandargv (n : ℕ) (argv : List (List Byte)) : Option Turn := expandargvLoop ct files n ⟨0, argv⟩

variable {ct files} in
theorem expandargvLoop_next {n : ℕ} {st st' : Scan} (h : st.turn ct files = .next st') :
    expandargvLoop ct files (n + 1) st = expandargvLoop ct files n st' := by
  rw [expandargvLoop, h, Turn.goOn]

variable {ct files} in
theorem expandargvLoop_done {n : ℕ} {st : Scan} {v : List (List Byte)} (h : st.turn ct files = .done v) :
    expandargvLoop ct files (n + 1) st = some (.done v) := by
  rw [expandargvLoop, h, Turn.goOn]

/-! ## What is inserted -/

/-- What an argument is replaced with. -/
def insertion (arg : List Byte) : Option (List (List Byte)) :=
  (responseFile files arg).map fun buffer =>
    (arguments ct unquoted (cString buffer)).takeWhile fun s => !s.isEmpty

/-- A response file behind the argument is reached from itself. -/
def Cyclic (arg : List Byte) : Prop := ReachesCycle (insertion ct files) arg

/-- `buildargv` reads each of the files in bounds. -/
def Readable : Prop := ∀ f ∈ files, argCount ct unquoted (cString f.2) < 8

variable {ct files}

theorem length_arguments (q : Quotes) (s : List Byte) : (arguments ct q s).length = argCount ct q s := by
  rw [argCount_scan]
  by_cases hrest : (scan ct q (s.dropWhile ct.isblank)).2.2.dropWhile ct.isspace = []
  · rw [arguments_last ct hrest, if_pos hrest]
    rfl
  · have hlt := length_rest_lt ct hrest
    rw [arguments_more ct hrest, if_neg hrest, List.length_cons, length_arguments, Nat.add_comm]
termination_by s.length

theorem mem_of_lookup {filename buffer : List Byte} (h : files.lookup filename = some buffer) :
    (filename, buffer) ∈ files := by
  induction files with
  | nil => cases h
  | cons f files ih =>
    obtain ⟨name, contents⟩ := f
    rw [List.lookup_cons] at h
    split at h
    case h_1 heq =>
      obtain rfl := Option.some.inj h
      rw [eq_of_beq heq]
      exact List.mem_cons_self
    case h_2 => exact List.mem_cons_of_mem _ (ih h)

theorem length_of_readable (h : Readable ct files) {arg buffer : List Byte} (hfile : responseFile files arg = some buffer) :
    (arguments ct unquoted (cString buffer)).length < 8 := by
  rw [length_arguments]
  unfold responseFile at hfile
  split at hfile
  case h_1 =>
    split at hfile
    case isTrue => exact h _ (mem_of_lookup hfile)
    case isFalse => cases hfile
  case h_2 => cases hfile

/-- A file that is read in bounds gives its arguments. -/
theorem strings_of_length {buffer : List Byte} (hcount : (arguments ct unquoted (cString buffer)).length < 8) :
    (buildargv ct (fun _ => true) (some (cString buffer))).2.strings = some (arguments ct unquoted (cString buffer)) := by
  obtain ⟨-, n, hn⟩ | hstr := buildargv_arguments ct (fun _ => true) (cString buffer)
  · cases hn
  · rwa [if_pos hcount] at hstr

theorem take_takeWhile {α : Type*} (p : α → Bool) (l : List α) : l.take (l.takeWhile p).length = l.takeWhile p := by
  induction l with
  | nil => rfl
  | cons x l ih =>
    rw [List.takeWhile_cons]
    split
    · rw [List.length_cons, List.take_succ_cons, ih]
    · rfl

/-- Only arguments that name one of the files are replaced. -/
theorem finite_insertion : {arg | (insertion ct files arg).isSome}.Finite := by
  refine ((files.map fun f => atSign :: f.1).finite_toSet).subset ?_
  intro arg harg
  simp only [Set.mem_ofPred_eq, insertion, Option.isSome_map] at harg
  obtain ⟨buffer, hbuffer⟩ := Option.isSome_iff_exists.mp harg
  unfold responseFile at hbuffer
  split at hbuffer
  case h_1 c filename =>
    split at hbuffer
    case isTrue hc =>
      subst hc
      exact List.mem_map.mpr ⟨_, mem_of_lookup hbuffer, rfl⟩
    case isFalse => cases hbuffer
  case h_2 => cases hbuffer

/-! ## The loop works off a list -/

theorem int_le (n : ℕ) : int n ≤ n := by
  unfold int
  rw [Int.bmod_def]
  split <;> omega

theorem int_of_lt {n : ℕ} (h : n < 2 ^ 31) : int n = n := by
  unfold int
  rw [Int.bmod_def]
  split <;> omega

/-- Inside of the vector. -/
theorem turn_lt {st : Scan} (h : ((st.i + 1 : ℕ) : ℤ) < int st.argv.length) :
    ∃ arg todo, st.argv.drop (st.i + 1) = arg :: todo ∧ st.argv[st.i + 1]? = some arg ∧
      todo = st.argv.drop (st.i + 2) := by
  have hlt : st.i + 1 < st.argv.length := by
    have := int_le st.argv.length
    omega
  exact ⟨st.argv.get ⟨st.i + 1, hlt⟩, _, List.drop_eq_getElem_cons hlt, List.getElem?_eq_getElem hlt, rfl⟩

theorem turn_end {st : Scan} (h : ¬((st.i + 1 : ℕ) : ℤ) < int st.argv.length) : st.turn ct files = .done st.argv := by
  simp only [Scan.turn]
  exact if_neg h

/-- A turn over an argument that names no file. -/
theorem turn_skip {st : Scan} {arg : List Byte} (hlt : ((st.i + 1 : ℕ) : ℤ) < int st.argv.length)
    (harg : st.argv[st.i + 1]? = some arg) (hfile : responseFile files arg = none) :
    st.turn ct files = .next ⟨st.i + 1, st.argv⟩ := by
  simp only [Scan.turn]
  rw [if_pos hlt, harg]
  simp only [hfile]

theorem turn_plain {st : Scan} {arg : List Byte} {todo : List (List Byte)}
    (hlt : ((st.i + 1 : ℕ) : ℤ) < int st.argv.length) (hdrop : st.argv.drop (st.i + 1) = arg :: todo)
    (hplain : insertion ct files arg = none) :
    ∃ st', st.turn ct files = .next st' ∧ st'.argv.drop (st'.i + 1) = todo := by
  obtain ⟨arg', todo', hdrop', harg, rfl⟩ := turn_lt hlt
  rw [hdrop'] at hdrop
  cases hdrop
  exact ⟨_, turn_skip hlt harg (Option.map_eq_none_iff.mp hplain), rfl⟩

/-- The vector after a turn over an argument that names a file. -/
theorem turn_read {st : Scan} {arg buffer : List Byte} (hlt : ((st.i + 1 : ℕ) : ℤ) < int st.argv.length)
    (harg : st.argv[st.i + 1]? = some arg) (hfile : responseFile files arg = some buffer)
    (hcount : (arguments ct unquoted (cString buffer)).length < 8) :
    st.turn ct files = .next ⟨st.i, st.argv.take (st.i + 1) ++
      ((arguments ct unquoted (cString buffer)).takeWhile fun s => !s.isEmpty) ++ st.argv.drop (st.i + 2)⟩ := by
  simp only [Scan.turn]
  rw [if_pos hlt, harg]
  simp only [hfile, strings_of_length hcount, take_takeWhile]
  rfl

theorem turn_file (hread : Readable ct files) {st : Scan} {arg : List Byte} {l : List (List Byte)}
    (hlt : ((st.i + 1 : ℕ) : ℤ) < int st.argv.length) (harg : st.argv[st.i + 1]? = some arg)
    (hins : insertion ct files arg = some l) :
    st.turn ct files = .next ⟨st.i, st.argv.take (st.i + 1) ++ l ++ st.argv.drop (st.i + 2)⟩ := by
  obtain ⟨buffer, hfile, rfl⟩ := Option.map_eq_some_iff.mp hins
  exact turn_read hlt harg hfile (length_of_readable hread hfile)

/-- A turn over an argument that names a file. -/
theorem turn_replaced (hread : Readable ct files) {st : Scan} {arg : List Byte} {l todo : List (List Byte)}
    (hlt : ((st.i + 1 : ℕ) : ℤ) < int st.argv.length) (hdrop : st.argv.drop (st.i + 1) = arg :: todo)
    (hins : insertion ct files arg = some l) :
    ∃ st', st.turn ct files = .next st' ∧ st'.argv.drop (st'.i + 1) = l ++ todo := by
  obtain ⟨arg', todo', hdrop', harg, rfl⟩ := turn_lt hlt
  rw [hdrop'] at hdrop
  cases hdrop
  have hle : st.i + 1 ≤ st.argv.length := by
    have := int_le st.argv.length
    omega
  have htake : (st.argv.take (st.i + 1)).length = st.i + 1 := List.length_take_of_le hle
  refine ⟨_, turn_file hread hlt harg hins, ?_⟩
  rw [List.append_assoc, List.drop_left' htake]

/-- A list that drains is worked off. -/
theorem expandargvLoop_of_drains (hread : Readable ct files) {todo : List (List Byte)}
    (h : Drains (insertion ct files) todo) :
    ∀ st : Scan, st.argv.drop (st.i + 1) = todo → ∃ n v, expandargvLoop ct files n st = some (.done v) := by
  induction h with
  | nil =>
    intro st hst
    have hle := List.drop_eq_nil_iff.mp hst
    have hint := int_le st.argv.length
    have hend : ¬((st.i + 1 : ℕ) : ℤ) < int st.argv.length := by omega
    exact ⟨1, st.argv, expandargvLoop_done (turn_end hend)⟩
  | plain hexp _ ih =>
    intro st hst
    by_cases hlt : ((st.i + 1 : ℕ) : ℤ) < int st.argv.length
    · obtain ⟨st', hturn, hst'⟩ := turn_plain hlt hst hexp
      obtain ⟨n, v, hn⟩ := ih st' hst'
      exact ⟨n + 1, v, by rwa [expandargvLoop_next hturn]⟩
    · exact ⟨1, st.argv, expandargvLoop_done (turn_end hlt)⟩
  | replaced hexp _ ih =>
    intro st hst
    by_cases hlt : ((st.i + 1 : ℕ) : ℤ) < int st.argv.length
    · obtain ⟨st', hturn, hst'⟩ := turn_replaced hread hlt hst hexp
      obtain ⟨n, v, hn⟩ := ih st' hst'
      exact ⟨n + 1, v, by rwa [expandargvLoop_next hturn]⟩
    · exact ⟨1, st.argv, expandargvLoop_done (turn_end hlt)⟩

/-- What was worked off to its end drains. -/
theorem drains_of_expandargvLoop (hread : Readable ct files) {n : ℕ} {st : Scan} {v : List (List Byte)}
    (h : expandargvLoop ct files n st = some (.done v)) (hv : v.length < 2 ^ 31) :
    Drains (insertion ct files) (st.argv.drop (st.i + 1)) := by
  induction n generalizing st with
  | zero => cases h
  | succ n ih =>
    by_cases hlt : ((st.i + 1 : ℕ) : ℤ) < int st.argv.length
    · obtain ⟨arg, todo, hdrop, -, -⟩ := turn_lt hlt
      rw [hdrop]
      cases hins : insertion ct files arg with
      | none =>
        obtain ⟨st', hturn, hst'⟩ := turn_plain hlt hdrop hins
        rw [expandargvLoop_next hturn] at h
        exact .plain hins (hst' ▸ ih h)
      | some l =>
        obtain ⟨st', hturn, hst'⟩ := turn_replaced hread hlt hdrop hins
        rw [expandargvLoop_next hturn] at h
        exact .replaced hins (hst' ▸ ih h)
    · rw [expandargvLoop_done (turn_end hlt)] at h
      cases h
      rw [int_of_lt hv] at hlt
      rw [List.drop_eq_nil_of_le (by omega)]
      exact .nil

end

/-! ## Termination -/

/-- Without a file that reaches itself `expandargv` comes to an end. -/
theorem expandargv_terminates {ct : Ctype} {files : Files} {argv : List (List Byte)} (hread : Readable ct files)
    (hacyclic : ∀ arg ∈ argv.drop 1, ¬Cyclic ct files arg) :
    ∃ n v, expandargv ct files n argv = some (.done v) := by
  have hdrains : Drains (insertion ct files) (argv.drop 1) :=
    drains_iff.mpr fun arg harg => acc_of_not_reachesCycle finite_insertion (hacyclic arg harg)
  exact expandargvLoop_of_drains hread hdrains ⟨0, argv⟩ rfl

/-- When `expandargv` has come to an end, and the number of arguments is an `int`, no file reaches itself. -/
theorem not_cyclic_of_expandargv {ct : Ctype} {files : Files} {argv v : List (List Byte)} {n : ℕ}
    (hread : Readable ct files) (h : expandargv ct files n argv = some (.done v)) (hv : v.length < 2 ^ 31) :
    ∀ arg ∈ argv.drop 1, ¬Cyclic ct files arg := by
  intro arg harg
  exact not_reachesCycle_of_acc (drains_iff.mp (drains_of_expandargvLoop hread h hv) arg harg)

theorem insertion_of_file {ct : Ctype} {files : Files} {arg buffer : List Byte} {l : List (List Byte)}
    (hfile : responseFile files arg = some buffer) (hargs : arguments ct unquoted (cString buffer) = l) :
    insertion ct files arg = some (l.takeWhile fun s => !s.isEmpty) := by
  rw [insertion, hfile, Option.map_some, hargs]

/-- The file `a` names another one, `b`, which has one plain argument. -/
theorem expandargv_two_files :
    ∃ n v, expandargv cLocale [([97], [64, 98]), ([98], [120])] n [[112], [64, 97]] = some (.done v) := by
  have hread : Readable cLocale [([97], [64, 98]), ([98], [120])] := by
    unfold Readable
    decide
  have ha : arguments cLocale unquoted [64, 98] = [[64, 98]] := arguments_last cLocale (by decide)
  have hb : arguments cLocale unquoted [120] = [[120]] := arguments_last cLocale (by decide)
  have hdrains : Drains (insertion cLocale [([97], [64, 98]), ([98], [120])]) [[64, 97]] :=
    .replaced (insertion_of_file rfl ha) (.replaced (insertion_of_file rfl hb) (.plain rfl .nil))
  refine expandargv_terminates hread ?_
  intro arg harg
  exact not_reachesCycle_of_acc (drains_iff.mp hdrains _ harg)

/-- A turn that changes nothing is made for ever. -/
theorem expandargvLoop_stays {ct : Ctype} {files : Files} {st : Scan} (h : st.turn ct files = .next st) (n : ℕ) :
    expandargvLoop ct files n st = none := by
  induction n with
  | zero => rfl
  | succ n ih => rw [expandargvLoop_next h, ih]

/-- The file `a` names itself. -/
theorem not_expandargv_self :
    ¬∀ (ct : Ctype) (files : Files) (argv : List (List Byte)), Readable ct files →
      ∃ n v, expandargv ct files n argv = some (.done v) := by
  intro h
  have hread : Readable cLocale [([97], [64, 97])] := by
    unfold Readable
    decide
  have hargs : arguments cLocale unquoted [64, 97] = [[64, 97]] := arguments_last cLocale (by decide)
  have hlt : ((0 + 1 : ℕ) : ℤ) < int ([[112], [64, 97]] : List (List Byte)).length := by
    rw [int_of_lt (by decide)]
    decide
  have hturn : Scan.turn cLocale [([97], [64, 97])] ⟨0, [[112], [64, 97]]⟩ = .next ⟨0, [[112], [64, 97]]⟩ :=
    @turn_file _ _ hread ⟨0, [[112], [64, 97]]⟩ _ _ hlt rfl (insertion_of_file rfl hargs)
  obtain ⟨n, v, hn⟩ := h cLocale _ [[112], [64, 97]] hread
  rw [expandargv, expandargvLoop_stays hturn] at hn
  cases hn

end CodingExercises.Binutils
