import Mathlib.Data.FinEnum
import Mathlib.Data.List.TakeWhile
import CodingExercises.Lib.Cells
import CodingExercises.Binutils.ExpandArgv

/-!
# binutils: the vector of response files

`expandargv` and `dupargv` of `libs/argv.c` once more, with the memory of the vector: its elements, the copy that is made of it,
and the moves of elements by which the arguments of a file are put in. Memory is never exhausted.

- Each turn does what the turn of `Scan` does with the list of the arguments, and the `NULL` stays behind them (`turn_refines`);
- in the count of a file's arguments an empty one is taken for the end, so it is lost with all behind it (`right_iff`).
-/

namespace CodingExercises.Binutils.ResponseFiles

open CodingExercises.Lib

/-- Why there is no result: what is done is undefined, or `xexit` is called. -/
inductive Stop
  | undefined
  | outOfMemory
deriving DecidableEq

/-- `*argcp` and `*argvp`. -/
structure ArgVector where
  argc : ℤ
  argv : List Slot
deriving DecidableEq

/-- The vector of a list of arguments. -/
def ArgVector.ofList (argv : List (List Byte)) : ArgVector := ⟨argv.length, argv.map .arg ++ [.null]⟩

/-- The copy of a string in `dupargv`, where its length is an `int`. -/
def dupString (s : List Byte) : Except Stop (List Byte) :=
  let len := int s.length
  if len + 1 = 2 ^ 31 then .error .undefined
  else if len + 1 < 0 then .error .outOfMemory
  else if s.length < len + 1 then .ok s
  else .error .undefined

/-- `dupargv`. -/
def dupargv (argv : List Slot) : Except Stop (List Slot) :=
  match strings argv with
  | none => .error .undefined
  | some args =>
    -- `argc + 1` is an `int`
    if args.length + 1 < 2 ^ 31 then (args.mapM dupString).map fun copy => copy.map .arg ++ [.null] else .error .undefined

/-- `while(file_argv[file_argc] && *file_argv[file_argc]) ++file_argc;` -/
def countArgs : List Slot → Except Stop ℕ
  | .arg (_ :: _) :: fileArgv => (countArgs fileArgv).map (· + 1)
  | .arg [] :: _ => .ok 0
  | .null :: _ => .ok 0
  | _ => .error .undefined

/-- `i` and the vector. -/
structure State where
  i : ℕ
  vec : ArgVector

section

variable (ct : Ctype) (files : Files)

/-- What `buildargv` returns for a file. -/
def fileVector (buffer : List Byte) : Except Stop (List Slot) :=
  match (buildargv ct (fun _ => true) (some (cString buffer))).2 with
  | .returned (some fileArgv) => .ok fileArgv
  | _ => .error .undefined

/-- The arguments of a file in place of the one that names it. -/
def splice (vec : ArgVector) (i : ℕ) (fileArgv : List Slot) : Except Stop ArgVector := do
  let argv ← dupargv vec.argv
  let fileArgc ← countArgs fileArgv
  let argv := resize argv (vec.argc + fileArgc + 1).toNat
  let moved ← slice .undefined argv (i + 1) (vec.argc - i).toNat
  let argv ← store .undefined argv (i + fileArgc) moved
  let argv ← store .undefined argv i (← slice .undefined fileArgv 0 fileArgc)
  return ⟨(vec.argc + fileArgc - 1).bmod (2 ^ 32), argv⟩

/-- A turn of the loop of `expandargv`, or its end. -/
def State.turn (st : State) : Except Stop (ArgVector ⊕ State) := do
  let i := st.i + 1
  if (i : ℤ) < st.vec.argc then
    match st.vec.argv[i]? with
    | some (.arg filename) =>
      match responseFile files filename with
      | none => return .inr { st with i }
      | some buffer => do
        let vec ← splice st.vec i (← fileVector ct buffer)
        return .inr ⟨i - 1, vec⟩
    | _ => .error .undefined
  else return .inl st.vec

/-- The loop with a limit to its turns. -/
def loop : ℕ → State → Option (Except Stop ArgVector)
  | 0, _ => none
  | n + 1, st =>
    match st.turn ct files with
    | .error e => some (.error e)
    | .ok (.inl vec) => some (.ok vec)
    | .ok (.inr st) => loop n st

/-- `expandargv`, within `n` turns of its loop. -/
def expandargv (n : ℕ) (argv : List (List Byte)) : Option (Except Stop ArgVector) := loop ct files n ⟨0, .ofList argv⟩

/-! ## What is right -/

/-- What an argument is to be replaced with: all the arguments of the file, none if there is but white space in it. -/
def replacement (arg : List Byte) : Option (List (List Byte)) :=
  (responseFile files arg).map fun buffer =>
    if ∀ c ∈ cString buffer, ct.isspace c = true then [] else arguments ct unquoted (cString buffer)

/-- The vector holds the arguments and `NULL`, and their number is right. -/
structure ArgVector.Is (vec : ArgVector) (argv : List (List Byte)) : Prop where
  argc : vec.argc = argv.length
  argv : ∃ spare, vec.argv = argv.map .arg ++ .null :: spare

/-- What `expandargv` has to return. -/
def Right (argv : List (List Byte)) (vec : ArgVector) : Prop :=
  ∃ n out, Expands (replacement ct files) n (argv.drop 1) out ∧ vec.Is (argv.take 1 ++ out)

/-- The file has no empty argument, unless it is white space. -/
def NoneEmpty (buffer : List Byte) : Prop :=
  (∀ c ∈ cString buffer, ct.isspace c = true) ∨ [] ∉ arguments ct unquoted (cString buffer)

/-- There are never more than `INT_MAX` arguments while the files are put in. -/
def Fits (argv : List (List Byte)) : Prop :=
  ∃ n out, Expands (replacement ct files) n (argv.drop 1) out ∧ (argv.take 1).length + n < 2 ^ 31

end

/-! ## The pieces -/

section

variable {ct : Ctype} {files : Files} {args argv : List (List Byte)} {v : List Slot}

theorem strings_eq_some (h : strings v = some args) : ∃ rest, v = args.map .arg ++ .null :: rest := by
  induction v generalizing args with
  | nil => cases h
  | cons slot v ih =>
    cases slot with
    | unset => cases h
    | null =>
      obtain rfl := Option.some.inj h
      exact ⟨v, rfl⟩
    | arg s =>
      obtain ⟨args', hargs, rfl⟩ := Option.map_eq_some_iff.mp h
      obtain ⟨rest, rfl⟩ := ih hargs
      exact ⟨rest, rfl⟩

theorem dupString_ok {s copy : List Byte} (h : dupString s = .ok copy) : copy = s := by
  unfold dupString at h
  dsimp only at h
  split at h
  · cases h
  split at h
  · cases h
  split at h
  · exact (Except.ok.inj h).symm
  · cases h

/-- A copy that is made is one of the arguments and `NULL`. -/
theorem dupargv_ok {copy : List Slot} (hv : strings v = some args) (h : dupargv v = .ok copy) :
    copy = args.map .arg ++ [.null] := by
  have hmap : ∀ {args copy : List (List Byte)}, args.mapM dupString = .ok copy → copy = args := by
    intro args
    induction args with
    | nil => exact fun h => (Except.ok.inj h).symm
    | cons s args ih =>
      intro copy h
      rw [List.mapM_cons] at h
      rcases hs : dupString s with e | s'
      · rw [hs] at h
        cases h
      rcases hargs : args.mapM dupString with e | args'
      · rw [hs, hargs] at h
        cases h
      · rw [hs, hargs] at h
        rw [← Except.ok.inj h, dupString_ok hs, ih hargs]
  rw [dupargv, hv] at h
  dsimp only at h
  split at h
  · rcases hcopy : args.mapM dupString with e | args'
    · rw [hcopy] at h
      cases h
    · rw [hcopy, hmap hcopy] at h
      exact (Except.ok.inj h).symm
  · cases h

theorem countArgs_eq (args : List (List Byte)) (rest : List Slot) :
    countArgs (args.map .arg ++ .null :: rest) = .ok (args.takeWhile fun s => !s.isEmpty).length := by
  induction args with
  | nil => rfl
  | cons s args ih =>
    cases s with
    | nil => rfl
    | cons c s =>
      rw [List.map_cons, List.cons_append, countArgs, ih]
      rfl

/-- The vector of a file that is read holds the arguments in the file, fewer than eight. -/
theorem fileVector_ok {buffer : List Byte} {fileArgv : List Slot} (h : fileVector ct buffer = .ok fileArgv) :
    strings fileArgv = some (arguments ct unquoted (cString buffer)) ∧ (arguments ct unquoted (cString buffer)).length < 8 := by
  unfold fileVector at h
  obtain ⟨-, n, hn⟩ | hout := buildargv_outcome ct (fun _ => true) (cString buffer)
  · cases hn
  by_cases hlt : (arguments ct unquoted (cString buffer)).length < 8
  · rw [if_pos hlt] at hout
    obtain ⟨v, hv, hstr⟩ := hout
    rw [hv] at h
    obtain rfl := Except.ok.inj h
    exact ⟨hstr, hlt⟩
  · rw [if_neg hlt] at hout
    rw [hout] at h
    cases h

/-! ## The splice -/

/-- The vector is the one that `Scan` has. -/
structure ArgVector.Represents (vec : ArgVector) (argv : List (List Byte)) : Prop where
  argc : vec.argc = int argv.length
  argv : ∃ spare, vec.argv = argv.map .arg ++ .null :: spare

/-- The elements behind the argument make room for those of the file, or close up; an element is left over. -/
theorem moves_ok (pre behind file : List Slot) (x : Slot) :
    ∃ argv last, slice Stop.undefined (resize (pre ++ x :: behind) (pre.length + behind.length + file.length + 1))
        (pre.length + 1) behind.length = .ok behind ∧
      store Stop.undefined (resize (pre ++ x :: behind) (pre.length + behind.length + file.length + 1))
        (pre.length + file.length) behind = .ok argv ∧
      store Stop.undefined argv pre.length file = .ok (pre ++ file ++ (behind ++ last)) := by
  generalize hcells : x :: behind ++ List.replicate file.length Slot.unset = cells
  have hlength : cells.length = file.length + (behind.length + 1) := by
    rw [← hcells, List.length_append, List.length_cons, List.length_replicate]
    omega
  have hresize : resize (pre ++ x :: behind) (pre.length + behind.length + file.length + 1) = pre ++ cells := by
    have hold : (pre ++ x :: behind).length = pre.length + (behind.length + 1) := List.length_append
    rw [resize, List.take_of_length_le (by omega), hold, ← hcells, List.append_assoc]
    congr 3
    omega
  obtain ⟨room, old, last, rfl, hroom, hold⟩ :
      ∃ room old last, cells = room ++ (old ++ last) ∧ room.length = file.length ∧ old.length = behind.length := by
    refine ⟨cells.take file.length, (cells.drop file.length).take behind.length, (cells.drop file.length).drop behind.length,
      ?_, ?_, ?_⟩
    · rw [List.take_append_drop, List.take_append_drop]
    all_goals
      simp only [List.length_take, List.length_drop]
      omega
  have hmoved := slice_mid Stop.undefined (pre ++ [x]) behind (List.replicate file.length Slot.unset)
  have hbehind := store_mid Stop.undefined (pre ++ room) old last behind hold
  have hfront := store_mid Stop.undefined pre room (behind ++ last) file hroom
  rw [List.length_append, List.length_singleton, List.append_assoc, List.singleton_append, ← List.cons_append, hcells] at hmoved
  rw [List.length_append, hroom, List.append_assoc] at hbehind
  rw [List.append_assoc, List.append_assoc] at hbehind
  exact ⟨_, last, hresize ▸ hmoved, hresize ▸ hbehind, hfront⟩

/-- The arguments of the file up to an empty one come in the place of the one that names it. -/
theorem splice_copied {vec : ArgVector} {fileArgv : List Slot} {x : List Byte} {pre post : List (List Byte)}
    (h : vec.Represents (pre ++ x :: post)) (hlt : (pre ++ x :: post).length < 2 ^ 31) (hargs : strings fileArgv = some args)
    (hcopy : dupargv vec.argv = .ok ((pre ++ x :: post).map .arg ++ [.null])) :
    ∃ vec', splice vec pre.length fileArgv = .ok vec' ∧ vec'.Represents (pre ++ (args.takeWhile fun s => !s.isEmpty) ++ post) := by
  obtain ⟨rest, rfl⟩ := strings_eq_some hargs
  have hcount := countArgs_eq args rest
  have hfile : slice Stop.undefined (args.map Slot.arg ++ Slot.null :: rest) 0 (args.takeWhile fun s => !s.isEmpty).length =
      .ok ((args.takeWhile fun s => !s.isEmpty).map .arg) := by
    have hmid := slice_mid Stop.undefined [] ((args.takeWhile fun s => !s.isEmpty).map Slot.arg)
      ((args.dropWhile fun s => !s.isEmpty).map .arg ++ .null :: rest)
    rwa [List.nil_append, ← List.append_assoc, ← List.map_append, List.takeWhile_append_dropWhile, List.length_map] at hmid
  generalize (args.takeWhile fun s => !s.isEmpty) = l at hcount hfile ⊢
  have hlength : (pre ++ x :: post).length = pre.length + (post.length + 1) := List.length_append
  have hargc : vec.argc = pre.length + (post.length + 1) := by
    rw [h.argc, int_of_lt hlt]
    omega
  have hmap : (pre ++ x :: post).map Slot.arg ++ [.null] = pre.map .arg ++ .arg x :: (post.map .arg ++ [.null]) := by
    rw [List.map_append, List.map_cons, List.append_assoc, List.cons_append]
  have hbehind : (post.map Slot.arg ++ [Slot.null]).length = post.length + 1 := by
    rw [List.length_append, List.length_map, List.length_singleton]
  obtain ⟨argv, last, hmoved, hroom, hput⟩ := moves_ok (pre.map .arg) (post.map .arg ++ [.null]) (l.map .arg) (.arg x)
  have hsize : (vec.argc + l.length + 1).toNat = pre.length + (post.length + 1) + l.length + 1 := by omega
  have hnumber : (vec.argc - pre.length).toNat = post.length + 1 := by omega
  rw [List.length_map, List.length_map, hbehind, ← hmap] at hmoved hroom
  rw [List.length_map] at hput
  refine ⟨⟨(vec.argc + l.length - 1).bmod (2 ^ 32), pre.map .arg ++ l.map .arg ++ (post.map .arg ++ [.null] ++ last)⟩, ?_, ?_, ?_⟩
  · rw [splice, hcopy, hcount]
    simp only [bind, Except.bind, hsize, hnumber, hmoved, hroom, hfile, hput]
    rfl
  · have hsum : vec.argc + l.length - 1 = (pre ++ l ++ post).length := by
      rw [hargc]
      simp only [List.length_append]
      omega
    exact congrArg (Int.bmod · (2 ^ 32)) hsum
  · refine ⟨last, ?_⟩
    simp only [List.map_append, List.append_assoc, List.singleton_append]

/-! ## The turns refine those of `Scan` -/

/-- What is put in was copied. -/
theorem splice_ok {vec vec' : ArgVector} {fileArgv : List Slot} {i : ℕ} (h : splice vec i fileArgv = .ok vec') :
    ∃ copy, dupargv vec.argv = .ok copy := by
  rcases hcopy : dupargv vec.argv with e | copy
  · rw [splice, hcopy] at h
    cases h
  · exact ⟨copy, rfl⟩

/-- More arguments than these are never there: a file has fewer than eight, and the loop ends behind `INT_MAX`. -/
def limit : ℕ := 2 ^ 31 + 8

theorem int_limit {n i : ℕ} (hn : n < limit) (h : (i : ℤ) < int n) : n < 2 ^ 31 := by
  unfold limit at hn
  unfold int at h
  rw [Int.bmod_def] at h
  split at h <;> omega

theorem turn_refines {st : State} {r : ArgVector ⊕ State} (h : st.vec.Represents argv) (hlimit : argv.length < limit)
    (hturn : st.turn ct files = .ok r) :
    r = .inl st.vec ∧ Scan.turn ct files ⟨st.i, argv⟩ = .done argv ∨
      ∃ st' argv', r = .inr st' ∧ Scan.turn ct files ⟨st.i, argv⟩ = .next ⟨st'.i, argv'⟩ ∧ st'.vec.Represents argv' ∧
        argv'.length < limit := by
  unfold State.turn at hturn
  dsimp only at hturn
  rw [h.argc] at hturn
  by_cases hlt : ((st.i + 1 : ℕ) : ℤ) < int argv.length
  · rw [if_pos hlt] at hturn
    have hmax := int_limit hlimit hlt
    obtain ⟨arg, -, hdrop, harg, rfl⟩ := @turn_lt ⟨st.i, argv⟩ hlt
    obtain ⟨spare, hargv⟩ := h.argv
    have hi : st.i + 1 < argv.length := by
      rw [int_of_lt hmax] at hlt
      omega
    have hslot : st.vec.argv[st.i + 1]? = some (.arg arg) := by
      rw [hargv, List.getElem?_append_left (by rwa [List.length_map]), List.getElem?_map]
      exact congrArg (Option.map Slot.arg) harg
    rw [hslot] at hturn
    dsimp only at hturn
    rcases hfile : responseFile files arg with _ | buffer
    · rw [hfile] at hturn
      obtain rfl := Except.ok.inj hturn
      exact .inr ⟨_, argv, rfl, turn_skip hlt harg hfile, h, hlimit⟩
    rw [hfile] at hturn
    rcases hvector : fileVector ct buffer with e | fileArgv
    · simp only [hvector] at hturn
      cases hturn
    rcases hsplice : splice st.vec (st.i + 1) fileArgv with e | vec'
    · simp only [hvector, bind, Except.bind, hsplice] at hturn
      cases hturn
    obtain ⟨hstrings, hcount⟩ := fileVector_ok hvector
    obtain ⟨copy, hcopy⟩ := splice_ok hsplice
    have hsplit : argv.take (st.i + 1) ++ arg :: argv.drop (st.i + 2) = argv := by
      rw [← hdrop, List.take_append_drop]
    have htake : (argv.take (st.i + 1)).length = st.i + 1 := List.length_take_of_le hi.le
    have hall : strings st.vec.argv = some argv := by rw [hargv, strings_args]
    rw [dupargv_ok hall hcopy] at hcopy
    rw [← hsplit] at h hmax hcopy
    obtain ⟨vec, hvec, hrep⟩ := splice_copied h hmax hstrings hcopy
    rw [htake, hsplice] at hvec
    obtain rfl := Except.ok.inj hvec
    simp only [hvector, bind, Except.bind, hsplice] at hturn
    obtain rfl := Except.ok.inj hturn
    refine .inr ⟨_, _, rfl, turn_read hlt harg hfile hcount, hrep, ?_⟩
    have htaken := (List.takeWhile_prefix (fun s => !s.isEmpty) (l := arguments ct unquoted (cString buffer))).length_le
    rw [List.length_append, List.length_cons] at hmax
    unfold limit
    simp only [List.length_append]
    omega
  · rw [if_neg hlt] at hturn
    exact .inl ⟨(Except.ok.inj hturn).symm, turn_end hlt⟩

/-- What the loop returns is what the loop over the list has come to. -/
theorem loop_refines {n : ℕ} {st : State} {vec : ArgVector} (h : st.vec.Represents argv) (hlimit : argv.length < limit)
    (hrun : loop ct files n st = some (.ok vec)) :
    ∃ v, expandargvLoop ct files n ⟨st.i, argv⟩ = some (.done v) ∧ vec.Represents v := by
  induction n generalizing st argv with
  | zero => cases hrun
  | succ n ih =>
    rw [loop] at hrun
    rcases hturn : st.turn ct files with e | r
    · rw [hturn] at hrun
      cases hrun
    obtain ⟨rfl, hdone⟩ | ⟨st', argv', rfl, hnext, hrep, hlimit'⟩ := turn_refines h hlimit hturn
    · rw [hturn] at hrun
      obtain rfl := Except.ok.inj (Option.some.inj hrun)
      exact ⟨argv, expandargvLoop_done hdone, h⟩
    · rw [hturn] at hrun
      obtain ⟨v, hv, hvec⟩ := ih hrep hlimit' hrun
      exact ⟨v, (expandargvLoop_next hnext).trans hv, hvec⟩

/-! ## What the list has come to -/

/-- In a run that comes to an end the files have been read. -/
theorem turn_of_loop {st : Scan} {n : ℕ} {arg : List Byte} {l v : List (List Byte)}
    (hlt : ((st.i + 1 : ℕ) : ℤ) < int st.argv.length) (harg : st.argv[st.i + 1]? = some arg)
    (hins : insertion ct files arg = some l) (hrun : expandargvLoop ct files (n + 1) st = some (.done v)) :
    st.turn ct files = .next ⟨st.i, st.argv.take (st.i + 1) ++ l ++ st.argv.drop (st.i + 2)⟩ ∧ l.length < 8 := by
  obtain ⟨buffer, hfile, rfl⟩ := Option.map_eq_some_iff.mp hins
  by_cases hcount : (arguments ct unquoted (cString buffer)).length < 8
  · exact ⟨turn_read hlt harg hfile hcount, (List.takeWhile_prefix _).length_le.trans_lt hcount⟩
  · obtain ⟨-, n, hn⟩ | hout := buildargv_outcome ct (fun _ => true) (cString buffer)
    · cases hn
    have hturn : st.turn ct files = .undefined := by
      simp only [Scan.turn]
      rw [if_pos hlt, harg]
      simp only [hfile, if_neg hcount ▸ hout, Outcome.strings]
    rw [expandargvLoop, hturn] at hrun
    cases hrun

/-- The parts of the vector before and behind the argument that is looked at. -/
theorem parts_of_turn {st : Scan} {arg : List Byte} (l : List (List Byte)) (hi : st.i + 1 < st.argv.length)
    (harg : st.argv[st.i + 1]? = some arg) :
    st.argv.take (st.i + 2) = st.argv.take (st.i + 1) ++ [arg] ∧
      (st.argv.take (st.i + 1) ++ l ++ st.argv.drop (st.i + 2)).take (st.i + 1) = st.argv.take (st.i + 1) ∧
      (st.argv.take (st.i + 1) ++ l ++ st.argv.drop (st.i + 2)).drop (st.i + 1) = l ++ st.argv.drop (st.i + 2) := by
  have htake : (st.argv.take (st.i + 1)).length = st.i + 1 := List.length_take_of_le hi.le
  refine ⟨?_, ?_, ?_⟩
  · rw [List.take_add_one, harg]
    rfl
  · rw [List.append_assoc, List.take_left' htake]
  · rw [List.append_assoc, List.drop_left' htake]

/-- A run leaves behind what the list expands to, if this fits. -/
theorem loop_of_expands {p : ℕ} {todo out : List (List Byte)} (h : Expands (insertion ct files) p todo out) :
    ∀ {st : Scan} {n : ℕ} {v : List (List Byte)}, st.argv.drop (st.i + 1) = todo → (st.argv.take (st.i + 1)).length + p < 2 ^ 31 →
      expandargvLoop ct files n st = some (.done v) → v = st.argv.take (st.i + 1) ++ out := by
  have hinside : ∀ {st : Scan} {arg : List Byte} {rest : List (List Byte)} {p : ℕ}, st.argv.drop (st.i + 1) = arg :: rest →
      rest.length + 1 ≤ p → (st.argv.take (st.i + 1)).length + p < 2 ^ 31 →
      ((st.i + 1 : ℕ) : ℤ) < int st.argv.length ∧ st.i + 1 < st.argv.length := by
    intro st arg rest p hdrop hp hfits
    have hlength := congrArg List.length hdrop
    rw [List.length_drop, List.length_cons] at hlength
    rw [List.length_take] at hfits
    rw [int_of_lt (by omega)]
    omega
  induction h with
  | nil =>
    intro st n v hdrop _ hrun
    have hle := List.drop_eq_nil_iff.mp hdrop
    have hint := int_le st.argv.length
    cases n with
    | zero => cases hrun
    | succ n =>
      rw [expandargvLoop_done (turn_end (by omega))] at hrun
      cases hrun
      rw [List.take_of_length_le hle, List.append_nil]
  | @plain arg p rest out hins hrest ih =>
    intro st n v hdrop hfits hrun
    obtain ⟨hlt, hi⟩ := hinside hdrop (Nat.succ_le_succ hrest.length_todo_le) hfits
    obtain ⟨arg', rest', hdrop', harg, rfl⟩ := turn_lt hlt
    obtain ⟨rfl, rfl⟩ := List.cons.inj (hdrop.symm.trans hdrop')
    obtain ⟨htake, -, -⟩ := parts_of_turn [] hi harg
    cases n with
    | zero => cases hrun
    | succ n =>
      rw [expandargvLoop_next (turn_skip hlt harg (Option.map_eq_none_iff.mp hins))] at hrun
      have hv := @ih ⟨st.i + 1, st.argv⟩ n v rfl (by
        rw [htake, List.length_append, List.length_singleton]
        omega) hrun
      rw [hv, htake, List.append_assoc, List.singleton_append]
  | @replaced arg l p rest out hins hrest ih =>
    intro st n v hdrop hfits hrun
    obtain ⟨hlt, hi⟩ := hinside hdrop (le_max_left _ _) hfits
    obtain ⟨arg', rest', hdrop', harg, rfl⟩ := turn_lt hlt
    obtain ⟨rfl, rfl⟩ := List.cons.inj (hdrop.symm.trans hdrop')
    obtain ⟨-, htake, hrest'⟩ := parts_of_turn l hi harg
    cases n with
    | zero => cases hrun
    | succ n =>
      obtain ⟨hturn, -⟩ := turn_of_loop hlt harg hins hrun
      rw [expandargvLoop_next hturn] at hrun
      have hv := ih hrest' (by
        rw [htake]
        have := le_max_right ((st.argv.drop (st.i + 2)).length + 1) p
        omega) hrun
      rw [hv, htake]

/-- What a run has come to, if this is not too much, is what the list expands to. -/
theorem expands_of_loop {n : ℕ} {st : Scan} {v : List (List Byte)} (hrun : expandargvLoop ct files n st = some (.done v))
    (hv : v.length < 2 ^ 31) (hlimit : st.argv.length < limit) :
    ∃ p out, Expands (insertion ct files) p (st.argv.drop (st.i + 1)) out ∧ (st.argv.take (st.i + 1)).length + p < 2 ^ 31 ∧
      v = st.argv.take (st.i + 1) ++ out := by
  induction n generalizing st with
  | zero => cases hrun
  | succ n ih =>
    by_cases hlt : ((st.i + 1 : ℕ) : ℤ) < int st.argv.length
    · have hmax := int_limit hlimit hlt
      obtain ⟨arg, _, hdrop, harg, rfl⟩ := turn_lt hlt
      have hi : st.i + 1 < st.argv.length := by
        rw [int_of_lt hmax] at hlt
        omega
      rw [hdrop]
      rcases hins : insertion ct files arg with _ | l
      · rw [expandargvLoop_next (turn_skip hlt harg (Option.map_eq_none_iff.mp hins))] at hrun
        obtain ⟨p, out, hexp, hfits, rfl⟩ := ih hrun hlimit
        obtain ⟨htake, -, -⟩ := parts_of_turn [] hi harg
        refine ⟨_, _, .plain hins hexp, ?_, by rw [htake, List.append_assoc, List.singleton_append]⟩
        rw [htake, List.length_append, List.length_singleton] at hfits
        omega
      · obtain ⟨hturn, hl⟩ := turn_of_loop hlt harg hins hrun
        obtain ⟨-, htake, hrest⟩ := parts_of_turn l hi harg
        rw [expandargvLoop_next hturn] at hrun
        obtain ⟨p, out, hexp, hfits, rfl⟩ := ih hrun (by
          unfold limit
          simp only [List.length_append, List.length_take, List.length_drop]
          omega)
        rw [hrest] at hexp
        rw [htake] at hfits
        refine ⟨_, out, .replaced hins hexp, ?_, by rw [htake]⟩
        rw [List.length_take] at hfits ⊢
        rw [List.length_drop]
        omega
    · rw [expandargvLoop_done (turn_end hlt)] at hrun
      cases hrun
      rw [int_of_lt hv] at hlt
      rw [List.drop_eq_nil_of_le (by omega), List.take_of_length_le (by omega)]
      exact ⟨0, [], .nil, hv, (List.append_nil _).symm⟩

/-! ## The arguments that are lost -/

/-- White space is read as one empty argument. -/
theorem arguments_white {s : List Byte} (h : ∀ c ∈ s, ct.isspace c = true) : arguments ct unquoted s = [[]] := by
  have hscan : scan ct unquoted (s.dropWhile ct.isblank) = ([], unquoted, s.dropWhile ct.isblank) := by
    rcases hrest : s.dropWhile ct.isblank with _ | ⟨c, rest⟩
    · rfl
    · have hc : ct.isspace c = true := h c ((List.dropWhile_suffix _).subset (hrest ▸ List.mem_cons_self))
      rw [scan, hc]
      rfl
  have hend : (s.dropWhile ct.isblank).dropWhile ct.isspace = [] :=
    List.dropWhile_eq_nil_iff.mpr fun c hc => h c ((List.dropWhile_suffix _).subset hc)
  rw [arguments_last ct (by rw [hscan]; exact hend), hscan]

/-- A file is put in as it should be just if it has no empty argument, or nothing but white space. -/
theorem noneEmpty_iff (arg : List Byte) : (∀ buffer, responseFile files arg = some buffer → NoneEmpty ct buffer) ↔
    insertion ct files arg = replacement ct files arg := by
  rw [insertion, replacement]
  rcases responseFile files arg with _ | buffer
  · exact iff_of_true (fun _ h => by cases h) rfl
  · have hbuffer : (∀ b, some buffer = some b → NoneEmpty ct b) ↔ NoneEmpty ct buffer :=
      ⟨fun h => h buffer rfl, fun h b hb => Option.some.inj hb ▸ h⟩
    rw [hbuffer, NoneEmpty, Option.map_some, Option.map_some, Option.some.injEq]
    by_cases hwhite : ∀ c ∈ cString buffer, ct.isspace c = true
    · rw [if_pos hwhite, arguments_white hwhite]
      exact iff_of_true (.inl hwhite) rfl
    · rw [if_neg hwhite, or_iff_right hwhite, List.takeWhile_eq_self_iff]
      constructor
      · intro hnone s hs
        cases s with
        | nil => exact absurd hs hnone
        | cons c s => rfl
      · intro hall hmem
        cases hall [] hmem

/-- What is not put in begins with an empty argument. -/
theorem insertion_less (arg : List Byte) (l : List (List Byte)) (h : insertion ct files arg = some l) :
    ∃ r, replacement ct files arg = some (l ++ r) ∧ (r = [] ∨ ∃ y ∈ r, replacement ct files y = none) := by
  obtain ⟨buffer, hfile, rfl⟩ := Option.map_eq_some_iff.mp h
  rw [replacement, hfile, Option.map_some]
  by_cases hwhite : ∀ c ∈ cString buffer, ct.isspace c = true
  · rw [if_pos hwhite, arguments_white hwhite]
    exact ⟨[], rfl, .inl rfl⟩
  · rw [if_neg hwhite]
    refine ⟨(arguments ct unquoted (cString buffer)).dropWhile fun s => !s.isEmpty, ?_, ?_⟩
    · rw [List.takeWhile_append_dropWhile]
    · have hhead := List.head?_dropWhile_not (fun s => !s.isEmpty) (arguments ct unquoted (cString buffer))
      generalize (arguments ct unquoted (cString buffer)).dropWhile (fun s => !s.isEmpty) = r at hhead
      rcases r with _ | ⟨s, rest⟩
      · exact .inl rfl
      · have hs : s = [] := by simpa using hhead
        exact .inr ⟨s, List.mem_cons_self, hs ▸ rfl⟩

theorem replacement_of_insertion (arg : List Byte) (h : insertion ct files arg = none) : replacement ct files arg = none :=
  Option.map_eq_none_iff.mpr (Option.map_eq_none_iff.mp h)

/-! ## The result -/

theorem ofList_represents (h : argv.length < 2 ^ 31) : (ArgVector.ofList argv).Represents argv where
  argc := (int_of_lt h).symm
  argv := ⟨[], rfl⟩

/-- The vector tells of one list only. -/
theorem ArgVector.Represents.eq {vec : ArgVector} (h : vec.Represents argv) (h' : vec.Is args) : argv = args := by
  obtain ⟨spare, heq⟩ := h.argv
  obtain ⟨spare', heq'⟩ := h'.argv
  have hstrings := congrArg strings (heq.symm.trans heq')
  rw [strings_args, strings_args] at hstrings
  exact Option.some.inj hstrings

theorem int_lt (n : ℕ) : int n < 2 ^ 31 := by
  unfold int
  rw [Int.bmod_def]
  split <;> omega

/-- When `expandargv` returns, the vector is right just if it has never been too long and no file that is put in has an empty
argument, unless it is white space. -/
theorem right_iff {n : ℕ} {vec : ArgVector} (hargc : argv.length < 2 ^ 31) (hrun : expandargv ct files n argv = some (.ok vec)) :
    Right ct files argv vec ↔ Fits ct files argv ∧ ∀ arg, Reached (replacement ct files) (argv.drop 1) arg →
      ∀ buffer, responseFile files arg = some buffer → NoneEmpty ct buffer := by
  have hlimit : argv.length < limit := by
    unfold limit
    omega
  obtain ⟨v, hv, hvec⟩ := loop_refines (ofList_represents hargc) hlimit hrun
  constructor
  · rintro ⟨p, out, hexp, his⟩
    obtain rfl := hvec.eq his
    have hmax : (argv.take 1 ++ out).length < 2 ^ 31 := by
      have := int_lt (argv.take 1 ++ out).length
      rw [← hvec.argc, his.argc] at this
      omega
    obtain ⟨q, out', hins, hfits, hout⟩ := expands_of_loop hv hmax hlimit
    obtain rfl := List.append_cancel_left hout
    obtain ⟨-, hagree⟩ := hins.length_le replacement_of_insertion insertion_less hexp
    have hsame := hagree rfl
    obtain ⟨rfl, -⟩ := (hexp.congr fun y hy => (hsame y hy).symm).unique hins
    exact ⟨⟨p, out, hexp, hfits⟩, fun arg harg => (noneEmpty_iff arg).mpr (hsame arg harg)⟩
  · rintro ⟨⟨p, out, hexp, hfits⟩, hnone⟩
    have hins := hexp.congr fun y hy => ((noneEmpty_iff y).mp (hnone y hy)).symm
    obtain rfl := loop_of_expands hins rfl hfits hv
    have hlength : (argv.take 1 ++ out).length < 2 ^ 31 := by
      rw [List.length_append]
      have := hexp.length_out_le
      omega
    exact ⟨p, out, hexp, hvec.argc.trans (int_of_lt hlength), hvec.argv⟩

end

/-! ## One file -/

/-- The turn over an argument whose file is read and whose vector is copied. -/
theorem turn_spliced {ct : Ctype} {files : Files} {vec : ArgVector} {x buffer : List Byte} {pre post : List (List Byte)}
    (h : vec.Represents (pre ++ x :: post)) (hlt : (pre ++ x :: post).length < 2 ^ 31) {i : ℕ} (hpre : pre.length = i + 1)
    (hfile : responseFile files x = some buffer) (hcount : (arguments ct unquoted (cString buffer)).length < 8)
    (hcopy : dupargv vec.argv = .ok ((pre ++ x :: post).map .arg ++ [.null])) :
    ∃ vec', State.turn ct files ⟨i, vec⟩ = .ok (.inr ⟨i, vec'⟩) ∧
      vec'.Represents (pre ++ ((arguments ct unquoted (cString buffer)).takeWhile fun s => !s.isEmpty) ++ post) := by
  obtain ⟨-, n, hn⟩ | hout := buildargv_outcome ct (fun _ => true) (cString buffer)
  · cases hn
  rw [if_pos hcount] at hout
  obtain ⟨v, hv, hstrings⟩ := hout
  have hvector : fileVector ct buffer = .ok v := by rw [fileVector, hv]
  obtain ⟨vec', hsplice, hrep⟩ := splice_copied h hlt hstrings hcopy
  obtain ⟨spare, hargv⟩ := h.argv
  have hslot : vec.argv[i + 1]? = some (.arg x) := by
    rw [hargv, List.map_append, List.append_assoc, List.getElem?_append_right (by rw [List.length_map]; omega), List.length_map,
      hpre, Nat.sub_self]
    rfl
  have hargc : ((i + 1 : ℕ) : ℤ) < vec.argc := by
    rw [h.argc, int_of_lt hlt, List.length_append, List.length_cons]
    omega
  refine ⟨vec', ?_, hrep⟩
  unfold State.turn
  dsimp only
  rw [if_pos hargc, hslot]
  dsimp only
  rw [hpre] at hsplice
  rw [hfile]
  simp only [hvector, bind, Except.bind, hsplice]
  rfl

/-- A file `a` that starts with an empty argument is replaced with nothing. -/
theorem expandargv_dropped {ct : Ctype} {buffer : List Byte} {rest : List (List Byte)}
    (hargs : arguments ct unquoted (cString buffer) = [] :: rest) (hrest : rest.length < 7) :
    ∃ vec, expandargv ct [([97], buffer)] 2 [[112], [64, 97]] = some (.ok vec) ∧ vec.Represents [[112]] := by
  have hcount : (arguments ct unquoted (cString buffer)).length < 8 := by
    rw [hargs, List.length_cons]
    omega
  have hrep : (ArgVector.ofList [[112], [64, 97]]).Represents ([[112]] ++ [64, 97] :: []) := ofList_represents (by decide)
  obtain ⟨vec, hturn, hvec⟩ := @turn_spliced ct [([97], buffer)] _ _ buffer _ _ hrep (by decide) 0 rfl rfl hcount (by decide)
  rw [hargs] at hvec
  have hone : vec.Represents [[112]] := hvec
  have hargc : vec.argc = 1 := hone.argc.trans (int_of_lt (by decide))
  have hend : State.turn ct [([97], buffer)] ⟨0, vec⟩ = .ok (.inl vec) := by
    unfold State.turn
    dsimp only
    rw [hargc]
    rfl
  refine ⟨vec, ?_, hone⟩
  rw [expandargv, loop, hturn]
  dsimp only
  rw [loop, hend]

/-- The file `a` is a blank. -/
theorem right_blank : ∃ vec, expandargv cLocale [([97], [32])] 2 [[112], [64, 97]] = some (.ok vec) ∧
    Right cLocale [([97], [32])] [[112], [64, 97]] vec := by
  have hwhite : ∀ c ∈ cString [32], cLocale.isspace c = true := List.forall_mem_singleton.mpr (by decide)
  have hplace : replacement cLocale [([97], [32])] [64, 97] = some [] := congrArg some (if_pos hwhite)
  obtain ⟨vec, hrun, -⟩ := expandargv_dropped (arguments_white hwhite) (by decide)
  refine ⟨vec, hrun, (right_iff (by decide) hrun).mpr ⟨⟨_, [], .replaced hplace .nil, by decide⟩, ?_⟩⟩
  intro arg hreached buffer hfile
  rcases reached_cons hreached with rfl | ⟨l, hl, x, hx, -⟩ | ⟨x, hx, -⟩
  · obtain rfl : [32] = buffer := Option.some.inj hfile
    exact .inl hwhite
  · obtain rfl := Option.some.inj (hplace.symm.trans hl)
    cases hx
  · cases hx

/-- The file `a` is an empty line and `x`. -/
theorem not_right : ¬∀ (ct : Ctype) (files : Files) (argv : List (List Byte)) (n : ℕ) (vec : ArgVector), argv.length < 2 ^ 31 →
    (∀ arg ∈ argv.drop 1, ¬ReachesCycle (replacement ct files) arg) → expandargv ct files n argv = some (.ok vec) →
      Right ct files argv vec := by
  intro h
  have hfirst : arguments cLocale unquoted [10, 120] = [] :: arguments cLocale unquoted [120] :=
    arguments_more cLocale (by decide)
  have hsecond : arguments cLocale unquoted [120] = [[120]] := arguments_last cLocale (by decide)
  have hargs : arguments cLocale unquoted (cString [10, 120]) = [[], [120]] := hfirst.trans (congrArg _ hsecond)
  have hletter : ¬∀ c ∈ cString [10, 120], cLocale.isspace c = true := fun hall =>
    absurd (hall 120 (List.mem_cons_of_mem _ List.mem_cons_self)) (by decide)
  have hplace : replacement cLocale [([97], [10, 120])] [64, 97] = some [[], [120]] :=
    congrArg some ((if_neg hletter).trans hargs)
  have hacyclic : ∀ arg ∈ [[64, 97]], ¬ReachesCycle (replacement cLocale [([97], [10, 120])]) arg := fun arg harg =>
    not_reachesCycle_of_acc (drains_iff.mp (.replaced hplace (.plain rfl (.plain rfl .nil))) arg harg)
  obtain ⟨vec, hrun, hrep⟩ := expandargv_dropped hargs (by decide)
  obtain ⟨p, out, hexp, his⟩ := h cLocale [([97], [10, 120])] [[112], [64, 97]] 2 vec (by decide) hacyclic hrun
  obtain ⟨-, rfl⟩ := hexp.unique (.replaced hplace (.plain rfl (.plain rfl .nil)))
  exact absurd (hrep.eq his) (by decide)

end CodingExercises.Binutils.ResponseFiles
