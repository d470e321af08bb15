import CodingExercises.Coreutils.DirName

/-!
# coreutils: joining file names

`mfile_name_concat` of `lib/filenamecat-lgpl.c` and `file_name_concat` of `lib/filenamecat.c`. The cells of the new string have
no byte until one is stored; a store outside of them is a fault.

The string is `concatText`, and its storage has just the cells that are used (`mfileNameConcat_eq`). Two kinds of names go wrong
(`joins_iff`): with an empty DIR no slash is put before BASE that a pointer to an absolute ABASE could lead to, and where DIR is
slashes only all of them are kept.
-/

namespace CodingExercises.Coreutils

/-- `longest_relative_suffix`. -/
def longestRelativeSuffix (f : List Byte) : List Byte := f.dropWhile (· = slash)

/-- Bytes stored from the cell `p` on, or nothing if there are not so many cells. -/
def storeAt (cells : List (Option Byte)) (p : ℕ) (src : List Byte) : Option (List (Option Byte)) :=
  if p + src.length ≤ cells.length then some (cells.take p ++ src.map some ++ cells.drop (p + src.length)) else none

/-- What is returned: the storage, and where in it `*base_in_result` points to. -/
structure Concat where
  cells : List (Option Byte)
  baseInResult : ℤ
deriving DecidableEq

/-- `mfile_name_concat`: nothing for a store outside of the storage; no string (NULL) if `malloc` fails. -/
def mfileNameConcat (malloc : Bool) (dir abase : List Byte) : Option (Option Concat) :=
  let dirbase := lastComponent dir
  let dirbaselen := baseLen dirbase
  let dirlen := dir.length - dirbase.length + dirbaselen
  let needsSeparator := if dirbaselen ≠ 0 ∧ dirbase[dirbaselen - 1]? ≠ some slash then 1 else 0
  let base := longestRelativeSuffix abase
  let baselen := base.length
  if malloc then do
    let cells := List.replicate (dirlen + needsSeparator + baselen + 1) none
    let cells ← storeAt cells 0 (dir.take dirlen)
    let cells ← storeAt cells dirlen [slash]
    let p := dirlen + needsSeparator
    let baseInResult := (p : ℤ) - if isAbsoluteFileName abase then 1 else 0
    let cells ← storeAt cells p base
    let cells ← storeAt cells (p + baselen) [0]
    some (some ⟨cells, baseInResult⟩)
  else some none

/-! ## The text -/

/-- DIR with a slash behind it if it has to be put there: all its slashes, or the name without those at its end and one. -/
def dirPart (dir : List Byte) : List Byte :=
  if lastName dir = [] then dir else stripped dir ++ [slash]

/-- The file name. -/
def concatText (dir abase : List Byte) : List Byte := dirPart dir ++ longestRelativeSuffix abase

/-- Bytes that are stored behind `a` replace as many of what stands there. -/
theorem storeAt_append (a b src : List Byte) {n : ℕ} (h : src.length ≤ b.length + n) :
    storeAt ((a ++ b).map some ++ List.replicate n none) a.length src =
      some ((a ++ src ++ b.drop src.length).map some ++ List.replicate (n - (src.length - b.length)) none) := by
  have hroom : a.length + src.length ≤ ((a ++ b).map some ++ List.replicate n none).length := by
    simp only [List.length_append, List.length_map, List.length_replicate]
    omega
  have htake : ((a ++ b).map some ++ List.replicate n none).take a.length = a.map some := by
    rw [List.map_append, List.append_assoc]
    exact List.take_left' (List.length_map _)
  have hdrop : ((a ++ b).map some ++ List.replicate n none).drop (a.length + src.length) =
      (b.drop src.length).map some ++ List.replicate (n - (src.length - b.length)) none := by
    have hlength : a.length = (a.map some).length := (List.length_map _).symm
    rw [List.map_append, List.append_assoc, hlength, List.drop_length_add_append, List.drop_append, ← List.map_drop,
      List.drop_replicate, List.length_map]
  rw [storeAt, if_pos hroom, htake, hdrop]
  simp only [List.map_append, List.append_assoc]

/-- A string and its NUL fill what is left. -/
theorem storeAt_end (a b base : List Byte) {n : ℕ} (h : b.length + n = base.length + 1) :
    ∃ cells, storeAt ((a ++ b).map some ++ List.replicate n none) a.length base = some cells ∧
      storeAt cells (a.length + base.length) [0] = some ((a ++ base ++ [0]).map some) := by
  refine ⟨_, storeAt_append a b base (by omega), ?_⟩
  have hend := storeAt_append (a ++ base) (b.drop base.length) [0] (n := n - (base.length - b.length)) (by
    simp only [List.length_singleton, List.length_drop]
    omega)
  have hnone : n - (base.length - b.length) - (1 - (b.length - base.length)) = 0 := by omega
  have hdrop : (b.drop base.length).drop 1 = [] := by
    rw [List.drop_drop]
    exact List.drop_eq_nil_of_le (by omega)
  rw [List.length_append] at hend
  rw [hend, List.length_singleton, hdrop, List.length_drop, hnone, List.replicate_zero, List.append_nil, List.append_nil]

/-- What `dirlen` and `needs_separator` are. -/
theorem dirPart_eq (dir : List Byte) :
    ∃ d sep, dirPart dir = d ++ sep ∧ (sep = [] ∨ sep = [slash]) ∧
      dir.length - (lastComponent dir).length + baseLen (lastComponent dir) = d.length ∧ dir.take d.length = d ∧
      (if baseLen (lastComponent dir) ≠ 0 ∧ (lastComponent dir)[baseLen (lastComponent dir) - 1]? ≠ some slash then 1 else 0) =
        sep.length := by
  rcases exists_parts dir with ⟨k, rfl⟩ | ⟨pre, comp, k, h⟩
  · have hbase : baseLen [] = 0 := rfl
    rw [dirPart, if_pos (lastName_replicate k), lastComponent_replicate, hbase]
    exact ⟨_, [], (List.append_nil _).symm, .inl rfl, rfl, List.take_length, rfl⟩
  · have hcomp := List.length_pos_iff.mpr h.ne
    have hstrip := h.strip
    have hlast : (comp ++ List.replicate k slash)[comp.length - 1]? ≠ some slash := by
      rw [List.getElem?_append_left (by omega)]
      exact fun heq => h.noSlash (List.mem_of_getElem? heq)
    rw [dirPart, if_neg (h.lastName ▸ h.ne), h.lastComponent, baseLen_append h.ne h.noSlash, if_pos ⟨by omega, hlast⟩, stripped,
      hstrip]
    refine ⟨_, [slash], rfl, .inr rfl, ?_, ?_, rfl⟩
    · rw [h.eq]
      simp only [List.length_append]
      omega
    · rw [h.eq]
      exact List.take_left' rfl

/-- The storage has just the cells of the text and its NUL. -/
theorem mfileNameConcat_eq (dir abase : List Byte) :
    mfileNameConcat true dir abase = some (some ⟨(concatText dir abase ++ [0]).map some,
      ((dirPart dir).length : ℤ) - if isAbsoluteFileName abase then 1 else 0⟩) := by
  obtain ⟨d, sep, hpart, hsep, hdirlen, htake, hneeds⟩ := dirPart_eq dir
  generalize hbase : longestRelativeSuffix abase = base
  have hd := storeAt_append [] [] d (n := d.length + sep.length + base.length + 1) (by omega)
  have hslash := storeAt_append d [] [slash] (n := sep.length + base.length + 1) (by simp)
  simp only [List.nil_append, List.append_nil, List.map_nil, List.length_nil, Nat.sub_zero, List.drop_nil, List.length_singleton]
    at hd hslash
  have hrest : d.length + sep.length + base.length + 1 - d.length = sep.length + base.length + 1 := by omega
  rw [hrest] at hd
  simp only [mfileNameConcat, hdirlen, hneeds, htake, hbase, if_true, hd, hslash, concatText, hpart, List.length_append,
    Option.bind_eq_bind, Option.bind_some]
  rcases hsep with rfl | rfl
  · -- the slash behind `dir` is overwritten
    obtain ⟨cells, hstore, hend⟩ := storeAt_end d [slash] base (n := base.length) (Nat.add_comm _ _)
    simp only [List.length_nil, Nat.zero_add, Nat.add_zero, Nat.add_sub_cancel, List.append_nil, hstore, hend, Option.bind_some]
  · obtain ⟨cells, hstore, hend⟩ := storeAt_end (d ++ [slash]) [] base (n := base.length + 1) (Nat.zero_add _)
    rw [List.append_nil, List.length_append] at hstore
    rw [List.length_append] at hend
    have hcells : [slash].length + base.length + 1 - 1 = base.length + 1 := Nat.add_comm _ _
    simp only [hcells, hstore, hend, Option.bind_some]

/-! ## What is joined -/

/-- ABASE with its leading slashes reduced to one. -/
def oneSlash (abase : List Byte) : List Byte :=
  if isAbsoluteFileName abase then slash :: longestRelativeSuffix abase else abase

/-- The file name is absolute if DIR is; it has the components of both; if there are both, one slash is between DIR without the
slashes at its end and ABASE without those at its beginning; and the pointer is to a suffix, ABASE with no more than one slash. -/
structure JoinedTo (dir abase : List Byte) (c : Concat) (text : List Byte) : Prop where
  cells : c.cells = (text ++ [0]).map some
  absolute : dir ≠ [] → isAbsoluteFileName text = isAbsoluteFileName dir
  comps : comps text = comps dir ++ comps abase
  slash : dir ≠ [] → longestRelativeSuffix abase ≠ [] →
    ∃ x k, dir = x ++ List.replicate k slash ∧ ¬[slash] <:+ x ∧ text = x ++ slash :: longestRelativeSuffix abase
  pointer : ∃ n : ℕ, c.baseInResult = n ∧ n ≤ text.length ∧ text.drop n = oneSlash abase

/-- No store is out of bounds, and the file name is as it should be. -/
def Joins (dir abase : List Byte) (r : Option (Option Concat)) : Prop :=
  ∃ c text, r = some (some c) ∧ JoinedTo dir abase c text

theorem longestRelativeSuffix_of_relative {abase : List Byte} (h : isAbsoluteFileName abase = false) :
    longestRelativeSuffix abase = abase := by
  cases abase with
  | nil => rfl
  | cons c abase =>
    have hc : c ≠ slash := by simpa [isAbsoluteFileName] using h
    exact List.dropWhile_cons_of_neg (by simpa using hc)

theorem comps_longestRelativeSuffix (abase : List Byte) : comps (longestRelativeSuffix abase) = comps abase := by
  induction abase with
  | nil => rfl
  | cons c abase ih =>
    by_cases hc : c = slash
    · rw [hc, longestRelativeSuffix, List.dropWhile_cons_of_pos (by simp)]
      exact ih.trans (comps_slash [] abase).symm
    · rw [longestRelativeSuffix, List.dropWhile_cons_of_neg (by simpa using hc)]

/-- What is returned. -/
def concatOf (dir abase : List Byte) : Concat :=
  ⟨(concatText dir abase ++ [0]).map some, ((dirPart dir).length : ℤ) - if isAbsoluteFileName abase then 1 else 0⟩

section

variable {dir abase : List Byte}

theorem joins_iff_joinedTo :
    Joins dir abase (mfileNameConcat true dir abase) ↔ JoinedTo dir abase (concatOf dir abase) (concatText dir abase) := by
  rw [Joins, mfileNameConcat_eq]
  constructor
  · rintro ⟨c, text, hc, h⟩
    cases hc
    have hmap : (concatText dir abase ++ [0]).map some = (text ++ [0]).map some := h.cells
    obtain rfl : concatText dir abase = text :=
      List.append_cancel_right ((List.map_injective_iff.mpr fun _ _ => Option.some.inj) hmap)
    exact h
  · exact fun h => ⟨_, _, rfl, h⟩

/-- Behind a slash the pointer is to a suffix. -/
theorem joinedTo_of_slash {x : List Byte} (hpart : dirPart dir = x ++ [slash]) (hcomps : Coreutils.comps x = Coreutils.comps dir)
    (habs : isAbsoluteFileName (x ++ [slash]) = isAbsoluteFileName dir)
    (hslash : longestRelativeSuffix abase ≠ [] → ∃ k, dir = x ++ List.replicate k slash ∧ ¬[slash] <:+ x) :
    JoinedTo dir abase (concatOf dir abase) (concatText dir abase) := by
  have htext : concatText dir abase = x ++ slash :: longestRelativeSuffix abase := by
    rw [concatText, hpart, List.append_assoc]
    rfl
  refine ⟨rfl, fun _ => ?_, ?_, fun _ hbase => ?_, ?_⟩
  · rw [← habs, concatText, hpart, isAbsoluteFileName, isAbsoluteFileName, List.getElem?_append_left (by simp)]
  · rw [htext, comps_slash, hcomps, comps_longestRelativeSuffix]
  · obtain ⟨k, hdir, hend⟩ := hslash hbase
    exact ⟨x, k, hdir, hend, htext⟩
  · have hlen : (dirPart dir).length = x.length + 1 := by
      rw [hpart, List.length_append, List.length_singleton]
    cases habase : isAbsoluteFileName abase with
    | true =>
      refine ⟨x.length, ?_, ?_, ?_⟩
      · simp only [concatOf, hlen, habase, if_true]
        omega
      · rw [htext, List.length_append]
        omega
      · rw [htext, List.drop_left, oneSlash, habase, if_pos rfl]
    | false =>
      refine ⟨x.length + 1, ?_, ?_, ?_⟩
      · simp only [concatOf, hlen, habase, Bool.false_eq_true, if_false]
        omega
      · rw [htext, List.length_append, List.length_cons]
        omega
      · rw [htext, List.drop_length_add_append, oneSlash, habase, if_neg Bool.false_ne_true,
          longestRelativeSuffix_of_relative habase]
        rfl

/-- A name with a last component. -/
theorem Parts.joinedTo {pre comp : List Byte} {k : ℕ} (h : Parts dir pre comp k) :
    JoinedTo dir abase (concatOf dir abase) (concatText dir abase) := by
  have hstrip : stripped dir = pre ++ comp := h.strip
  have hpart : dirPart dir = pre ++ comp ++ [slash] := by
    rw [dirPart, if_neg (h.lastName ▸ h.ne), hstrip]
  have hne : 0 < (pre ++ comp).length := by
    have := List.length_pos_iff.mpr h.ne
    simp only [List.length_append]
    omega
  refine joinedTo_of_slash hpart (hstrip ▸ comps_stripped dir) ?_ fun _ => ⟨k, h.eq, h.not_slash_end⟩
  rw [isAbsoluteFileName, isAbsoluteFileName, h.eq, List.getElem?_append_left hne, List.getElem?_append_left hne]

end

/-- Everything is right but for two kinds of names: an empty DIR with an absolute ABASE, and a DIR of two slashes or more
with something behind them. -/
theorem joins_iff (dir abase : List Byte) :
    Joins dir abase (mfileNameConcat true dir abase) ↔
      ¬(dir = [] ∧ isAbsoluteFileName abase = true) ∧
        ¬(2 ≤ dir.length ∧ (∀ c ∈ dir, c = slash) ∧ ∃ c ∈ abase, c ≠ slash) := by
  have hbase : longestRelativeSuffix abase ≠ [] ↔ ∃ c ∈ abase, c ≠ slash := by
    simp [longestRelativeSuffix]
  rw [joins_iff_joinedTo, ← hbase]
  rcases exists_parts dir with ⟨k, rfl⟩ | ⟨pre, comp, k, h⟩
  · have hpart : dirPart (List.replicate k slash) = List.replicate k slash := if_pos (lastName_replicate k)
    cases k with
    | zero =>
      have hnil : ((dirPart (List.replicate 0 slash)).length : ℤ) = 0 := congrArg _ (congrArg List.length hpart)
      constructor
      · intro h
        refine ⟨fun ⟨_, habs⟩ => ?_, fun ⟨htwo, _⟩ => absurd htwo (by decide)⟩
        obtain ⟨n, hn, -⟩ := h.pointer
        simp only [concatOf, hnil, habs, if_true] at hn
        omega
      · rintro ⟨hnot, -⟩
        have habs : isAbsoluteFileName abase = false := Bool.eq_false_iff.mpr fun h => hnot ⟨rfl, h⟩
        refine ⟨rfl, fun hne => absurd rfl hne, ?_, fun hne => absurd rfl hne, 0, ?_, Nat.zero_le _, ?_⟩
        · exact comps_longestRelativeSuffix abase
        · simp only [concatOf, hnil, habs]
          rfl
        · rw [oneSlash, habs, if_neg Bool.false_ne_true, List.drop_zero]
          exact longestRelativeSuffix_of_relative habs
    | succ k =>
      constructor
      · intro h
        refine ⟨fun ⟨hnil, _⟩ => absurd hnil (by simp), fun ⟨htwo, _, hb⟩ => ?_⟩
        obtain ⟨x, j, hdir, hend, htext⟩ := h.slash (by simp) hb
        have hx : x = [] := by
          by_contra hne
          obtain ⟨y, c, rfl⟩ := List.eq_nil_or_concat' x |>.resolve_left hne
          have hc : c ∈ List.replicate (k + 1) slash := by
            rw [hdir]
            simp
          obtain rfl := (List.mem_replicate.mp hc).2
          exact hend (List.suffix_append y [slash])
        have hlen := congrArg List.length htext
        rw [concatText, hpart, hx] at hlen
        simp only [List.length_append, List.length_replicate, List.length_cons, List.nil_append] at hlen htwo
        omega
      · rintro ⟨-, hnot⟩
        have hsnoc : List.replicate (k + 1) slash = List.replicate k slash ++ [slash] := List.replicate_succ'
        refine joinedTo_of_slash (x := List.replicate k slash) (hpart.trans hsnoc) ?_ (hsnoc ▸ rfl) fun hb => ?_
        · rw [comps_replicate, comps_replicate]
        · obtain rfl : k = 0 := by
            by_contra hk
            exact hnot ⟨by rw [List.length_replicate]; omega, fun c hc => (List.mem_replicate.mp hc).2, hb⟩
          exact ⟨1, rfl, by simp⟩
  · refine iff_of_true h.joinedTo ⟨?_, ?_⟩
    · rintro ⟨rfl, -⟩
      exact h.ne (List.append_eq_nil_iff.mp (List.append_eq_nil_iff.mp h.eq.symm).1).2
    · rintro ⟨-, hall, -⟩
      obtain ⟨c, hc⟩ := List.exists_mem_of_ne_nil comp h.ne
      have hmem : c ∈ dir := by
        rw [h.eq]
        simp [hc]
      exact h.noSlash (hall c hmem ▸ hc)

/-- `mfile_name_concat ("", "/a", &b)`. -/
theorem not_joins : ¬∀ dir abase : List Byte, Joins dir abase (mfileNameConcat true dir abase) := by
  intro h
  obtain ⟨n, hn, -⟩ := (joins_iff_joinedTo.mp (h [] [slash, 97])).pointer
  have hbefore : (concatOf [] [slash, 97]).baseInResult = -1 := by decide
  omega

end CodingExercises.Coreutils
