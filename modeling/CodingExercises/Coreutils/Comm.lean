import Mathlib.Algebra.BigOperators.Group.List.Basic
import Mathlib.Data.List.Lex
import CodingExercises.Lib.Merge
import CodingExercises.Coreutils.LineBuffer

/-!
# comm: lines of two sorted files

`compare_files` of `src/comm.c`, with the comparisons of `lib/memcmp2.c` and `lib/memcoll.c`.

- The comparisons in use are all the order of the lines as byte strings (`memcmp2_spec`, `lineOrder_spec`);
- of each file at least as many bytes are taken as it has, and just as many only if its lines fit into the buffers
  (`loop_total`); if they fit, the calls of `writeline` are those of the merge of the lines (`loop_fitting`);
- so the output is right with all options exactly when the lines of both files fit (`comparesRight_iff`).
-/

namespace CodingExercises.Coreutils

open Lib

/-! ## Comparisons -/

/-- `memcmp`. -/
def memcmp : List Byte → List Byte → ℕ → ℤ
  | a :: s1, b :: s2, n + 1 => if a = b then memcmp s1 s2 n else a.toNat - b.toNat
  | _, _, _ => 0

/-- `memcmp2`. -/
def memcmp2 (s1 : List Byte) (n1 : ℕ) (s2 : List Byte) (n2 : ℕ) : ℤ :=
  let cmp := memcmp s1 s2 (if n1 ≤ n2 then n1 else n2)
  if cmp = 0 then
    if n1 < n2 then -1
    else if n1 > n2 then 1
    else cmp
  else cmp

/-- `memcoll`; `xmemcoll` is the same, for `memcoll` sets no error. -/
def memcoll (s1 : List Byte) (s1len : ℕ) (s2 : List Byte) (s2len : ℕ) : ℤ :=
  let diff := memcmp s1 s2 (if s1len < s2len then s1len else s2len)
  if diff = 0 then
    if s1len < s2len then -1
    else if s1len ≠ s2len then 1
    else 0
  else diff

/-! ## The program -/

/-- `check_input_order`. -/
inductive CheckOrder
  | default
  | enabled
  | disabled
deriving DecidableEq

/-- The options that print nothing. -/
structure Settings where
  hardLcCollate : Bool
  checkInputOrder : CheckOrder

/-- The options that say what is printed. -/
structure Columns where
  onlyFile1 : Bool
  onlyFile2 : Bool
  both : Bool
  delimiter : List Byte

/-- `writeline`: what it puts on the stream. The classes 1, 2 and 3 are `first`, `second` and `both`. -/
def writeline (cols : Columns) (line : List Byte) : Found → List Byte
  | .first => if !cols.onlyFile1 then [] else line
  | .second =>
    if !cols.onlyFile2 then []
    else (if cols.onlyFile1 then cols.delimiter else []) ++ line
  | .both =>
    if !cols.both then []
    else (if cols.onlyFile1 then cols.delimiter else []) ++ (if cols.onlyFile2 then cols.delimiter else []) ++ line

/-- Why the program ends in the middle: in `readlinebuffer`, because of a read error, or because of the order that
`--check-order` asks for. -/
inductive Stop
  | fault (f : Fault)
  | readError
  | disorder
deriving DecidableEq

/-- One of the files: the four line buffers, the buffers that are in use, and whether `thisline` is one of them, the
buffer `alt[0]`, or null. -/
structure Infile where
  lba : Fin 4 → Linebuffer
  alt0 : Fin 4
  alt1 : Fin 4
  alt2 : Fin 4
  stream : File
  thisline : Bool

/-- The buffer that `thisline` points to. -/
def Infile.line (s : Infile) : Linebuffer := s.lba s.alt0

/-- `check_order`: whether the disorder warning has been issued then; without a value the program ends. -/
def checkOrder (o : Settings) (seenUnpairable issued : Bool) (prev current : Linebuffer) : Option Bool :=
  if o.checkInputOrder ≠ .disabled ∧ (o.checkInputOrder = .enabled ∨ seenUnpairable) then
    if !issued then
      let order :=
        if o.hardLcCollate then memcoll prev.buffer (prev.length - 1) current.buffer (current.length - 1)
        else memcmp2 prev.buffer (prev.length - 1) current.buffer (current.length - 1)
      if order > 0 then
        if o.checkInputOrder = .enabled then none else some true
      else some issued
    else some issued
  else some issued

/-- The order of the next lines of the two files. -/
def lineOrder (o : Settings) (l1 l2 : Linebuffer) : ℤ :=
  if o.hardLcCollate then memcoll l1.buffer (l1.length - 1) l2.buffer (l2.length - 1)
  else
    let len := min l1.length l2.length - 1
    let order := memcmp l1.buffer l2.buffer len
    if order = 0 then
      if l1.length < l2.length then -1
      else if l1.length ≠ l2.length then 1
      else 0
    else order

section Program

variable (mem : Realloc) (signed : Bool) (o : Settings)

/-- A file at its start, with its first line read. -/
def openInfile (bytes : List Byte) : Except Stop Infile :=
  match readlinebuffer mem signed initbuffer (File.ofBytes bytes) with
  | .error f => .error (.fault f)
  | .ok (got, lb, stream) =>
    if stream.ferror then .error .readError
    else .ok ⟨Function.update (fun _ => initbuffer) 0 lb, 0, 0, 0, stream, got⟩

/-- The buffers are rotated, and a call of `readlinebuffer` has left `lb` in the buffer that is next. -/
def Infile.rotate (s : Infile) (got : Bool) (lb : Linebuffer) (stream : File) : Infile :=
  ⟨Function.update s.lba (s.alt0 + 1) lb, s.alt0 + 1, s.alt0, s.alt1, stream, got⟩

/-- The check of the order after a call of `readlinebuffer`. -/
def Infile.check (seenUnpairable issued : Bool) (s : Infile) : Option Bool :=
  if s.thisline then checkOrder o seenUnpairable issued (s.lba s.alt1) s.line
  else if !(s.lba s.alt2).buffer.isEmpty then checkOrder o seenUnpairable issued (s.lba s.alt2) (s.lba s.alt1)
  else some issued

/-- The body of the loop that fills up. -/
def fillUp (seenUnpairable issued : Bool) (s : Infile) : Except Stop (Infile × Bool) :=
  match readlinebuffer mem signed (s.lba (s.alt0 + 1)) s.stream with
  | .error f => .error (.fault f)
  | .ok (got, lb, stream) =>
    match (s.rotate got lb stream).check o seenUnpairable issued with
    | none => .error .disorder
    | some issued => if stream.ferror then .error .readError else .ok (s.rotate got lb stream, issued)

/-- The variables of `compare_files`, with the warnings. -/
structure Comparing where
  one : Infile
  two : Infile
  seenUnpairable : Bool
  issued1 : Bool
  issued2 : Bool

/-- The order of the next lines; a file without a line comes last. -/
def Comparing.order (st : Comparing) : ℤ :=
  if !st.one.thisline then 1
  else if !st.two.thisline then -1
  else lineOrder o st.one.line st.two.line

/-- The call of `writeline`. -/
def Comparing.call (st : Comparing) : Found × List Byte :=
  if st.order o = 0 then (.both, st.two.line.text)
  else if st.order o ≤ 0 then (.first, st.one.line.text)
  else (.second, st.two.line.text)

/-- The end of the loop's body: the files that the line came from are stepped. -/
def Comparing.step (st : Comparing) : Except Stop Comparing :=
  let order := st.order o
  let seen := st.seenUnpairable || order ≠ 0
  match if order ≤ 0 then fillUp mem signed o seen st.issued1 st.one else .ok (st.one, st.issued1) with
  | .error e => .error e
  | .ok (one, issued1) =>
    match if order ≥ 0 then fillUp mem signed o seen st.issued2 st.two else .ok (st.two, st.issued2) with
    | .error e => .error e
    | .ok (two, issued2) => .ok ⟨one, two, seen, issued1, issued2⟩

/-- The loop of `compare_files`, with `fuel` passes at most: the calls of `writeline`, and how it ends. -/
def compareLoop : ℕ → Comparing → Option (List (Found × List Byte) × Except Stop Comparing)
  | 0, _ => none
  | fuel + 1, st =>
    if st.one.thisline || st.two.thisline then
      match st.step mem signed o with
      | .error e => some ([st.call o], .error e)
      | .ok st' => (compareLoop fuel st').map fun r => (st.call o :: r.1, r.2)
    else some ([], .ok st)

/-- `compare_files` on two files that can be opened. -/
def compareFiles (fuel : ℕ) (infile1 infile2 : List Byte) : Option (List (Found × List Byte) × Except Stop Comparing) :=
  match openInfile mem signed infile1 with
  | .error e => some ([], .error e)
  | .ok one =>
    match openInfile mem signed infile2 with
    | .error e => some ([], .error e)
    | .ok two => compareLoop mem signed o fuel ⟨one, two, false, false, false⟩

end Program

/-- What is on the standard output after the calls of `writeline`. -/
def printed (cols : Columns) (calls : List (Found × List Byte)) : List Byte :=
  calls.flatMap fun call => writeline cols call.2 call.1

/-! ## What is expected -/

instance linearOrderByte : LinearOrder UInt8 where
  le_refl _ := UInt8.le_refl _
  le_trans _ _ _ := UInt8.le_trans
  lt_iff_le_not_ge a b := by rw [UInt8.lt_iff_toNat_lt, UInt8.le_iff_toNat_le, UInt8.le_iff_toNat_le]; omega
  le_antisymm _ _ := UInt8.le_antisymm
  le_total _ _ := UInt8.le_total _ _
  toDecidableLE := inferInstance

/-- The lines of a file, without the newlines. -/
def fileLines (bytes : List Byte) : List (List Byte) := (pieces 10 bytes).map List.dropLast

/-- Whether a column is shown. -/
def Columns.shows (cols : Columns) : Found → Bool
  | .first => cols.onlyFile1
  | .second => cols.onlyFile2
  | .both => cols.both

/-- The columns to the left of a column. -/
def lowerColumns : Found → List Found
  | .first => []
  | .second => [.first]
  | .both => [.first, .second]

/-- A line in its column: a delimiter for each lower column that is shown, the line and a newline. -/
def Columns.entry (cols : Columns) (x : Found × List Byte) : List Byte :=
  if cols.shows x.1 then ((lowerColumns x.1).filter cols.shows).flatMap (fun _ => cols.delimiter) ++ x.2 ++ [10] else []

/-- The output that is expected: the lines in order, each as often in each column as the files have it. -/
def Merged (cols : Columns) (infile1 infile2 stdout : List Byte) : Prop :=
  ∃ emitted : List (Found × List Byte),
    Counts emitted (fileLines infile1) (fileLines infile2) ∧
      emitted.Pairwise (fun x y => x.2 ≤ y.2) ∧ stdout = emitted.flatMap cols.entry

/-- `compare_files` ends, has read both files to their ends and has put out what is expected. -/
def ComparesRight (mem : Realloc) (signed : Bool) (o : Settings) (cols : Columns)
    (infile1 infile2 : List Byte) : Prop :=
  ∃ n, ∀ fuel ≥ n, ∃ calls st, compareFiles mem signed o fuel infile1 infile2 = some (calls, .ok st) ∧
    st.one.stream.rest = [] ∧ st.two.stream.rest = [] ∧ Merged cols infile1 infile2 (printed cols calls)

/-- The lengths and sizes of four buffers. -/
abbrev Rooms := Fin 4 → ℕ × ℕ

/-- The pieces fit into the buffers that are used in turn, from the `k`-th on: each is no longer than the line that its
buffer holds, or that line has filled the buffer. -/
def FitsInTurn : Rooms → Fin 4 → List (List Byte) → Prop
  | _, _, [] => True
  | rooms, k, q :: qs =>
    (q.length ≤ (rooms k).1 ∨ (rooms k).1 = (rooms k).2) ∧
      FitsInTurn (Function.update rooms k (q.length, capacity q.length (rooms k).2)) (k + 1) qs

/-! ## The comparisons agree -/

theorem sub_ne_zero_of_ne {a b : Byte} (h : a ≠ b) : (a.toNat : ℤ) - b.toNat ≠ 0 := by
  intro he
  exact h (UInt8.toNat_inj.mp (by omega))

/-- `memcmp2` by the bytes that both strings have, and then by the lengths. -/
theorem memcmp2_eq (s1 : List Byte) (n1 : ℕ) (s2 : List Byte) (n2 : ℕ) :
    memcmp2 s1 n1 s2 n2 =
      if memcmp s1 s2 (min n1 n2) = 0 then if n1 < n2 then -1 else if n1 ≠ n2 then 1 else 0
      else memcmp s1 s2 (min n1 n2) := by
  unfold memcmp2
  simp only [← Nat.min_def]
  by_cases h : memcmp s1 s2 (min n1 n2) = 0
  · rw [if_pos h, if_pos h, h]
    by_cases h1 : n1 < n2
    · rw [if_pos h1, if_pos h1]
    · rw [if_neg h1, if_neg h1]
      by_cases h2 : n1 > n2
      · rw [if_pos h2, if_pos (by omega)]
      · rw [if_neg h2, if_neg (by omega)]
  · rw [if_neg h, if_neg h]

/-- `memcmp2` on strings that start with a byte each. -/
theorem memcmp2_cons (a b : Byte) (s1 s2 : List Byte) (n1 n2 : ℕ) :
    memcmp2 (a :: s1) (n1 + 1) (b :: s2) (n2 + 1) =
      if a = b then memcmp2 s1 n1 s2 n2 else (a.toNat : ℤ) - b.toNat := by
  simp only [memcmp2_eq, Nat.add_min_add_right, memcmp]
  by_cases h : a = b
  · simp [h]
  · simp only [if_neg h, if_neg (sub_ne_zero_of_ne h)]

/-- `memcmp2` says how two strings compare. -/
theorem memcmp2_spec {n1 n2 : ℕ} {s1 s2 : List Byte} (h1 : n1 ≤ s1.length) (h2 : n2 ≤ s2.length) :
    (memcmp2 s1 n1 s2 n2 < 0 ↔ s1.take n1 < s2.take n2) ∧ (memcmp2 s1 n1 s2 n2 = 0 ↔ s1.take n1 = s2.take n2) := by
  induction n1 generalizing n2 s1 s2 with
  | zero =>
    have hc : memcmp s1 s2 0 = 0 := by cases s1 <;> cases s2 <;> rfl
    cases n2 with
    | zero => simp [memcmp2, hc]
    | succ n2 =>
      cases s2 with
      | nil => cases h2
      | cons b s2 => simp [memcmp2, hc]
  | succ n1 ih =>
    cases s1 with
    | nil => cases h1
    | cons a s1 =>
      cases n2 with
      | zero =>
        have hc : memcmp (a :: s1) s2 0 = 0 := by cases s2 <;> rfl
        simp [memcmp2, hc]
      | succ n2 =>
        cases s2 with
        | nil => cases h2
        | cons b s2 =>
          rw [memcmp2_cons, List.take_succ_cons, List.take_succ_cons, List.cons_lt_cons_iff, List.cons.injEq]
          by_cases h : a = b
          · obtain ⟨hlt, heq⟩ := ih (Nat.le_of_succ_le_succ h1) (Nat.le_of_succ_le_succ h2)
            rw [if_pos h, hlt, heq]
            simp [h]
          · rw [if_neg h]
            have hlt : (a.toNat : ℤ) - b.toNat < 0 ↔ a < b := by rw [UInt8.lt_iff_toNat_lt]; omega
            simp [h, hlt, sub_ne_zero_of_ne h]

theorem memcoll_eq (s1 : List Byte) (n1 : ℕ) (s2 : List Byte) (n2 : ℕ) : memcoll s1 n1 s2 n2 = memcmp2 s1 n1 s2 n2 := by
  have hn : (if n1 < n2 then n1 else n2) = min n1 n2 := by
    split <;> omega
  rw [memcmp2_eq, memcoll, hn]

/-- The line in a buffer without its last byte. -/
def Linebuffer.value (lb : Linebuffer) : List Byte := lb.buffer.take (lb.length - 1)

/-- The comparison of the loop is that of the other locales. -/
theorem lineOrder_eq (o : Settings) {l1 l2 : Linebuffer} (h1 : 0 < l1.length) (h2 : 0 < l2.length) :
    lineOrder o l1 l2 = memcmp2 l1.buffer (l1.length - 1) l2.buffer (l2.length - 1) := by
  unfold lineOrder
  split
  · exact memcoll_eq _ _ _ _
  · have hn : min l1.length l2.length - 1 = min (l1.length - 1) (l2.length - 1) := by omega
    have hlt : l1.length < l2.length ↔ l1.length - 1 < l2.length - 1 := by omega
    have hne : l1.length ≠ l2.length ↔ l1.length - 1 ≠ l2.length - 1 := by omega
    simp only [memcmp2_eq, hn, hlt, hne]

section Order

variable (o : Settings) {l1 l2 : Linebuffer}

theorem lineOrder_spec (h1 : l1.Ok) (h2 : l2.Ok) (hp1 : 0 < l1.length) (hp2 : 0 < l2.length) :
    (lineOrder o l1 l2 < 0 ↔ l1.value < l2.value) ∧ (lineOrder o l1 l2 = 0 ↔ l1.value = l2.value) := by
  have hb1 := h1.block
  have hl1 := h1.line
  have hb2 := h2.block
  have hl2 := h2.line
  rw [lineOrder_eq o hp1 hp2]
  exact memcmp2_spec (by omega) (by omega)

/-- A line that is not smaller than the one before it is no reason to stop, or to warn. -/
theorem checkOrder_of_le (seen issued : Bool) (h1 : l1.Ok) (h2 : l2.Ok) (h : l1.value ≤ l2.value) :
    checkOrder o seen issued l1 l2 = some issued := by
  have hb1 := h1.block
  have hl1 := h1.line
  have hb2 := h2.block
  have hl2 := h2.line
  have h1' : l1.length - 1 ≤ l1.buffer.length := by omega
  have h2' : l2.length - 1 ≤ l2.buffer.length := by omega
  have hspec := memcmp2_spec h1' h2'
  have hle : ¬ memcmp2 l1.buffer (l1.length - 1) l2.buffer (l2.length - 1) > 0 := by
    rcases h.lt_or_eq with hlt | heq
    · have := hspec.1.mpr hlt
      omega
    · have := hspec.2.mpr heq
      omega
  unfold checkOrder
  simp only [memcoll_eq, ite_self, if_neg hle]

end Order

/-! ## Reading a line -/

/-- What a call leaves of the piece that it read into the buffer `lb`. -/
structure Reads (lb : Linebuffer) (q : List Byte) (lb' : Linebuffer) : Prop where
  ok : lb'.Ok
  le : q.length ≤ lb'.length
  room : lb'.text = q ↔ q.length ≤ lb.length ∨ lb.length = lb.size
  exact : lb'.length = q.length → lb'.text = q ∧ lb'.size = capacity q.length lb.size

theorem pieces_eq_nil {d : Byte} {bytes : List Byte} : pieces d bytes = [] ↔ bytes = [] := by
  constructor
  · intro h
    cases bytes with
    | nil => rfl
    | cons c rest => exact absurd h pieces_ne_nil
  · intro h
    rw [h, pieces]

/-- Every piece ends with the delimiter. -/
theorem pieces_getLast {d : Byte} {bytes q : List Byte} (h : q ∈ pieces d bytes) : q = q.dropLast ++ [d] := by
  induction bytes generalizing q with
  | nil => cases h
  | cons c rest ih =>
    rw [pieces] at h
    split at h
    · rename_i hc
      rcases List.mem_cons.mp h with rfl | h
      · rw [hc]; rfl
      · exact ih h
    · cases hp : pieces d rest with
      | nil =>
        simp only [hp, List.mem_singleton] at h
        rw [h]; rfl
      | cons p ps =>
        simp only [hp, List.mem_cons] at h
        rcases h with rfl | h
        · have hne : p ≠ [] := by
            intro hnil
            have := ih (by rw [hp]; exact List.mem_cons_self : p ∈ pieces d rest)
            simp [hnil] at this
          rw [List.dropLast_cons_of_ne_nil hne, List.cons_append, ← ih (by rw [hp]; exact List.mem_cons_self)]
        · exact ih (by rw [hp]; exact List.mem_cons_of_mem _ h)

/-- The pieces of a file are its lines, with a newline each. -/
theorem pieces_eq_map (bytes : List Byte) : pieces 10 bytes = (fileLines bytes).map (· ++ [10]) := by
  rw [fileLines, List.map_map]
  have h : (pieces 10 bytes).map ((· ++ [10]) ∘ List.dropLast) = (pieces 10 bytes).map id := by
    apply List.map_congr_left
    intro q hq
    exact (pieces_getLast hq).symm
  rw [h, List.map_id]

section Reading

variable (mem : Realloc) (signed : Bool) {lb : Linebuffer} {stream : File}

/-- `readlinebuffer` at the end of the file. -/
theorem readlinebuffer_nil (lb : Linebuffer) (hs : stream.Ok) (hp : pieces 10 stream.rest = []) :
    ∃ stream', readlinebuffer mem signed lb stream = .ok (false, lb, stream') ∧ stream'.Ok ∧ stream'.rest = [] := by
  obtain ⟨stream', h, hrest, hs'⟩ := delim_nil mem signed 10 lb hs (pieces_eq_nil.mp hp)
  exact ⟨stream', h, hs', hrest⟩

/-- `readlinebuffer` before the end of the file: the program ends, or the next piece has been read. -/
theorem readlinebuffer_cons (ok : lb.Ok) (hs : stream.Ok) {q : List Byte} {qs : List (List Byte)}
    (hp : pieces 10 stream.rest = q :: qs) :
    readlinebuffer mem signed lb stream = .error .die ∨
      ∃ lb' stream', readlinebuffer mem signed lb stream = .ok (true, lb', stream') ∧ stream'.Ok ∧
        pieces 10 stream'.rest = qs ∧ Reads lb q lb' := by
  have hrest : stream.rest ≠ [] := by
    intro h
    rw [h] at hp
    cases hp
  have heof : stream.feof = false := by
    cases he : stream.feof with
    | false => rfl
    | true => exact absurd (hs.feof he) hrest
  have h10 : charInt signed 10 = (10 : Byte).toNat := by cases signed <;> rfl
  have hcons := pieces_cons h10 stream stream.rest hrest
  rw [hp, List.cons.injEq] at hcons
  obtain ⟨hq, hqs⟩ := hcons
  obtain h | ⟨lb', h, ok', hiff, hle, hexact⟩ := delim_spec mem signed 10 ok hs.ferror hs.fails heof hrest
  · exact Or.inl h
  · right
    rw [← hq] at hiff hle hexact
    exact ⟨lb', _, h, afterLine_ok hs heof _, hqs.symm, ok', hle, hiff, hexact⟩

end Reading

/-! ## A file that is read -/

/-- The lengths and the sizes of the buffers of a file. -/
def Infile.rooms (s : Infile) : Rooms := fun k => ((s.lba k).length, (s.lba k).size)

/-- A file of which the pieces `ps` are still to be compared; the first of them is the line that has been read, and it
has got at least its length. -/
structure Pending (s : Infile) (ps : List (List Byte)) : Prop where
  lba : ∀ k, (s.lba k).Ok
  stream : s.stream.Ok
  rest : pieces 10 s.stream.rest = ps.tail
  thisline : s.thisline = true ↔ ps ≠ []
  line : ∀ q ∈ ps.head?, 0 < q.length ∧ q.length ≤ s.line.length

theorem Pending.line_ok {s : Infile} {ps : List (List Byte)} (h : Pending s ps) : s.line.Ok := h.lba s.alt0

/-- The line and all pieces behind it have their lengths in the buffers. -/
def Exactly (s : Infile) : List (List Byte) → Prop
  | [] => True
  | q :: qs => s.line.length = q.length ∧ FitsInTurn s.rooms (s.alt0 + 1) qs

theorem Exactly.tail {s : Infile} {ps : List (List Byte)} (h : Exactly s ps) :
    FitsInTurn s.rooms (s.alt0 + 1) ps.tail := by
  cases ps with
  | nil => trivial
  | cons q qs => exact h.2

section Program

variable {mem : Realloc} {signed : Bool} {o : Settings} {s s' : Infile} {seen issued issued' : Bool}
variable {q : List Byte} {qs : List (List Byte)}

/-- The parts of a file after a line has been read, or not. -/
theorem rotate_lba_ok (h : ∀ k, (s.lba k).Ok) {lb : Linebuffer} (ok : lb.Ok) (got : Bool) (stream : File) (k : Fin 4) :
    ((s.rotate got lb stream).lba k).Ok := by
  simp only [Infile.rotate, Function.update_apply]
  split
  · exact ok
  · exact h k

@[simp]
theorem rotate_line (got : Bool) (lb : Linebuffer) (stream : File) : (s.rotate got lb stream).line = lb := by
  simp [Infile.rotate, Infile.line]

/-- What `fillUp` makes of a call of `readlinebuffer`. -/
theorem fillUp_of_read {got : Bool} {lb : Linebuffer} {stream : File}
    (hread : readlinebuffer mem signed (s.lba (s.alt0 + 1)) s.stream = .ok (got, lb, stream)) (hs : stream.Ok) :
    fillUp mem signed o seen issued s =
      match (s.rotate got lb stream).check o seen issued with
      | none => .error .disorder
      | some issued => .ok (s.rotate got lb stream, issued) := by
  unfold fillUp
  rw [hread]
  simp only [hs.ferror, Bool.false_eq_true, if_false]

/-- The call of `readlinebuffer` for a file with pieces: the program ends, or the next piece is in its buffer. -/
theorem read_pending (mem : Realloc) (signed : Bool) (h : Pending s (q :: qs)) :
    readlinebuffer mem signed (s.lba (s.alt0 + 1)) s.stream = .error .die ∨
      ∃ got lb stream, readlinebuffer mem signed (s.lba (s.alt0 + 1)) s.stream = .ok (got, lb, stream) ∧ stream.Ok ∧
        Pending (s.rotate got lb stream) qs ∧ (qs = [] → lb = s.lba (s.alt0 + 1)) ∧
        ∀ q' ∈ qs.head?, Reads (s.lba (s.alt0 + 1)) q' lb := by
  have ok := h.lba (s.alt0 + 1)
  have hrest : pieces 10 s.stream.rest = qs := h.rest
  cases qs with
  | nil =>
    right
    obtain ⟨stream, hread, hs, hnil⟩ := readlinebuffer_nil mem signed (s.lba (s.alt0 + 1)) h.stream hrest
    refine ⟨false, _, stream, hread, hs, ?_, fun _ => rfl, by simp⟩
    constructor
    · exact rotate_lba_ok h.lba ok false stream
    · exact hs
    · simp [Infile.rotate, hnil, pieces]
    · simp [Infile.rotate]
    · simp
  | cons q' qs =>
    obtain hread | ⟨lb, stream, hread, hs, hnext, hreads⟩ := readlinebuffer_cons mem signed ok h.stream hrest
    · exact Or.inl hread
    · right
      refine ⟨true, lb, stream, hread, hs, ?_, by simp, by simpa using hreads⟩
      have hmem : q' ∈ pieces 10 s.stream.rest := by
        rw [hrest]
        exact List.mem_cons_self
      constructor
      · exact rotate_lba_ok h.lba hreads.ok true stream
      · exact hs
      · simpa [Infile.rotate] using hnext
      · simp [Infile.rotate]
      · intro p hp
        obtain rfl : q' = p := by simpa using hp
        refine ⟨?_, by rw [rotate_line]; exact hreads.le⟩
        rw [pieces_getLast hmem]
        simp

/-- A file that is stepped has one piece less. -/
theorem fillUp_pending (h : Pending s (q :: qs)) (hfill : fillUp mem signed o seen issued s = .ok (s', issued')) :
    Pending s' qs ∧ s'.alt0 = s.alt0 + 1 ∧ s'.lba = Function.update s.lba (s.alt0 + 1) s'.line ∧
      ∀ q' ∈ qs.head?, Reads (s.lba (s.alt0 + 1)) q' s'.line := by
  obtain hread | ⟨got, lb, stream, hread, hs, hpend, -, hreads⟩ := read_pending mem signed h
  · rw [fillUp, hread] at hfill
    cases hfill
  · rw [fillUp_of_read hread hs] at hfill
    split at hfill
    · cases hfill
    · obtain ⟨rfl, -⟩ := Prod.mk.inj (Except.ok.inj hfill)
      rw [rotate_line]
      exact ⟨hpend, rfl, rfl, hreads⟩

theorem rooms_update (lba : Fin 4 → Linebuffer) (k : Fin 4) (lb : Linebuffer) :
    (fun j => ((Function.update lba k lb j).length, (Function.update lba k lb j).size)) =
      Function.update (fun j => ((lba j).length, (lba j).size)) k (lb.length, lb.size) := by
  funext j
  by_cases h : j = k
  · subst h; simp
  · simp [h]

/-- If all pieces behind a line have their lengths, they fit. -/
theorem exactly_of_fillUp (h : Pending s (q :: qs)) (hfill : fillUp mem signed o seen issued s = .ok (s', issued'))
    (hexact : Exactly s' qs) (hline : s.line.length = q.length) : Exactly s (q :: qs) := by
  obtain ⟨-, halt, hlba, hreads⟩ := fillUp_pending h hfill
  refine ⟨hline, ?_⟩
  cases qs with
  | nil => trivial
  | cons q' qs =>
    obtain ⟨hlen, hfits⟩ := hexact
    have hr := hreads q' rfl
    obtain ⟨htext, hsize⟩ := hr.exact hlen
    refine ⟨hr.room.mp htext, ?_⟩
    rw [halt] at hfits
    unfold Infile.rooms at hfits ⊢
    rw [hlba, rooms_update, hlen, hsize] at hfits
    exact hfits

/-! ## The lengths of what is written -/

/-- How many bytes some lines have. -/
def total (ls : List (List Byte)) : ℕ := (ls.map List.length).sum

@[simp]
theorem total_cons (l : List Byte) (ls : List (List Byte)) : total (l :: ls) = l.length + total ls := by
  simp [total]

/-- A file that is stepped has been filled up, and one that is not is as it was. -/
structure Stepped (mem : Realloc) (signed : Bool) (o : Settings) (taken : Bool) (s s' : Infile) : Prop where
  fill : taken = true → ∃ seen i i', fillUp mem signed o seen i s = .ok (s', i')
  keep : taken = false → s' = s

/-- A pass steps the file that the line came from, or both. -/
theorem step_stepped {st st' : Comparing} (h : st.step mem signed o = .ok st') :
    Stepped mem signed o (decide (st.order o ≤ 0)) st.one st'.one ∧
      Stepped mem signed o (decide (st.order o ≥ 0)) st.two st'.two := by
  unfold Comparing.step at h
  dsimp only at h
  split at h
  · cases h
  · rename_i one issued1 h1
    split at h
    · cases h
    · rename_i two issued2 h2
      obtain rfl := Except.ok.inj h
      constructor
      · constructor
        · intro ho
          rw [if_pos (of_decide_eq_true ho)] at h1
          exact ⟨_, _, _, h1⟩
        · intro ho
          rw [if_neg (of_decide_eq_false ho)] at h1
          exact (Prod.mk.inj (Except.ok.inj h1)).1.symm
      · constructor
        · intro ho
          rw [if_pos (of_decide_eq_true ho)] at h2
          exact ⟨_, _, _, h2⟩
        · intro ho
          rw [if_neg (of_decide_eq_false ho)] at h2
          exact (Prod.mk.inj (Except.ok.inj h2)).1.symm

/-- One file over a pass: if the bytes written for the rest are those of its rest, so they are with the line. -/
theorem stepped_total {ps : List (List Byte)} (h : Pending s ps) {taken : Bool}
    (hstep : Stepped mem signed o taken s s') (htaken : taken = true → s.thisline = true) :
    ∃ ps', Pending s' ps' ∧ ∀ w : List (List Byte), total ps' ≤ total w → (total w = total ps' → Exactly s' ps') →
      ∀ line : List Byte, (taken = true → line.length = s.line.length) →
        total ps ≤ total (if taken then line :: w else w) ∧
          (total (if taken then line :: w else w) = total ps → Exactly s ps) := by
  cases htk : taken with
  | false =>
    obtain rfl := hstep.keep htk
    exact ⟨ps, h, fun w hw hex line _ => ⟨hw, hex⟩⟩
  | true =>
    obtain ⟨seen, i, i', hfill⟩ := hstep.fill htk
    cases ps with
    | nil =>
      have := h.thisline.mp (htaken htk)
      exact absurd rfl this
    | cons q qs =>
      obtain ⟨hpend, -⟩ := fillUp_pending h hfill
      refine ⟨qs, hpend, ?_⟩
      intro w hw hex line hline
      have hle := (h.line q rfl).2
      simp only [if_true, total_cons, hline rfl]
      constructor
      · omega
      · intro heq
        exact exactly_of_fillUp h hfill (hex (by omega)) (by omega)

section Pass

variable {st st' : Comparing} {ps1 ps2 : List (List Byte)}

theorem thisline_of_order_le (h : st.order o ≤ 0) : st.one.thisline = true := by
  unfold Comparing.order at h
  cases ht : st.one.thisline with
  | true => rfl
  | false => simp [ht] at h

theorem thisline_of_order_ge (hgo : (st.one.thisline || st.two.thisline) = true) (h : st.order o ≥ 0) :
    st.two.thisline = true := by
  unfold Comparing.order at h
  cases ht : st.two.thisline with
  | true => rfl
  | false =>
    rw [ht, Bool.or_false] at hgo
    simp [ht, hgo] at h

/-- How the lines of two files compare that both have one. -/
theorem order_spec (h1 : Pending st.one ps1) (h2 : Pending st.two ps2) (ht1 : st.one.thisline = true)
    (ht2 : st.two.thisline = true) :
    (st.order o < 0 ↔ st.one.line.value < st.two.line.value) ∧
      (st.order o = 0 ↔ st.one.line.value = st.two.line.value) := by
  obtain ⟨q1, qs1, rfl⟩ := List.exists_cons_of_ne_nil (h1.thisline.mp ht1)
  obtain ⟨q2, qs2, rfl⟩ := List.exists_cons_of_ne_nil (h2.thisline.mp ht2)
  have hp1 := h1.line q1 rfl
  have hp2 := h2.line q2 rfl
  have horder : st.order o = lineOrder o st.one.line st.two.line := by simp [Comparing.order, ht1, ht2]
  rw [horder]
  exact lineOrder_spec o h1.line_ok h2.line_ok (by omega) (by omega)

/-- Lines that compare equal are equally long. -/
theorem length_eq_of_order_eq (h1 : Pending st.one ps1) (h2 : Pending st.two ps2) (ht1 : st.one.thisline = true)
    (ht2 : st.two.thisline = true) (h : st.order o = 0) : st.two.line.length = st.one.line.length := by
  have hval := congrArg List.length ((order_spec h1 h2 ht1 ht2).2.mp h)
  obtain ⟨q1, qs1, rfl⟩ := List.exists_cons_of_ne_nil (h1.thisline.mp ht1)
  obtain ⟨q2, qs2, rfl⟩ := List.exists_cons_of_ne_nil (h2.thisline.mp ht2)
  have hp1 := h1.line q1 rfl
  have hp2 := h2.line q2 rfl
  have hb1 := h1.line_ok.block
  have hb2 := h2.line_ok.block
  have hl1 := h1.line_ok.line
  have hl2 := h2.line_ok.line
  simp only [Linebuffer.value, List.length_take] at hval
  omega

/-- The line that is written belongs to the first file when that file is stepped. -/
theorem call_first (h1 : Pending st.one ps1) (h2 : Pending st.two ps2)
    (hgo : (st.one.thisline || st.two.thisline) = true) (h : st.order o ≤ 0) :
    (st.call o).2.length = st.one.line.length := by
  unfold Comparing.call
  by_cases h0 : st.order o = 0
  · rw [if_pos h0, h2.line_ok.length_text]
    exact length_eq_of_order_eq h1 h2 (thisline_of_order_le h) (thisline_of_order_ge hgo (Int.le_of_eq h0.symm)) h0
  · rw [if_neg h0, if_pos h]
    exact h1.line_ok.length_text

/-- The line that is written belongs to the second file when that file is stepped. -/
theorem call_second (h2 : Pending st.two ps2) (h : st.order o ≥ 0) : (st.call o).2.length = st.two.line.length := by
  unfold Comparing.call
  by_cases h0 : st.order o = 0
  · rw [if_pos h0]
    exact h2.line_ok.length_text
  · rw [if_neg h0, if_neg (by omega)]
    exact h2.line_ok.length_text

theorem firsts_call (st : Comparing) (calls : List (Found × List Byte)) :
    firsts (st.call o :: calls) =
      if decide (st.order o ≤ 0) then (st.call o).2 :: firsts calls else firsts calls := by
  unfold Comparing.call
  by_cases h0 : st.order o = 0
  · simp [h0]
  · by_cases hle : st.order o ≤ 0 <;> simp [h0, hle]

theorem seconds_call (st : Comparing) (calls : List (Found × List Byte)) :
    seconds (st.call o :: calls) =
      if decide (st.order o ≥ 0) then (st.call o).2 :: seconds calls else seconds calls := by
  unfold Comparing.call
  by_cases h0 : st.order o = 0
  · simp [h0]
  · by_cases hle : st.order o ≤ 0
    · have hlt : ¬ st.order o ≥ 0 := by omega
      simp [h0, hle, hlt]
    · have hge : st.order o ≥ 0 := by omega
      simp [h0, hle, hge]

end Pass

/-- A run to the end: of each file at least as many bytes are taken as it has, and just as many only if all pieces fit
into their buffers. -/
theorem loop_total {fuel : ℕ} {st st' : Comparing} {calls : List (Found × List Byte)} {ps1 ps2 : List (List Byte)}
    (h : compareLoop mem signed o fuel st = some (calls, .ok st')) (h1 : Pending st.one ps1) (h2 : Pending st.two ps2) :
    (total ps1 ≤ total (firsts calls) ∧ (total (firsts calls) = total ps1 → Exactly st.one ps1)) ∧
      total ps2 ≤ total (seconds calls) ∧ (total (seconds calls) = total ps2 → Exactly st.two ps2) := by
  induction fuel generalizing st calls ps1 ps2 with
  | zero => cases h
  | succ fuel ih =>
    rw [compareLoop] at h
    split at h
    · rename_i hgo
      split at h
      · cases h
      · rename_i st₁ hstep
        obtain ⟨⟨calls', e⟩, hrun, heq⟩ := Option.map_eq_some_iff.mp h
        obtain ⟨rfl, rfl⟩ := Prod.mk.inj heq
        obtain ⟨hs1, hs2⟩ := step_stepped hstep
        obtain ⟨ps1', h1', hone⟩ := stepped_total h1 hs1 (fun ht => thisline_of_order_le (of_decide_eq_true ht))
        obtain ⟨ps2', h2', htwo⟩ := stepped_total h2 hs2 (fun ht => thisline_of_order_ge hgo (of_decide_eq_true ht))
        obtain ⟨⟨hle1, hex1⟩, hle2, hex2⟩ := ih hrun h1' h2'
        rw [firsts_call, seconds_call]
        constructor
        · exact hone _ hle1 hex1 _ (fun ht => call_first h1 h2 hgo (of_decide_eq_true ht))
        · exact htwo _ hle2 hex2 _ (fun ht => call_second h2 (of_decide_eq_true ht))
    · rename_i hgo
      obtain ⟨rfl, -⟩ := Prod.mk.inj (Option.some.inj h)
      simp only [Bool.or_eq_true, not_or] at hgo
      have hnil1 : ps1 = [] := by
        by_contra hne
        exact hgo.1 (h1.thisline.mpr hne)
      have hnil2 : ps2 = [] := by
        by_contra hne
        exact hgo.2 (h2.thisline.mpr hne)
      subst hnil1 hnil2
      exact ⟨⟨le_rfl, fun _ => trivial⟩, le_rfl, fun _ => trivial⟩

/-! ## Files that fit -/

/-- A text with a newline. -/
def withNewline (v : List Byte) : List Byte := v ++ [10]

/-- A file of which the lines `vs` are still to be compared, in order, and all of them fit into their buffers; the two
lines before them are in order too. -/
structure Fitting (s : Infile) (vs : List (List Byte)) : Prop where
  pending : Pending s (vs.map withNewline)
  line : ∀ v ∈ vs.head?, s.line.text = withNewline v
  fits : FitsInTurn s.rooms (s.alt0 + 1) (vs.map withNewline).tail
  sorted : vs.Pairwise (· ≤ ·)
  prev : s.thisline = true → (s.lba s.alt1).value ≤ s.line.value
  apart : s.alt0 + 1 ≠ s.alt1

theorem value_eq {lb : Linebuffer} (ok : lb.Ok) {v : List Byte} (h : lb.text = withNewline v) : lb.value = v := by
  have hv : lb.value = lb.text.dropLast := by
    rw [Linebuffer.value, Linebuffer.text, List.dropLast_eq_take, List.take_take, List.length_take]
    have := ok.block
    have := ok.line
    congr 1
    omega
  rw [hv, h, withNewline, List.dropLast_concat]

/-- Stepping a file that fits: the program ends because the memory is exhausted, or the next line is read, and nothing
is wrong with the order. -/
theorem fillUp_fitting (mem : Realloc) (signed : Bool) (o : Settings) (seen issued : Bool) {v : List Byte}
    {vs : List (List Byte)} (h : Fitting s (v :: vs)) :
    fillUp mem signed o seen issued s = .error (.fault .die) ∨
      ∃ s', fillUp mem signed o seen issued s = .ok (s', issued) ∧ Fitting s' vs := by
  have hpend : Pending s (withNewline v :: vs.map withNewline) := h.pending
  obtain ⟨hv, hsorted⟩ := List.pairwise_cons.mp h.sorted
  have hfits : FitsInTurn s.rooms (s.alt0 + 1) (vs.map withNewline) := h.fits
  have hval : s.line.value = v := value_eq hpend.line_ok (h.line v rfl)
  have hthis : s.thisline = true := hpend.thisline.mpr (List.cons_ne_nil _ _)
  obtain hread | ⟨got, lb, stream, hread, hs, hpend', hnil, hreads⟩ := read_pending mem signed hpend
  · left
    rw [fillUp, hread]
  · right
    rw [fillUp_of_read hread hs]
    -- The two buffers before the next one keep what they hold.
    have hkeep0 : (s.rotate got lb stream).lba s.alt0 = s.line := by
      have : s.alt0 ≠ s.alt0 + 1 := by omega
      simp [Infile.rotate, Infile.line, this]
    have hkeep1 : (s.rotate got lb stream).lba s.alt1 = s.lba s.alt1 := by
      simp [Infile.rotate, h.apart.symm]
    have hapart : s.alt0 + 1 + 1 ≠ s.alt0 := by omega
    cases vs with
    | nil =>
      have hgot : got = false := by
        cases got with
        | false => rfl
        | true => exact absurd rfl (hpend'.thisline.mp rfl)
      subst hgot
      have hcheck : (s.rotate false lb stream).check o seen issued = some issued := by
        have hle := checkOrder_of_le o seen issued (h.pending.lba s.alt1) h.pending.line_ok (h.prev hthis)
        simp only [Infile.check]
        rw [show (s.rotate false lb stream).alt2 = s.alt1 from rfl,
          show (s.rotate false lb stream).alt1 = s.alt0 from rfl, hkeep0, hkeep1, hle]
        simp [Infile.rotate]
      rw [hcheck]
      refine ⟨_, rfl, hpend', by simp, trivial, List.Pairwise.nil, by simp [Infile.rotate], hapart⟩
    | cons v' vs =>
      have hgot : got = true := hpend'.thisline.mpr (List.cons_ne_nil _ _)
      subst hgot
      obtain ⟨hroom, hfits⟩ := hfits
      have hr := hreads (withNewline v') rfl
      have htext : lb.text = withNewline v' := hr.room.mpr hroom
      have hlen : lb.length = (withNewline v').length := by rw [← htext, hr.ok.length_text]
      have hval' : lb.value = v' := value_eq hr.ok htext
      have hle : s.line.value ≤ lb.value := by
        rw [hval, hval']
        exact hv v' List.mem_cons_self
      have hcheck : (s.rotate true lb stream).check o seen issued = some issued := by
        have hle := checkOrder_of_le o seen issued h.pending.line_ok hr.ok hle
        simp only [Infile.check, rotate_line]
        rw [show (s.rotate true lb stream).alt1 = s.alt0 from rfl, hkeep0, hle]
        simp [Infile.rotate]
      rw [hcheck]
      refine ⟨_, rfl, hpend', ?_, ?_, hsorted, ?_, hapart⟩
      · intro p hp
        obtain rfl : v' = p := by simpa using hp
        rw [rotate_line]
        exact htext
      · have hrooms : (s.rotate true lb stream).rooms =
            Function.update s.rooms (s.alt0 + 1) ((withNewline v').length, capacity (withNewline v').length
              (s.rooms (s.alt0 + 1)).2) := by
          rw [← hlen]
          have hsize := (hr.exact hlen).2
          rw [← hlen] at hsize
          unfold Infile.rooms Infile.rotate
          rw [rooms_update, hsize]
        rw [hrooms]
        exact hfits
      · intro _
        rw [rotate_line, show (s.rotate true lb stream).alt1 = s.alt0 from rfl, hkeep0]
        exact hle

/-- The calls of `writeline` for lines of the two files. -/
def callsOf (vs1 vs2 : List (List Byte)) : List (Found × List Byte) :=
  (matchUp vs1 vs2).map fun x => (x.1, withNewline x.2)

/-- A file that fits is filled up, or not. -/
theorem fill_if (mem : Realloc) (signed : Bool) (o : Settings) (seen issued : Bool) {vs : List (List Byte)}
    (h : Fitting s vs) (b : Prop) [Decidable b] (hb : b → vs ≠ []) :
    (if b then fillUp mem signed o seen issued s else .ok (s, issued)) = .error (.fault .die) ∨
      ∃ s', (if b then fillUp mem signed o seen issued s else .ok (s, issued)) = .ok (s', issued) ∧
        Fitting s' (if b then vs.tail else vs) := by
  by_cases hpos : b
  · obtain ⟨v, ws, rfl⟩ := List.exists_cons_of_ne_nil (hb hpos)
    simp only [if_pos hpos]
    exact fillUp_fitting mem signed o seen issued h
  · simp only [if_neg hpos]
    exact Or.inr ⟨s, rfl, h⟩

section Pass

variable {st : Comparing} {vs1 vs2 : List (List Byte)}

theorem Fitting.thisline {vs : List (List Byte)} (h : Fitting s vs) : s.thisline = true ↔ vs ≠ [] := by
  rw [h.pending.thisline, ne_eq, List.map_eq_nil_iff]

/-- A pass on files that fit. -/
theorem step_fitting (mem : Realloc) (signed : Bool) (o : Settings) (h1 : Fitting st.one vs1) (h2 : Fitting st.two vs2)
    (hgo : (st.one.thisline || st.two.thisline) = true) :
    st.step mem signed o = .error (.fault .die) ∨
      ∃ st', st.step mem signed o = .ok st' ∧
        Fitting st'.one (if st.order o ≤ 0 then vs1.tail else vs1) ∧
        Fitting st'.two (if st.order o ≥ 0 then vs2.tail else vs2) := by
  unfold Comparing.step
  dsimp only
  obtain hone | ⟨one, hone, h1'⟩ := fill_if mem signed o (st.seenUnpairable || decide (st.order o ≠ 0)) st.issued1 h1
    (st.order o ≤ 0) (fun ho => h1.thisline.mp (thisline_of_order_le ho))
  · left
    rw [hone]
  · rw [hone]
    obtain htwo | ⟨two, htwo, h2'⟩ := fill_if mem signed o (st.seenUnpairable || decide (st.order o ≠ 0)) st.issued2 h2
      (st.order o ≥ 0) (fun ho => h2.thisline.mp (thisline_of_order_ge hgo ho))
    · left
      simp only [htwo]
    · right
      simp only [htwo]
      exact ⟨_, rfl, h1', h2'⟩

/-- The call of a pass is the one for the smaller line. -/
theorem callsOf_pass (h1 : Fitting st.one vs1) (h2 : Fitting st.two vs2)
    (hgo : (st.one.thisline || st.two.thisline) = true) :
    callsOf vs1 vs2 =
      st.call o :: callsOf (if st.order o ≤ 0 then vs1.tail else vs1) (if st.order o ≥ 0 then vs2.tail else vs2) := by
  have ht1 := h1.thisline
  have ht2 := h2.thisline
  cases vs1 with
  | nil =>
    have hone : st.one.thisline = false := by simpa using ht1
    have ho : st.order o = 1 := by simp [Comparing.order, hone]
    cases vs2 with
    | nil =>
      have htwo : st.two.thisline = false := by simpa using ht2
      simp [hone, htwo] at hgo
    | cons w ws =>
      simp [callsOf, matchUp, Comparing.call, ho, h2.line w rfl]
  | cons v vs =>
    have hone : st.one.thisline = true := by simpa using ht1
    cases vs2 with
    | nil =>
      have htwo : st.two.thisline = false := by simpa using ht2
      have ho : st.order o = -1 := by simp [Comparing.order, hone, htwo]
      simp [callsOf, matchUp, Comparing.call, ho, h1.line v rfl]
    | cons w ws =>
      have htwo : st.two.thisline = true := by simpa using ht2
      obtain ⟨hlt, heq⟩ := order_spec (o := o) h1.pending h2.pending hone htwo
      rw [value_eq h1.pending.line_ok (h1.line v rfl), value_eq h2.pending.line_ok (h2.line w rfl)] at hlt heq
      rw [callsOf, matchUp]
      rcases lt_trichotomy v w with h | h | h
      · have ho := hlt.mpr h
        have hge : ¬ st.order o ≥ 0 := by omega
        have hle : st.order o ≤ 0 := by omega
        have hne : st.order o ≠ 0 := by omega
        simp [callsOf, Comparing.call, h, hge, hle, hne, h1.line v rfl]
      · have ho := heq.mpr h
        simp [callsOf, Comparing.call, h, ho, h2.line w rfl]
      · have hnlt : ¬ st.order o < 0 := fun h' => absurd (hlt.mp h') (not_lt.mpr h.le)
        have hne : st.order o ≠ 0 := fun h' => h.ne' (heq.mp h')
        have hge : st.order o ≥ 0 := by omega
        have hle : ¬ st.order o ≤ 0 := by omega
        simp [callsOf, Comparing.call, h, not_lt.mpr h.le, hge, hle, hne, h2.line w rfl]

/-- A pass leaves fewer lines. -/
theorem length_pass (h1 : Fitting st.one vs1) (h2 : Fitting st.two vs2)
    (hgo : (st.one.thisline || st.two.thisline) = true) :
    (if st.order o ≤ 0 then vs1.tail else vs1).length + (if st.order o ≥ 0 then vs2.tail else vs2).length <
      vs1.length + vs2.length := by
  by_cases hle : st.order o ≤ 0
  · have hpos := List.length_pos_of_ne_nil (h1.thisline.mp (thisline_of_order_le hle))
    rw [if_pos hle, List.length_tail]
    split
    · rw [List.length_tail]; omega
    · omega
  · have hge : st.order o ≥ 0 := by omega
    have hpos := List.length_pos_of_ne_nil (h2.thisline.mp (thisline_of_order_ge hgo hge))
    rw [if_neg hle, if_pos hge, List.length_tail]
    omega

end Pass

/-- A run on files that fit: the program ends because the memory is exhausted, or the calls are those for the lines of
the two files. -/
theorem loop_fitting (mem : Realloc) (signed : Bool) (o : Settings) {fuel : ℕ} (st : Comparing)
    {vs1 vs2 : List (List Byte)} (h1 : Fitting st.one vs1) (h2 : Fitting st.two vs2)
    (hfuel : vs1.length + vs2.length < fuel) :
    (∃ calls, compareLoop mem signed o fuel st = some (calls, .error (.fault .die))) ∨
      ∃ st', compareLoop mem signed o fuel st = some (callsOf vs1 vs2, .ok st') ∧
        st'.one.stream.rest = [] ∧ st'.two.stream.rest = [] := by
  induction fuel generalizing st vs1 vs2 with
  | zero => cases hfuel
  | succ fuel ih =>
    rw [compareLoop]
    by_cases hgo : (st.one.thisline || st.two.thisline) = true
    · rw [if_pos hgo]
      obtain hstep | ⟨st₁, hstep, h1', h2'⟩ := step_fitting mem signed o h1 h2 hgo
      · left
        rw [hstep]
        exact ⟨_, rfl⟩
      · rw [hstep]
        have hlen := length_pass (o := o) h1 h2 hgo
        obtain ⟨calls, hrun⟩ | ⟨st', hrun, hrest⟩ := ih st₁ h1' h2' (by omega)
        · left
          exact ⟨_, by simp only [hrun]; rfl⟩
        · right
          refine ⟨st', ?_, hrest⟩
          simp only [hrun, Option.map_some]
          rw [callsOf_pass (o := o) h1 h2 hgo]
    · right
      rw [if_neg hgo]
      simp only [Bool.or_eq_true, not_or] at hgo
      have hnil1 : vs1 = [] := by
        by_contra hne
        exact hgo.1 (h1.thisline.mpr hne)
      have hnil2 : vs2 = [] := by
        by_contra hne
        exact hgo.2 (h2.thisline.mpr hne)
      subst hnil1 hnil2
      refine ⟨st, by simp [callsOf, matchUp], ?_, ?_⟩
      · exact pieces_eq_nil.mp h1.pending.rest
      · exact pieces_eq_nil.mp h2.pending.rest

end Program

/-! ## The whole program -/

section Files

variable {mem : Realloc} {signed : Bool} {s : Infile} {bytes : List Byte}

/-- A file at its start: the program ends because the memory is exhausted, or the first piece is in its buffer. -/
theorem openInfile_spec (mem : Realloc) (signed : Bool) (bytes : List Byte) :
    openInfile mem signed bytes = .error (.fault .die) ∨
      ∃ s, openInfile mem signed bytes = .ok s ∧ Pending s (pieces 10 bytes) ∧ s.alt0 = 0 ∧ s.alt1 = 0 ∧
        ∀ q ∈ (pieces 10 bytes).head?, s.line.text = q ∧
          s.rooms = Function.update (fun _ => (0, 0)) 0 (q.length, capacity q.length 0) := by
  have ok : initbuffer.Ok := ⟨rfl, le_rfl⟩
  have hs : (File.ofBytes bytes).Ok := ⟨rfl, rfl, fun h => by cases h⟩
  have hlba : ∀ {lb : Linebuffer}, lb.Ok → ∀ k : Fin 4, (Function.update (fun _ => initbuffer) 0 lb k).Ok := by
    intro lb hlb k
    rw [Function.update_apply]
    split
    · exact hlb
    · exact ok
  unfold openInfile
  cases hp : pieces 10 bytes with
  | nil =>
    right
    obtain ⟨stream, hread, hs', hrest⟩ := readlinebuffer_nil mem signed initbuffer hs hp
    rw [hread]
    simp only [hs'.ferror, Bool.false_eq_true, if_false]
    refine ⟨_, rfl, ⟨hlba ok, hs', by rw [hrest]; rfl, by simp, by simp⟩, rfl, rfl, by simp⟩
  | cons q qs =>
    obtain hread | ⟨lb, stream, hread, hs', hrest, hr⟩ := readlinebuffer_cons mem signed ok hs hp
    · left
      rw [hread]
    · right
      rw [hread]
      simp only [hs'.ferror, Bool.false_eq_true, if_false]
      have htext : lb.text = q := hr.room.mpr (Or.inr rfl)
      have hlen : lb.length = q.length := by rw [← htext, hr.ok.length_text]
      have hmem : q ∈ pieces 10 bytes := by
        rw [hp]
        exact List.mem_cons_self
      refine ⟨_, rfl, ⟨hlba hr.ok, hs', hrest, by simp, ?_⟩, rfl, rfl, ?_⟩
      · intro p hq
        obtain rfl : q = p := by simpa using hq
        refine ⟨?_, hr.le⟩
        rw [pieces_getLast hmem]
        simp
      · intro p hq
        obtain rfl : q = p := by simpa using hq
        refine ⟨htext, ?_⟩
        unfold Infile.rooms
        rw [rooms_update, hlen, (hr.exact hlen).2]
        rfl

/-- The pieces of a file fit into four fresh buffers. -/
def FileFits (bytes : List Byte) : Prop := FitsInTurn (fun _ => (0, 0)) 0 (pieces 10 bytes)

/-- The first piece fits; the rest fits if all of them have their lengths. -/
theorem fileFits_iff {ps : List (List Byte)} (halt : s.alt0 = 0)
    (hrooms : ∀ q ∈ ps.head?, s.rooms = Function.update (fun _ => (0, 0)) 0 (q.length, capacity q.length 0)) :
    FitsInTurn (fun _ => (0, 0)) 0 ps ↔ FitsInTurn s.rooms (s.alt0 + 1) ps.tail := by
  cases ps with
  | nil => exact Iff.rfl
  | cons q qs =>
    rw [hrooms q rfl, halt, FitsInTurn, List.tail_cons]
    exact and_iff_right (Or.inr rfl)

end Files

/-- The columns of which only one is shown. -/
def onlyColumn (delimiter : List Byte) (c : Found) : Columns := ⟨c = .first, c = .second, c = .both, delimiter⟩

/-- How many bytes are written in a column, each line with `k` bytes more. -/
def columnTotal (k : ℕ) (c : Found) (calls : List (Found × List Byte)) : ℕ :=
  ((calls.filter fun x => x.1 = c).map fun x => x.2.length + k).sum

theorem length_printed (delimiter : List Byte) (c : Found) (calls : List (Found × List Byte)) :
    (printed (onlyColumn delimiter c) calls).length = columnTotal 0 c calls := by
  induction calls with
  | nil => rfl
  | cons x calls ih =>
    obtain ⟨d, line⟩ := x
    unfold printed columnTotal at ih ⊢
    rw [List.flatMap_cons, List.length_append, ih]
    cases c <;> cases d <;> simp [writeline, onlyColumn]

theorem length_entries (delimiter : List Byte) (c : Found) (emitted : List (Found × List Byte)) :
    (emitted.flatMap (onlyColumn delimiter c).entry).length = columnTotal 1 c emitted := by
  induction emitted with
  | nil => rfl
  | cons x emitted ih =>
    obtain ⟨d, v⟩ := x
    unfold columnTotal at ih ⊢
    rw [List.flatMap_cons, List.length_append, ih]
    cases c <;> cases d <;> simp [Columns.entry, Columns.shows, lowerColumns, onlyColumn]

theorem sum_firsts (k : ℕ) (r : List (Found × List Byte)) :
    ((firsts r).map fun v => v.length + k).sum = columnTotal k .first r + columnTotal k .both r := by
  induction r with
  | nil => rfl
  | cons x r ih =>
    obtain ⟨c, line⟩ := x
    unfold columnTotal at ih ⊢
    cases c <;> simp [ih] <;> omega

theorem sum_seconds (k : ℕ) (r : List (Found × List Byte)) :
    ((seconds r).map fun v => v.length + k).sum = columnTotal k .second r + columnTotal k .both r := by
  induction r with
  | nil => rfl
  | cons x r ih =>
    obtain ⟨c, line⟩ := x
    unfold columnTotal at ih ⊢
    cases c <;> simp [ih] <;> omega

/-- The bytes of a file are those of its lines and the newlines. -/
theorem total_pieces (bytes : List Byte) :
    total (pieces 10 bytes) = ((fileLines bytes).map fun v => v.length + 1).sum := by
  rw [pieces_eq_map, total, List.map_map]
  congr 1
  apply List.map_congr_left
  intro v _
  simp

/-- If each column alone is as expected, so many bytes are taken from each file as it has. -/
theorem total_of_merged (delimiter infile1 infile2 : List Byte) (calls : List (Found × List Byte))
    (h : ∀ c, Merged (onlyColumn delimiter c) infile1 infile2 (printed (onlyColumn delimiter c) calls)) :
    total (firsts calls) = total (pieces 10 infile1) ∧ total (seconds calls) = total (pieces 10 infile2) := by
  obtain ⟨emitted, hcounts, -⟩ := h .both
  have hcolumn : ∀ c, columnTotal 0 c calls = columnTotal 1 c emitted := by
    intro c
    obtain ⟨emitted', hcounts', -, hout⟩ := h c
    rw [← length_printed delimiter, hout, length_entries]
    exact (((hcounts'.perm hcounts).filter _).map _).sum_eq
  have h1 := sum_firsts 0 calls
  have h2 := sum_seconds 0 calls
  have h1' := sum_firsts 1 emitted
  have h2' := sum_seconds 1 emitted
  constructor
  · rw [total_pieces, ← (hcounts.firsts_perm.map fun v : List Byte => v.length + 1).sum_eq, h1', ← hcolumn, ← hcolumn]
    exact h1
  · rw [total_pieces, ← (hcounts.seconds_perm.map fun v : List Byte => v.length + 1).sum_eq, h2', ← hcolumn, ← hcolumn]
    exact h2

/-- The calls for the lines of the files print what is expected. -/
theorem merged_callsOf (cols : Columns) {infile1 infile2 : List Byte} (h1 : (fileLines infile1).Pairwise (· ≤ ·))
    (h2 : (fileLines infile2).Pairwise (· ≤ ·)) :
    Merged cols infile1 infile2 (printed cols (callsOf (fileLines infile1) (fileLines infile2))) := by
  refine ⟨_, counts_matchUp h1 h2, matchUp_sorted h1 h2, ?_⟩
  rw [printed, callsOf, List.flatMap_map]
  congr 1
  funext x
  obtain ⟨c, v⟩ := x
  obtain ⟨b1, b2, b3, d⟩ := cols
  cases c <;> cases b1 <;> cases b2 <;> cases b3 <;>
    simp [writeline, Columns.entry, Columns.shows, lowerColumns, withNewline, List.filter_cons]

/-- A file that fits, at its start. -/
theorem fitting_of_pending {s : Infile} {bytes : List Byte} (hpend : Pending s (pieces 10 bytes)) (halt : s.alt0 = 0)
    (halt1 : s.alt1 = 0) (hline : ∀ q ∈ (pieces 10 bytes).head?, s.line.text = q ∧
      s.rooms = Function.update (fun _ => (0, 0)) 0 (q.length, capacity q.length 0))
    (hsorted : (fileLines bytes).Pairwise (· ≤ ·)) (hfits : FileFits bytes) : Fitting s (fileLines bytes) := by
  have hmap : pieces 10 bytes = (fileLines bytes).map withNewline := pieces_eq_map bytes
  have hrest := (fileFits_iff halt fun q hq => (hline q hq).2).mp hfits
  rw [hmap] at hpend hline hrest
  constructor
  · exact hpend
  · intro v hv
    have hq : withNewline v ∈ ((fileLines bytes).map withNewline).head? := by
      rw [List.head?_map]
      exact Option.mem_map_of_mem _ hv
    exact (hline _ hq).1
  · exact hrest
  · exact hsorted
  · intro _
    rw [halt1, Infile.line, halt]
  · rw [halt, halt1]
    decide

section Run

variable {mem : Realloc} {signed : Bool} {o : Settings} {delimiter infile1 infile2 : List Byte}

/-- More fuel changes nothing. -/
theorem compareLoop_mono {fuel : ℕ} {st : Comparing} {r : List (Found × List Byte) × Except Stop Comparing}
    (h : compareLoop mem signed o fuel st = some r) (k : ℕ) : compareLoop mem signed o (fuel + k) st = some r := by
  induction fuel generalizing st r with
  | zero => cases h
  | succ fuel ih =>
    rw [Nat.add_right_comm, compareLoop]
    rw [compareLoop] at h
    split
    · rename_i hgo
      rw [if_pos hgo] at h
      cases hstep : st.step mem signed o with
      | error e =>
        rw [hstep] at h
        exact h
      | ok st' =>
        rw [hstep] at h
        obtain ⟨r', hrun, rfl⟩ := Option.map_eq_some_iff.mp h
        simp only [ih hrun, Option.map_some]
    · rename_i hgo
      rwa [if_neg hgo] at h

/-- The memory suffices if there is a run to the end. -/
theorem not_die_of_end {fuel : ℕ} {calls : List (Found × List Byte)} {st : Comparing}
    (h : compareFiles mem signed o fuel infile1 infile2 = some (calls, .ok st)) (fuel' : ℕ)
    (calls' : List (Found × List Byte)) :
    compareFiles mem signed o fuel' infile1 infile2 ≠ some (calls', .error (.fault .die)) := by
  intro h'
  unfold compareFiles at h h'
  cases hone : openInfile mem signed infile1 with
  | error e => simp [hone] at h
  | ok one =>
    cases htwo : openInfile mem signed infile2 with
    | error e => simp [hone, htwo] at h
    | ok two =>
      rw [hone, htwo] at h h'
      have h₁ := compareLoop_mono h fuel'
      have h₂ := compareLoop_mono h' fuel
      rw [Nat.add_comm, h₁] at h₂
      cases h₂

/-- If `comm` is right with all options, the files fit. -/
theorem fileFits_of_comparesRight
    (h : ∀ onlyFile1 onlyFile2 both,
      ComparesRight mem signed o ⟨onlyFile1, onlyFile2, both, delimiter⟩ infile1 infile2) :
    FileFits infile1 ∧ FileFits infile2 := by
  -- The run is the same with all options, so there is one that each column is written by.
  obtain ⟨n₁, hn₁⟩ := h true false false
  obtain ⟨n₂, hn₂⟩ := h false true false
  obtain ⟨n₃, hn₃⟩ := h false false true
  obtain ⟨calls, st', hend, -, -, hm₁⟩ := hn₁ (max n₁ (max n₂ n₃)) (by omega)
  obtain ⟨calls₂, st₂, hend₂, -, -, hm₂⟩ := hn₂ (max n₁ (max n₂ n₃)) (by omega)
  obtain ⟨calls₃, st₃, hend₃, -, -, hm₃⟩ := hn₃ (max n₁ (max n₂ n₃)) (by omega)
  obtain rfl : calls = calls₂ := (Prod.mk.inj (Option.some.inj (hend.symm.trans hend₂))).1
  obtain rfl : calls = calls₃ := (Prod.mk.inj (Option.some.inj (hend.symm.trans hend₃))).1
  obtain ⟨ht1, ht2⟩ := total_of_merged delimiter infile1 infile2 calls (by
    intro c
    cases c with
    | first => exact hm₁
    | second => exact hm₂
    | both => exact hm₃)
  unfold compareFiles at hend
  obtain hopen | ⟨one, hone, hpend1, halt1, -, hline1⟩ := openInfile_spec mem signed infile1
  · simp [hopen] at hend
  obtain hopen | ⟨two, htwo, hpend2, halt2, -, hline2⟩ := openInfile_spec mem signed infile2
  · simp [hone, hopen] at hend
  rw [hone, htwo] at hend
  obtain ⟨⟨-, hex1⟩, -, hex2⟩ := loop_total hend hpend1 hpend2
  constructor
  · exact (fileFits_iff halt1 fun q hq => (hline1 q hq).2).mpr (hex1 ht1).tail
  · exact (fileFits_iff halt2 fun q hq => (hline2 q hq).2).mpr (hex2 ht2).tail

/-- If two sorted files fit and the memory suffices, `comm` is right. -/
theorem comparesRight_of_fileFits (cols : Columns) (h1 : (fileLines infile1).Pairwise (· ≤ ·))
    (h2 : (fileLines infile2).Pairwise (· ≤ ·)) (hfits1 : FileFits infile1) (hfits2 : FileFits infile2)
    (hdie : ∀ fuel calls, compareFiles mem signed o fuel infile1 infile2 ≠ some (calls, .error (.fault .die))) :
    ComparesRight mem signed o cols infile1 infile2 := by
  obtain hopen | ⟨one, hone, hpend1, halt1, halt1', hline1⟩ := openInfile_spec mem signed infile1
  · exact absurd (by rw [compareFiles, hopen]) (hdie 0 [])
  obtain hopen | ⟨two, htwo, hpend2, halt2, halt2', hline2⟩ := openInfile_spec mem signed infile2
  · exact absurd (by rw [compareFiles, hone, hopen]) (hdie 0 [])
  have hrun : ∀ fuel, compareFiles mem signed o fuel infile1 infile2 =
      compareLoop mem signed o fuel ⟨one, two, false, false, false⟩ := by
    intro fuel
    rw [compareFiles, hone, htwo]
  have hf1 := fitting_of_pending hpend1 halt1 halt1' hline1 h1 hfits1
  have hf2 := fitting_of_pending hpend2 halt2 halt2' hline2 h2 hfits2
  refine ⟨(fileLines infile1).length + (fileLines infile2).length + 1, fun fuel hfuel => ?_⟩
  have hle : (fileLines infile1).length + (fileLines infile2).length < fuel := hfuel
  obtain ⟨calls, hstop⟩ | ⟨st', hend, hrest1, hrest2⟩ := loop_fitting mem signed o ⟨one, two, false, false, false⟩
    hf1 hf2 hle
  · exact absurd ((hrun fuel).trans hstop) (hdie fuel calls)
  · exact ⟨_, st', (hrun fuel).trans hend, hrest1, hrest2, merged_callsOf cols h1 h2⟩

end Run

/-- `comm` on two sorted files, as long as the memory suffices: with all of the options `-1`, `-2` and `-3` it puts out
what is expected exactly when in both files each line is no longer than the line before it in the same one of the four
buffers, or that line has filled the buffer. -/
theorem comparesRight_iff (mem : Realloc) (signed : Bool) (o : Settings) (delimiter infile1 infile2 : List Byte)
    (h1 : (fileLines infile1).Pairwise (· ≤ ·)) (h2 : (fileLines infile2).Pairwise (· ≤ ·))
    (hdie : ∀ fuel calls, compareFiles mem signed o fuel infile1 infile2 ≠ some (calls, .error (.fault .die))) :
    (∀ onlyFile1 onlyFile2 both,
        ComparesRight mem signed o ⟨onlyFile1, onlyFile2, both, delimiter⟩ infile1 infile2) ↔
      FileFits infile1 ∧ FileFits infile2 := by
  constructor
  · intro h
    exact fileFits_of_comparesRight h
  · rintro ⟨hfits1, hfits2⟩ onlyFile1 onlyFile2 both
    exact comparesRight_of_fileFits _ h1 h2 hfits1 hfits2 hdie

/-- The lines `a`, `b`, `b` and the lines `b`, `c`, with a default delimiter. -/
theorem comparesRight_example :
    ComparesRight clearing true ⟨false, .default⟩ ⟨true, true, true, [9]⟩
      [97, 10, 98, 10, 98, 10] [98, 10, 99, 10] := by
  have hp1 : pieces 10 [97, 10, 98, 10, 98, 10] = [[97, 10], [98, 10], [98, 10]] := by decide
  have hp2 : pieces 10 [98, 10, 99, 10] = [[98, 10], [99, 10]] := by decide
  have hend : ∃ calls st, compareFiles clearing true ⟨false, .default⟩ 6 [97, 10, 98, 10, 98, 10] [98, 10, 99, 10] =
      some (calls, .ok st) := ⟨_, _, rfl⟩
  obtain ⟨calls, st, hend⟩ := hend
  exact (comparesRight_iff clearing true ⟨false, .default⟩ [9] [97, 10, 98, 10, 98, 10] [98, 10, 99, 10] (by decide)
    (by decide) (not_die_of_end hend)).mpr
    ⟨by simp [FileFits, hp1, FitsInTurn], by simp [FileFits, hp2, FitsInTurn]⟩ true true true

/-- The fifth of the lines `a`, `b`, `c`, `d`, `ee` is longer than the first, and they use the same buffer. -/
theorem compareFiles_longer_line :
    (fileLines [97, 10, 98, 10, 99, 10, 100, 10, 101, 101, 10]).Pairwise (· ≤ ·) ∧ (fileLines []).Pairwise (· ≤ ·) ∧
      (∃ calls st, compareFiles clearing true ⟨false, .default⟩ 6 [97, 10, 98, 10, 99, 10, 100, 10, 101, 101, 10] [] =
          some (calls, .ok st) ∧
        printed ⟨true, true, true, [9]⟩ calls =
          [97, 10, 98, 10, 99, 10, 100, 10, 101, 101] ++ List.replicate 62 0 ++ [10]) ∧
      ¬ ∀ onlyFile1 onlyFile2 both, ComparesRight clearing true ⟨false, .default⟩ ⟨onlyFile1, onlyFile2, both, [9]⟩
        [97, 10, 98, 10, 99, 10, 100, 10, 101, 101, 10] [] := by
  refine ⟨by decide, by decide, ⟨_, _, rfl, by decide +kernel⟩, fun h => ?_⟩
  have hfits := (fileFits_of_comparesRight h).1
  have hp : pieces 10 [97, 10, 98, 10, 99, 10, 100, 10, 101, 101, 10] =
      [[97, 10], [98, 10], [99, 10], [100, 10], [101, 101, 10]] := by decide
  have hcap : capacity 2 0 = 64 := by rw [capacity_of_lt (by decide), capacity_of_le (by decide)]; rfl
  simp [FileFits, hp, FitsInTurn, hcap] at hfits

end CodingExercises.Coreutils
