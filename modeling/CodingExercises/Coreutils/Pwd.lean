import CodingExercises.Lib.Cells
import CodingExercises.Coreutils.FileName
import CodingExercises.Coreutils.ModeChange

/-!
# coreutils: the physical working directory

`file_name_init`, `file_name_prepend`, `find_dir_entry` and `robust_getcwd` of `src/pwd.c`. What the system answers for a parent
directory is a `Level`; a byte that is read, or a store, outside of a buffer is a fault.

- The name grows from the end of the buffer towards its start, and is in it at every level (`climb_buffer`);
- an entry that `lstat` has to be asked for is compared with the child by its device only if the parent has another one, so a
  stranger with the same inode number may be taken for it (`robustGetcwd_iff`).
-/

namespace CodingExercises.Coreutils.Pwd

open Lib

/-- The system: `PATH_MAX`, whether there is memory for so many bytes, and whether the macro `D_INO` is defined before
`system.h` asks for it. -/
structure System where
  pathMax : ℕ
  pathMax_pos : 0 < pathMax
  malloc : ℕ → Bool
  dInoDefined : Bool

/-- What the program ends with if not with a name: a failed call, the chain of parents that goes on, or a fault. -/
inductive Stop
  | memoryExhausted
  | rootAttributes
  | statDot
  | openParent
  | chdirParent
  | statParent
  | readParent
  | noEntry
  | unfinished
  | access
deriving DecidableEq

/-! ## The buffer -/

/-- `struct file_name`: the cells of `buf`, and the place of `start` in it. -/
structure FileName where
  cells : List (Option Byte)
  start : ℕ
deriving DecidableEq

/-- `xnmalloc`; no object has more than `PTRDIFF_MAX` bytes. -/
def System.xnmalloc (sys : System) (n s : ℕ) : Except Stop (List (Option Byte)) :=
  if n * s < 2 ^ 63 ∧ sys.malloc (n * s) then .ok (List.replicate (n * s) none) else .error .memoryExhausted

/-- A pointer that is moved back. -/
def moveBack (p n : ℕ) : Except Stop ℕ := if n ≤ p then .ok (p - n) else .error .access

/-- `file_name_init`. -/
def fileNameInit (sys : System) : Except Stop FileName := do
  let nAlloc := min (2 * sys.pathMax) (32 * 1024)
  let buf ← sys.xnmalloc 1 nAlloc
  let start ← moveBack nAlloc 1
  return ⟨← store .access buf start [some 0], start⟩

/-- `file_name_prepend` up to the end of the `if`. -/
def makeRoom (sys : System) (p : FileName) (sLen : ℕ) : Except Stop FileName := do
  let nAlloc := p.cells.length
  let nFree := p.start
  if nFree < 1 + sLen then
    let half := nAlloc + 1 + sLen
    let q ← sys.xnmalloc 2 half
    let nUsed := nAlloc - nFree
    let start ← moveBack (2 * half) nUsed
    return ⟨← store .access q start (← slice .access p.cells nFree nUsed), start⟩
  else return p

/-- `file_name_prepend`. -/
def fileNamePrepend (sys : System) (p : FileName) (s : List Byte) : Except Stop FileName := do
  let p ← makeRoom sys p s.length
  let start ← moveBack p.start (1 + s.length)
  let cells ← store .access p.cells start [some slash]
  return ⟨← store .access cells (start + 1) (s.map some), start⟩

/-! ## Directories -/

/-- The fields of `struct stat` that are compared. -/
structure Stat where
  dev : ℕ
  ino : ℕ
deriving DecidableEq

/-- An entry: its name, the field `d_ino`, and what `lstat` answers for it. -/
structure Dirent where
  name : CString
  ino : ℕ
  lstat : Option Stat

/-- What is answered for a parent: whether `opendir` and the change into it succeed, its attributes, the entries that `readdir`
gives, whether it fails behind them, and whether `closedir` succeeds. -/
structure Level where
  opendir : Bool
  chdir : Bool
  stat : Option Stat
  entries : List Dirent
  errno : Bool
  closedir : Bool

/-- `NOT_AN_INODE_NUMBER`. -/
def notAnInodeNumber : ℕ := 0

/-- `D_INO`. -/
def System.dIno (sys : System) (dp : Dirent) : ℕ := if sys.dInoDefined then dp.ino else notAnInodeNumber

/-- The entries that `readdir_ignoring_dot_and_dotdot` gives. -/
def Level.ignoringDots (l : Level) : List Dirent := l.entries.filter fun dp => !dotOrDotdot dp.name.bytes

/-- The body of the loop over the entries: whether the entry is taken. -/
def System.takes (sys : System) (dotSb : Stat) (useLstat : Bool) (dp : Dirent) : Bool :=
  if sys.dIno dp = notAnInodeNumber ∨ useLstat then
    match dp.lstat with
    | none => false
    | some entSb => entSb.ino = dotSb.ino && (!useLstat || entSb.dev = dotSb.dev)
  -- here `use_lstat` is not set, and `ent_sb` is not looked at
  else sys.dIno dp = dotSb.ino

/-- The loop over the entries. -/
def System.findEntry (sys : System) (dotSb parentSb : Stat) (l : Level) : Option Dirent :=
  l.ignoringDots.find? (sys.takes dotSb (parentSb.dev ≠ dotSb.dev))

/-- `find_dir_entry`. -/
def findDirEntry (sys : System) (l : Level) (dotSb : Stat) (fileName : FileName) : Except Stop (Stat × FileName) :=
  if ¬l.opendir then .error .openParent
  else if ¬l.chdir then .error .chdirParent
  else
    match l.stat with
    | none => .error .statParent
    | some parentSb =>
      match sys.findEntry dotSb parentSb l with
      | some dp => do
        let fileName ← fileNamePrepend sys fileName dp.name.bytes
        if l.closedir then return (parentSb, fileName) else .error .readParent
      | none => if l.errno ∨ ¬l.closedir then .error .readParent else .error .noEntry

/-- The loop of `robust_getcwd`, up to the root or as far as the parents are given. -/
def climb (sys : System) (root : Stat) : List Level → Stat × FileName → Except Stop (Stat × FileName)
  | [], st => .ok st
  | l :: ls, (dotSb, fileName) =>
    if dotSb = root then .ok (dotSb, fileName) else do climb sys root ls (← findDirEntry sys l dotSb fileName)

/-- `file_name_init` and `robust_getcwd`, for what is answered for the root, the working directory and its parents. -/
def robustGetcwd (sys : System) (rootDevInfo dotSb : Option Stat) (levels : List Level) : Except Stop FileName := do
  let fileName ← fileNameInit sys
  match rootDevInfo, dotSb with
  | none, _ => .error .rootAttributes
  | some _, none => .error .statDot
  | some root, some dotSb => do
    let (dotSb, fileName) ← climb sys root levels (dotSb, fileName)
    if dotSb ≠ root then .error .unfinished
    else
      match fileName.cells[fileName.start]? with
      | some (some c) => if c = 0 then fileNamePrepend sys fileName [] else return fileName
      | _ => .error .access

/-! ## What is right -/

/-- The buffer holds a string, and its NUL is in the last cell. -/
structure FileName.Holds (p : FileName) (text : List Byte) : Prop where
  inside : p.start < p.cells.length
  text : p.cells.drop p.start = (text ++ [0]).map some

/-- The names, the innermost first, each behind a slash. -/
def pathText : List (List Byte) → List Byte
  | [] => []
  | name :: names => pathText names ++ slash :: name

/-- The entries that are found on the way to the root. -/
def found (sys : System) (root : Stat) : Stat → List Level → List Dirent
  | _, [] => []
  | dotSb, l :: ls =>
    if dotSb = root then []
    else
      match l.stat with
      | none => []
      | some parentSb =>
        match sys.findEntry dotSb parentSb l with
        | none => []
        | some dp => dp :: found sys root parentSb ls

/-- The names that are prepended. -/
def names (sys : System) (root dotSb : Stat) (levels : List Level) : List (List Byte) :=
  (found sys root dotSb levels).map (·.name.bytes)

/-- The entry is that of the child: a number in the parent itself is one on the parent's device, else it is up to `lstat`. -/
def Dirent.Is (dp : Dirent) (sys : System) (parentSb dotSb : Stat) : Prop :=
  if sys.dIno dp ≠ notAnInodeNumber ∧ parentSb.dev = dotSb.dev then sys.dIno dp = dotSb.ino else dp.lstat = some dotSb

instance (dp : Dirent) (sys : System) (parentSb dotSb : Stat) : Decidable (dp.Is sys parentSb dotSb) :=
  inferInstanceAs (Decidable (ite _ _ _))

/-- What holds at each level up to the root where an entry is looked for. -/
def EachLevel (root : Stat) (P : Level → Stat → Stat → Prop) : Stat → List Level → Prop
  | _, [] => True
  | dotSb, l :: ls => dotSb ≠ root → ∀ parentSb, l.stat = some parentSb →
    P l parentSb dotSb ∧ EachLevel root P parentSb ls

/-- No entry is taken for the child before the child's own: where the parent is on the child's device and gives no number for the
entry, one on another device that has the child's number comes behind an entry that is the child's. -/
def Level.Honest (l : Level) (sys : System) (parentSb dotSb : Stat) : Prop :=
  parentSb.dev = dotSb.dev → ∀ pre dp post st, l.ignoringDots = pre ++ dp :: post → sys.dIno dp = notAnInodeNumber →
    dp.lstat = some st → st.ino = dotSb.ino → st.dev ≠ dotSb.dev → ∃ e ∈ pre, e.Is sys parentSb dotSb

/-- What `robust_getcwd` has to do. -/
structure Meets (sys : System) (root dotSb : Stat) (levels : List Level) : Prop where
  inside : robustGetcwd sys (some root) (some dotSb) levels ≠ .error .access
  buffer : ∀ n init dotSb' p, fileNameInit sys = .ok init → climb sys root (levels.take n) (dotSb, init) = .ok (dotSb', p) →
    p.Holds (pathText (names sys root dotSb (levels.take n)))
  result : ∀ p, robustGetcwd sys (some root) (some dotSb) levels = .ok p →
    p.Holds (if names sys root dotSb levels = [] then [slash] else pathText (names sys root dotSb levels))
  entries : ∀ p, robustGetcwd sys (some root) (some dotSb) levels = .ok p →
    EachLevel root (fun l parentSb dotSb => ∀ dp, sys.findEntry dotSb parentSb l = some dp →
      dp ∈ l.entries ∧ dp.Is sys parentSb dotSb) dotSb levels

/-! ## The buffer grows -/

section

variable {p : FileName} {text : List Byte}

theorem FileName.Holds.exists_front (h : p.Holds text) :
    ∃ front, front.length = p.start ∧ p.cells = front ++ (text ++ [0]).map some := by
  refine ⟨p.cells.take p.start, ?_, ?_⟩
  · rw [List.length_take]
    exact min_eq_left h.inside.le
  · rw [← h.text, List.take_append_drop]

theorem FileName.holds_mk (front : List (Option Byte)) (text : List Byte) :
    FileName.Holds ⟨front ++ (text ++ [0]).map some, front.length⟩ text := by
  refine ⟨?_, List.drop_left⟩
  show front.length < (front ++ _).length
  rw [List.length_append, List.length_map, List.length_append, List.length_singleton]
  omega

theorem fileNameInit_spec (sys : System) :
    fileNameInit sys = .error .memoryExhausted ∨ ∃ p, fileNameInit sys = .ok p ∧ p.Holds [] := by
  have hpos := sys.pathMax_pos
  generalize hn : min (2 * sys.pathMax) (32 * 1024) = n
  obtain ⟨m, rfl⟩ : ∃ m, n = m + 1 := ⟨n - 1, by omega⟩
  rw [fileNameInit, hn, System.xnmalloc, Nat.one_mul]
  by_cases hmalloc : m + 1 < 2 ^ 63 ∧ sys.malloc (m + 1) = true
  · have hlength : (List.replicate m (none : Option Byte)).length = m := List.length_replicate
    have hstore := store_mid Stop.access (List.replicate m none) [none] [] [some (0 : Byte)] rfl
    rw [hlength, List.append_nil, List.append_nil, ← List.replicate_succ'] at hstore
    rw [if_pos hmalloc]
    refine .inr ⟨⟨List.replicate m none ++ [some 0], m⟩, ?_, ?_⟩
    · simp only [bind, Except.bind, moveBack, Nat.le_add_left, if_true, Nat.add_sub_cancel, hstore]
      rfl
    · have hholds := FileName.holds_mk (List.replicate m none) []
      rwa [hlength] at hholds
  · rw [if_neg hmalloc]
    exact .inl rfl

/-- There is room for the name and its slash, and the text stays. -/
theorem makeRoom_spec (sys : System) (h : p.Holds text) (sLen : ℕ) :
    makeRoom sys p sLen = .error .memoryExhausted ∨
      ∃ p', makeRoom sys p sLen = .ok p' ∧ p'.Holds text ∧ 1 + sLen ≤ p'.start := by
  by_cases hroom : p.start < 1 + sLen
  · obtain ⟨front, hfront, hcells⟩ := h.exists_front
    have hlength : p.cells.length = p.start + (text.length + 1) := by
      rw [hcells, List.length_append, hfront, List.length_map, List.length_append, List.length_singleton]
    unfold makeRoom
    dsimp only
    rw [if_pos hroom, System.xnmalloc]
    by_cases hmalloc : 2 * (p.cells.length + 1 + sLen) < 2 ^ 63 ∧ sys.malloc (2 * (p.cells.length + 1 + sLen)) = true
    · have hused : p.cells.length - p.start = text.length + 1 := by omega
      obtain ⟨start, hstart⟩ : ∃ start, 2 * (p.cells.length + 1 + sLen) = start + (text.length + 1) :=
        ⟨2 * (p.cells.length + 1 + sLen) - (text.length + 1), by omega⟩
      have hslice : slice Stop.access p.cells p.start (text.length + 1) = .ok ((text ++ [0]).map some) := by
        rw [slice, if_pos hlength.ge, h.text, List.take_of_length_le]
        rw [List.length_map, List.length_append, List.length_singleton]
      have hstore := store_mid Stop.access (List.replicate start none) (List.replicate (text.length + 1) none) []
        ((text ++ [0]).map some) (by simp)
      rw [List.length_replicate, List.append_nil, List.append_nil, ← List.replicate_add] at hstore
      have hholds := FileName.holds_mk (List.replicate start none) text
      rw [List.length_replicate] at hholds
      have hroom' : 1 + sLen ≤ start := by omega
      refine .inr ⟨_, ?_, hholds, hroom'⟩
      rw [if_pos hmalloc]
      simp only [bind, Except.bind, hused, hstart, moveBack, Nat.le_add_left, if_true, Nat.add_sub_cancel, hslice, hstore]
      rfl
    · rw [if_neg hmalloc]
      exact .inl rfl
  · rw [makeRoom, if_neg hroom]
    exact .inr ⟨p, rfl, h, by omega⟩

theorem fileNamePrepend_spec (sys : System) (h : p.Holds text) (s : List Byte) :
    fileNamePrepend sys p s = .error .memoryExhausted ∨
      ∃ p', fileNamePrepend sys p s = .ok p' ∧ p'.Holds (slash :: s ++ text) := by
  rw [fileNamePrepend]
  obtain hroom | ⟨p', hroom, hholds, hstart⟩ := makeRoom_spec sys h s.length
  · rw [hroom]
    exact .inl rfl
  · obtain ⟨front, hfront, hcells⟩ := hholds.exists_front
    obtain ⟨n, hn⟩ : ∃ n, p'.start = n + (1 + s.length) := ⟨p'.start - (1 + s.length), by omega⟩
    -- the cells that the slash and the name come into
    obtain ⟨a, b, c, rfl, ha, hb, hc⟩ : ∃ a b c, front = a ++ (b ++ c) ∧ a.length = n ∧ b.length = 1 ∧ c.length = s.length := by
      refine ⟨front.take n, (front.drop n).take 1, (front.drop n).drop 1, ?_, ?_, ?_, ?_⟩
      · rw [List.take_append_drop, List.take_append_drop]
      all_goals
        simp only [List.length_take, List.length_drop]
        omega
    have hslash := store_mid Stop.access a b (c ++ (text ++ [0]).map some) [some slash] hb
    have hname := store_mid Stop.access (a ++ [some slash]) c ((text ++ [0]).map some) (s.map some) (by rw [hc, List.length_map])
    rw [List.length_append, List.length_singleton, ha] at hname
    rw [ha] at hslash
    refine .inr ⟨⟨a ++ (slash :: s ++ text ++ [0]).map some, n⟩, ?_, ha ▸ FileName.holds_mk a (slash :: s ++ text)⟩
    rw [hroom]
    simp only [bind, Except.bind, moveBack, hn, Nat.le_add_left, if_true, Nat.add_sub_cancel, hcells, List.append_assoc, hslash]
    rw [← List.append_assoc, hname]
    simp only [List.map_append, List.map_cons, List.append_assoc, List.cons_append, List.nil_append]
    rfl

end

/-! ## One level, and all of them -/

section

variable {sys : System} {root dotSb parentSb : Stat}

theorem findDirEntry_spec (sys : System) (dotSb : Stat) (l : Level) {fileName : FileName} {text : List Byte} (h : fileName.Holds text) :
    findDirEntry sys l dotSb fileName ≠ .error .access ∧ ∀ r, findDirEntry sys l dotSb fileName = .ok r →
      ∃ parentSb dp, l.stat = some parentSb ∧ sys.findEntry dotSb parentSb l = some dp ∧ r.1 = parentSb ∧
        r.2.Holds (slash :: dp.name.bytes ++ text) := by
  rw [findDirEntry]
  split
  · exact ⟨nofun, nofun⟩
  split
  · exact ⟨nofun, nofun⟩
  rcases l.stat with _ | parentSb
  · exact ⟨nofun, nofun⟩
  dsimp only
  rcases hfound : sys.findEntry dotSb parentSb l with _ | dp
  · dsimp only
    split <;> exact ⟨nofun, nofun⟩
  obtain hprepend | ⟨p, hprepend, hholds⟩ := fileNamePrepend_spec sys h dp.name.bytes
  · simp only [hprepend]
    exact ⟨nofun, nofun⟩
  · simp only [hprepend, bind, Except.bind]
    split
    · refine ⟨nofun, fun r hr => ?_⟩
      obtain rfl := Except.ok.inj hr
      exact ⟨parentSb, dp, rfl, hfound, rfl, hholds⟩
    · exact ⟨nofun, nofun⟩

/-- At every level the buffer holds the names so far. -/
theorem climb_buffer (sys : System) (root : Stat) (levels : List Level) (dotSb : Stat) (fileName : FileName) (text : List Byte) (h : fileName.Holds text) :
    climb sys root levels (dotSb, fileName) ≠ .error .access ∧
      ∀ dotSb' p, climb sys root levels (dotSb, fileName) = .ok (dotSb', p) →
        p.Holds (pathText (names sys root dotSb levels) ++ text) := by
  induction levels generalizing dotSb fileName text with
  | nil =>
    refine ⟨nofun, fun dotSb' p hp => ?_⟩
    obtain ⟨-, rfl⟩ := Prod.mk.inj (Except.ok.inj hp)
    exact h
  | cons l ls ih =>
    rw [climb, names, found]
    by_cases hroot : dotSb = root
    · rw [if_pos hroot, if_pos hroot]
      refine ⟨nofun, fun dotSb' p hp => ?_⟩
      obtain ⟨-, rfl⟩ := Prod.mk.inj (Except.ok.inj hp)
      exact h
    rw [if_neg hroot, if_neg hroot]
    obtain ⟨haccess, hok⟩ := findDirEntry_spec sys dotSb l h
    rcases hstep : findDirEntry sys l dotSb fileName with e | ⟨parentSb, fileName'⟩
    · refine ⟨fun heq => haccess ?_, nofun⟩
      rw [hstep, Except.error.inj heq]
    · obtain ⟨parentSb', dp, hstat, hfound, rfl, hholds⟩ := hok _ hstep
      obtain ⟨haccess', hok'⟩ := ih parentSb fileName' _ hholds
      refine ⟨haccess', fun dotSb' p hp => ?_⟩
      have hp' := hok' dotSb' p hp
      rw [← List.append_assoc] at hp'
      simp only [hstat, hfound]
      exact hp'

/-! ## The entries -/

theorem System.takes_of_is {dp : Dirent} (h : dp.Is sys parentSb dotSb) :
    sys.takes dotSb (parentSb.dev ≠ dotSb.dev) dp = true := by
  rw [Dirent.Is] at h
  rw [System.takes]
  by_cases hnumber : sys.dIno dp ≠ notAnInodeNumber ∧ parentSb.dev = dotSb.dev
  · rw [if_pos hnumber] at h
    rw [if_neg (by simpa using hnumber)]
    exact decide_eq_true h
  · rw [if_neg hnumber] at h
    have hlstat : sys.dIno dp = notAnInodeNumber ∨ decide (parentSb.dev ≠ dotSb.dev) = true := by
      rw [decide_eq_true_iff]
      tauto
    rw [if_pos hlstat, h]
    simp

/-- What is taken is the child's entry, or one of another device with the child's number. -/
theorem System.is_or_stranger {dp : Dirent} (h : sys.takes dotSb (parentSb.dev ≠ dotSb.dev) dp = true) :
    dp.Is sys parentSb dotSb ∨ (parentSb.dev = dotSb.dev ∧ sys.dIno dp = notAnInodeNumber ∧
      ∃ st, dp.lstat = some st ∧ st.ino = dotSb.ino ∧ st.dev ≠ dotSb.dev) := by
  rw [System.takes] at h
  rw [Dirent.Is]
  by_cases hnumber : sys.dIno dp ≠ notAnInodeNumber ∧ parentSb.dev = dotSb.dev
  · rw [if_neg (by simpa using hnumber)] at h
    rw [if_pos hnumber]
    exact .inl (of_decide_eq_true h)
  · have hlstat : sys.dIno dp = notAnInodeNumber ∨ decide (parentSb.dev ≠ dotSb.dev) = true := by
      rw [decide_eq_true_iff]
      tauto
    rw [if_pos hlstat] at h
    rw [if_neg hnumber]
    rcases hst : dp.lstat with _ | st
    · rw [hst] at h
      cases h
    rw [hst] at h
    obtain ⟨hino, hdev⟩ := (Bool.and_eq_true _ _).mp h
    by_cases hsame : st.dev = dotSb.dev
    · exact .inl (congrArg some (by cases st; cases dotSb; simp_all))
    · have hparent : parentSb.dev = dotSb.dev := by simpa [hsame] using hdev
      refine .inr ⟨hparent, ?_, st, rfl, of_decide_eq_true hino, hsame⟩
      by_contra hne
      exact hnumber ⟨hne, hparent⟩

/-- A directory leads to the right entry just if it is honest. -/
theorem Level.honest_iff (l : Level) : (∀ dp, sys.findEntry dotSb parentSb l = some dp →
    dp ∈ l.entries ∧ dp.Is sys parentSb dotSb) ↔ l.Honest sys parentSb dotSb := by
  constructor
  · intro hright hdev pre dp post st hentries hnumber hst hino hstranger
    have htakes : sys.takes dotSb (parentSb.dev ≠ dotSb.dev) dp = true := by
      rw [System.takes, if_pos (.inl hnumber), hst]
      simp [hino, hdev]
    rcases hpre : pre.find? (sys.takes dotSb (parentSb.dev ≠ dotSb.dev)) with _ | e
    · have hfound : sys.findEntry dotSb parentSb l = some dp := by
        rw [System.findEntry, hentries, List.find?_append, hpre, List.find?_cons_of_pos htakes]
        rfl
      have his := (hright dp hfound).2
      rw [Dirent.Is, if_neg fun h => h.1 hnumber, hst] at his
      exact absurd (congrArg Stat.dev (Option.some.inj his)) hstranger
    · have hfound : sys.findEntry dotSb parentSb l = some e := by
        rw [System.findEntry, hentries, List.find?_append, hpre]
        rfl
      exact ⟨e, List.mem_of_find?_eq_some hpre, (hright e hfound).2⟩
  · intro hhonest dp hfound
    refine ⟨(List.mem_filter.mp (List.mem_of_find?_eq_some hfound)).1, ?_⟩
    obtain ⟨htakes, pre, post, hentries, hpre⟩ := List.find?_eq_some_iff_append.mp hfound
    obtain his | ⟨hdev, hnumber, st, hst, hino, hstranger⟩ := System.is_or_stranger htakes
    · exact his
    · obtain ⟨e, he, heis⟩ := hhonest hdev pre dp post st hentries hnumber hst hino hstranger
      have hnot := hpre e he
      rw [System.takes_of_is heis] at hnot
      cases hnot

theorem EachLevel.mono {P Q : Level → Stat → Stat → Prop} (hPQ : ∀ l parentSb dotSb, P l parentSb dotSb → Q l parentSb dotSb)
    {dotSb : Stat} {levels : List Level} (h : EachLevel root P dotSb levels) : EachLevel root Q dotSb levels := by
  induction levels generalizing dotSb with
  | nil => trivial
  | cons l ls ih => exact fun hroot parentSb hstat => ⟨hPQ _ _ _ (h hroot parentSb hstat).1, ih (h hroot parentSb hstat).2⟩

end

/-! ## robust_getcwd -/

/-- The cell at `start` is the NUL just if the name is empty. -/
theorem FileName.Holds.cell {p : FileName} {text : List Byte} (h : p.Holds text) :
    p.cells[p.start]? = some (some ((text ++ [0]).headD 0)) := by
  have hhead := congrArg List.head? h.text
  rw [List.head?_drop] at hhead
  rw [hhead]
  cases text <;> rfl

theorem slash_head_pathText (name : List Byte) (names : List (List Byte)) :
    (pathText (name :: names) ++ [0]).headD 0 = slash := by
  induction names generalizing name with
  | nil => rfl
  | cons name' names ih =>
    have hhead := ih name'
    rcases htext : pathText (name' :: names) with _ | ⟨c, text⟩
    · rw [htext] at hhead
      cases hhead
    · rw [pathText, htext]
      rw [htext] at hhead
      exact hhead

theorem robustGetcwd_spec (sys : System) (root dotSb : Stat) (levels : List Level) :
    robustGetcwd sys (some root) (some dotSb) levels ≠ .error .access ∧
      ∀ p, robustGetcwd sys (some root) (some dotSb) levels = .ok p →
        p.Holds (if names sys root dotSb levels = [] then [slash] else pathText (names sys root dotSb levels)) := by
  rw [robustGetcwd]
  obtain hinit | ⟨init, hinit, hholds⟩ := fileNameInit_spec sys
  · rw [hinit]
    exact ⟨nofun, nofun⟩
  obtain ⟨haccess, hok⟩ := climb_buffer sys root levels dotSb init [] hholds
  simp only [hinit, bind, Except.bind]
  rcases hclimb : climb sys root levels (dotSb, init) with e | ⟨dotSb', p⟩
  · refine ⟨fun heq => haccess ?_, nofun⟩
    rw [hclimb, Except.error.inj heq]
  have hp := hok dotSb' p hclimb
  rw [List.append_nil] at hp
  dsimp only
  split
  · exact ⟨nofun, nofun⟩
  rw [hp.cell]
  dsimp only
  rcases hnames : names sys root dotSb levels with _ | ⟨name, rest⟩
  · rw [hnames] at hp
    have hend : (pathText [] ++ [0]).headD 0 = 0 := rfl
    rw [if_pos rfl, if_pos hend]
    obtain hprepend | ⟨p', hprepend, hholds'⟩ := fileNamePrepend_spec sys hp []
    · rw [hprepend]
      exact ⟨nofun, nofun⟩
    · rw [hprepend]
      refine ⟨nofun, fun q hq => ?_⟩
      obtain rfl := Except.ok.inj hq
      exact hholds'
  · rw [hnames] at hp
    rw [slash_head_pathText, if_neg (by decide), if_neg (List.cons_ne_nil _ _)]
    refine ⟨nofun, fun q hq => ?_⟩
    obtain rfl := Except.ok.inj hq
    exact hp

/-- The name is right if the directories on the way are honest, and if there is one only then. -/
theorem robustGetcwd_iff (sys : System) (root dotSb : Stat) (levels : List Level) :
    (EachLevel root (fun l parentSb dotSb => l.Honest sys parentSb dotSb) dotSb levels → Meets sys root dotSb levels) ∧
      ∀ p, robustGetcwd sys (some root) (some dotSb) levels = .ok p → Meets sys root dotSb levels →
        EachLevel root (fun l parentSb dotSb => l.Honest sys parentSb dotSb) dotSb levels := by
  obtain ⟨haccess, hresult⟩ := robustGetcwd_spec sys root dotSb levels
  refine ⟨fun hhonest => ⟨haccess, ?_, hresult, fun _ _ => hhonest.mono fun l _ _ => l.honest_iff.mpr⟩,
    fun p hp hmeets => (hmeets.entries p hp).mono fun l _ _ => l.honest_iff.mp⟩
  intro n init dotSb' p hinit hclimb
  obtain hmemory | ⟨init', hinit', hholds⟩ := fileNameInit_spec sys
  · cases hmemory.symm.trans hinit
  · obtain rfl := Except.ok.inj (hinit'.symm.trans hinit)
    have hp := (climb_buffer sys root (levels.take n) dotSb _ [] hholds).2 dotSb' p hclimb
    rwa [List.append_nil] at hp

/-- `_POSIX_PATH_MAX` and much memory; nothing defines `D_INO`. -/
def plain : System := ⟨256, by decide, fun _ => true, false⟩

/-- The root on device 1, with its directory `a` behind the entries of `pre`. -/
def rootWith (pre : List Dirent) : Level where
  opendir := true
  chdir := true
  stat := some ⟨1, 1⟩
  entries := pre ++ [⟨⟨[97], by decide⟩, 2, some ⟨1, 2⟩⟩]
  errno := false
  closedir := true

/-- In `/a`: the root has no other entry, so it is honest, and the name is found. -/
theorem robustGetcwd_alone : Meets plain ⟨1, 1⟩ ⟨1, 2⟩ [rootWith []] ∧
    EachLevel ⟨1, 1⟩ (fun l parentSb dotSb => l.Honest plain parentSb dotSb) ⟨1, 2⟩ [rootWith []] := by
  have hhonest : EachLevel ⟨1, 1⟩ (fun l parentSb dotSb => l.Honest plain parentSb dotSb) ⟨1, 2⟩ [rootWith []] := by
    intro _ parentSb hstat
    obtain rfl := Option.some.inj hstat
    refine ⟨(rootWith []).honest_iff.mp fun dp hfound => ?_, trivial⟩
    obtain rfl := Option.some.inj (show some _ = some dp from hfound)
    exact ⟨List.mem_singleton_self _, rfl⟩
  have hmeets := (robustGetcwd_iff plain ⟨1, 1⟩ ⟨1, 2⟩ [rootWith []]).1 hhonest
  have hok : (robustGetcwd plain (some ⟨1, 1⟩) (some ⟨1, 2⟩) [rootWith []]).isOk = true := by decide +kernel
  rcases hrun : robustGetcwd plain (some ⟨1, 1⟩) (some ⟨1, 2⟩) [rootWith []] with e | p
  · rw [hrun] at hok
    cases hok
  · exact ⟨hmeets, (robustGetcwd_iff plain ⟨1, 1⟩ ⟨1, 2⟩ [rootWith []]).2 p hrun hmeets⟩

/-- `b` is where another device is mounted, whose root has the inode number of `a`. -/
def mounted : Level := rootWith [⟨⟨[98], by decide⟩, 3, some ⟨2, 2⟩⟩]

/-- The name that is found is that of `b`. -/
theorem not_meets_mounted : ¬∀ (sys : System) (root dotSb : Stat) (levels : List Level), Meets sys root dotSb levels := by
  intro h
  have hmeets := h plain ⟨1, 1⟩ ⟨1, 2⟩ [mounted]
  rcases hrun : robustGetcwd plain (some ⟨1, 1⟩) (some ⟨1, 2⟩) [mounted] with e | p
  · have hok : (robustGetcwd plain (some ⟨1, 1⟩) (some ⟨1, 2⟩) [mounted]).isOk = true := by decide +kernel
    rw [hrun] at hok
    cases hok
  · have hright := (hmeets.entries p hrun (by decide) ⟨1, 1⟩ rfl).1 _ rfl
    exact absurd hright.2 (by decide)

end CodingExercises.Coreutils.Pwd
