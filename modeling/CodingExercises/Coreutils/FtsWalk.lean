import CodingExercises.Lib.Cursor
import CodingExercises.Coreutils.FileName

/-!
# fts: the walk its callers rely on

A walk of `fts_read` with `FTS_PHYSICAL` and `FTS_CWDFD` over trees that do not change, as it should be: every file is
returned once, and a directory before and after its entries, unless it is one of its own ancestors (`FTS_DC`), or the
caller skips it, or it is on another device with `FTS_XDEV`.

Without skips the entries come in the order of `visitsRoots` (`ends_visits`).
-/

namespace CodingExercises.Coreutils.FtsWalk

open Lib

/-- A device and an inode number are compared as a pair. -/
scoped instance lawfulDevIno : LawfulBEq (ℕ × ℕ) := inferInstance

/-- `errno`. -/
inductive Errno
  | enoent
  | eacces
  | eisdir
  | enotdir
  | erofs
  | other (n : ℕ)
deriving DecidableEq

/-- `fts_info`. -/
inductive Info
  | d
  | dc
  | default
  | dnr
  | dot
  | dp
  | err
  | f
  | init
  | ns
  | nsok
  | sl
  | slnone
  | w
deriving DecidableEq

/-- What a file that is no directory is returned as. -/
def Info.isLeaf : Info → Bool
  | .f | .ns | .nsok | .sl | .slnone | .default => true
  | _ => false

/-- What a directory is returned as after its entries. -/
def Info.isPost : Info → Bool
  | .dp | .dnr | .err => true
  | _ => false

/-- What fts finds below a name: no directory, a directory that cannot be opened, or one with its entries; an error is one
that comes up while its entries are walked. -/
inductive Tree
  | leaf (name : List Byte) (info : {i : Info // i.isLeaf})
  | locked (name : List Byte) (dev ino : ℕ) (errno : Errno)
  | dir (name : List Byte) (dev ino : ℕ) (error : Option Errno) (entries : List Tree)

def Tree.name : Tree → List Byte
  | .leaf name _ => name
  | .locked name _ _ _ => name
  | .dir name _ _ _ _ => name

/-- `st_dev` and `st_ino` of a directory. -/
def Tree.devIno : Tree → Option (ℕ × ℕ)
  | .leaf _ _ => none
  | .locked _ dev ino _ => some (dev, ino)
  | .dir _ dev ino _ _ => some (dev, ino)

/-- It is a directory. -/
def Tree.isDir (t : Tree) : Bool := t.devIno.isSome

def Tree.entries : Tree → List Tree
  | .dir _ _ _ _ ts => ts
  | _ => []

/-- How an entry is first returned, below directories `up`. -/
def Tree.info (up : List (ℕ × ℕ)) : Tree → Info
  | .leaf _ i => i
  | .locked _ dev ino _ => if (dev, ino) ∈ up then .dc else .d
  | .dir _ dev ino _ _ => if (dev, ino) ∈ up then .dc else .d

/-- How a directory is returned after its entries. -/
def Tree.post : Tree → Info × Option Errno
  | .leaf _ i => (i, none)
  | .locked _ _ _ e => (.dnr, some e)
  | .dir _ _ _ error _ => (if error.isSome then .err else .dp, error)

/-- It is on another device than the one of the walk. -/
def Tree.elsewhere (dev : ℕ) (t : Tree) : Bool := (t.devIno.map Prod.fst).any (· ≠ dev)

/-! ## What a walk returns -/

/-- A place in the trees: the place among its siblings, with that of its parent behind it. -/
abbrev Pos := List ℕ

mutual

/-- The entries of a walk over a tree. -/
def Tree.visits (xdev : Bool) (dev : ℕ) (up : List (ℕ × ℕ)) (pos : Pos) : Tree → List (Pos × Info)
  | .leaf _ i => [(pos, i)]
  | .locked name d i e =>
    if (d, i) ∈ up then [(pos, .dc)]
    else if xdev && (Tree.locked name d i e).elsewhere dev then [(pos, .d), (pos, .dp)]
    else [(pos, .d), (pos, .dnr)]
  | .dir name d i e ts =>
    if (d, i) ∈ up then [(pos, .dc)]
    else if xdev && (Tree.dir name d i e []).elsewhere dev then [(pos, .d), (pos, .dp)]
    else (pos, .d) :: visitsList xdev dev ((d, i) :: up) pos 0 ts ++ [(pos, (Tree.dir name d i e []).post.1)]

/-- The entries of a walk over the entries of a directory, from the `i`th on. -/
def visitsList (xdev : Bool) (dev : ℕ) (up : List (ℕ × ℕ)) (pos : Pos) (i : ℕ) : List Tree → List (Pos × Info)
  | [] => []
  | t :: ts => t.visits xdev dev up (i :: pos) ++ visitsList xdev dev up pos (i + 1) ts

end

/-- `fts_dev` in the tree of a root. -/
def Tree.ftsDev (t : Tree) : ℕ := (t.devIno.map Prod.fst).getD 0

/-- The entries of a walk, from the `i`th root on. -/
def visitsRoots (xdev : Bool) : ℕ → List Tree → List (Pos × Info)
  | _, [] => []
  | i, t :: ts => t.visits xdev t.ftsDev [] [i] ++ visitsRoots xdev (i + 1) ts

/-! ## The walk -/

/-- `FTSENT`; `tree` is what is below it, and `link` what follows it. -/
structure FTSENT where
  tree : Tree
  pos : Pos
  path : List Byte
  accpath : List Byte
  info : Info
  errno : Option Errno
  number : Bool
  skip : Bool
  link : List Tree

/-- `FTS`: `fts_cur`, its `fts_parent`, and so on. -/
structure Walk where
  xdev : Bool
  dev : ℕ
  frames : List FTSENT

/-- `fts_open`. -/
def Walk.start (xdev : Bool) (roots : List Tree) : Walk where
  xdev
  dev := 0
  frames := [{ tree := .leaf [] ⟨.f, rfl⟩, pos := [], path := [], accpath := [], info := .init, errno := none,
               number := false, skip := false, link := roots }]

/-- `fts_level`. -/
def FTSENT.level (p : FTSENT) : ℕ := p.pos.length - 1

/-- `NAPPEND`: the part of a parent's path that its entries' paths start with. -/
def nappend (path : List Byte) : List Byte := if path.getLast? = some slash then path.dropLast else path

/-- The place of the directory that `up` starts with. -/
def posOf (up : List FTSENT) : Pos := (up.head?.map FTSENT.pos).getD []

/-- The directories that an entry below `up` is in. -/
def idsOf (up : List FTSENT) : List (ℕ × ℕ) := up.filterMap fun p => p.tree.devIno

/-- A new entry below `up`. -/
def arrive (up : List FTSENT) (i : ℕ) (t : Tree) (link : List Tree) : FTSENT where
  tree := t
  pos := i :: posOf up
  path := match up with
    | [] => t.name
    | p :: _ => nappend p.path ++ slash :: t.name
  accpath := t.name
  info := t.info (idsOf up)
  errno := none
  number := false
  skip := false
  link

/-- An entry becomes `fts_cur`. -/
def Walk.enter (w : Walk) (up : List FTSENT) (i : ℕ) (t : Tree) (link : List Tree) : Walk :=
  { w with dev := if up.isEmpty && t.isDir then t.ftsDev else w.dev, frames := arrive up i t link :: up }

/-- A directory is returned after its entries. -/
def FTSENT.leave (p : FTSENT) : FTSENT := { p with info := p.tree.post.1, errno := p.tree.post.2, skip := false }

/-- The label `next` of `fts_read`: the entries `link` follow, the first of them at the place `i`. -/
def Walk.next (w : Walk) (i : ℕ) (link : List Tree) (up : List FTSENT) : Walk :=
  match link, up with
  | t :: ts, up => w.enter up i t ts
  | [], [] => { w with frames := [] }
  | [], p :: up => { w with frames := p.leave :: up }

/-- The place of the entry after `p`. -/
def FTSENT.nextIndex (p : FTSENT) : ℕ := (p.pos.head?.map (· + 1)).getD 0

/-- `fts_read`; no frames are a null pointer. -/
def Walk.read (w : Walk) : Walk :=
  match w.frames with
  | [] => w
  | p :: up =>
    if p.info = .d then
      if p.skip || w.xdev && p.tree.elsewhere w.dev then
        { w with frames := { p with info := .dp, skip := false } :: up }
      else match p.tree.entries with
        | [] => { w with frames := p.leave :: up }
        | t :: ts => w.enter (p :: up) 0 t ts
    else w.next p.nextIndex p.link up

section

variable {w : Walk} {p : FTSENT} {up : List FTSENT}

/-- A directory that is skipped is returned again at once. -/
theorem Walk.read_skip (h : w.frames = p :: up) (hd : p.info = .d)
    (hskip : (p.skip || w.xdev && p.tree.elsewhere w.dev) = true) :
    w.read = { w with frames := { p with info := .dp, skip := false } :: up } := by
  rw [Walk.read, h]
  simp only [if_pos hd, if_pos hskip]

theorem Walk.read_empty (h : w.frames = p :: up) (hd : p.info = .d)
    (hskip : ¬ (p.skip || w.xdev && p.tree.elsewhere w.dev) = true) (ht : p.tree.entries = []) :
    w.read = { w with frames := p.leave :: up } := by
  rw [Walk.read, h]
  simp only [if_pos hd, if_neg hskip, ht]

theorem Walk.read_first {t : Tree} {ts : List Tree} (h : w.frames = p :: up) (hd : p.info = .d)
    (hskip : ¬ (p.skip || w.xdev && p.tree.elsewhere w.dev) = true) (ht : p.tree.entries = t :: ts) :
    w.read = w.enter (p :: up) 0 t ts := by
  rw [Walk.read, h]
  simp only [if_pos hd, if_neg hskip, ht]

/-- After an entry that is done with, the next one follows. -/
theorem Walk.read_next (h : w.frames = p :: up) (hd : p.info ≠ .d) : w.read = w.next p.nextIndex p.link up := by
  rw [Walk.read, h]
  simp only [if_neg hd]

end

/-! ## Without skips -/

/-- The answer of `fts_read`. -/
def Walk.answer (w : Walk) : Option (Option FTSENT × Walk) := some (w.frames.head?, w)

/-- `fts_read` as a cursor. -/
def Walk.step (w : Walk) : Option (Option FTSENT × Walk) := w.read.answer

/-- What is seen of an entry. -/
def see (p : FTSENT) (_ : Walk) : Pos × Info := (p.pos, p.info)

/-- The current entry is returned. -/
theorem passes_cur {w : Walk} {p : FTSENT} {up : List FTSENT} (h : w.frames = p :: up) :
    Passes Walk.step see w.answer [(p.pos, p.info)] w.read.answer := by
  have hcur : w.answer = some (some p, w) := by simp [Walk.answer, h]
  rw [hcur]
  exact Passes.one

/-- An entry that is done with: the next one follows. -/
theorem passes_done {w : Walk} {p : FTSENT} {up : List FTSENT} {i : ℕ} (h : w.frames = p :: up) (hinfo : p.info ≠ .d)
    (hpos : p.pos = i :: posOf up) :
    Passes Walk.step see w.answer [(p.pos, p.info)] (w.next (i + 1) p.link up).answer := by
  have hread := Walk.read_next h hinfo
  rw [FTSENT.nextIndex, hpos] at hread
  have hcur := passes_cur h
  rwa [hread] at hcur

/-- A directory that is returned twice in a row. -/
theorem passes_twice {w : Walk} {p q : FTSENT} {up : List FTSENT} {i : ℕ} (h : w.frames = p :: up)
    (hread : w.read = { w with frames := q :: up }) (hinfo : q.info ≠ .d) (hpos : q.pos = i :: posOf up) :
    Passes Walk.step see w.answer [(p.pos, p.info), (q.pos, q.info)] (w.next (i + 1) q.link up).answer := by
  have hcur := passes_cur h
  rw [hread] at hcur
  exact hcur.trans (passes_done (w := { w with frames := q :: up }) rfl hinfo hpos)

theorem Info.ne_d_of_isLeaf {i : Info} (h : i.isLeaf) : i ≠ .d := by
  rintro rfl
  simp [Info.isLeaf] at h

theorem Tree.post_ne_d (t : Tree) : t.post.1 ≠ .d := by
  rcases t with ⟨_, i⟩ | _ | ⟨_, _, _, e, _⟩
  · exact Info.ne_d_of_isLeaf i.2
  · simp [Tree.post]
  · cases e <;> simp [Tree.post]

section

variable {w : Walk} {up : List FTSENT} {i : ℕ} {t : Tree} {link : List Tree}

/-- A directory that is one of those it is in. -/
theorem passes_cycle (hinfo : t.info (idsOf up) = .dc) :
    Passes Walk.step see (w.enter up i t link).answer [(i :: posOf up, .dc)]
      ((w.enter up i t link).next (i + 1) link up).answer := by
  have hp : (arrive up i t link).info = .dc := hinfo
  rw [← hp]
  exact passes_done (w := w.enter up i t link) rfl (by simp [hp]) rfl

/-- A directory that is skipped for its device. -/
theorem passes_elsewhere (hinfo : t.info (idsOf up) = .d)
    (hx : (w.xdev && t.elsewhere (w.enter up i t link).dev) = true) :
    Passes Walk.step see (w.enter up i t link).answer [(i :: posOf up, .d), (i :: posOf up, .dp)]
      ((w.enter up i t link).next (i + 1) link up).answer := by
  have hp : (arrive up i t link).info = .d := hinfo
  have hread := Walk.read_skip (w := w.enter up i t link) rfl hp hx
  rw [← hp]
  exact passes_twice (p := arrive up i t link) rfl hread (by simp) rfl

/-- A directory without entries. -/
theorem passes_empty (hinfo : t.info (idsOf up) = .d)
    (hx : ¬ (w.xdev && t.elsewhere (w.enter up i t link).dev) = true) (hentries : t.entries = []) :
    Passes Walk.step see (w.enter up i t link).answer [(i :: posOf up, .d), (i :: posOf up, t.post.1)]
      ((w.enter up i t link).next (i + 1) link up).answer := by
  have hp : (arrive up i t link).info = .d := hinfo
  have hread := Walk.read_empty (w := w.enter up i t link) rfl hp hx hentries
  rw [← hp]
  exact passes_twice (p := arrive up i t link) (q := (arrive up i t link).leave) rfl hread t.post_ne_d rfl

/-- A directory with entries, of which the first is returned next. -/
theorem passes_first {t' : Tree} {ts : List Tree} (hinfo : t.info (idsOf up) = .d)
    (hx : ¬ (w.xdev && t.elsewhere (w.enter up i t link).dev) = true) (hentries : t.entries = t' :: ts) :
    Passes Walk.step see (w.enter up i t link).answer [(i :: posOf up, .d)]
      ((w.enter up i t link).next 0 (t' :: ts) (arrive up i t link :: up)).answer := by
  have hp : (arrive up i t link).info = .d := hinfo
  have hread := Walk.read_first (w := w.enter up i t link) rfl hp hx hentries
  have hcur := passes_cur (w := w.enter up i t link) (p := arrive up i t link) rfl
  rwa [hread, hp] at hcur

/-- A directory is returned again after its entries. -/
theorem passes_leave (p : FTSENT) (n : ℕ) (hpos : p.pos = i :: posOf up) :
    Passes Walk.step see (w.next n [] (p :: up)).answer [(p.pos, p.tree.post.1)]
      (w.next (i + 1) p.link up).answer :=
  passes_done (w := w.next n [] (p :: up)) (p := p.leave) rfl p.tree.post_ne_d hpos

end

mutual

/-- A walk over a tree. -/
theorem passes_tree : ∀ (t : Tree) (w : Walk) (up : List FTSENT) (i : ℕ) (link : List Tree),
    Passes Walk.step see (w.enter up i t link).answer
      (t.visits w.xdev (w.enter up i t link).dev (idsOf up) (i :: posOf up))
      ((w.enter up i t link).next (i + 1) link up).answer
  | .leaf name info, w, up, i, link => by
    rw [Tree.visits]
    exact passes_done (p := arrive up i (.leaf name info) link) rfl (Info.ne_d_of_isLeaf info.2) rfl
  | .locked name d ino e, w, up, i, link => by
    rw [Tree.visits]
    split
    · next hup => exact passes_cycle (by simp [Tree.info, hup])
    · next hup =>
      have hinfo : (Tree.locked name d ino e).info (idsOf up) = .d := by simp [Tree.info, hup]
      split
      · next hx => exact passes_elsewhere hinfo hx
      · next hx => exact passes_empty hinfo hx rfl
  | .dir name d ino e [], w, up, i, link => by
    rw [Tree.visits]
    split
    · next hup => exact passes_cycle (by simp [Tree.info, hup])
    · next hup =>
      have hinfo : (Tree.dir name d ino e []).info (idsOf up) = .d := by simp [Tree.info, hup]
      split
      · next hx => exact passes_elsewhere hinfo hx
      · next hx => exact passes_empty hinfo hx rfl
  | .dir name d ino e (t' :: ts), w, up, i, link => by
    rw [Tree.visits]
    split
    · next hup => exact passes_cycle (by simp [Tree.info, hup])
    · next hup =>
      have hinfo : (Tree.dir name d ino e (t' :: ts)).info (idsOf up) = .d := by simp [Tree.info, hup]
      split
      · next hx => exact passes_elsewhere hinfo hx
      · next hx =>
        have hlist := passes_list (t' :: ts) (w.enter up i (.dir name d ino e (t' :: ts)) link)
          (arrive up i (.dir name d ino e (t' :: ts)) link) up 0
        exact ((passes_first hinfo hx rfl).trans hlist).trans (passes_leave _ _ rfl)

/-- A walk over the entries of a directory. -/
theorem passes_list : ∀ (ts : List Tree) (w : Walk) (p : FTSENT) (up : List FTSENT) (i : ℕ),
    Passes Walk.step see (w.next i ts (p :: up)).answer
      (visitsList w.xdev w.dev (idsOf (p :: up)) p.pos i ts)
      (w.next (i + ts.length) [] (p :: up)).answer
  | [], w, p, up, i => .refl _
  | t :: ts, w, p, up, i => by
    rw [visitsList]
    have ht := passes_tree t w (p :: up) i ts
    have hts := passes_list ts (w.enter (p :: up) i t ts) p up (i + 1)
    rw [List.length_cons, show i + (ts.length + 1) = i + 1 + ts.length by omega]
    exact ht.trans hts

end

theorem Walk.enter_ftsDev (w : Walk) (i : ℕ) (t : Tree) (ts : List Tree) :
    t.visits w.xdev (w.enter [] i t ts).dev [] [i] = t.visits w.xdev t.ftsDev [] [i] := by
  cases t with
  | leaf name info => simp [Tree.visits]
  | locked name d ino e => rfl
  | dir name d ino e ts => rfl

/-- A walk over the roots, from the `i`th on. -/
theorem ends_roots (roots : List Tree) (w : Walk) (i : ℕ) :
    Ends Walk.step see (w.next i roots []).answer (visitsRoots w.xdev i roots) := by
  induction roots generalizing w i with
  | nil => exact ends_end _
  | cons t ts ih =>
    have ht := passes_tree t w [] i ts
    rw [visitsRoots, ← Walk.enter_ftsDev w i t ts]
    exact ht.ends (ih (w.enter [] i t ts) (i + 1))

/-- **Without skips** the entries come as they should. -/
theorem ends_visits (xdev : Bool) (roots : List Tree) :
    Ends Walk.step see (Walk.start xdev roots).step (visitsRoots xdev 0 roots) := by
  have hread : (Walk.start xdev roots).read = (Walk.start xdev roots).next 0 roots [] := rfl
  rw [Walk.step, hread]
  exact ends_roots roots (Walk.start xdev roots) 0

end CodingExercises.Coreutils.FtsWalk
