import CodingExercises.Coreutils.FtsCwd

/-!
# fts: the buffer of the path

The writes to `fts_path` (`ftsReadWrites`), in walks with any of the options. The space check of `fts_build` is made once for
an entry, and the entry is written again when `fts_read` gets to it, when the buffer may be longer and the subtrees of other
entries have been in it; so an entry that waits stands where it will be written (`Below`), along the whole chain of frames
(`Chain`).

Every write is inside the buffer. An entry is returned with the length of the string in the buffer, but for one case: when
the directory that a root with a slash at its end leads to has no entries, `fts_build` puts the `NUL` over that slash
(`Loses`).
-/

namespace CodingExercises.Coreutils.Fts

variable {ι : Type} {env : Env ι}

/-! ## Writes -/

/-- Bytes written to `fts_path`: how long the buffer is, where they go, and how many they are. -/
structure Write where
  size : ℕ
  off : ℕ
  len : ℕ

def Write.Inside (w : Write) : Prop := w.off + w.len ≤ w.size

theorem poke_of_inside {b s : List Byte} {off : ℕ} (h : (Write.mk b.length off s.length).Inside) :
    ∃ b', poke b off s = some b' := ⟨_, if_pos h⟩

section Writes

variable (env)

/-- The copy of a name in the loop of `fts_build`, behind the space check. -/
def ftsBuildEntryWrites (len : ℕ) (path : List Byte) (dp : Dirent) : List Write :=
  let path :=
    if dp.name.length ≥ path.length - len then (ftsPalloc env path (dp.name.length + len + 1)).1 else path
  if env.options.isNochdir then [⟨path.length, len, dp.name.length + 1⟩] else []

/-- The writes of the loop of `fts_build`. -/
def ftsBuildLoopWrites (w : Vwd ι) (level : ℤ) (len : ℕ) : List Byte → List Dirent → List Write
  | _, [] => []
  | path, dp :: dps =>
    if !env.options.seedot ∧ isDot dp.name then ftsBuildLoopWrites w level len path dps
    else
      ftsBuildEntryWrites env len path dp ++
        match ftsBuildEntry env w level len path dp with
        | none => []
        | some (path, _) => ftsBuildLoopWrites w level len path dps

/-- Where `fts_build` comes to write: the entries of the directory, the working directory in it, and `NAPPEND`. -/
def ftsBuildOpen (s : FTS ι) (cur : FTSENT) : Option (List Dirent × Vwd ι × ℕ) := do
  let accpath ← cur.access s.path
  match opendir env s.vwd accpath with
  | .error _ => none
  | .ok (dir, dirents) =>
    let (dirFd, w) := if env.options.isNochdir then (0, s.vwd) else s.vwd.newFd env dir
    let (_, w) ← ftsSafeChangedir env w dirFd none
    let len ← nappend s.path cur
    some (dirents, w, len)

/-- The slash that `fts_build` writes. -/
def ftsBuildSlash (path : List Byte) (len : ℕ) : Option (List Byte) :=
  if env.options.isNochdir then poke path len [slash] else some path

/-- The writes of `fts_build`: the slash, the names and the `NUL`. -/
def ftsBuildWrites (s : FTS ι) (cur : FTSENT) : List Write :=
  match ftsBuildOpen env s cur with
  | none => []
  | some (dirents, w, len) =>
    (if env.options.isNochdir then [⟨s.path.length, len, 1⟩] else []) ++
      match ftsBuildSlash env s.path len with
      | none => []
      | some path =>
        ftsBuildLoopWrites env w (cur.level + 1) (len + 1) path dirents ++
          match ftsBuildLoop env w (cur.level + 1) (len + 1) path dirents with
          | none => []
          | some (path, head) =>
            if env.options.isNochdir then
              [⟨path.length, if len + 1 = path.length ∨ head = [] then len else len + 1, 1⟩]
            else []

/-- The write at `name` in `fts_read`: the slash, the name and its `NUL`. -/
def ftsNameWrites (s : FTS ι) (p : FTSENT) (above : List Frame) : List Write :=
  match above with
  | [] => []
  | parent :: _ =>
    match nappend s.path parent.entry with
    | none => []
    | some t => [⟨s.path.length, t, p.name.length + 2⟩]

/-- The `NUL` where `fts_read` returns to the parent node. -/
def ftsUpWrites (s : FTS ι) : List Frame → List Write
  | [] => []
  | ⟨p, _⟩ :: _ => if p.level = -1 ∨ p.info = .nsok then [] else [⟨s.path.length, p.pathlen, 1⟩]

/-- The writes of `fts_read` from `next` on; for a root, that of `fts_load`. -/
def ftsNextWrites (s : FTS ι) (above : List Frame) : List FTSENT → List Write
  | [] => ftsUpWrites s above
  | p :: link =>
    if p.level = 0 then [⟨s.path.length, 0, p.name.length + 1⟩]
    else if p.instr = .skip then ftsNextWrites s above link
    else ftsNameWrites s p above

/-- The writes of `fts_read` at a directory that has been visited in preorder. -/
def ftsDescendWrites (s : FTS ι) (instr : Instr) (p : FTSENT) (link : List FTSENT) (above : List Frame) : List Write :=
  if instr = .skip then []
  else
    ftsBuildWrites env s p ++
      match ftsBuild env s p with
      | some (q :: _, p, s) => ftsNameWrites s q (⟨p, link⟩ :: above)
      | _ => []

/-- The writes to `fts_path` of a call of `fts_read`. -/
def ftsReadWrites (s : FTS ι) : List Write :=
  match s.cur with
  | [] => []
  | ⟨p, link⟩ :: above =>
    if s.stop then []
    else
      let instr := p.instr
      let p := { p with instr := .noinstr }
      if p.info = .d then ftsDescendWrites env s instr p link above
      else ftsNextWrites s above link

end Writes

/-! ## Buffers -/

/-- The buffer is not shorter, and its first `n` bytes are the same. -/
structure Keeps (n : ℕ) (b b' : List Byte) : Prop where
  length : b.length ≤ b'.length
  take : b'.take n = b.take n

theorem Keeps.refl (n : ℕ) (b : List Byte) : Keeps n b b := ⟨Nat.le_refl _, rfl⟩

theorem Keeps.trans {n : ℕ} {a b c : List Byte} (h : Keeps n a b) (h' : Keeps n b c) : Keeps n a c :=
  ⟨h.length.trans h'.length, h'.take.trans h.take⟩

theorem Keeps.mono {m n : ℕ} {b b' : List Byte} (h : Keeps n b b') (hle : m ≤ n) : Keeps m b b' := by
  refine ⟨h.length, ?_⟩
  have htake := congrArg (List.take m) h.take
  rwa [List.take_take, List.take_take, Nat.min_eq_left hle] at htake

theorem Keeps.getElem? {n k : ℕ} {b b' : List Byte} (h : Keeps n b b') (hk : k < n) : b'[k]? = b[k]? := by
  have htake : (b'.take n)[k]? = (b.take n)[k]? := by rw [h.take]
  rwa [List.getElem?_take_of_lt hk, List.getElem?_take_of_lt hk] at htake

theorem keeps_grown {b b' : List Byte} {n : ℕ} (h : b <+: b') (hn : n ≤ b.length) : Keeps n b b' := by
  obtain ⟨r, rfl⟩ := h
  exact ⟨by simp, List.take_append_of_le_length hn⟩

/-- A write keeps the bytes before it. -/
theorem keeps_poke {b b' s : List Byte} {off n : ℕ} (h : poke b off s = some b') (hn : n ≤ off) : Keeps n b b' := by
  obtain ⟨hlength, hbefore, -⟩ := poke_spec h
  exact Keeps.mono ⟨hlength.ge, hbefore⟩ hn

/-- It keeps its first byte too, if that is there already. -/
theorem keeps_poke_cons {b b' s : List Byte} {off : ℕ} {c : Byte} (h : poke b off (c :: s) = some b')
    (hc : b[off]? = some c) : Keeps (off + 1) b b' := by
  obtain ⟨hlength, hbefore, hb'⟩ := poke_spec h
  have hoff : off < b.length := (List.getElem?_eq_some_iff.mp hc).1
  have hwritten : b'[off]? = some c := by
    rw [hb', List.append_assoc, List.getElem?_append_right (List.length_take_le off b), List.length_take_of_le hoff.le]
    simp
  refine ⟨hlength.ge, ?_⟩
  rw [List.take_add_one, List.take_add_one, hbefore, hwritten, hc]

/-- What is written is there. -/
theorem getElem?_poke {b b' s : List Byte} {off k : ℕ} (h : poke b off s = some b') (hk : k < s.length) :
    b'[off + k]? = s[k]? := by
  have hle : off + s.length ≤ b.length := by
    unfold poke at h
    split at h
    · assumption
    · cases h
  obtain ⟨-, -, hb'⟩ := poke_spec h
  have htake : (b.take off).length = off := List.length_take_of_le (by omega)
  rw [hb', List.append_assoc, List.getElem?_append_right (by omega), htake, Nat.add_sub_cancel_left,
    List.getElem?_append_left hk]

/-! ## Where the names go -/

/-- `NAPPEND` is the length of the path, or one less where there is a slash at its end. -/
theorem nappend_spec {path : List Byte} {g : FTSENT} {t : ℕ} (h : nappend path g = some t) :
    0 < g.pathlen ∧ (t = g.pathlen ∨ t + 1 = g.pathlen ∧ path[t]? = some slash) := by
  unfold nappend at h
  split at h
  · cases h
  · rename_i hzero
    refine ⟨Nat.pos_of_ne_zero hzero, ?_⟩
    split at h
    · rename_i hslash
      cases h
      exact .inr ⟨by omega, hslash⟩
    · cases h
      exact .inl rfl

theorem nappend_keeps {path path' : List Byte} {g : FTSENT} (h : Keeps g.pathlen path path') :
    nappend path' g = nappend path g := by
  unfold nappend
  split
  · rfl
  · rw [h.getElem? (by omega)]

theorem nappend_congr {path : List Byte} {g g' : FTSENT} (h : g'.pathlen = g.pathlen) :
    nappend path g' = nappend path g := by
  unfold nappend
  rw [h]

/-- The slash behind the path of a directory keeps the path. -/
theorem keeps_slash {path path' s : List Byte} {g : FTSENT} {t : ℕ} (hnappend : nappend path g = some t)
    (hpoke : poke path t (slash :: s) = some path') : Keeps g.pathlen path path' := by
  obtain ⟨-, heq | ⟨heq, hslash⟩⟩ := nappend_spec hnappend
  · exact keeps_poke hpoke heq.ge
  · rw [← heq]
    exact keeps_poke_cons hpoke hslash

/-- A name, as it is in a directory. -/
def Proper (n : Name) : Prop := n ≠ [] ∧ 0 ∉ n

/-- An entry of the directory `g`, with room for it in the buffer where it will be written. -/
structure Below (path : List Byte) (g q : FTSENT) : Prop where
  level : 0 < q.level
  proper : Proper q.name
  fits : q.pathlen < path.length
  place : ∃ t, nappend path g = some t ∧ q.pathlen = t + 1 + q.name.length

/-- A root that has not been loaded. -/
structure Waits (path : List Byte) (q : FTSENT) : Prop where
  level : q.level = 0
  zero : 0 ∉ q.name
  fits : q.name.length < path.length

section Chain

variable {path path' : List Byte} {g p p' q q' : FTSENT} {link : List FTSENT} {above : List Frame}

theorem Below.lt (h : Below path g q) : g.pathlen < q.pathlen := by
  obtain ⟨t, ht, hq⟩ := h.place
  have hname := List.length_pos_iff.mpr h.proper.1
  obtain ⟨-, heq | ⟨heq, -⟩⟩ := nappend_spec ht <;> omega

theorem Below.keeps (h : Below path g q) (hkeeps : Keeps g.pathlen path path') : Below path' g q := by
  refine ⟨h.level, h.proper, Nat.lt_of_lt_of_le h.fits hkeeps.length, ?_⟩
  rw [nappend_keeps hkeeps]
  exact h.place

theorem Below.same (h : Below path g q) (hsame : SameEntry q q') : Below path g q' := by
  refine ⟨by rw [hsame.level]; exact h.level, by rw [hsame.name]; exact h.proper, by rw [hsame.pathlen]; exact h.fits, ?_⟩
  rw [hsame.pathlen, hsame.name]
  exact h.place

theorem Below.parent (h : Below path p q) (hsame : SameEntry p p') : Below path p' q := by
  refine ⟨h.level, h.proper, h.fits, ?_⟩
  rw [nappend_congr hsame.pathlen]
  exact h.place

theorem Waits.grow (h : Waits path q) (hle : path.length ≤ path'.length) : Waits path' q :=
  ⟨h.level, h.zero, Nat.lt_of_lt_of_le h.fits hle⟩

/-- The frames of a walk, with room for every entry in them. -/
inductive Chain (path : List Byte) : List Frame → Prop
  | top : Chain path [rootParent]
  | root {p : FTSENT} {link : List FTSENT} : p.level = 0 → p.pathlen < path.length → (∀ q ∈ link, Waits path q) →
      Chain path [⟨p, link⟩, rootParent]
  | entry {p : FTSENT} {link : List FTSENT} {g : Frame} {above : List Frame} : Below path g.entry p →
      (∀ q ∈ link, Below path g.entry q) → Chain path (g :: above) → Chain path (⟨p, link⟩ :: g :: above)

theorem Chain.keeps {f : Frame} (h : Chain path (f :: above)) (hkeeps : Keeps (f.entry.pathlen - 1) path path') :
    Chain path' (f :: above) := by
  generalize hframes : f :: above = frames at h
  induction h generalizing f above with
  | top =>
    cases hframes
    exact .top
  | root hlevel hfits hlink =>
    cases hframes
    exact .root hlevel (Nat.lt_of_lt_of_le hfits hkeeps.length) fun q hq => (hlink q hq).grow hkeeps.length
  | entry hp hlink _ ih =>
    cases hframes
    have hlt := hp.lt
    have hkeeps := hkeeps.mono (Nat.le_sub_one_of_lt hlt)
    exact .entry (hp.keeps hkeeps) (fun q hq => (hlink q hq).keeps hkeeps) (ih (hkeeps.mono (Nat.sub_le _ _)) rfl)

theorem Chain.same (h : Chain path (⟨p, link⟩ :: above)) (hsame : SameEntry p p') (hne : above ≠ []) :
    Chain path (⟨p', link⟩ :: above) := by
  cases h with
  | top => exact absurd rfl hne
  | root hlevel hfits hlink => exact .root (hsame.level.trans hlevel) (by rw [hsame.pathlen]; exact hfits) hlink
  | entry hp hlink habove => exact .entry (hp.same hsame) hlink habove

end Chain

/-! ## The string in the buffer -/

/-- The path of the entry is the string in the buffer. -/
structure Spelled (path : List Byte) (p : FTSENT) : Prop where
  zero : 0 ∉ path.take p.pathlen
  nul : path[p.pathlen]? = some 0

/-- The string in a buffer ends at the first `NUL`. -/
theorem length_cstr {b : List Byte} {n : ℕ} (hzero : 0 ∉ b.take n) (hnul : b[n]? = some 0) : (cstr b).length = n := by
  have hlt : n < b.length := (List.getElem?_eq_some_iff.mp hnul).1
  have hsplit : b = b.take n ++ 0 :: b.drop (n + 1) := by
    rw [← (List.getElem?_eq_some_iff.mp hnul).2, ← List.drop_eq_getElem_cons hlt, List.take_append_drop]
  rw [hsplit, cstr_append_zero _ hzero, List.length_take_of_le hlt.le]

theorem Spelled.length {path : List Byte} {p : FTSENT} (h : Spelled path p) : (cstr path).length = p.pathlen :=
  length_cstr h.zero h.nul

/-! ## Reading a directory -/

theorem ftsStat_same {w : Vwd ι} {path : List Byte} {q q' : FTSENT} (hstat : ftsStat env w path q = some q') :
    SameEntry q q' := by
  simp only [ftsStat, Option.bind_eq_bind, Option.bind_eq_some_iff] at hstat
  obtain ⟨a, -, hstat⟩ := hstat
  split at hstat
  · cases hstat
    exact ⟨rfl, rfl, rfl, rfl⟩
  · split at hstat
    · split at hstat <;> cases hstat <;> exact ⟨rfl, rfl, rfl, rfl⟩
    all_goals
      cases hstat
      exact ⟨rfl, rfl, rfl, rfl⟩

section Build

variable {w : Vwd ι} {level : ℤ} {len : ℕ} {path path' : List Byte}

/-- The space check of `fts_build`: the buffer holds the name and its `NUL`. -/
theorem length_space (env : Env ι) (path : List Byte) (n len : ℕ) (hlen : len ≤ path.length) :
    len + n < (if n ≥ path.length - len then (ftsPalloc env path (n + len + 1)).1 else path).length := by
  split
  · simp only [ftsPalloc, List.length_append, List.length_map, List.length_range']
    omega
  · omega

/-- An entry of a directory, whose names begin at `len`. -/
structure Placed (level : ℤ) (len : ℕ) (path : List Byte) (q : FTSENT) : Prop where
  level : q.level = level
  proper : Proper q.name
  fits : q.pathlen < path.length
  place : q.pathlen = len + q.name.length

theorem Placed.same {q q' : FTSENT} (h : Placed level len path q) (hsame : SameEntry q q') : Placed level len path q' := by
  refine ⟨hsame.level.trans h.level, by rw [hsame.name]; exact h.proper, by rw [hsame.pathlen]; exact h.fits, ?_⟩
  rw [hsame.pathlen, hsame.name]
  exact h.place

theorem Placed.grow {q : FTSENT} (h : Placed level len path q) (hle : path.length ≤ path'.length) :
    Placed level len path' q := ⟨h.level, h.proper, Nat.lt_of_lt_of_le h.fits hle, h.place⟩

theorem Placed.adjust {q : FTSENT} (h : Placed level len path q) : Placed level len path q.adjust := by
  unfold FTSENT.adjust
  split
  · exact ⟨h.level, h.proper, h.fits, h.place⟩
  · exact h

/-- What stays in the buffer while the names of a directory are written from `len` on. -/
def Stable (env : Env ι) (len : ℕ) (path path' : List Byte) : Prop :=
  ∀ n ≤ path.length, (env.options.isNochdir = true → n ≤ len) → Keeps n path path'

theorem Stable.trans {a b c : List Byte} (h : Stable env len a b) (h' : Stable env len b c) : Stable env len a c := by
  intro n hn hlen
  have hkeeps := h n hn hlen
  exact hkeeps.trans (h' n (hn.trans hkeeps.length) hlen)

theorem Stable.refl (env : Env ι) (len : ℕ) (path : List Byte) : Stable env len path path := fun n _ _ => .refl n path

theorem Stable.length (h : Stable env len path path') : path.length ≤ path'.length :=
  (h 0 (Nat.zero_le _) fun _ => Nat.zero_le _).length

/-- The end of the loop's body: the entry is stat'ed, or what `fts_read` will have to do with it is recorded. -/
def ftsBuildStat (env : Env ι) (w : Vwd ι) (dp : Dirent) (path : List Byte) (p : FTSENT) :
    Option (List Byte × FTSENT) :=
  match env.compar with
  | none =>
    let skipStat : Bool := env.options.nostat ∧ dp.type ≠ none ∧ dp.type ≠ some .dir
    some (path, { p with info := .nsok, stat := { p.stat with kind := dp.type }, required := !skipStat })
  | some _ => (ftsStat env w path p).bind fun p => some (path, p)

theorem ftsBuildStat_placed {dp : Dirent} {written : List Byte} {q q' : FTSENT} (hstable : Stable env len path written)
    (hq : Placed level len written q) (hrun : ftsBuildStat env w dp written q = some (path', q')) :
    Stable env len path path' ∧ Placed level len path' q' := by
  unfold ftsBuildStat at hrun
  split at hrun
  · cases hrun
    exact ⟨hstable, hq.same ⟨rfl, rfl, rfl, rfl⟩⟩
  · obtain ⟨q₂, hstat, hrun⟩ := Option.bind_eq_some_iff.mp hrun
    cases hrun
    exact ⟨hstable, hq.same (ftsStat_same hstat)⟩

/-- An entry is built. -/
theorem ftsBuildEntry_placed {dp : Dirent} {q : FTSENT} (hlen : len ≤ path.length) (hproper : Proper dp.name)
    (hrun : ftsBuildEntry env w level len path dp = some (path', q)) :
    Stable env len path path' ∧ Placed level len path' q := by
  obtain ⟨grown, moved, hgrown⟩ : ∃ grown moved, (if dp.name.length ≥ path.length - len then
      ftsPalloc env path (dp.name.length + len + 1) else (path, false)) = (grown, moved) := ⟨_, _, rfl⟩
  have hfst : grown =
      if dp.name.length ≥ path.length - len then (ftsPalloc env path (dp.name.length + len + 1)).1 else path := by
    rw [← apply_ite Prod.fst (dp.name.length ≥ path.length - len) _ (path, false), hgrown]
  have hprefix : path <+: grown := by
    rw [hfst]
    split
    · exact prefix_ftsPalloc path _
    · exact List.prefix_refl path
  have hspace : len + dp.name.length < grown.length := by
    rw [hfst]
    exact length_space env path dp.name.length len hlen
  simp only [ftsBuildEntry, hgrown, Option.bind_eq_bind] at hrun
  split at hrun
  · rename_i hnochdir
    obtain ⟨written, hpoke, hrun⟩ := Option.bind_eq_some_iff.mp hrun
    refine ftsBuildStat_placed (fun n hn hle => ?_) ?_ hrun
    · exact (keeps_grown hprefix hn).trans (keeps_poke hpoke (hle hnochdir))
    · refine ⟨rfl, hproper, ?_, rfl⟩
      rw [(poke_spec hpoke).1]
      exact hspace
  · exact ftsBuildStat_placed (fun n hn _ => keeps_grown hprefix hn) ⟨rfl, hproper, hspace, rfl⟩ hrun

/-- The entries of a directory are built. -/
theorem ftsBuildLoop_placed {dps : List Dirent} (hproper : ∀ dp ∈ dps, Proper dp.name) {head : List FTSENT}
    (hlen : len ≤ path.length) (hrun : ftsBuildLoop env w level len path dps = some (path', head)) :
    Stable env len path path' ∧ (∀ q ∈ head, Placed level len path' q) ∧
      (head = [] ↔ ∀ dp ∈ dps, listed env dp = false) := by
  induction dps generalizing path head with
  | nil =>
    cases hrun
    exact ⟨.refl env len _, by simp, by simp⟩
  | cons dp dps ih =>
    obtain ⟨hdp, hproper⟩ := List.forall_mem_cons.mp hproper
    have hskip : (!env.options.seedot ∧ isDot dp.name) ↔ listed env dp = false := by simp [listed]
    rw [ftsBuildLoop] at hrun
    split at hrun
    · rename_i hdot
      obtain ⟨hstable, hplaced, hempty⟩ := ih hproper hlen hrun
      refine ⟨hstable, hplaced, ?_⟩
      rw [hempty, List.forall_mem_cons]
      exact ⟨fun h => ⟨hskip.mp hdot, h⟩, And.right⟩
    · rename_i hdot
      simp only [Option.bind_eq_bind, Option.bind_eq_some_iff, Option.some.injEq, Prod.mk.injEq, Prod.exists] at hrun
      obtain ⟨path₁, q, hentry, path₂, rest, hloop, rfl, rfl⟩ := hrun
      obtain ⟨hstable₁, hq⟩ := ftsBuildEntry_placed hlen hdp hentry
      obtain ⟨hstable₂, hrest, -⟩ := ih hproper (hlen.trans hstable₁.length) hloop
      refine ⟨hstable₁.trans hstable₂, List.forall_mem_cons.mpr ⟨hq.grow hstable₂.length, hrest⟩, ?_⟩
      rw [List.forall_mem_cons]
      exact ⟨fun h => (by cases h), fun h => absurd (hskip.mpr h.1) hdot⟩

/-- The writes of the loop are inside the buffer. -/
theorem ftsBuildLoop_inside {dps : List Dirent} (hproper : ∀ dp ∈ dps, Proper dp.name) (hlen : len ≤ path.length) :
    ∀ x ∈ ftsBuildLoopWrites env w level len path dps, x.Inside := by
  induction dps generalizing path with
  | nil => exact fun x hx => absurd hx List.not_mem_nil
  | cons dp dps ih =>
    obtain ⟨hdp, hproper⟩ := List.forall_mem_cons.mp hproper
    intro x hx
    rw [ftsBuildLoopWrites] at hx
    split at hx
    · exact ih hproper hlen x hx
    · obtain hx | hx := List.mem_append.mp hx
      · have hspace := length_space env path dp.name.length len hlen
        simp only [ftsBuildEntryWrites] at hx
        split at hx
        · rw [List.mem_singleton.mp hx]
          exact hspace
        · cases hx
      · split at hx
        · cases hx
        · rename_i path₁ q hentry
          obtain ⟨hstable, -⟩ := ftsBuildEntry_placed hlen hdp hentry
          exact ih hproper (hlen.trans hstable.length) x hx

variable {s s' : FTS ι} {p p' : FTSENT} {child : List FTSENT}

/-- The `NUL` that `fts_build` puts behind the path of the directory. -/
def ftsBuildNul (env : Env ι) (path : List Byte) (head : List FTSENT) (len : ℕ) : Option (List Byte) :=
  if env.options.isNochdir then poke path (if len = path.length ∨ head = [] then len - 1 else len) [0] else some path

/-- A directory cannot be opened, or it is read. -/
theorem ftsBuild_cases (hrun : ftsBuild env s p = some (child, p', s')) :
    (child = [] ∧ SameEntry p p' ∧ s'.path = s.path ∧ s'.stop = s.stop ∧
      ∃ a e, p.access s.path = some a ∧ opendir env s.vwd a = .error e) ∨
    ∃ dirents w len slashed path head ended err w', ftsBuildOpen env s p = some (dirents, w, len) ∧
      ftsBuildSlash env s.path len = some slashed ∧
      ftsBuildLoop env w (p.level + 1) (len + 1) slashed dirents = some (path, head) ∧
      ftsBuildNul env path (head.map FTSENT.adjust) (len + 1) = some ended ∧
      (child, p', s') = ftsBuildEnd env s p ended (head.map FTSENT.adjust) err w' := by
  have htype : ∀ head : List FTSENT, (if bchild ≠ 0 ∨ head = [] then 1 else 0) = 1 :=
    fun head => if_pos (.inl (by decide))
  have hbread : (1 : ℕ) ≠ bread := by decide
  have hone : (1 : ℕ) ≠ 0 := by decide
  simp only [ftsBuild, htype, if_pos hone, if_neg hbread, Option.bind_eq_bind] at hrun
  obtain ⟨a, haccess, hrun⟩ := Option.bind_eq_some_iff.mp hrun
  cases hopen : opendir env s.vwd a with
  | error e =>
    rw [hopen] at hrun
    cases hrun
    exact .inl ⟨rfl, ⟨rfl, rfl, rfl, rfl⟩, rfl, rfl, a, e, haccess, hopen⟩
  | ok r =>
    obtain ⟨dir, dirents⟩ := r
    right
    simp only [hopen] at hrun
    obtain ⟨⟨err, w⟩, hchange, hrun⟩ := Option.bind_eq_some_iff.mp hrun
    obtain ⟨len, hnappend, hrun⟩ := Option.bind_eq_some_iff.mp hrun
    have hopened : ftsBuildOpen env s p = some (dirents, w, len) := by
      simp only [ftsBuildOpen, haccess, hopen, Option.bind_eq_bind, Option.bind_some]
      rw [hchange, Option.bind_some, hnappend, Option.bind_some]
    refine ⟨dirents, w, len, ?_⟩
    cases hopt : env.options.isNochdir
    all_goals
      simp only [hopt, Bool.false_eq_true, if_true, if_false] at hrun
      obtain ⟨slashed, hslash, hrun⟩ := Option.bind_eq_some_iff.mp hrun
      obtain ⟨⟨path, head⟩, hloop, hrun⟩ := Option.bind_eq_some_iff.mp hrun
      obtain ⟨ended, hnul, hrun⟩ := Option.bind_eq_some_iff.mp hrun
      refine ⟨slashed, path, head, ended, ?_⟩
      have hback : ∃ err w', (child, p', s') = ftsBuildEnd env s p ended (head.map FTSENT.adjust) err w' := by
        split at hrun
        all_goals
          obtain ⟨err, w', -, hend⟩ := ftsBuildEnd_of_bind hrun
          exact ⟨err, w', hend⟩
      obtain ⟨err, w', hend⟩ := hback
      refine ⟨err, w', hopened, ?_, hloop, ?_, hend⟩
      · simpa only [ftsBuildSlash, hopt, Bool.false_eq_true, if_true, if_false] using hslash
      · simpa only [ftsBuildNul, hopt, Bool.false_eq_true, if_true, if_false] using hnul

theorem ftsBuildOpen_spec {dirents : List Dirent} {len : ℕ} (hopened : ftsBuildOpen env s p = some (dirents, w, len)) :
    nappend s.path p = some len ∧
      ∃ a dir, p.access s.path = some a ∧ opendir env s.vwd a = .ok (dir, dirents) ∧ env.fs.readdir dir = .ok dirents := by
  simp only [ftsBuildOpen, Option.bind_eq_bind] at hopened
  obtain ⟨a, haccess, hopened⟩ := Option.bind_eq_some_iff.mp hopened
  cases hopen : opendir env s.vwd a with
  | error e =>
    rw [hopen] at hopened
    cases hopened
  | ok r =>
    obtain ⟨dir, l⟩ := r
    simp only [hopen] at hopened
    obtain ⟨⟨err, w'⟩, -, hopened⟩ := Option.bind_eq_some_iff.mp hopened
    obtain ⟨t, hnappend, hopened⟩ := Option.bind_eq_some_iff.mp hopened
    cases hopened
    refine ⟨hnappend, a, dir, haccess, hopen, ?_⟩
    unfold opendir at hopen
    split at hopen
    · cases hopen
    · split at hopen
      · cases hopen
      · split at hopen
        · cases hopen
        · split at hopen
          · cases hopen
          · rename_i hreaddir
            cases hopen
            exact hreaddir

/-- The slash behind the path of the directory. -/
theorem ftsBuildSlash_spec {slashed : List Byte} (hnappend : nappend path p = some len)
    (hslash : ftsBuildSlash env path len = some slashed) : Keeps p.pathlen path slashed ∧
      slashed.length = path.length ∧ (env.options.isNochdir = false → slashed = path) := by
  unfold ftsBuildSlash at hslash
  split at hslash
  · rename_i hopt
    refine ⟨keeps_slash hnappend hslash, (poke_spec hslash).1, ?_⟩
    rw [hopt]
    exact nofun
  · cases hslash
    exact ⟨.refl _ _, rfl, fun _ => rfl⟩

/-- The buffer when a directory has been read: what it has kept, the entries in it, and what is there when there are none. -/
structure Read (env : Env ι) (path : List Byte) (p : FTSENT) (dirents : List Dirent) (head : List FTSENT)
    (ended : List Byte) : Prop where
  empty_iff : head = [] ↔ ∀ dp ∈ dirents, listed env dp = false
  keeps : Keeps (p.pathlen - 1) path ended
  entries : head ≠ [] → Keeps p.pathlen path ended
  below : ∀ q ∈ head, Below ended p q
  empty : head = [] → env.options.isNochdir = true →
    ∃ t, nappend path p = some t ∧ Keeps t path ended ∧ ended[t]? = some 0
  grown : env.options.isNochdir = false → Keeps (p.pathlen + 1) path ended

theorem ftsBuildNul_spec {head : List FTSENT} {ended : List Byte} (hfits : ∀ q ∈ head, len + 1 < path.length)
    (hnul : ftsBuildNul env path head (len + 1) = some ended) :
    (head = [] → Keeps len path ended ∧ (env.options.isNochdir = true → ended[len]? = some 0)) ∧
      (head ≠ [] → Keeps (len + 1) path ended) ∧ (env.options.isNochdir = false → ended = path) := by
  unfold ftsBuildNul at hnul
  split at hnul
  · rename_i hopt
    refine ⟨?_, ?_, by simp [hopt]⟩
    · intro hne
      rw [if_pos (.inr hne)] at hnul
      exact ⟨keeps_poke hnul (Nat.le_refl _), fun _ => getElem?_poke hnul (k := 0) (by simp)⟩
    · intro hne
      obtain ⟨q, hq⟩ := List.exists_mem_of_ne_nil head hne
      have hlt := hfits q hq
      rw [if_neg (by simp [hne]; omega)] at hnul
      exact keeps_poke hnul (Nat.le_refl _)
  · cases hnul
    rename_i hopt
    exact ⟨fun _ => ⟨.refl _ _, fun hopt' => absurd hopt' hopt⟩, fun _ => .refl _ _, fun _ => rfl⟩

theorem read_spec {dirents : List Dirent} {slashed ended : List Byte} {head : List FTSENT}
    (hnappend : nappend path p = some len) (hfits : p.pathlen < path.length) (hlevel : 0 ≤ p.level)
    (hproper : ∀ dp ∈ dirents, Proper dp.name) (hslash : ftsBuildSlash env path len = some slashed)
    (hloop : ftsBuildLoop env w (p.level + 1) (len + 1) slashed dirents = some (path', head))
    (hnul : ftsBuildNul env path' (head.map FTSENT.adjust) (len + 1) = some ended) :
    Read env path p dirents (head.map FTSENT.adjust) ended := by
  obtain ⟨hpos, hlen⟩ := nappend_spec hnappend
  have hle : len ≤ p.pathlen := by omega
  have hle' : p.pathlen ≤ len + 1 := by omega
  obtain ⟨hkeeps, hlength, hsame⟩ := ftsBuildSlash_spec hnappend hslash
  obtain ⟨hstable, hplaced, hiff⟩ := ftsBuildLoop_placed hproper (by omega) hloop
  have hloop : Keeps p.pathlen path path' := hkeeps.trans (hstable _ (by omega) fun _ => hle')
  have hfits : ∀ q ∈ head.map FTSENT.adjust, len + 1 < path'.length := by
    intro q hq
    obtain ⟨q', hq', rfl⟩ := List.mem_map.mp hq
    have hq := hplaced q' hq'
    have hname := List.length_pos_iff.mpr hq.proper.1
    have hplace := hq.place
    exact Nat.lt_trans (by omega) hq.fits
  obtain ⟨hempty, hentries, hnochdir⟩ := ftsBuildNul_spec hfits hnul
  have hended : head.map FTSENT.adjust ≠ [] → Keeps p.pathlen path ended :=
    fun hne => hloop.trans ((hentries hne).mono hle')
  refine ⟨List.map_eq_nil_iff.trans hiff, ?_, hended, ?_, ?_, ?_⟩
  · by_cases hne : head.map FTSENT.adjust = []
    · exact (hloop.mono (Nat.sub_le _ 1)).trans ((hempty hne).1.mono (by omega))
    · exact (hended hne).mono (Nat.sub_le _ 1)
  · intro q hq
    have hended := hended (List.ne_nil_of_mem hq)
    have hgrown := (hentries (List.ne_nil_of_mem hq)).length
    obtain ⟨q', hq', rfl⟩ := List.mem_map.mp hq
    have hq := ((hplaced q' hq').grow hgrown).adjust
    refine ⟨?_, hq.proper, hq.fits, len, ?_, hq.place⟩
    · rw [hq.level]
      omega
    · rw [nappend_keeps hended, hnappend]
  · intro hne hopt
    exact ⟨len, hnappend, (hloop.mono hle).trans (hempty hne).1, (hempty hne).2 hopt⟩
  · intro hopt
    rw [hnochdir hopt, ← hsame hopt]
    exact hstable _ (by omega) fun hopt' => by simp [hopt] at hopt'

/-- The names in the directories are proper. -/
def ProperNames (env : Env ι) : Prop := ∀ d l, env.fs.readdir d = .ok l → ∀ dp ∈ l, Proper dp.name

/-- The writes of `fts_build` are inside the buffer. -/
theorem ftsBuildWrites_inside (hnames : ProperNames env) (hfits : p.pathlen < s.path.length) :
    ∀ x ∈ ftsBuildWrites env s p, x.Inside := by
  intro x hx
  unfold ftsBuildWrites at hx
  split at hx
  · cases hx
  · rename_i dirents w len hopened
    obtain ⟨hnappend, a, dir, -, -, hreaddir⟩ := ftsBuildOpen_spec hopened
    obtain ⟨-, hlen⟩ := nappend_spec hnappend
    have hproper := hnames dir dirents hreaddir
    obtain hx | hx := List.mem_append.mp hx
    · split at hx
      · rw [List.mem_singleton.mp hx]
        show len + 1 ≤ s.path.length
        omega
      · cases hx
    · split at hx
      · cases hx
      · rename_i slashed hslash
        obtain ⟨-, hlength, -⟩ := ftsBuildSlash_spec hnappend hslash
        have hle : len + 1 ≤ slashed.length := by omega
        obtain hx | hx := List.mem_append.mp hx
        · exact ftsBuildLoop_inside hproper hle x hx
        · split at hx
          · cases hx
          · rename_i path head hloop
            obtain ⟨hstable, -, -⟩ := ftsBuildLoop_placed hproper hle hloop
            have hle := hle.trans hstable.length
            split at hx
            · rw [List.mem_singleton.mp hx]
              show (if len + 1 = path.length ∨ head = [] then len else len + 1) + 1 ≤ path.length
              split <;> omega
            · cases hx

/-- `fts_build` puts the `NUL` over the slash at the end of the path: with `FTS_NOCHDIR`, where there is nothing in the
directory. -/
def Cuts (env : Env ι) (s : FTS ι) (p : FTSENT) : Prop :=
  env.options.isNochdir = true ∧ s.path[p.pathlen - 1]? = some slash ∧
    ∃ a dir dirents, p.access s.path = some a ∧ opendir env s.vwd a = .ok (dir, dirents) ∧
      ∀ dp ∈ dirents, listed env dp = false

theorem Spelled.keeps {path path' : List Byte} (h : Spelled path p) (hkeeps : Keeps (p.pathlen + 1) path path')
    (hsame : SameEntry p p') : Spelled path' p' := by
  constructor
  · rw [hsame.pathlen, (hkeeps.mono (Nat.le_succ _)).take]
    exact h.zero
  · rw [hsame.pathlen, hkeeps.getElem? (Nat.lt_succ_self _)]
    exact h.nul

/-- What `fts_build` leaves of the buffer. -/
structure Filled (env : Env ι) (s s' : FTS ι) (p p' : FTSENT) (child : List FTSENT) : Prop where
  same : SameEntry p p'
  keeps : Keeps (p.pathlen - 1) s.path s'.path
  entries : child ≠ [] → s'.stop = s.stop ∧ Keeps p.pathlen s.path s'.path ∧ ∀ q ∈ child, Below s'.path p' q
  spelled : child = [] → s'.stop = false → Spelled s.path p → ¬ Cuts env s p → Spelled s'.path p'
  cut : s'.stop = false → Spelled s.path p → Cuts env s p → child = [] ∧ (cstr s'.path).length + 1 = p'.pathlen

theorem ftsBuild_filled (hnames : ProperNames env) (hfits : p.pathlen < s.path.length) (hlevel : 0 ≤ p.level)
    (hrun : ftsBuild env s p = some (child, p', s')) : Filled env s s' p p' child := by
  obtain ⟨rfl, hsame, hpath, hstop, a, e, haccess, hopen⟩ |
    ⟨dirents, w, len, slashed, path, head, ended, err, w', hopened, hslash, hloop, hnul, hend⟩ := ftsBuild_cases hrun
  · have hkeeps : ∀ n, Keeps n s.path s'.path := fun n => by rw [hpath]; exact .refl n _
    refine ⟨hsame, hkeeps _, fun h => absurd rfl h, fun _ _ h _ => h.keeps (hkeeps _) hsame, ?_⟩
    rintro - - ⟨-, -, a', dir, dirents, haccess', hopen', -⟩
    rw [haccess] at haccess'
    cases haccess'
    rw [hopen] at hopen'
    cases hopen'
  · obtain ⟨hnappend, a, dir, haccess, hopen, hreaddir⟩ := ftsBuildOpen_spec hopened
    have hread := read_spec hnappend hfits hlevel (hnames dir dirents hreaddir) hslash hloop hnul
    have hcuts : Cuts env s p → head.map FTSENT.adjust = [] := by
      rintro ⟨-, -, a', dir', dirents', haccess', hopen', hunlisted⟩
      rw [haccess] at haccess'
      cases haccess'
      rw [hopen] at hopen'
      cases hopen'
      exact hread.empty_iff.mpr hunlisted
    generalize head.map FTSENT.adjust = entries at hread hend hcuts
    unfold ftsBuildEnd at hend
    split at hend
    · cases hend
      exact ⟨⟨rfl, rfl, rfl, rfl⟩, hread.keeps, fun h => absurd rfl h, nofun, nofun⟩
    · split at hend
      · rename_i hempty
        cases hend
        refine ⟨.refl p, hread.keeps, fun h => absurd rfl h, ?_, ?_⟩
        · intro _ _ hspelled hcut
          cases hopt : env.options.isNochdir with
          | false => exact hspelled.keeps (hread.grown hopt) (.refl p)
          | true =>
            obtain ⟨t, ht, hkeeps, hnul⟩ := hread.empty hempty hopt
            obtain ⟨-, rfl | ⟨heq, hslash⟩⟩ := nappend_spec ht
            · exact ⟨by rw [hkeeps.take]; exact hspelled.zero, hnul⟩
            · refine absurd ⟨hopt, ?_, a, dir, dirents, haccess, hopen, hread.empty_iff.mp hempty⟩ hcut
              rwa [← heq]
        · rintro - hspelled ⟨hopt, hslash, -⟩
          obtain ⟨t, ht, hkeeps, hnul⟩ := hread.empty hempty hopt
          have ht' : t + 1 = p.pathlen := by
            unfold nappend at ht
            rw [if_pos hslash] at ht
            split at ht
            · cases ht
            · cases ht
              omega
          refine ⟨rfl, ?_⟩
          rw [length_cstr _ hnul, ht']
          rw [hkeeps.take]
          intro hzero
          refine hspelled.zero (List.mem_of_mem_take (i := t) ?_)
          rwa [List.take_take, Nat.min_eq_left (by omega)]
      · rename_i hne
        cases hend
        have hperm := ftsBuildSort_perm env w' entries
        have hsort : ftsBuildSort env w' entries ≠ [] := fun h => hne (List.perm_nil.mp (h ▸ hperm.symm))
        refine ⟨.refl p, hread.keeps, ?_, fun h => absurd h hsort, fun _ _ hcut => absurd (hcuts hcut) hne⟩
        intro _
        exact ⟨rfl, hread.entries hne, fun q hq => hread.below q (hperm.subset hq)⟩

end Build

/-! ## Calls of `fts_read` -/

section Calls

variable {s s' : FTS ι} {p q : FTSENT} {link qs : List FTSENT} {above : List Frame} {r : Option FTSENT}

/-- Where a walk is: it is over; before the first call; or at an entry, whose path is in the buffer if it has been so far. -/
inductive PathInv (spelled : Prop) (s : FTS ι) : Prop
  | closed : s.stop = true ∨ s.cur = [] → PathInv spelled s
  | start {p : FTSENT} {link : List FTSENT} {above : List Frame} : s.cur = ⟨p, link⟩ :: above → p.info ≠ .d →
      (∀ q ∈ link, Waits s.path q) → above = [rootParent] ∨ above = [] ∧ link = [] → PathInv spelled s
  | walk {p : FTSENT} {link : List FTSENT} {g : Frame} {above : List Frame} : s.cur = ⟨p, link⟩ :: g :: above →
      Chain s.path (⟨p, link⟩ :: g :: above) → (spelled → Spelled s.path p) → PathInv spelled s

/-- What a call of `fts_read` leaves. -/
def Stepped (spelled : Prop) (r : Option FTSENT) (s : FTS ι) : Prop :=
  PathInv spelled s ∧ (spelled → ∀ p, r = some p → Spelled s.path p)

theorem Stepped.null {spelled : Prop} (h : PathInv spelled s) : Stepped spelled none s := ⟨h, fun _ _ hp => nomatch hp⟩

/-- From `check_for_dir` on, the path of the entry does not change. -/
theorem checkForDir_same (hrun : checkForDir env s q qs above = some (r, s')) :
    ∃ q', r = some q' ∧ s'.cur = ⟨q', qs⟩ :: above ∧ s'.path = s.path ∧ SameEntry q q' := by
  obtain ⟨q₁, hstat, hsame⟩ : ∃ q₁, (if q.info = .nsok ∧ q.required then ftsStat env s.vwd s.path q else some q) =
      some q₁ ∧ SameEntry q q₁ := by
    by_cases hpending : q.info = .nsok ∧ q.required = true
    · rw [if_pos hpending]
      cases hstat : ftsStat env s.vwd s.path q with
      | none => simp [checkForDir, hpending, hstat] at hrun
      | some q₁ => exact ⟨q₁, rfl, ftsStat_same hstat⟩
    · exact ⟨q, if_neg hpending, .refl q⟩
  rw [checkForDir_eq hstat] at hrun
  split at hrun
  · obtain ⟨⟨q₂, cycle⟩, henter, hrun⟩ := Option.bind_eq_some_iff.mp hrun
    cases hrun
    simp only [enterDir, Option.bind_eq_bind, Option.bind_eq_some_iff, Option.some.injEq, Prod.mk.injEq] at henter
    obtain ⟨⟨cyclic, cycle'⟩, -, hq₂, rfl⟩ := henter
    refine ⟨q₂, rfl, rfl, rfl, ?_⟩
    rw [← hq₂]
    split
    · exact ⟨hsame.level, hsame.accpath, hsame.name, hsame.pathlen⟩
    · exact hsame
  · cases hrun
    exact ⟨q₁, rfl, rfl, rfl, hsame⟩

theorem Spelled.same {path : List Byte} {q' : FTSENT} (h : Spelled path q) (hsame : SameEntry q q') : Spelled path q' := by
  refine ⟨?_, ?_⟩ <;> rw [hsame.pathlen]
  · exact h.zero
  · exact h.nul

/-- A string is copied into the buffer with its `NUL`. -/
theorem spelled_poke {path path' str : List Byte} {t : ℕ} (hpoke : poke path t (str ++ [0]) = some path')
    (hzero : 0 ∉ path.take t) (hstr : 0 ∉ str) : 0 ∉ path'.take (t + str.length) ∧ path'[t + str.length]? = some 0 := by
  have hnul := getElem?_poke hpoke (k := str.length) (by simp)
  rw [List.getElem?_append_right (Nat.le_refl _), Nat.sub_self] at hnul
  obtain ⟨hlength, -, hpath'⟩ := poke_spec hpoke
  have hlt : t + str.length < path'.length := (List.getElem?_eq_some_iff.mp hnul).1
  have hsplit : path' = (path.take t ++ str) ++ (0 :: path.drop (t + (str ++ [0]).length)) := by
    rw [hpath']
    simp
  have hlen : (path.take t ++ str).length = t + str.length := by
    rw [List.length_append, List.length_take_of_le (by omega)]
  refine ⟨?_, hnul⟩
  rw [hsplit, ← hlen, List.take_left, List.mem_append]
  exact not_or.mpr ⟨hzero, hstr⟩

/-- The write at `name` is inside the buffer. -/
theorem ftsNameWrites_inside {parent : Frame} (hq : Below s.path parent.entry q) :
    ∀ x ∈ ftsNameWrites s q (parent :: above), x.Inside := by
  intro x hx
  obtain ⟨t, ht, hplace⟩ := hq.place
  simp only [ftsNameWrites, ht, List.mem_singleton] at hx
  subst hx
  have hfits := hq.fits
  show t + (q.name.length + 2) ≤ s.path.length
  omega

/-- From `name` on: the path of the entry is in the buffer. -/
theorem ftsName_stepped {spelled : Prop} {parent : Frame} (hchain : Chain s.path (parent :: above))
    (hq : Below s.path parent.entry q) (hqs : ∀ q' ∈ qs, Below s.path parent.entry q')
    (hzero : spelled → 0 ∉ s.path.take parent.entry.pathlen)
    (hrun : ftsName env s q qs (parent :: above) = some (r, s')) : Stepped spelled r s' := by
  simp only [ftsName, Option.bind_eq_bind, Option.bind_eq_some_iff] at hrun
  obtain ⟨t, hnappend, path, hpoke, hrun⟩ := hrun
  obtain ⟨q', rfl, hcur, hpath, hsame⟩ := checkForDir_same hrun
  have hkeeps : Keeps parent.entry.pathlen s.path path := keeps_slash hnappend hpoke
  have hspelled : spelled → Spelled path q' := by
    intro h
    obtain ⟨t', ht', hplace⟩ := hq.place
    rw [hnappend] at ht'
    cases ht'
    obtain ⟨-, ht⟩ := nappend_spec hnappend
    have hprefix : 0 ∉ s.path.take t := by
      intro hmem
      refine hzero h (List.mem_of_mem_take (i := t) ?_)
      rwa [List.take_take, Nat.min_eq_left (by omega)]
    have hstr : 0 ∉ slash :: q.name := by
      rw [List.mem_cons, not_or]
      exact ⟨by decide, hq.proper.2⟩
    have hpathlen : q'.pathlen = t + (slash :: q.name).length := by
      rw [hsame.pathlen, hplace, List.length_cons]
      omega
    obtain ⟨hzero', hnul⟩ := spelled_poke hpoke hprefix hstr
    rw [← hpathlen] at hzero' hnul
    exact ⟨hzero', hnul⟩
  refine ⟨.walk hcur ?_ ?_, ?_⟩
  · rw [hpath]
    exact .entry ((hq.keeps hkeeps).same hsame) (fun q' hq' => (hqs q' hq').keeps hkeeps)
      (hchain.keeps (hkeeps.mono (Nat.sub_le _ 1)))
  · rw [hpath]
    exact hspelled
  · intro h p hp
    cases hp
    rw [hpath]
    exact hspelled h

/-- The end of `fts_read` at the parent node `p`, after it has gone back with `err`. -/
def ftsUpEnd (s : FTS ι) (p : FTSENT) (link : List FTSENT) (above : List Frame) (path : List Byte)
    (err : Option Errno) (w : Vwd ι) : Option (Option FTSENT × FTS ι) :=
  let p := if err.isSome then { p with errno := err } else p
  let p := { p with info := if p.errno.isSome then .err else .dp }
  (if p.errno.isNone then leaveDir s.cycle p (above.head?.map Frame.entry) else some s.cycle).bind fun cycle =>
    let stop := s.stop || err.isSome
    some (if stop then none else some p, { cur := ⟨p, link⟩ :: above, path, vwd := w, cycle, stop })

theorem ftsUp_eq (hlevel : p.level ≠ -1) (hinfo : p.info ≠ .nsok) : ftsUp env s (⟨p, link⟩ :: above) =
    (poke s.path p.pathlen [0]).bind fun path =>
      (if p.level = 0 then (restoreInitialCwd env s.vwd).map fun w => (none, w)
        else ftsSafeChangedir env s.vwd (-1) (some [46, 46])).bind fun x =>
          ftsUpEnd s p link above path x.1 x.2 := by
  rw [ftsUp, if_neg hlevel, if_neg hinfo]
  congr 1
  funext path
  by_cases hroot : p.level = 0
  · simp only [if_pos hroot]
    exact congrArg (Option.bind _) (funext fun x => (apply_ite (fun o => Option.bind o _) _ _ _).symm)
  · simp only [if_neg hroot]
    exact congrArg (Option.bind _) (funext fun x => (apply_ite (fun o => Option.bind o _) _ _ _).symm)

theorem ftsUpEnd_spec {path : List Byte} {err : Option Errno} {w : Vwd ι}
    (hrun : ftsUpEnd s p link above path err w = some (r, s')) :
    ∃ p', SameEntry p p' ∧ s'.cur = ⟨p', link⟩ :: above ∧ s'.path = path ∧ (r = none ∨ r = some p') := by
  obtain ⟨cycle, -, hrun⟩ := Option.bind_eq_some_iff.mp hrun
  cases hrun
  refine ⟨_, ?_, rfl, rfl, ?_⟩
  · split <;> exact ⟨rfl, rfl, rfl, rfl⟩
  · split
    · exact .inl rfl
    · exact .inr rfl

/-- In the frames above an entry there is a path for each but the last. -/
theorem Chain.fits {path : List Byte} (h : Chain path (⟨p, link⟩ :: above)) (hlevel : p.level ≠ -1) :
    p.pathlen < path.length ∧ 0 ≤ p.level ∧ ∃ g above', above = g :: above' := by
  cases h with
  | top => exact absurd rfl hlevel
  | root hroot hfits _ => exact ⟨hfits, Int.le_of_eq hroot.symm, _, _, rfl⟩
  | entry hp _ _ => exact ⟨hp.fits, Int.le_of_lt hp.level, _, _, rfl⟩

/-- The last frame is the only one of its level. -/
theorem Chain.level_ne {path : List Byte} {g : Frame} (h : Chain path (⟨p, link⟩ :: g :: above)) : p.level ≠ -1 := by
  cases h with
  | root hroot _ _ =>
    rw [hroot]
    decide
  | entry hp _ _ =>
    have hlevel := hp.level
    omega

theorem ftsUpWrites_inside (hchain : Chain s.path (⟨p, link⟩ :: above)) :
    ∀ x ∈ ftsUpWrites s (⟨p, link⟩ :: above), x.Inside := by
  intro x hx
  rw [ftsUpWrites] at hx
  split at hx
  · cases hx
  · rename_i hstays
    obtain ⟨hfits, -⟩ := hchain.fits fun hlevel => hstays (.inl hlevel)
    rw [List.mem_singleton.mp hx]
    exact hfits

/-- Back to the parent node: its path is in the buffer again. -/
theorem ftsUp_stepped {spelled : Prop} (hchain : Chain s.path (⟨p, link⟩ :: above))
    (hzero : spelled → 0 ∉ s.path.take p.pathlen) (hrun : ftsUp env s (⟨p, link⟩ :: above) = some (r, s')) :
    Stepped spelled r s' := by
  by_cases hlevel : p.level = -1
  · rw [ftsUp, if_pos hlevel] at hrun
    cases hrun
    exact .null (.closed (.inr rfl))
  by_cases hinfo : p.info = .nsok
  · rw [ftsUp, if_neg hlevel, if_pos hinfo] at hrun
    cases hrun
  rw [ftsUp_eq hlevel hinfo] at hrun
  obtain ⟨path, hpoke, hrun⟩ := Option.bind_eq_some_iff.mp hrun
  obtain ⟨⟨err, w⟩, -, hrun⟩ := Option.bind_eq_some_iff.mp hrun
  obtain ⟨p', hsame, hcur, hpath, hr⟩ := ftsUpEnd_spec hrun
  obtain ⟨hfits, -, g, above', rfl⟩ := hchain.fits hlevel
  have hkeeps : Keeps p.pathlen s.path path := keeps_poke hpoke (Nat.le_refl _)
  have hspelled : spelled → Spelled path p' := by
    intro h
    refine Spelled.same ⟨?_, getElem?_poke hpoke (k := 0) (by simp)⟩ hsame
    rw [hkeeps.take]
    exact hzero h
  refine ⟨.walk hcur ?_ ?_, ?_⟩
  · rw [hpath]
    exact (hchain.keeps (hkeeps.mono (Nat.sub_le _ 1))).same hsame (fun h => by cases h)
  · rw [hpath]
    exact hspelled
  · intro h q hq
    obtain rfl | rfl := hr
    · cases hq
    · cases hq
      rw [hpath]
      exact hspelled h

/-- On to the next entry of a directory, or back to it. -/
theorem ftsNext_stepped {spelled : Prop} {g : Frame} (hchain : Chain s.path (g :: above))
    (hlink : ∀ q ∈ link, Below s.path g.entry q) (hzero : spelled → 0 ∉ s.path.take g.entry.pathlen)
    (hrun : ftsNext env s (g :: above) link = some (r, s')) : Stepped spelled r s' := by
  induction link with
  | nil => exact ftsUp_stepped hchain hzero hrun
  | cons q link ih =>
    obtain ⟨hq, hlink⟩ := List.forall_mem_cons.mp hlink
    rw [ftsNext, if_neg (Int.ne_of_gt hq.level)] at hrun
    split at hrun
    · exact ih hlink hrun
    · exact ftsName_stepped hchain hq hlink hzero hrun

theorem ftsNextWrites_inside {g : Frame} (hchain : Chain s.path (g :: above))
    (hlink : ∀ q ∈ link, Below s.path g.entry q) : ∀ x ∈ ftsNextWrites s (g :: above) link, x.Inside := by
  induction link with
  | nil => exact ftsUpWrites_inside hchain
  | cons q link ih =>
    obtain ⟨hq, hlink⟩ := List.forall_mem_cons.mp hlink
    rw [ftsNextWrites, if_neg (Int.ne_of_gt hq.level)]
    split
    · exact ih hlink
    · exact ftsNameWrites_inside hq

/-- On to the next root, which is loaded; or the end. -/
theorem ftsNext_root_stepped {spelled : Prop} (hlink : ∀ q ∈ link, Waits s.path q)
    (hrun : ftsNext env s [rootParent] link = some (r, s')) : Stepped spelled r s' := by
  cases link with
  | nil =>
    cases hrun
    exact .null (.closed (.inr rfl))
  | cons q link =>
    obtain ⟨hq, hlink⟩ := List.forall_mem_cons.mp hlink
    simp only [ftsNext, hq.level, if_true, Option.bind_eq_bind, Option.bind_eq_some_iff, Prod.exists] at hrun
    obtain ⟨w, -, path, q₁, hload, hrun⟩ := hrun
    simp only [ftsLoad, Option.bind_eq_bind, Option.bind_eq_some_iff, Option.some.injEq, Prod.mk.injEq] at hload
    obtain ⟨path', hpoke, rfl, rfl⟩ := hload
    obtain ⟨q', rfl, hcur, hpath, hsame⟩ := checkForDir_same hrun
    obtain ⟨hlength, -, -⟩ := poke_spec hpoke
    have hspelled : Spelled path' q' := by
      obtain ⟨hzero, hnul⟩ := spelled_poke hpoke (by simp) hq.zero
      rw [Nat.zero_add] at hzero hnul
      exact Spelled.same ⟨hzero, hnul⟩ hsame
    refine ⟨.walk hcur ?_ ?_, ?_⟩
    · rw [hpath]
      refine .root (hsame.level.trans hq.level) ?_ fun q hq => (hlink q hq).grow hlength.ge
      rw [hsame.pathlen]
      exact Nat.lt_of_lt_of_eq hq.fits hlength.symm
    · rw [hpath]
      exact fun _ => hspelled
    · intro _ p hp
      cases hp
      rw [hpath]
      exact hspelled

theorem ftsNextWrites_root_inside (hlink : ∀ q ∈ link, Waits s.path q) :
    ∀ x ∈ ftsNextWrites s [rootParent] link, x.Inside := by
  intro x hx
  cases link with
  | nil => cases hx
  | cons q link =>
    have hq := hlink q List.mem_cons_self
    rw [ftsNextWrites, if_pos hq.level, List.mem_singleton] at hx
    subst hx
    have hfits := hq.fits
    show 0 + (q.name.length + 1) ≤ s.path.length
    omega

theorem Filled.chain {s₁ : FTS ι} {p₁ : FTSENT} {g : Frame} {child : List FTSENT} (h : Filled env s s₁ p p₁ child)
    (hchain : Chain s.path (⟨p, link⟩ :: g :: above)) : Chain s₁.path (⟨p₁, link⟩ :: g :: above) :=
  (hchain.keeps h.keeps).same h.same nofun

/-- The entry stays the current node. -/
theorem Stays.stepped {spelled : Prop} {g : Frame} {p' : FTSENT} (h : Stays s s' p link (g :: above) r p')
    (hchain : Chain s.path (⟨p, link⟩ :: g :: above)) (hspelled : spelled → Spelled s.path p) :
    Stepped spelled r s' := by
  have hspelled : spelled → Spelled s'.path p' := by
    intro hs
    rw [h.path]
    exact (hspelled hs).same h.same
  refine ⟨.walk h.cur ?_ hspelled, ?_⟩
  · rw [h.path]
    exact hchain.same h.same nofun
  · intro hs q hq
    rw [h.result] at hq
    cases hq
    exact hspelled hs

/-- A directory is left, or read. -/
theorem ftsDescend_stepped {spelled : Prop} {g : Frame} {instr : Instr} (hnames : ProperNames env)
    (hchain : Chain s.path (⟨p, link⟩ :: g :: above)) (hlevel : p.level ≠ -1) (hspelled : spelled → Spelled s.path p)
    (hcuts : spelled → instr ≠ .skip → ¬ Cuts env s p)
    (hrun : ftsDescend env s instr p link (g :: above) = some (r, s')) : Stepped spelled r s' := by
  obtain ⟨hfits, hnonneg, -⟩ := hchain.fits hlevel
  obtain ⟨-, p', hstays⟩ | ⟨hinstr, child, p₁, s₁, hbuild, hcases⟩ := ftsDescend_cases hrun
  · exact hstays.stepped hchain hspelled
  · have hfilled := ftsBuild_filled hnames hfits hnonneg hbuild
    have hchain₁ := hfilled.chain hchain
    obtain ⟨-, -, rfl, hstop, -⟩ | ⟨rfl, hstop, p', hstays⟩ | ⟨q, qs, rfl, hname⟩ := hcases
    · exact .null (.closed (.inl hstop))
    · exact hstays.stepped hchain₁ fun h => hfilled.spelled rfl hstop (hspelled h) (hcuts h hinstr)
    · obtain ⟨-, hkeeps, hbelow⟩ := hfilled.entries (List.cons_ne_nil q qs)
      obtain ⟨hq, hqs⟩ := List.forall_mem_cons.mp hbelow
      refine ftsName_stepped hchain₁ hq hqs (fun h => ?_) hname
      show 0 ∉ s₁.path.take p₁.pathlen
      rw [hfilled.same.pathlen, hkeeps.take]
      exact (hspelled h).zero

theorem ftsDescendWrites_inside {g : Frame} {instr : Instr} (hnames : ProperNames env)
    (hchain : Chain s.path (⟨p, link⟩ :: g :: above)) (hlevel : p.level ≠ -1) :
    ∀ x ∈ ftsDescendWrites env s instr p link (g :: above), x.Inside := by
  obtain ⟨hfits, hnonneg, -⟩ := hchain.fits hlevel
  intro x hx
  unfold ftsDescendWrites at hx
  split at hx
  · cases hx
  · obtain hx | hx := List.mem_append.mp hx
    · exact ftsBuildWrites_inside hnames hfits x hx
    · split at hx
      · rename_i q qs p₁ s₁ hbuild
        obtain ⟨-, -, hbelow⟩ := (ftsBuild_filled hnames hfits hnonneg hbuild).entries (List.cons_ne_nil q qs)
        have hq : Below s₁.path (Frame.mk p₁ link).entry q := hbelow q List.mem_cons_self
        exact ftsNameWrites_inside hq x hx
      · cases hx

/-- Where the slash is cut off, the string is shorter than the path by it. -/
theorem ftsDescend_cut {g : Frame} {instr : Instr} {p' : FTSENT} (hnames : ProperNames env)
    (hchain : Chain s.path (⟨p, link⟩ :: g :: above)) (hlevel : p.level ≠ -1) (hspelled : Spelled s.path p)
    (hstop : s.stop = false) (hinstr : instr ≠ .skip) (hcuts : Cuts env s p)
    (hrun : ftsDescend env s instr p link (g :: above) = some (some p', s')) :
    (cstr s'.path).length + 1 = p'.pathlen := by
  obtain ⟨hfits, hnonneg, -⟩ := hchain.fits hlevel
  obtain ⟨hskip, -⟩ | ⟨-, child, p₁, s₁, hbuild, hcases⟩ := ftsDescend_cases hrun
  · exact absurd hskip hinstr
  · have hfilled := ftsBuild_filled hnames hfits hnonneg hbuild
    obtain ⟨-, -, hnull, -⟩ | ⟨rfl, hstop₁, q, hstays⟩ | ⟨q, qs, rfl, -⟩ := hcases
    · cases hnull
    · have hresult := hstays.result
      cases hresult
      rw [hstays.path, hstays.same.pathlen]
      exact (hfilled.cut hstop₁ hspelled hcuts).2
    · have hstop₁ := (hfilled.entries (List.cons_ne_nil q qs)).1
      cases (hfilled.cut (hstop₁.trans hstop) hspelled hcuts).1

/-- The next call of `fts_read` puts the `NUL` over the slash at the end of a path. -/
def Loses (env : Env ι) (s : FTS ι) : Prop :=
  ∃ p link above, s.cur = ⟨p, link⟩ :: above ∧ s.stop = false ∧ p.info = .d ∧ p.instr ≠ .skip ∧ Cuts env s p

/-- One call of `fts_read`. -/
theorem ftsRead_stepped {spelled : Prop} (hnames : ProperNames env) (hinv : PathInv spelled s)
    (hloses : spelled → ¬ Loses env s) (hrun : ftsRead env s = some (r, s')) : Stepped spelled r s' := by
  by_cases hstop : s.stop = true
  · have hnull : r = none ∧ s' = s := by
      unfold ftsRead at hrun
      split at hrun
      · cases hrun
        exact ⟨rfl, rfl⟩
      · rw [if_pos hstop] at hrun
        cases hrun
        exact ⟨rfl, rfl⟩
    obtain ⟨rfl, rfl⟩ := hnull
    exact .null hinv
  · unfold ftsRead at hrun
    cases hinv with
    | closed hclosed =>
      rw [hclosed.resolve_left hstop] at hrun
      cases hrun
      exact .null (.closed hclosed)
    | start hcur hinfo hlink habove =>
      simp only [hcur, if_neg hstop, if_neg hinfo] at hrun
      obtain rfl | ⟨rfl, rfl⟩ := habove
      · exact ftsNext_root_stepped hlink hrun
      · cases hrun
    | @walk p link g above hcur hchain hspelled =>
      simp only [hcur, if_neg hstop] at hrun
      have hsame : SameEntry p { p with instr := .noinstr } := ⟨rfl, rfl, rfl, rfl⟩
      split at hrun
      · rename_i hd
        refine ftsDescend_stepped hnames (hchain.same hsame nofun) hchain.level_ne (fun h => (hspelled h).same hsame) ?_ hrun
        intro h hinstr hcuts
        exact hloses h ⟨p, link, g :: above, hcur, by simpa using hstop, hd, hinstr, hcuts⟩
      · cases hchain with
        | root hroot hfits hlink => exact ftsNext_root_stepped hlink hrun
        | entry hp hlink habove =>
          refine ftsNext_stepped habove hlink (fun h hmem => (hspelled h).zero ?_) hrun
          refine List.mem_of_mem_take (i := g.entry.pathlen) ?_
          rwa [List.take_take, Nat.min_eq_left (Nat.le_of_lt hp.lt)]

theorem ftsReadWrites_inside {spelled : Prop} (hnames : ProperNames env) (hinv : PathInv spelled s) :
    ∀ x ∈ ftsReadWrites env s, x.Inside := by
  unfold ftsReadWrites
  by_cases hstop : s.stop = true
  · split
    · exact fun x hx => absurd hx List.not_mem_nil
    · rw [if_pos hstop]
      exact fun x hx => absurd hx List.not_mem_nil
  · cases hinv with
    | closed hclosed =>
      rw [hclosed.resolve_left hstop]
      exact fun x hx => absurd hx List.not_mem_nil
    | start hcur hinfo hlink habove =>
      simp only [hcur, if_neg hstop, if_neg hinfo]
      obtain rfl | ⟨rfl, rfl⟩ := habove
      · exact ftsNextWrites_root_inside hlink
      · exact fun x hx => absurd hx List.not_mem_nil
    | walk hcur hchain hspelled =>
      simp only [hcur, if_neg hstop]
      split
      · exact ftsDescendWrites_inside hnames (hchain.same ⟨rfl, rfl, rfl, rfl⟩ nofun) hchain.level_ne
      · cases hchain with
        | root hroot hfits hlink => exact ftsNextWrites_root_inside hlink
        | entry hp hlink habove => exact ftsNextWrites_inside habove hlink

/-- A call that cuts the slash off. -/
theorem ftsRead_cut {p : FTSENT} (hnames : ProperNames env) (hinv : PathInv True s) (hloses : Loses env s)
    (hrun : ftsRead env s = some (some p, s')) : (cstr s'.path).length + 1 = p.pathlen := by
  obtain ⟨q, link, above, hcur, hstop, hd, hinstr, hcuts⟩ := hloses
  cases hinv with
  | closed hclosed =>
    rw [hstop, hcur] at hclosed
    obtain h | h := hclosed <;> cases h
  | start hcur' hinfo _ _ =>
    rw [hcur] at hcur'
    cases hcur'
    exact absurd hd hinfo
  | walk hcur' hchain hspelled =>
    rw [hcur] at hcur'
    cases hcur'
    have hsame : SameEntry q { q with instr := .noinstr } := ⟨rfl, rfl, rfl, rfl⟩
    simp only [ftsRead, hcur, hstop, Bool.false_eq_true, if_false] at hrun
    rw [if_pos hd] at hrun
    exact ftsDescend_cut hnames (hchain.same hsame (fun h => by cases h)) hchain.level_ne ((hspelled trivial).same hsame) hstop hinstr
      hcuts hrun

/-- The stream after `fts_open`. -/
theorem PathInv.open {spelled : Prop} {argv : List Path} (hzero : ∀ arg ∈ argv, 0 ∉ arg)
    (hrun : ftsOpen env argv = some s) : PathInv spelled s := by
  obtain ⟨ps, hroots, hperm, -, hall⟩ :=
    ftsOpenRoots_spec env (ftsPalloc env [] (max (ftsMaxarglen argv) 1024)).1 argv
  have hroots : ftsOpenRoots env ⟨atFdcwd, iRingInit, [], []⟩ (ftsPalloc env [] (max (ftsMaxarglen argv) 1024)).1 argv =
      some ps := hroots
  simp only [ftsOpen, hroots, Option.bind_eq_bind, Option.bind_some, Option.some.injEq] at hrun
  subst hrun
  refine .start rfl (fun h => by cases h) ?_ ?_
  · intro q hq
    have hmem : q.name ∈ argv := hperm.subset (List.mem_map_of_mem hq)
    exact ⟨(hall q hq).level, hzero q.name hmem, length_lt_buffer env hmem⟩
  · by_cases hne : argv = []
    · obtain rfl : ps = [] := by simpa [hne] using hperm
      rw [if_neg (not_not.mpr hne)]
      exact .inr ⟨rfl, rfl⟩
    · rw [if_pos hne]
      exact .inl rfl

theorem PathInv.set {spelled : Prop} (h : PathInv spelled s) (instr : Instr) : PathInv spelled (ftsSet s instr) := by
  cases h with
  | closed hclosed =>
    unfold ftsSet
    split
    · exact .closed hclosed
    · rename_i hcur
      exact .closed (hclosed.imp id fun h => by rw [h] at hcur; cases hcur)
  | start hcur hinfo hlink habove =>
    simp only [ftsSet, hcur]
    exact .start rfl hinfo hlink habove
  | walk hcur hchain hspelled =>
    simp only [ftsSet, hcur]
    have hsame : ∀ p : FTSENT, SameEntry p { p with instr } := fun p => ⟨rfl, rfl, rfl, rfl⟩
    exact .walk rfl (hchain.same (hsame _) (fun h => by cases h)) fun h => (hspelled h).same (hsame _)

end Calls

/-! ## Runs -/

section Runs

variable {argv : List Path} {ok : FTS ι → Prop} {r : Option FTSENT} {s : FTS ι}

theorem Run.stepped (spelled : Prop) (hnames : ProperNames env) (hzero : ∀ arg ∈ argv, 0 ∉ arg)
    (hok : spelled → ∀ t, ok t → ¬ Loses env t) (hrun : Run env ok argv r s) : Stepped spelled r s := by
  induction hrun with
  | start hopen => exact .null (.open hzero hopen)
  | skip _ ih => exact .null (ih.1.set .skip)
  | read _ hs hread ih => exact ftsRead_stepped hnames ih.1 (fun h => hok h _ hs) hread

/-- In every run, the next call writes inside the buffer. In a run that has not cut a slash off, the entry that it returns
has the length of the string in the buffer if and only if it does not cut one off. -/
theorem run_path (hnames : ProperNames env) (hzero : ∀ arg ∈ argv, 0 ∉ arg) (hrun : Run env ok argv r s) :
    (∀ x ∈ ftsReadWrites env s, x.Inside) ∧
      ((∀ t, ok t → ¬ Loses env t) → ∀ p s', ftsRead env s = some (some p, s') →
        ((cstr s'.path).length = p.pathlen ↔ ¬ Loses env s)) := by
  refine ⟨ftsReadWrites_inside hnames (hrun.stepped False hnames hzero nofun).1, ?_⟩
  intro hok p s' hread
  have hinv := (hrun.stepped True hnames hzero fun _ => hok).1
  constructor
  · intro hlength hloses
    have hcut := ftsRead_cut hnames hinv hloses hread
    omega
  · intro hloses
    exact ((ftsRead_stepped hnames hinv (fun _ => hloses) hread).2 trivial p rfl).length

end Runs

/-! ## An empty directory with a slash behind its name -/

/-- A process that walks over the file and the directory, without assertions. -/
def quietEnv : Env Bool := { plainEnv (.nochdir false false) with ndebug := true }

/-- The first call returns the root `d/`; the second one returns it with the string `d`. -/
theorem read_slash : ∃ s₀ r₁ s₁ r₂ s₂, ftsOpen quietEnv [[100, 47]] = some s₀ ∧ s₀.cur.head?.map (·.entry.info) = some .init ∧
    ftsRead quietEnv s₀ = some (some r₁, s₁) ∧ ftsRead quietEnv s₁ = some (some r₂, s₂) ∧
    (cstr s₂.path).length = 1 ∧ r₂.pathlen = 2 := by
  have hreads : ((ftsOpen quietEnv [[100, 47]]).bind fun s₀ => (ftsRead quietEnv s₀).bind fun x₁ =>
      (ftsRead quietEnv x₁.2).map fun x₂ => (s₀.cur.head?.map (·.entry.info), x₁.1.isSome,
        x₂.1.map FTSENT.pathlen, (cstr x₂.2.path).length)) = some (some .init, true, some 2, 1) := by decide +kernel
  obtain ⟨s₀, hopen, hreads⟩ := Option.bind_eq_some_iff.mp hreads
  obtain ⟨⟨r₁, s₁⟩, hread₁, hreads⟩ := Option.bind_eq_some_iff.mp hreads
  obtain ⟨⟨r₂, s₂⟩, hread₂, hsee⟩ := Option.map_eq_some_iff.mp hreads
  simp only [Prod.mk.injEq] at hsee
  obtain ⟨hinit, hsome, hr₂, hs₂⟩ := hsee
  obtain ⟨r₁, rfl⟩ := Option.isSome_iff_exists.mp hsome
  obtain ⟨q, hq, hpathlen⟩ := Option.map_eq_some_iff.mp hr₂
  cases hq
  exact ⟨s₀, r₁, s₁, q, s₂, hopen, hinit, hread₁, hread₂, hs₂, hpathlen⟩

/-- The walk of the root `d/`: the second call. -/
theorem run_path_slash : ∃ r s, Run quietEnv (fun t => ¬ Loses quietEnv t) [[100, 47]] (some r) s ∧
    (∀ x ∈ ftsReadWrites quietEnv s, x.Inside) ∧
      ∀ p s', ftsRead quietEnv s = some (some p, s') →
        ((cstr s'.path).length = p.pathlen ↔ ¬ Loses quietEnv s) := by
  obtain ⟨s₀, r₁, s₁, r₂, s₂, hopen, hinit, hread₁, -⟩ := read_slash
  have hnames : ProperNames quietEnv := by
    intro d l hl
    cases d <;> cases hl
    exact fun dp hdp => absurd hdp List.not_mem_nil
  have hfirst : ¬ Loses quietEnv s₀ := by
    rintro ⟨p, link, above, hcur, -, hd, -⟩
    rw [hcur] at hinit
    simp [hd] at hinit
  have hrun : Run quietEnv (fun t => ¬ Loses quietEnv t) [[100, 47]] (some r₁) s₁ := .read (.start hopen) hfirst hread₁
  obtain ⟨hinside, hlength⟩ := run_path hnames (by decide) hrun
  exact ⟨r₁, s₁, hrun, hinside, hlength fun _ h => h⟩

theorem not_path_slash : ¬ ∀ r s, Run quietEnv (fun _ => True) [[100, 47]] r s →
    (∀ x ∈ ftsReadWrites quietEnv s, x.Inside) ∧
      ∀ p s', ftsRead quietEnv s = some (some p, s') → (cstr s'.path).length = p.pathlen := by
  intro hpath
  obtain ⟨s₀, r₁, s₁, r₂, s₂, hopen, -, hread₁, hread₂, hlength, hpathlen⟩ := read_slash
  have hrun : Run quietEnv (fun _ => True) [[100, 47]] (some r₁) s₁ := .read (.start hopen) trivial hread₁
  have heq := (hpath _ s₁ hrun).2 r₂ s₂ hread₂
  rw [hlength, hpathlen] at heq
  cases heq

end CodingExercises.Coreutils.Fts
