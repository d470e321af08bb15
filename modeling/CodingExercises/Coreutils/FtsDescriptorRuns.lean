import CodingExercises.Coreutils.FtsLedger

/-!
# fts: runs and their descriptors

What a call of `fts_read` needs for the accounts to stay right (`ReadOk`), and that a walk whose calls have it closes each
descriptor once, uses none that is closed, and has no more open than the ring, four, and one for each followed link on the
path (`fts_descriptors`). It is about `fts_symfd`, all but `builds`: the program closes it where a directory is skipped, and
on the way back from one, but not

- where a directory that has been followed to cannot be read or is a cycle, or is a root (`leaves`, `not_closed_link`),
- where its entry is followed once more (`follows`), or is open at `fts_close`;

and on the way back with `FTS_CWDFD` it is also the working directory from then on, and where `fchdir` fails it is closed
twice (`back`). `fts_build` does not close the directory where `enter_dir` has no memory (`builds`).
-/

namespace CodingExercises.Coreutils.FtsDescriptors

open Lib Lib.Ledger
open Fts (Path Name Errno Kind Dirent Stat IRing iRingInit iRingPush iRingPop atFdcwd isDot)

variable {κ : Type} {env : Env κ} {s s' : FTS κ} {p p' : FTSENT} {m : Multiset ℤ} {n : ℕ}

/-! ## The path -/

/-- What an entry owns: `fts_symfd`, while it is open. -/
def FTSENT.owns (p : FTSENT) : Multiset ℤ := if p.symOpen then {p.symfd} else 0

/-- What the entries on the path own. -/
def pathOwns (cur : List Frame) : Multiset ℤ := (cur.map fun f => f.entry.owns).sum

/-- How many symbolic links have been followed on the path. -/
def followed (cur : List Frame) : ℕ := cur.countP fun f => f.entry.symOpen

/-- A node of the path, with the entries that are linked to it. -/
structure NodeOk (p : FTSENT) (link : List FTSENT) : Prop where
  link : ∀ q ∈ link, Fresh q
  symfollow : p.symOpen = true → p.symfollow = true
  level : 0 ≤ p.level

/-- The nodes above another one; the last one is the parent of the roots. -/
def PathOk : List Frame → Prop
  | [] => True
  | ⟨p, link⟩ :: above => NodeOk p link ∧ PathOk above ∨ p.level = -1 ∧ p.symOpen = false ∧ above = []

/-- The accounts between two calls. -/
structure Accounts (s : FTS κ) (n : ℕ) : Prop where
  holds : Holds s (pathOwns s.cur) n
  path : s.cur = [] ∨ ∃ p link above, s.cur = ⟨p, link⟩ :: above ∧ NodeOk p link ∧ PathOk above
  mode : s.options.nochdir = true → s.options.cwdfd = false

theorem card_pathOwns (cur : List Frame) : (pathOwns cur).card = followed cur := by
  induction cur with
  | nil => rfl
  | cons f above ih =>
    have hcount : followed (f :: above) = followed above + if f.entry.symOpen = true then 1 else 0 := List.countP_cons ..
    rw [pathOwns, List.map_cons, List.sum_cons, Multiset.card_add, ← pathOwns, ih, hcount, add_comm, FTSENT.owns]
    split <;> rfl

theorem FTSENT.owns_of_closed (h : p.symOpen = false) : p.owns = 0 := by
  rw [owns, h]
  rfl

theorem FTSENT.owns_of_open (h : p.symOpen = true) : p.owns = {p.symfd} := by
  rw [owns, h]
  rfl

theorem SameEntry.owns (h : SameEntry p p') : p'.owns = p.owns := by
  rw [FTSENT.owns, FTSENT.owns, h.symOpen, h.symfd]

theorem Fresh.owns (h : Fresh p) : p.owns = 0 := FTSENT.owns_of_closed h.symOpen

theorem NodeOk.same {link : List FTSENT} (h : NodeOk p link) (hsame : SameEntry p p') : NodeOk p' link := by
  refine ⟨h.link, ?_, ?_⟩
  · rw [hsame.symOpen, hsame.symfollow]
    exact h.symfollow
  · rw [hsame.level]
    exact h.level

theorem Fresh.nodeOk {link : List FTSENT} (h : Fresh p) (hlink : ∀ q ∈ link, Fresh q) : NodeOk p link := by
  refine ⟨hlink, ?_, h.level⟩
  rw [h.symOpen]
  nofun

/-- The accounts with a node at the end of the path. -/
theorem Accounts.of_node {link : List FTSENT} {above : List Frame} (hcur : s.cur = ⟨p, link⟩ :: above)
    (h : Holds s (p.owns + pathOwns above) n) (hnode : NodeOk p link) (hpath : PathOk above)
    (hmode : s.options.nochdir = true → s.options.cwdfd = false) : Accounts s n := by
  refine ⟨?_, .inr ⟨p, link, above, hcur, hnode, hpath⟩, hmode⟩
  rw [hcur]
  exact h

theorem Accounts.to_node {link : List FTSENT} {above : List Frame} (h : Accounts s n) (hcur : s.cur = ⟨p, link⟩ :: above) :
    Holds s (p.owns + pathOwns above) n ∧ NodeOk p link ∧ PathOk above := by
  obtain hnil | ⟨p', link', above', hcur', hnode⟩ := h.path
  · rw [hcur] at hnil
    cases hnil
  · have hholds := h.holds
    rw [hcur] at hholds hcur'
    cases hcur'
    exact ⟨hholds, hnode⟩

/-- A stream with other nodes. -/
theorem Holds.withCur (h : Holds s m n) (cur : List Frame) : Holds { s with cur } m n := ⟨h.owned, h.here, h.ring⟩

/-! ## What a call of `fts_read` needs -/

/-- The node is a symbolic link that is to be followed. -/
def Follows (p : FTSENT) : Prop := p.instr = .follow ∧ (p.info = .sl ∨ p.info = .slnone)

/-- The node is a directory that is to be read or to be skipped. -/
def Visits (p : FTSENT) : Prop := p.instr ≠ .again ∧ p.info = .d

/-- The directory is skipped. -/
def Skips (s : FTS κ) (p : FTSENT) : Prop := p.instr = .skip ∨ s.options.xdev = true ∧ p.stat.dev ≠ s.dev

/-- The node is left for the next one. -/
def Leaves (p : FTSENT) : Prop := p.instr ≠ .again ∧ ¬ Follows p ∧ p.info ≠ .d

/-- The way back from a directory to the one above closes what a followed link has opened, once, and does not stay there. -/
def BackOk (env : Env κ) (s : FTS κ) (p : FTSENT) : Prop :=
  0 < p.level → p.symfollow = true →
    p.symOpen = true ∧ (s.options.nochdir = true ∨ s.options.cwdfd = false ∧ env.os.fails s.now = none)

/-- What `fts_read` needs of a node and of what is around it. -/
structure CallOk (env : Env κ) (s : FTS κ) (p : FTSENT) (link : List FTSENT) (above : List Frame) : Prop where
  leaves : Leaves p → p.symOpen = false
  follows : Follows p → p.symOpen = true → (ftsStat env s { p with instr := .noinstr } true).1.info ≠ .d
  skips : Visits p → Skips s p → p.symfollow = true → p.symOpen = true
  builds : Visits p → ¬ Skips s p → Reenters env s { p with instr := .noinstr } (above.head?.map Frame.entry)
  back : Leaves p → link = [] → ∀ f ∈ above.head?, BackOk env s f.entry

/-- What a call of `fts_read` needs. -/
def ReadOk (env : Env κ) (s : FTS κ) : Prop :=
  ∀ p link above, s.cur = ⟨p, link⟩ :: above → s.options.stop = false → CallOk env s p link above

/-! ## Nodes -/

section

variable {r : Option FTSENT} {link : List FTSENT} {above : List Frame}

theorem Holds.closeSymfd (h : Holds s (p.owns + m) n) (hopen : p.symOpen = true) :
    Holds (closeSymfd s p).2 ((FtsDescriptors.closeSymfd s p).1.owns + m) n := by
  rw [FTSENT.owns_of_open hopen, Multiset.singleton_add] at h
  have hclosed : (FtsDescriptors.closeSymfd s p).1.owns = 0 := FTSENT.owns_of_closed rfl
  rw [hclosed, zero_add]
  exact h.closes

/-- A symbolic link is followed. -/
theorem Holds.follow (h : Holds s (p.owns + m) n) (env : Env κ) (hn : m.card + 8 ≤ n)
    (hopen : p.symOpen = true → (ftsStat env s p true).1.info ≠ .d) (hsymfollow : p.symOpen = true → p.symfollow = true) :
    Holds (ftsFollow env s p).2 ((ftsFollow env s p).1.owns + m) n ∧ Kept s (ftsFollow env s p).2 ∧
      (ftsFollow env s p).1.level = p.level ∧
        ((ftsFollow env s p).1.symOpen = true → (ftsFollow env s p).1.symfollow = true) := by
  obtain ⟨hsame, hkept⟩ := ftsStat_same env s p true
  have hstat := h.stat env p true
  unfold ftsFollow
  generalize FtsDescriptors.ftsStat env s p true = q at hsame hkept hstat hopen
  obtain ⟨p₁, s₁⟩ := q
  dsimp only at hsame hkept hstat hopen ⊢
  by_cases hd : p₁.info = .d ∧ !s₁.options.nochdir
  · have hclosed : p.symOpen = false := by
      by_contra h
      exact hopen (by simpa using h) hd.1
    rw [FTSENT.owns_of_closed hclosed, zero_add] at hstat
    have hopened := hstat.diropen env (by omega)
    rw [if_pos hd]
    generalize FtsDescriptors.diropen env s₁ = o at hopened
    obtain ⟨e | fd, s₂⟩ := o
    · refine ⟨?_, hkept.trans hopened.kept, hsame.level, nofun⟩
      exact hopened.holds.congr (zero_add m).symm
    · refine ⟨?_, hkept.trans hopened.kept, hsame.level, fun _ => rfl⟩
      exact hopened.holds.congr (Multiset.singleton_add fd m).symm
  · rw [if_neg hd, hsame.owns, hsame.level, hsame.symOpen, hsame.symfollow]
    exact ⟨hstat, hkept, rfl, hsymfollow⟩

theorem Holds.statRequired (h : Holds s m n) (env : Env κ) (p : FTSENT) : Holds (statRequired env s p).2 m n ∧
    Kept s (FtsDescriptors.statRequired env s p).2 ∧ SameEntry p (FtsDescriptors.statRequired env s p).1 := by
  have hskips : Holds (skipsStat env s p).2 m n ∧ Kept s (skipsStat env s p).2 := by
    unfold skipsStat linkCountOptimizeOk
    split
    · split
      · exact ⟨h.tick, ⟨rfl, rfl, rfl⟩⟩
      · have hkept := (kept_tick s).trans (kept_uses s.tick s.tick.cwdFd)
        exact ⟨(h.tick.uses h.tick.cwd_mem).tick, hkept.trans (kept_tick _)⟩
    · exact ⟨h.tick, ⟨rfl, rfl, rfl⟩⟩
  unfold FtsDescriptors.statRequired
  split
  · generalize skipsStat env s p = q at hskips
    obtain ⟨_ | _, s₁⟩ := q
    · obtain ⟨hholds, hkept⟩ := hskips
      obtain ⟨hsame, hkept'⟩ := ftsStat_same env s₁ p false
      exact ⟨hholds.stat env p false, hkept.trans hkept', hsame⟩
    · exact ⟨hskips.1, hskips.2, .refl p⟩
  · exact ⟨h, .refl s, .refl p⟩

/-- The end of `fts_read`, at a node. -/
theorem checkForDir_accounts (h : Holds s (p.owns + pathOwns above) n) (hnode : NodeOk p link) (hpath : PathOk above)
    (hmode : s.options.nochdir = true → s.options.cwdfd = false) (hrun : checkForDir env s p link above = some (r, s')) :
    Accounts s' n := by
  obtain ⟨hholds, hkept, hsame⟩ := h.statRequired env p
  unfold checkForDir at hrun
  generalize FtsDescriptors.statRequired env s p = q at hholds hkept hsame hrun
  obtain ⟨p₁, s₁⟩ := q
  dsimp only at hholds hkept hsame hrun
  rw [← hsame.owns] at hholds
  rw [← hkept.options] at hmode
  have hnode₁ := hnode.same hsame
  split at hrun
  · obtain ⟨⟨ok, p₂, s₂⟩, henter, hrun⟩ := Option.bind_eq_some_iff.mp hrun
    have hdev : Holds { s₁ with dev := if p₁.level = 0 then p₁.stat.dev else s₁.dev } (p₁.owns + pathOwns above) n :=
      ⟨hholds.owned, hholds.here, hholds.ring⟩
    obtain ⟨hholds₂, hkept₂, hsame₂⟩ := hdev.enter henter
    rw [← hsame₂.owns] at hholds₂
    cases hrun
    refine .of_node rfl (hholds₂.withCur _) (hnode₁.same hsame₂) hpath ?_
    show s₂.options.nochdir = true → s₂.options.cwdfd = false
    rw [hkept₂.options]
    exact hmode
  · cases hrun
    exact .of_node rfl (hholds.withCur _) hnode₁ hpath hmode

theorem ftsName_accounts (h : Holds s (p.owns + pathOwns above) n) (hnode : NodeOk p link) (hpath : PathOk above)
    (hmode : s.options.nochdir = true → s.options.cwdfd = false) (hrun : ftsName env s p link above = some (r, s')) :
    Accounts s' n := by
  cases above with
  | nil => cases hrun
  | cons f above => exact checkForDir_accounts h hnode hpath hmode hrun

/-- Back to the directory of the parent, where a followed link is closed. -/
theorem Holds.back {err : Option Errno} (h : Holds s (p.owns + m) n) (hn : m.card + 8 ≤ n) (hlevel : 0 ≤ p.level)
    (hsymfollow : p.symOpen = true → p.symfollow = true) (hok : BackOk env s p) (hrun : ftsBack env s p = some (err, p', s')) :
    Holds s' (p'.owns + m) n ∧ Kept s s' ∧ (p'.symOpen = true → p'.symfollow = true) ∧ p'.level = p.level := by
  unfold ftsBack at hrun
  by_cases hroot : p.level = 0
  · rw [if_pos hroot] at hrun
    obtain ⟨⟨err', s₁⟩, hrestore, hrun⟩ := Option.bind_eq_some_iff.mp hrun
    obtain ⟨hholds, hkept⟩ := h.restore hrestore
    cases hrun
    exact ⟨hholds, hkept, hsymfollow, rfl⟩
  rw [if_neg hroot] at hrun
  by_cases hfollowed : p.symfollow = true
  · obtain ⟨hopen, hmode⟩ := hok (by omega) hfollowed
    rw [if_pos hfollowed] at hrun
    obtain ⟨⟨err', s₁⟩, hfchdir, hrun⟩ := Option.bind_eq_some_iff.mp hrun
    -- the change to the directory does not fail, and leaves the descriptor with the entry
    have hspec : err' = none ∧ Holds s₁ (p.owns + m) n ∧ Kept s s₁ := by
      unfold ftsFchdir at hfchdir
      split at hfchdir
      · cases hfchdir
        exact ⟨rfl, h, .refl s⟩
      · rename_i hnochdir
        obtain ⟨hcwdfd, hfails⟩ := hmode.resolve_left hnochdir
        rw [if_neg (by rw [hcwdfd]; nofun)] at hfchdir
        have hmem : p.symfd ∈ own s + (p.owns + m) := by
          rw [FTSENT.owns_of_open hopen]
          exact Multiset.mem_add.mpr (.inr (Multiset.mem_add.mpr (.inl (Multiset.mem_singleton_self _))))
        obtain ⟨hholds, hkept⟩ := h.fchdir env (.inr hmem)
        obtain ⟨rfl, rfl⟩ := Prod.mk.inj (Option.some.inj hfchdir)
        exact ⟨hfails, hholds, hkept⟩
    obtain ⟨rfl, hholds, hkept⟩ := hspec
    cases hrun
    exact ⟨hholds.closeSymfd hopen, hkept.trans ⟨rfl, rfl, rfl⟩, nofun, rfl⟩
  · have hclosed : p.symOpen = false := by
      by_contra hopen
      exact hfollowed (hsymfollow (by simpa using hopen))
    rw [if_neg hfollowed] at hrun
    split at hrun
    · obtain ⟨⟨err', s₁⟩, hdotdot, hrun⟩ := Option.bind_eq_some_iff.mp hrun
      have hcard : (p.owns + m).card + 7 ≤ n := by
        rw [FTSENT.owns_of_closed hclosed, zero_add]
        omega
      obtain ⟨hholds, hkept⟩ := h.dotdot hcard hdotdot
      cases hrun
      exact ⟨hholds, hkept, hsymfollow, rfl⟩
    · cases hrun
      exact ⟨h, .refl s, hsymfollow, rfl⟩

theorem leftEntry_same (p : FTSENT) (err : Option Errno) : SameEntry p (leftEntry p err) := by
  unfold leftEntry
  cases err <;> exact ⟨rfl, rfl, rfl, rfl, rfl⟩

theorem ftsPostorder_accounts {err : Option Errno} (h : Holds s (p.owns + pathOwns above) n) (hnode : NodeOk p link)
    (hpath : PathOk above) (hmode : s.options.nochdir = true → s.options.cwdfd = false)
    (hrun : ftsPostorder env s p link above err = some (r, s')) : Accounts s' n := by
  have hsame := leftEntry_same p err
  have hstop : Holds (if err.isSome then s.setStop else s) ((leftEntry p err).owns + pathOwns above) n := by
    rw [hsame.owns]
    split
    · exact h.setStop
    · exact h
  have hmode' : (if err.isSome then s.setStop else s).options.nochdir = true →
      (if err.isSome then s.setStop else s).options.cwdfd = false := by
    split <;> exact hmode
  unfold ftsPostorder at hrun
  obtain ⟨s₁, hleave, hrun⟩ := Option.bind_eq_some_iff.mp hrun
  have hspec : Holds s₁ ((leftEntry p err).owns + pathOwns above) n ∧ Kept (if err.isSome then s.setStop else s) s₁ := by
    unfold leaveUnlessError at hleave
    split at hleave
    · exact hstop.leave hleave
    · cases hleave
      exact ⟨hstop, .refl _⟩
  obtain ⟨hholds, hkept⟩ := hspec
  rw [← hkept.options] at hmode'
  cases hrun
  exact .of_node rfl (hholds.withCur _) (hnode.same hsame) hpath hmode'

/-- The parent, which has no more entries below it. -/
theorem ftsUp_accounts (h : Holds s (pathOwns above) n) (hn : (pathOwns above).card + 8 ≤ n) (hpath : PathOk above)
    (hmode : s.options.nochdir = true → s.options.cwdfd = false) (hok : ∀ f ∈ above.head?, BackOk env s f.entry)
    (hrun : ftsUp env s above = some (r, s')) : Accounts s' n := by
  cases above with
  | nil => cases hrun
  | cons f above =>
    obtain ⟨p, link⟩ := f
    have hholds : Holds s (p.owns + pathOwns above) n := h
    rw [ftsUp] at hrun
    obtain ⟨hnode, hpath'⟩ | ⟨htop, hclosed, rfl⟩ := hpath
    · have hlevel := hnode.level
      have hcard : (pathOwns above).card + 8 ≤ n := by
        have hle : followed above ≤ followed (⟨p, link⟩ :: above) := List.Sublist.countP_le (List.sublist_cons_self _ _)
        rw [← card_pathOwns, ← card_pathOwns] at hle
        omega
      rw [if_neg (by omega)] at hrun
      split at hrun
      · cases hrun
      obtain ⟨⟨err, p₁, s₁⟩, hback, hrun⟩ := Option.bind_eq_some_iff.mp hrun
      obtain ⟨hholds₁, hkept₁, hsymfollow₁, hlevel₁⟩ := hholds.back hcard hlevel hnode.symfollow (hok _ rfl) hback
      rw [← hkept₁.options] at hmode
      exact ftsPostorder_accounts hholds₁ ⟨hnode.link, hsymfollow₁, hlevel.trans hlevel₁.ge⟩ hpath' hmode hrun
    · rw [if_pos htop] at hrun
      rw [FTSENT.owns_of_closed hclosed] at hholds
      cases hrun
      exact ⟨hholds.withCur [], .inl rfl, hmode⟩

/-- From `next` on, for entries that nobody has set an instruction for. -/
theorem ftsNext_accounts (h : Holds s (pathOwns above) n) (hn : (pathOwns above).card + 8 ≤ n) (hlink : ∀ q ∈ link, Fresh q)
    (hpath : PathOk above) (hmode : s.options.nochdir = true → s.options.cwdfd = false)
    (hok : link = [] → ∀ f ∈ above.head?, BackOk env s f.entry) (hrun : ftsNext env s above link = some (r, s')) :
    Accounts s' n := by
  cases link with
  | nil => exact ftsUp_accounts h hn hpath hmode (hok rfl) hrun
  | cons q link =>
    obtain ⟨hq, hlink'⟩ := List.forall_mem_cons.mp hlink
    have hnode := hq.nodeOk hlink'
    have howns : pathOwns above = q.owns + pathOwns above := by rw [hq.owns, zero_add]
    rw [ftsNext] at hrun
    split at hrun
    · obtain ⟨⟨err, s₁⟩, hrestore, hrun⟩ := Option.bind_eq_some_iff.mp hrun
      obtain ⟨hholds, hkept⟩ := h.restore hrestore
      rw [← hkept.options] at hmode
      rw [howns] at hholds
      dsimp only at hrun
      split at hrun
      · cases hrun
        exact .of_node rfl (hholds.setStop.withCur _) hnode hpath hmode
      · refine checkForDir_accounts ?_ hnode hpath ?_ hrun
        · exact ⟨hholds.owned, hholds.here, hholds.ring⟩
        · exact hmode
    · rw [hq.instr, if_neg (by decide), if_neg (by decide)] at hrun
      exact ftsName_accounts (h.congr howns) hnode hpath hmode hrun

/-- At a directory in preorder that is skipped, where a followed link is closed. -/
theorem ftsSkip_accounts (h : Holds s (p.owns + pathOwns above) n) (hnode : NodeOk p link) (hpath : PathOk above)
    (hmode : s.options.nochdir = true → s.options.cwdfd = false) (hskips : p.symfollow = true → p.symOpen = true)
    (hrun : ftsSkip env s p link above = some (r, s')) : Accounts s' n := by
  obtain ⟨q, hq⟩ : ∃ q, q = if p.symfollow then closeSymfd s p else (p, s) := ⟨_, rfl⟩
  have hspec : Holds q.2 (q.1.owns + pathOwns above) n ∧ q.2.options = s.options ∧ NodeOk q.1 link := by
    rw [hq]
    split
    · rename_i hfollowed
      exact ⟨h.closeSymfd (hskips hfollowed), rfl, hnode.link, nofun, hnode.level⟩
    · exact ⟨h, rfl, hnode⟩
  unfold ftsSkip at hrun
  rw [← hq] at hrun
  obtain ⟨p₁, s₁⟩ := q
  obtain ⟨hholds, hoptions, hnode₁⟩ := hspec
  obtain ⟨s₂, hleave, hrun⟩ := Option.bind_eq_some_iff.mp hrun
  obtain ⟨hholds₂, hkept₂⟩ := hholds.leave hleave
  rw [← hoptions, ← hkept₂.options] at hmode
  cases hrun
  exact .of_node rfl (hholds₂.withCur _) ⟨hnode₁.link, hnode₁.symfollow, hnode₁.level⟩ hpath hmode

theorem ftsChildless_accounts (h : Holds s (p.owns + pathOwns above) n) (hnode : NodeOk p link) (hpath : PathOk above)
    (hmode : s.options.nochdir = true → s.options.cwdfd = false) (hrun : ftsChildless env s p link above = some (r, s')) :
    Accounts s' n := by
  unfold ftsChildless at hrun
  split at hrun
  · cases hrun
    exact .of_node rfl (h.withCur _) hnode hpath hmode
  · have hsame : SameEntry p (if p.errno.isSome ∧ p.info ≠ .dnr then { p with info := .err } else p) := by
      split
      · exact ⟨rfl, rfl, rfl, rfl, rfl⟩
      · exact .refl p
    obtain ⟨s₁, hleave, hrun⟩ := Option.bind_eq_some_iff.mp hrun
    obtain ⟨hholds, hkept⟩ := h.leave hleave
    rw [← hsame.owns] at hholds
    rw [← hkept.options] at hmode
    cases hrun
    exact .of_node rfl (hholds.withCur _) (hnode.same hsame) hpath hmode

/-- At a directory that has been visited in preorder. -/
theorem ftsDescend_accounts {instr : Instr} (h : Holds s (p.owns + pathOwns above) n)
    (hn : (p.owns + pathOwns above).card + 8 ≤ n) (hnode : NodeOk p link) (hpath : PathOk above)
    (hmode : s.options.nochdir = true → s.options.cwdfd = false)
    (hskips : instr = .skip ∨ s.options.xdev = true ∧ p.stat.dev ≠ s.dev → p.symfollow = true → p.symOpen = true)
    (hreenters : ¬(instr = .skip ∨ s.options.xdev = true ∧ p.stat.dev ≠ s.dev) →
      Reenters env s p (above.head?.map Frame.entry))
    (hrun : ftsDescend env s instr p link above = some (r, s')) :
    Accounts s' n := by
  unfold ftsDescend at hrun
  split at hrun
  · rename_i hskip
    exact ftsSkip_accounts h hnode hpath hmode (hskips hskip) hrun
  · rename_i hreads
    obtain ⟨⟨child, p₁, s₁⟩, hbuild, hrun⟩ := Option.bind_eq_some_iff.mp hrun
    have hlevel := hnode.level
    obtain ⟨hholds, hbuilt⟩ := h.build hn hmode (by omega) (hreenters hreads) hbuild
    have hnode₁ := hnode.same hbuilt.same
    rw [← hbuilt.same.owns] at hholds
    have hmode₁ : s₁.options.nochdir = true → s₁.options.cwdfd = false := by
      rw [hbuilt.nochdir, hbuilt.cwdfd]
      exact hmode
    cases child with
    | nil => exact ftsChildless_accounts hholds hnode₁ hpath hmode₁ hrun
    | cons q qs =>
      obtain ⟨hq, hqs⟩ := List.forall_mem_cons.mp hbuilt.fresh
      have hpath₁ : PathOk (⟨p₁, link⟩ :: above) := .inl ⟨hnode₁, hpath⟩
      refine ftsName_accounts (hholds.congr ?_) (hq.nodeOk hqs) hpath₁ hmode₁ hrun
      rw [hq.owns, zero_add]
      rfl

/-- A call of `fts_read`. -/
theorem Accounts.read (h : Accounts s n) (hn : followed s.cur + 8 ≤ n) (hok : ReadOk env s)
    (hrun : ftsRead env s = some (r, s')) : Accounts s' n := by
  have hmode := h.mode
  unfold ftsRead at hrun
  split at hrun
  · cases hrun
    exact h
  rename_i p link above hcur
  obtain ⟨hholds, hnode, hpath⟩ := h.to_node hcur
  have hcard : (p.owns + pathOwns above).card + 8 ≤ n := by
    rw [← card_pathOwns, hcur] at hn
    exact hn
  split at hrun
  · cases hrun
    exact h
  rename_i hstop
  have hcall := hok p link above hcur (by simpa using hstop)
  -- the entry without its instruction
  have hholds' : Holds s (({ p with instr := .noinstr } : FTSENT).owns + pathOwns above) n := hholds
  have hnode' : NodeOk { p with instr := .noinstr } link := ⟨hnode.link, hnode.symfollow, hnode.level⟩
  dsimp only at hrun
  split at hrun
  · obtain ⟨hsame, hkept⟩ := ftsStat_same env s { p with instr := .noinstr } false
    have hstat := hholds'.stat env { p with instr := .noinstr } false
    rw [← hsame.owns] at hstat
    rw [← hkept.options] at hmode
    cases hrun
    exact .of_node rfl (hstat.withCur _) (hnode'.same hsame) hpath hmode
  rename_i hagain
  split at hrun
  · rename_i hfollow
    have hcard' : (pathOwns above).card + 8 ≤ n := by
      rw [Multiset.card_add] at hcard
      omega
    obtain ⟨hholds₁, hkept₁, hlevel₁, hsymfollow₁⟩ :=
      hholds'.follow env hcard' (hcall.follows hfollow) hnode.symfollow
    rw [← hkept₁.options] at hmode
    exact checkForDir_accounts hholds₁ ⟨hnode.link, hsymfollow₁, hnode.level.trans hlevel₁.ge⟩ hpath hmode hrun
  rename_i hfollow
  split at hrun
  · rename_i hd
    exact ftsDescend_accounts hholds' hcard hnode' hpath hmode (hcall.skips ⟨hagain, hd⟩) (hcall.builds ⟨hagain, hd⟩) hrun
  · rename_i hd
    have hleaves : Leaves p := ⟨hagain, hfollow, hd⟩
    rw [FTSENT.owns_of_closed (hcall.leaves hleaves), zero_add] at hholds hcard
    exact ftsNext_accounts hholds hcard hnode.link hpath hmode (hcall.back hleaves) hrun

end

/-! ## Other calls -/

/-- A frame with another instruction. -/
def Frame.setInstr (instr : Instr) (f : Frame) : Frame := { f with entry := { f.entry with instr } }

theorem pathOwns_set (instr : Instr) (k : ℕ) (cur : List Frame) :
    pathOwns (cur.modify k (Frame.setInstr instr)) = pathOwns cur := by
  induction cur generalizing k with
  | nil => simp
  | cons f above ih =>
    cases k with
    | zero => rfl
    | succ k =>
      rw [List.modify_succ_cons, pathOwns, List.map_cons, List.sum_cons, ← pathOwns, ih]
      rfl

theorem PathOk.set {cur : List Frame} (h : PathOk cur) (instr : Instr) (k : ℕ) :
    PathOk (cur.modify k (Frame.setInstr instr)) := by
  induction cur generalizing k with
  | nil =>
    rw [List.modify_nil]
    trivial
  | cons f above ih =>
    obtain ⟨p, link⟩ := f
    cases k with
    | zero => exact h.imp (fun h => ⟨⟨h.1.link, h.1.symfollow, h.1.level⟩, h.2⟩) id
    | succ k =>
      rw [List.modify_succ_cons]
      refine h.imp (fun h => ⟨h.1, ih h.2 k⟩) ?_
      rintro ⟨htop, hclosed, rfl⟩
      exact ⟨htop, hclosed, by simp⟩

theorem Accounts.set (h : Accounts s n) (k : ℕ) (instr : Instr) : Accounts (ftsSet s k instr) n := by
  have hcur : (ftsSet s k instr).cur = s.cur.modify k (Frame.setInstr instr) := rfl
  refine ⟨?_, ?_, h.mode⟩
  · rw [hcur, pathOwns_set]
    exact h.holds.withCur _
  · rw [hcur]
    obtain hnil | ⟨p, link, above, hframe, hnode, hpath⟩ := h.path
    · rw [hnil]
      exact .inl (by simp)
    · right
      rw [hframe]
      cases k with
      | zero => exact ⟨_, _, _, rfl, ⟨hnode.link, hnode.symfollow, hnode.level⟩, hpath⟩
      | succ k =>
        rw [List.modify_succ_cons]
        exact ⟨_, _, _, rfl, hnode, hpath.set instr k⟩

/-- The stream gives back all but the ring. -/
theorem Holds.closeCwd (h : Holds s 0 n) (env : Env κ) : Owned (ftsCloseCwd env s).ledger (ringFds (ftsCloseCwd env s).ring + 0) n ∧
    (ftsCloseCwd env s).ring = s.ring := by
  unfold ftsCloseCwd
  by_cases hcwdfd : s.options.cwdfd = true
  · have howned := h.owned
    rw [own, ownRfd, hcwdfd, Bool.or_true, if_pos rfl, add_zero] at howned
    rw [if_pos hcwdfd]
    split
    · rename_i hpos
      rw [slot_of_nonneg hpos, add_assoc, Multiset.singleton_add] at howned
      exact ⟨howned.release, rfl⟩
    · rename_i hneg
      rw [slot_of_neg (Int.not_le.mp hneg), zero_add] at howned
      exact ⟨howned, rfl⟩
  · have hcwd : slot s.cwdFd = 0 := by
      rw [h.here.resolve_right fun hc => hcwdfd hc.1]
      exact slot_of_neg atFdcwd_neg
    rw [if_neg hcwdfd]
    by_cases hnochdir : s.options.nochdir = true
    · have howned := h.owned
      rw [own, ownRfd, hnochdir, Bool.true_or, if_pos rfl, hcwd, zero_add, add_zero] at howned
      rw [hnochdir]
      exact ⟨howned, rfl⟩
    · have hown : ownRfd s = {s.rfd} := by simp [ownRfd, hnochdir, hcwdfd]
      have hmem : s.rfd ∈ own s + 0 := by simp [own, hown]
      have howned := (h.uses (.inr hmem)).owned
      have hkept : own (s.uses s.rfd) = own s ∧ (s.uses s.rfd).ring = s.ring := by
        unfold FTS.uses
        split <;> exact ⟨rfl, rfl⟩
      rw [hkept.1, own, hown, hcwd, zero_add, add_zero, add_comm, Multiset.singleton_add] at howned
      rw [if_pos (by simpa using hnochdir)]
      have hring : ((s.fchdir env s.rfd).2.closes s.rfd).ring = s.ring := hkept.2
      rw [hring, add_zero]
      exact ⟨howned.release, rfl⟩

/-- `fts_close`, when what has been followed is closed. -/
theorem Accounts.close (h : Accounts s n) (hok : followed s.cur = 0) (hrun : ftsClose env s = some s') :
    Owned s'.ledger 0 n := by
  have hnone : pathOwns s.cur = 0 := by
    rw [← Multiset.card_eq_zero, card_pathOwns]
    exact hok
  have hholds := h.holds
  rw [hnone] at hholds
  obtain ⟨howned, hring⟩ := hholds.closeCwd env
  obtain ⟨hclear, -, -⟩ := clear_owned (hring ▸ hholds.ring) howned
  unfold ftsClose at hrun
  split at hrun
  · cases hrun
  · cases hrun
    exact hclear

/-! ## `fts_open` -/

/-- A stream that has not opened anything. -/
structure Bare (s : FTS κ) : Prop where
  cwdFd : s.cwdFd = atFdcwd
  ring : s.ring = iRingInit
  ledger : s.ledger = .start

theorem Bare.own (h : Bare s) : slot s.cwdFd + ringFds s.ring = 0 := by
  rw [h.cwdFd, h.ring, slot_of_neg atFdcwd_neg, zero_add]
  exact ringFds_eq_zero ringOk_init rfl

theorem Bare.tick (h : Bare s) : Bare s.tick := ⟨h.cwdFd, h.ring, h.ledger⟩

theorem Bare.uses (h : Bare s) : s.uses s.cwdFd = s := if_pos h.cwdFd

theorem Bare.stat (h : Bare s) (env : Env κ) (p : FTSENT) (follow : Bool) : Bare (ftsStat env s p follow).2 := by
  have huses : Bare (s.uses s.cwdFd).tick := by
    rw [h.uses]
    exact h.tick
  unfold ftsStat
  dsimp only
  split
  · split
    · exact h.tick
    · split
      · split <;> exact h.tick.tick
      · exact h.tick
  · split <;> exact huses

theorem Bare.roots {deferStat : Bool} {roots : List FTSENT} {argv : List Path} {list : Option (List FTSENT)} (h : Bare s)
    (hroots : ∀ p ∈ roots, Fresh p) (hrun : ftsOpenRoots env deferStat s roots argv = (list, s')) :
    Bare s' ∧ Kept s s' ∧ ∀ l, list = some l → ∀ p ∈ l, Fresh p := by
  induction argv generalizing s roots with
  | nil =>
    cases hrun
    refine ⟨h, .refl _, ?_⟩
    rintro l hl
    cases hl
    exact hroots
  | cons arg argv ih =>
    rw [ftsOpenRoots] at hrun
    split at hrun
    · cases hrun
      exact ⟨h.tick, kept_tick s, nofun⟩
    · obtain ⟨q, hq⟩ : ∃ q, q = if deferStat ∧ roots ≠ [] then ({ ftsAlloc arg with info := .nsok, required := true }, s.tick)
          else ftsStat env s.tick (ftsAlloc arg) false := ⟨_, rfl⟩
      have hspec : Bare q.2 ∧ Kept s q.2 ∧ Fresh q.1 := by
        have hfresh : Fresh (ftsAlloc arg) := ⟨le_rfl, rfl, rfl, rfl⟩
        rw [hq]
        split
        · exact ⟨h.tick, kept_tick s, le_rfl, rfl, rfl, rfl⟩
        · obtain ⟨hsame, hkept⟩ := ftsStat_same env s.tick (ftsAlloc arg) false
          exact ⟨h.tick.stat env _ false, (kept_tick s).trans hkept, hfresh.same hsame⟩
      dsimp only at hrun
      rw [← hq] at hrun
      obtain ⟨p, s₁⟩ := q
      obtain ⟨hbare, hkept, hp⟩ := hspec
      have hroots' : ∀ q ∈ if env.compar.isSome then p :: roots else roots ++ [p], Fresh q := by
        split
        · exact List.forall_mem_cons.mpr ⟨hp, hroots⟩
        · exact List.forall_mem_append.mpr ⟨hroots, List.forall_mem_singleton.mpr hp⟩
      obtain ⟨hbare', hkept', hlist⟩ := ih hbare hroots' hrun
      exact ⟨hbare', hkept.trans hkept', hlist⟩

/-- A stream that does not have `fts_rfd`. -/
theorem Bare.holds (h : Bare s) (hrfd : ownRfd s = 0) (n : ℕ) : Holds s 0 n := by
  refine ⟨?_, .inl h.cwdFd, ?_⟩
  · rw [FtsDescriptors.own, h.own, hrfd, h.ledger]
    exact owned_start n
  · rw [h.ring]
    exact ringOk_init

/-- `fts_open` where it opens the directory to which the walk returns. -/
theorem Bare.openCwd (h : Bare s) (env : Env κ) (hn : 1 ≤ n) (hmode : s.options.nochdir = true → s.options.cwdfd = false) :
    Holds (ftsOpenCwd env s) 0 n ∧ (ftsOpenCwd env s).cur = s.cur ∧
      ((ftsOpenCwd env s).options.nochdir = true → (ftsOpenCwd env s).options.cwdfd = false) := by
  unfold ftsOpenCwd
  by_cases hrfd : s.options.nochdir = false ∧ s.options.cwdfd = false
  · have hring : RingOk s.ring := by
      rw [h.ring]
      exact ringOk_init
    unfold diropen FTS.opens
    rw [if_pos (by simp [hrfd]), if_neg (by simp [hrfd.2])]
    cases env.os.fails s.now with
    | some e =>
      have hbare : Bare { s.tick with options := { s.options with nochdir := true } } := ⟨h.cwdFd, h.ring, h.ledger⟩
      exact ⟨hbare.holds rfl n, rfl, fun _ => hrfd.2⟩
    | none =>
      have howned : Owned s.ledger.acquire.2 (s.ledger.acquire.1 ::ₘ 0) n := by
        rw [h.ledger]
        exact (owned_start n).acquire hn
      refine ⟨⟨howned.congr ?_, .inl h.cwdFd, hring⟩, rfl, hmode⟩
      simp only [FtsDescriptors.own, ownRfd, FTS.tick, hrfd.1, hrfd.2, Bool.or_false, Bool.false_eq_true, if_false]
      rw [h.own, zero_add, add_zero]
      rfl
  · have hnone : ownRfd s = 0 := by
      apply if_pos
      by_contra hboth
      exact hrfd (by simpa using hboth)
    rw [if_neg (by simpa using hrfd)]
    exact ⟨h.holds hnone n, rfl, hmode⟩

theorem openOptions_mode {options : Options} (h : ¬(options.nochdir = true ∧ options.cwdfd = true)) :
    (openOptions options).nochdir = true → (openOptions options).cwdfd = false := by
  unfold openOptions
  dsimp only
  split
  · exact fun _ => rfl
  · intro hnochdir
    by_contra hcwdfd
    exact h ⟨hnochdir, by simpa using hcwdfd⟩

theorem ftsOpen_accounts {options : Options} {cycle : κ} {argv : List Path} (hn : 1 ≤ n)
    (hrun : ftsOpen env options cycle argv = some s) : Accounts s n := by
  unfold ftsOpen at hrun
  split at hrun
  · cases hrun
  rename_i hexclusive
  split at hrun
  · cases hrun
  split at hrun
  · cases hrun
  dsimp only at hrun
  split at hrun
  · cases hrun
  rename_i roots s₁ hopen
  obtain ⟨hbare, hkept, hroots⟩ := Bare.roots ⟨rfl, rfl, rfl⟩ fresh_nil hopen
  split at hrun
  · cases hrun
  have hfresh : ∀ p ∈ sortEntries env roots, Fresh p := fun p hp => hroots roots rfl p (mem_of_sortEntries hp)
  obtain ⟨parent, hparent⟩ :
      ∃ l : List Frame, l = if argv ≠ [] then [⟨{ ftsAlloc [] with level := -1 }, []⟩] else [] := ⟨_, rfl⟩
  have hpath : PathOk parent ∧ pathOwns parent = 0 := by
    rw [hparent]
    split
    · exact ⟨.inr ⟨rfl, rfl, rfl⟩, rfl⟩
    · exact ⟨trivial, rfl⟩
  rw [← hparent] at hrun
  have hmode : s₁.options.nochdir = true → s₁.options.cwdfd = false := by
    rw [hkept.options]
    exact openOptions_mode hexclusive
  have hbare' (cur : List Frame) (cycle : κ) : Bare { s₁ with cur, cycle } := ⟨hbare.cwdFd, hbare.ring, hbare.ledger⟩
  have hopened (cur : List Frame) (cycle : κ) := (hbare' cur cycle).openCwd env hn hmode
  obtain rfl := Option.some.inj hrun
  refine .of_node (hopened _ _).2.1 ?_ ⟨hfresh, nofun, le_rfl⟩ hpath.1 (hopened _ _).2.2
  rw [hpath.2]
  exact (hopened _ _).1

/-! ## Runs -/

/-- Between two calls: what the next call has open is counted anew. -/
def FTS.watch (s : FTS κ) : FTS κ := { s with ledger := s.ledger.watch }

theorem Accounts.watch (h : Accounts s n) : Accounts s.watch (followed s.cur + 6) := by
  have hcard : (own s + pathOwns s.cur).card ≤ followed s.cur + 6 := by
    have hown := card_own_le s
    rw [Multiset.card_add, card_pathOwns]
    omega
  exact ⟨⟨h.holds.owned.watch.mono hcard, h.holds.here, h.holds.ring⟩, h.path, h.mode⟩

theorem Accounts.mono (h : Accounts s n) {n' : ℕ} (hn : n ≤ n') : Accounts s n' := ⟨h.holds.mono hn, h.path, h.mode⟩

/-- A stream that `fts_open`, `fts_set` and `fts_read` lead to, when each call of `fts_read` has what it needs. -/
inductive Reached (env : Env κ) : FTS κ → Prop
  | opened {s : FTS κ} {options : Options} {cycle : κ} {argv : List Path} (hrun : ftsOpen env options cycle argv = some s) :
      Reached env s
  | set {s : FTS κ} (h : Reached env s) (k : ℕ) (instr : Instr) : Reached env (ftsSet s k instr)
  | read {s s' : FTS κ} {r : Option FTSENT} (h : Reached env s) (hok : ReadOk env s.watch)
      (hrun : ftsRead env s.watch = some (r, s')) : Reached env s'

theorem opens_options (env : Env κ) (s : FTS κ) : (s.opens env).2.options = s.options := by
  unfold FTS.opens
  split <;> rfl

theorem opendir_options (env : Env κ) (s : FTS κ) : (opendir env s).2.options = s.options := by
  have huses := (opens_options env (s.uses s.cwdFd)).trans (kept_uses s s.cwdFd).options
  unfold opendir
  split
  · split
    · rename_i hopen
      rwa [hopen] at huses
    · rename_i hopen
      rw [hopen] at huses
      split <;> exact huses
  · exact opens_options env s

/-- A call has what it needs where no link has been followed, unless cycles are checked tightly. -/
theorem readOk_of_unfollowed (h : ∀ f ∈ s.cur, f.entry.symOpen = false ∧ f.entry.symfollow = false)
    (htight : s.options.tightCycleCheck = false) : ReadOk env s := by
  intro p link above hcur _
  rw [hcur] at h
  obtain ⟨hp, habove⟩ := List.forall_mem_cons.mp h
  refine ⟨fun _ => hp.1, ?_, ?_, ?_, ?_⟩
  · intro _ hopen
    rw [hp.1] at hopen
    cases hopen
  · intro _ _ hfollowed
    rw [hp.2] at hfollowed
    cases hfollowed
  · intro _ _ dirp s₁ r hopen hstat
    have hkept : s₁.options = s.options := by
      have hopendir := opendir_options env s
      rwa [hopen] at hopendir
    unfold ftsBuildStat at hstat
    rw [hkept, htight] at hstat
    obtain rfl := Option.some.inj hstat
    rfl
  · intro _ _ f hf _ hfollowed
    rw [(habove f (List.mem_of_mem_head? hf)).2] at hfollowed
    cases hfollowed

/-- One call of `fts_read`, with what it has open at a time. -/
theorem Accounts.step {r : Option FTSENT} (h : Accounts s n) (hok : ReadOk env s.watch)
    (hrun : ftsRead env s.watch = some (r, s')) : Accounts s' (followed s.cur + 8) :=
  (h.watch.mono (Nat.add_le_add_left (by decide) _)).read le_rfl hok hrun

theorem Reached.accounts (h : Reached env s) : ∃ n, Accounts s n := by
  induction h with
  | opened hrun => exact ⟨1, ftsOpen_accounts le_rfl hrun⟩
  | set _ k instr ih =>
    obtain ⟨n, h⟩ := ih
    exact ⟨n, h.set k instr⟩
  | read _ hok hrun ih =>
    obtain ⟨n, h⟩ := ih
    exact ⟨_, h.step hok hrun⟩

/-- `I_RING_SIZE`. -/
def iRingSize : ℕ := 4

/-- In a call that leaves `s`, each descriptor that was used or closed was open, and at any time no more were open than the ring
holds, four, and one for each of the links that have been followed. -/
def InBounds (links : ℕ) (s : FTS κ) : Prop := s.ledger.misused = false ∧ s.ledger.most ≤ iRingSize + 4 + links

/-- Each descriptor that has been opened is closed, once. -/
def ClosedOnce (s : FTS κ) : Prop := s.ledger.held = [] ∧ s.ledger.released.Perm s.ledger.acquired

theorem Accounts.inBounds {links : ℕ} (h : Accounts s n) (hn : n ≤ links + 8) : InBounds links s := by
  refine ⟨h.holds.owned.fine, h.holds.owned.most.trans ?_⟩
  rw [iRingSize]
  omega

/-- The descriptors of a walk: after `fts_open` and any calls of `fts_set` and of `fts_read` that have what they need, such a
call of `fts_read` is within bounds, and so is `fts_close` where no link that has been followed is left; all is closed then. -/
theorem fts_descriptors (env : Env κ) :
    (∀ options cycle argv s, ftsOpen env options cycle argv = some s → InBounds 0 s) ∧
      ∀ s, Reached env s →
        (∀ r s', ReadOk env s.watch → ftsRead env s.watch = some (r, s') → InBounds (followed s.cur) s') ∧
        (∀ s', followed s.cur = 0 → ftsClose env s.watch = some s' → InBounds 0 s' ∧ ClosedOnce s') := by
  refine ⟨?_, ?_⟩
  · intro options cycle argv s hrun
    exact (ftsOpen_accounts le_rfl hrun).inBounds (by decide)
  · intro s h
    obtain ⟨n, haccounts⟩ := h.accounts
    refine ⟨?_, ?_⟩
    · intro r s' hok hrun
      exact (haccounts.step hok hrun).inBounds le_rfl
    · intro s' hnone hrun
      have howned := haccounts.watch.close hnone hrun
      have hmost := howned.most
      rw [hnone] at hmost
      exact ⟨⟨howned.fine, hmost.trans (by decide)⟩, (Multiset.coe_eq_zero _).mp howned.held, howned.released_once⟩

/-- A walk where files are of such types, each directory has one entry, and all calls succeed. -/
def sampleEnv (kinds : ℕ → Kind) : Env Unit where
  os :=
    { fails _ := none
      stat now := .ok ⟨some (kinds now), 1, 2⟩
      readdir _ := [⟨[120], 3, some .reg⟩]
      memory _ := true
      yes _ := true }
  cycles := ⟨fun _ => (true, ()), id, fun _ _ => some (true, false, ()), fun _ _ _ => some ()⟩
  compar := none
  qsort _ l := l
  qsort_perm _ _ := .refl _

/-- `FTS_PHYSICAL`, and perhaps `FTS_CWDFD`. -/
def sampleOptions (cwdfd : Bool) : Options := ⟨false, false, false, false, true, false, false, false, cwdfd, false, false⟩

/-- A directory with a file. -/
def dirEnv : Env Unit := sampleEnv fun now => if now ≤ 2 then .dir else .reg

theorem fts_descriptors_dir : ∃ s s', Reached dirEnv s ∧ ftsClose dirEnv s.watch = some s' ∧
    (InBounds 0 s' ∧ ClosedOnce s') ∧ s'.ledger.released = [0, 1] := by
  have hopened := Reached.opened (rfl : ftsOpen dirEnv (sampleOptions false) () [[97]] = some _)
  have hdir := hopened.read (readOk_of_unfollowed (by decide) rfl) rfl
  have hfile := hdir.read (readOk_of_unfollowed (by decide) rfl) rfl
  have hdir' := hfile.read (readOk_of_unfollowed (by decide) rfl) rfl
  have hend := hdir'.read (readOk_of_unfollowed (by decide) rfl) rfl
  exact ⟨_, _, hend, rfl, ((fts_descriptors dirEnv).2 _ hend).2 _ rfl rfl, rfl⟩

/-- A link to a directory with a file. -/
def linkEnv : Env Unit := sampleEnv fun now => if now ≤ 2 then .lnk else if now ≤ 3 then .dir else .reg

/-- The walk of a link that is followed: the link, the directory, the file, the directory again, and the end. -/
def linkWalk : Option (FTS Unit) := do
  let s ← ftsOpen linkEnv (sampleOptions true) () [[97]]
  let (_, s) ← ftsRead linkEnv s.watch
  let (_, s) ← ftsRead linkEnv (ftsSet s 0 .follow).watch
  let (_, s) ← ftsRead linkEnv s.watch
  let (_, s) ← ftsRead linkEnv s.watch
  let (_, s) ← ftsRead linkEnv s.watch
  ftsClose linkEnv s.watch

/-- `fts_symfd` of a root is not closed. -/
theorem not_closed_link : ∃ s, linkWalk = some s ∧ s.cur = [] ∧ ¬ ClosedOnce s :=
  ⟨_, rfl, rfl, fun hclosed => absurd hclosed.1 (by decide)⟩

end CodingExercises.Coreutils.FtsDescriptors
