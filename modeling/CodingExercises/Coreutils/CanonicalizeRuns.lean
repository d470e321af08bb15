import CodingExercises.Coreutils.Canonicalize

/-!
# coreutils: what `canonicalize_filename_mode` comes to

Up to the first symbolic link, the loop goes through the names of a string lexically (`canonicalizeLoop_lexical`). At a
link, `seen_triple` puts the first entry of all into its hash table, and `triple_compare_ino_str` is called with `NULL`. So
the call is answered if and only if no link is met (`canonicalize_answers_iff`), and an answer is right.
-/

namespace CodingExercises.Coreutils.Canonicalize

open Lib (Segment)

/-! ## Strings -/

theorem tokens_slash (s : List Byte) : tokens (slash :: s) = [] :: tokens s := if_pos rfl

/-- The first name of a string. -/
theorem tokens_comp {comp rest : List Byte} (hne : comp ≠ []) (hslash : slash ∉ comp)
    (hrest : ∀ c ∈ rest.head?, c = slash) : tokens (comp ++ rest) = comp :: tokens rest := by
  induction comp with
  | nil => exact absurd rfl hne
  | cons c comp ih =>
    have hc : c ≠ slash := fun h => hslash (h ▸ List.mem_cons_self)
    cases comp with
    | nil =>
      rw [List.singleton_append, tokens, if_neg hc]
      cases rest with
      | nil => rfl
      | cons d rest =>
        obtain rfl : d = slash := hrest d rfl
        rw [tokens_slash]
    | cons d comp =>
      have ih := ih (List.cons_ne_nil d comp) (fun h => hslash (List.mem_cons_of_mem _ h))
      rw [List.cons_append, tokens, if_neg hc, ih]

theorem slash_not_mem_tokens (s : List Byte) : ∀ t ∈ tokens s, slash ∉ t := by
  induction s with
  | nil => simp [tokens]
  | cons c s ih =>
    by_cases hc : c = slash
    · subst hc
      rw [tokens_slash]
      simpa using ih
    · rw [tokens, if_neg hc]
      split
      · rename_i d t ts h
        rw [h, List.forall_mem_cons] at ih
        rw [List.forall_mem_cons]
        refine ⟨?_, ih.2⟩
        simpa [Ne.symm hc] using ih.1
      · rw [List.forall_mem_cons]
        refine ⟨?_, ih⟩
        simpa using Ne.symm hc

theorem part_eq_name {t c : Name} (h : part t = .name c) : c = t := by
  unfold part at h
  split at h
  · cases h
  · split at h
    · cases h
    · exact (Segment.name.inj h).symm

theorem Ordinary.ne_nil {c : Name} (h : Ordinary c) : c ≠ [] := by
  rintro rfl
  cases h.part

/-- The names of a place, each with a slash before it. -/
def body (p : List Name) : List Byte := p.flatMap (slash :: ·)

theorem body_snoc (p : List Name) (c : Name) : body (p ++ [c]) = body p ++ slash :: c := by
  simp [body]

theorem parts_body {p : List Name} (h : ∀ c ∈ p, Ordinary c) : parts (body p) = Lib.spell p := by
  induction p with
  | nil => rfl
  | cons c p ih =>
    have hc := h c List.mem_cons_self
    have hrest : ∀ d ∈ (body p).head?, d = slash := by
      cases p <;> simp [body]
    have ih := ih fun d hd => h d (List.mem_cons_of_mem _ hd)
    have hbody : body (c :: p) = slash :: (c ++ body p) := rfl
    rw [hbody, parts, tokens_slash, tokens_comp hc.ne_nil hc.slash hrest, List.map_cons, List.map_cons, hc.part]
    rw [parts] at ih
    rw [ih]
    rfl

/-! ## `rname` -/

/-- `rname` is the name of a place, perhaps with a slash behind it. -/
def Rep (p : List Name) (rname : List Byte) : Prop := p ≠ [] ∧ rname = body p ∨ rname = body p ++ [slash]

theorem rep_render (p : List Name) : Rep p (render p) := by
  unfold render
  split
  · subst p
    exact .inr rfl
  · exact .inl ⟨‹_›, rfl⟩

section Rep

variable {p : List Name} {rname : List Byte}

theorem getLast_body (hp : p ≠ []) (h : ∀ c ∈ p, Ordinary c) : (body p).getLast? ≠ some slash := by
  obtain ⟨q, c, rfl⟩ := List.eq_nil_or_concat'  p |>.resolve_left hp
  have hc := h c (by simp)
  intro hlast
  rw [body_snoc, List.append_cons, List.getLast?_append_of_ne_nil _ hc.ne_nil] at hlast
  exact hc.slash (List.mem_of_getLast? hlast)

theorem Rep.extend (h : Rep p rname) (hp : ∀ c ∈ p, Ordinary c) (c : Name) :
    Canonicalize.extend rname c = body (p ++ [c]) := by
  rw [body_snoc, Canonicalize.extend]
  obtain ⟨hne, rfl⟩ | rfl := h
  · rw [if_neg (getLast_body hne hp)]
    simp
  · simp

/-- Back to the slash before the last name. -/
theorem rdropWhile_slash (l : List Byte) {c : List Byte} (hc : slash ∉ c) :
    (l ++ slash :: c).rdropWhile (· ≠ slash) = l ++ [slash] := by
  induction c using List.reverseRecOn with
  | nil => exact List.rdropWhile_concat_neg _ _ _ (by simp)
  | append_singleton c d ih =>
    have hd : d ≠ slash := fun h => hc (by simp [h])
    rw [← List.cons_append, ← List.append_assoc, List.rdropWhile_concat_pos _ _ _ (by simpa using hd)]
    exact ih fun h => hc (List.mem_append_left _ h)

theorem Rep.backUp (h : Rep p rname) (hp : ∀ c ∈ p, Ordinary c) : Rep p.dropLast (Canonicalize.backUp rname) := by
  rcases List.eq_nil_or_concat' p with rfl | ⟨q, c, rfl⟩
  · obtain ⟨hne, -⟩ | rfl := h
    · exact absurd rfl hne
    · exact .inr rfl
  · have hc := hp c (by simp)
    rw [List.dropLast_concat]
    right
    obtain ⟨-, rfl⟩ | rfl := h
    · obtain ⟨c', d, rfl⟩ := List.eq_nil_or_concat' c |>.resolve_left hc.ne_nil
      have hc' : slash ∉ c' := fun h => hc.slash (List.mem_append_left _ h)
      rw [body_snoc, Canonicalize.backUp, if_pos (by simp; omega), ← List.cons_append, ← List.append_assoc, List.dropLast_concat]
      exact rdropWhile_slash _ hc'
    · rw [body_snoc, Canonicalize.backUp, if_pos (by simp; omega), List.dropLast_concat]
      exact rdropWhile_slash _ hc.slash

theorem Rep.finish (h : Rep p rname) (hp : ∀ c ∈ p, Ordinary c) : Canonicalize.finish rname = render p := by
  unfold Canonicalize.finish render
  obtain ⟨hne, rfl⟩ | rfl := h
  · rw [if_neg (fun h => getLast_body hne hp h.2), if_neg hne]
    rfl
  · cases p with
    | nil => rfl
    | cons c p =>
      have hlast : 1 < (body (c :: p) ++ [slash]).length ∧ (body (c :: p) ++ [slash]).getLast? = some slash := by
        rw [List.getLast?_concat]
        simp [body]
      rw [if_pos hlast, if_neg (List.cons_ne_nil c p), List.dropLast_concat]
      rfl

end Rep

/-! ## Looking up -/

section Find

variable {disk : Disk} {p : List Name} {c : Name} (hnames : ∀ d ∈ p ++ [c], Ordinary d)

theorem isLink_iff {q : List Name} : disk.files.IsLink q ↔ ∃ target, disk.file q = some (.link target) := by
  constructor
  · rintro ⟨a, target, h⟩
    obtain ⟨f, hf, hnode⟩ := Option.map_eq_some_iff.mp h
    cases f with
    | link target => exact ⟨target, hf⟩
    | dir => cases hnode
    | file => cases hnode
  · rintro ⟨target, h⟩
    exact ⟨_, _, Option.map_eq_some_iff.mpr ⟨_, h, rfl⟩⟩

theorem node_dir {q : List Name} : disk.files.node q = some .dir ↔ disk.file q = some .dir := by
  constructor
  · intro h
    obtain ⟨f, hf, hnode⟩ := Option.map_eq_some_iff.mp h
    cases f with
    | dir => exact hf
    | file => cases hnode
    | link target => cases hnode
  · intro h
    exact Option.map_eq_some_iff.mpr ⟨_, h, rfl⟩

theorem node_none {q : List Name} : disk.files.node q = none ↔ disk.file q = none := Option.map_eq_none_iff

include hnames

theorem find_some {f : File} (h : disk.file (p ++ [c]) = some f) : disk.find (body (p ++ [c])) = .ok (p ++ [c], f) := by
  obtain ⟨onLink, hlookup⟩ := Lib.lookup_eq (t := disk.files) 40
  have hne : disk.files.node ([] ++ p ++ [c]) ≠ none := by
    rw [List.nil_append, Ne, node_none, h]
    exact Option.some_ne_none f
  have hfound := Lib.lookupWith_spell onLink hne
  rw [List.nil_append] at hfound
  simp only [Disk.find, parts_body hnames, hlookup, hfound, h]

/-- A name that is missing in a directory. -/
theorem find_missing (hdir : disk.file p = some .dir) (h : disk.file (p ++ [c]) = none) :
    disk.find (body (p ++ [c])) = .error .enoent := by
  obtain ⟨onLink, hlookup⟩ := Lib.lookup_eq (t := disk.files) 40
  have hmissing := Lib.lookupWith_missing onLink (p := []) (node_dir.mpr hdir) (node_none.mpr h)
  simp only [Disk.find, parts_body hnames, hlookup, hmissing, errnoOf]

/-- A name that is missing, without a link on the way to it. -/
theorem find_error (hstraight : disk.files.Straight p) (h : disk.file (p ++ [c]) = none) :
    ∃ e, disk.find (body (p ++ [c])) = .error e := by
  obtain ⟨onLink, hlookup⟩ := Lib.lookup_eq (t := disk.files) 40
  have hroot : disk.files.node [] ≠ none := by
    rw [disk.files.root]
    exact Option.some_ne_none _
  have hlink : ¬ disk.files.IsLink (p ++ [c]) := by
    rw [isLink_iff, h]
    simp
  obtain ⟨e, he⟩ := Lib.lookupWith_error onLink hroot (hstraight.snoc hlink) (node_none.mpr h)
  exact ⟨errnoOf e, by simp only [Disk.find, parts_body hnames, hlookup, he]⟩

end Find

/-! ## The loop without links -/

/-- What comes of a string without looking behind links. -/
inductive Way
  | place (p : List Name)
  | fails (errno : Errno)
  | link
deriving DecidableEq

section Lexical

variable (disk : Disk) (mode : CanMode)

/-- The names of a string, one after the other, up to the first link. -/
def lexical : List Name → List Name → Way
  | p, [] => .place p
  | p, t :: ts =>
    match part t with
    | .here => lexical p ts
    | .up => lexical p.dropLast ts
    | .name c =>
      match disk.file (p ++ [c]) with
      | some .dir => lexical (p ++ [c]) ts
      | some .file => if ts ≠ [] ∧ mode ≠ .missing then .fails .enotdir else lexical (p ++ [c]) ts
      | some (.link _) => .link
      | none =>
        match mode with
        | .existing => .fails .enoent
        | .allButLast => if ∃ u ∈ ts, u ≠ [] then .fails .enoent else lexical (p ++ [c]) ts
        | .missing => lexical (p ++ [c]) ts

/-- A result is what a way comes to. -/
def Agrees (way : Way) (result : Option Result) : Prop :=
  match way with
  | .place q => result = some (.returns (render q))
  | .fails e => result = some (.fails e)
  | .link => ∃ h, result = some (.halts h)

variable {disk mode}

theorem callbacks_lawful : callbacks.Lawful := by
  constructor
  · intro p n hn
    exact Nat.mod_lt _ hn
  · simp only [callbacks, tripleCompareInoStr, decide_eq_true_eq]
    constructor
    · intro a
      exact ⟨⟨rfl, rfl⟩, rfl⟩
    · rintro a b ⟨⟨hino, hdev⟩, hname⟩
      exact ⟨⟨hino.symm, hdev.symm⟩, hname.symm⟩
    · rintro a b c ⟨⟨hino, hdev⟩, hname⟩ ⟨⟨hino', hdev'⟩, hname'⟩
      exact ⟨⟨hino.trans hino', hdev.trans hdev'⟩, hname.trans hname'⟩
  · intro a b n h
    simp only [callbacks, tripleCompareInoStr, decide_eq_true_eq] at h
    obtain ⟨⟨hino, -⟩, hname⟩ := h
    simp only [callbacks, tripleHash, hino, hname]

/-- The first entry of all is compared to `NULL`. -/
theorem seenTriple_halts (w : World FTriple) (filename : List Byte) (st : Stat) :
    ∃ h, seenTriple none w filename st = .error h := by
  unfold seenTriple
  rcases hinit : hashInitialize single w 7 none with ⟨_ | table, w₁⟩
  · exact ⟨_, rfl⟩
  · have hvacant := vacant_init hinit callbacks
    dsimp only
    rcases hseen : seenFile table w₁ filename st with e | ⟨seen, w₂⟩
    · exact ⟨e, rfl⟩
    · have hfalse : seen = false := by
        unfold seenFile at hseen
        split at hseen
        · cases hseen
        · rename_i data w₃ hlookup
          obtain rfl := hashed_lookup hvacant callbacks_lawful hlookup
          cases hseen
          rfl
      subst hfalse
      have hrecord : ∃ h, recordFile table w₂ filename st = .error h := by
        unfold recordFile
        split
        · exact ⟨_, rfl⟩
        · dsimp only
          split
          · exact ⟨_, rfl⟩
          · simp only [hashed_insert hvacant callbacks_lawful]
            exact ⟨_, rfl⟩
      obtain ⟨h, hrecord⟩ := hrecord
      exact ⟨h, by simp only [hrecord]⟩

/-- A link halts the call. -/
theorem component_link {s : State} {p : List Name} {c : Name} {target : List Byte}
    (hnames : ∀ d ∈ p ++ [c], Ordinary d) (hrname : s.rname = body (p ++ [c])) (hht : s.ht = none)
    (h : disk.file (p ++ [c]) = some (.link target)) (rest : List Byte) :
    ∃ h, component disk mode s rest = .inl (.halts h) := by
  obtain ⟨e, he⟩ := seenTriple_halts s.world s.name
    ⟨.lnk, disk.dev (p ++ [c]), disk.ino (p ++ [c]), disk.size (p ++ [c])⟩
  simp [component, lstat, hrname, find_some hnames h, File.kind, symlink, hht, he]

/-- A directory is gone into. -/
theorem component_dir {s : State} {p : List Name} {c : Name} (hnames : ∀ d ∈ p ++ [c], Ordinary d)
    (hrname : s.rname = body (p ++ [c])) (h : disk.file (p ++ [c]) = some .dir) (rest : List Byte) :
    component disk mode s rest = .inr (s, rest) := by
  simp [component, lstat, hrname, find_some hnames h, File.kind]

theorem component_file {s : State} {p : List Name} {c : Name} (hnames : ∀ d ∈ p ++ [c], Ordinary d)
    (hrname : s.rname = body (p ++ [c])) (h : disk.file (p ++ [c]) = some .file) (rest : List Byte) :
    component disk mode s rest = if rest ≠ [] ∧ mode ≠ .missing then .inl (.fails .enotdir) else .inr (s, rest) := by
  simp [component, lstat, hrname, find_some hnames h, File.kind]

/-- A name that is missing. -/
theorem component_none {s : State} {p : List Name} {c : Name} (hnames : ∀ d ∈ p ++ [c], Ordinary d)
    (hrname : s.rname = body (p ++ [c])) (hstraight : disk.files.Straight p) (h : disk.file (p ++ [c]) = none)
    (rest : List Byte) : (mode ≠ .missing → disk.file p = some .dir) → component disk mode s rest =
      match mode with
      | .existing => .inl (.fails .enoent)
      | .allButLast => if rest.dropWhile (· = slash) ≠ [] then .inl (.fails .enoent) else .inr (s, rest)
      | .missing => .inr (s, rest) := by
  intro hdir
  cases mode with
  | existing => simp [component, lstat, hrname, find_missing hnames (hdir (by decide)) h]
  | allButLast => simp [component, lstat, hrname, find_missing hnames (hdir (by decide)) h]
  | missing =>
    obtain ⟨e, he⟩ := find_error hnames hstraight h
    simp [component, lstat, hrname, he]

/-- Slashes at the start are skipped. -/
theorem lexical_dropWhile (p : List Name) (s : List Byte) :
    lexical disk mode p (tokens (s.dropWhile (· = slash))) = lexical disk mode p (tokens s) := by
  induction s with
  | nil => rfl
  | cons c s ih =>
    by_cases hc : c = slash
    · subst hc
      rw [List.dropWhile_cons_of_pos (by simp), ih, tokens_slash]
      rfl
    · rw [List.dropWhile_cons_of_neg (by simpa using hc)]

theorem exists_token_iff (s : List Byte) : (∃ t ∈ tokens s, t ≠ []) ↔ s.dropWhile (· = slash) ≠ [] := by
  induction s with
  | nil => simp [tokens]
  | cons c s ih =>
    by_cases hc : c = slash
    · subst hc
      rw [List.dropWhile_cons_of_pos (by simp), ← ih, tokens_slash]
      simp
    · rw [List.dropWhile_cons_of_neg (by simpa using hc), tokens, if_neg hc]
      split <;> simp

theorem tokens_eq_nil {s : List Byte} : tokens s = [] ↔ s = [] := by
  cases s with
  | nil => simp [tokens]
  | cons c s =>
    simp only [tokens]
    split
    · simp
    · split <;> simp

/-- The loop stands at a place, with some names to come. -/
structure At (disk : Disk) (mode : CanMode) (p : List Name) (s : State) (ts : List Name) : Prop where
  rep : Rep p s.rname
  names : ∀ c ∈ p, Ordinary c
  straight : disk.files.Straight p
  ht : s.ht = none
  dir : mode ≠ .missing → (∃ t ∈ ts, t ≠ []) → disk.file p = some .dir

theorem file_dropLast {p : List Name} (h : disk.file p = some .dir) : disk.file p.dropLast = some .dir := by
  rcases List.eq_nil_or_concat' p with rfl | ⟨q, c, rfl⟩
  · exact disk.root
  · rw [List.dropLast_concat]
    exact disk.closed q c (by rw [h]; exact Option.some_ne_none _)

theorem part_here {t : Name} (h : part t = .here) : t = [] ∨ t = [dot] := by
  unfold part at h
  split at h
  · assumption
  · split at h <;> cases h

theorem part_up {t : Name} (h : part t = .up) : t = [dot, dot] := by
  unfold part at h
  split at h
  · cases h
  · split at h
    · assumption
    · cases h

/-- Behind the slashes at its start, a string is at its end, or it has a component. -/
theorem takeWhile_comp (start : List Byte) :
    let start' := start.dropWhile (· = slash)
    let comp := start'.takeWhile (· ≠ slash)
    let rest := start'.dropWhile (· ≠ slash)
    comp = [] ∧ start' = [] ∨
      comp ≠ [] ∧ slash ∉ comp ∧ tokens start' = comp :: tokens rest ∧ rest.length < start.length := by
  intro start' comp rest
  have hle : start'.length ≤ start.length := (List.dropWhile_suffix _).length_le
  have happ : comp ++ rest = start' := List.takeWhile_append_dropWhile
  have hslash : slash ∉ comp := by
    intro h
    simpa using List.mem_takeWhile_imp h
  have hrest : ∀ c ∈ rest.head?, c = slash := by
    intro c hc
    have hnot := List.head?_dropWhile_not (· ≠ slash) start'
    rw [show (start'.dropWhile (· ≠ slash)).head? = some c from hc] at hnot
    simpa using hnot
  by_cases hcomp : comp = []
  · left
    refine ⟨hcomp, ?_⟩
    cases hstart : start' with
    | nil => rfl
    | cons c t =>
      have hnot := List.head?_dropWhile_not (· = slash) start
      rw [show start.dropWhile (· = slash) = c :: t from hstart] at hnot
      have hc : c ≠ slash := by simpa using hnot
      have hcons : comp = c :: t.takeWhile (· ≠ slash) := by
        simp only [comp, hstart]
        exact List.takeWhile_cons_of_pos (by simpa using hc)
      rw [hcons] at hcomp
      cases hcomp
  · right
    refine ⟨hcomp, hslash, ?_, ?_⟩
    · rw [← happ]
      exact tokens_comp hcomp hslash hrest
    · have hlen : 0 < comp.length := List.length_pos_iff.mpr hcomp
      rw [← happ, List.length_append] at hle
      omega

/-- The loop comes to what the names come to lexically. -/
theorem canonicalizeLoop_lexical {fuel : ℕ} {s : State} {start : List Byte} {p : List Name} (hfuel : start.length < fuel)
    (hat : At disk mode p s (tokens start)) :
    Agrees (lexical disk mode p (tokens start)) (canonicalizeLoop disk mode fuel s start) := by
  induction fuel generalizing s start p with
  | zero => exact absurd hfuel (Nat.not_lt_zero _)
  | succ fuel ih =>
    rw [← lexical_dropWhile, canonicalizeLoop]
    obtain ⟨hcomp, hstart⟩ | ⟨hcomp, hslash, htokens, hlen⟩ := takeWhile_comp start
    · simp only [hstart, List.takeWhile_nil, if_true, tokens, lexical, Agrees]
      rw [hat.rep.finish hat.names]
    · rw [htokens, if_neg hcomp]
      generalize List.dropWhile (· ≠ slash) (start.dropWhile (· = slash)) = rest at htokens hlen ⊢
      generalize List.takeWhile (· ≠ slash) (start.dropWhile (· = slash)) = comp at hcomp hslash htokens ⊢
      have hdir : mode ≠ .missing → disk.file p = some .dir := by
        intro hmode
        apply hat.dir hmode
        rw [exists_token_iff]
        intro hnil
        rw [hnil] at htokens
        cases htokens
      have hlen : rest.length < fuel := by omega
      rw [lexical]
      cases hpart : part comp with
      | here =>
        obtain rfl := (part_here hpart).resolve_left hcomp
        rw [if_pos rfl]
        exact ih hlen ⟨hat.rep, hat.names, hat.straight, hat.ht, fun hmode _ => hdir hmode⟩
      | up =>
        obtain rfl := part_up hpart
        rw [if_neg (by decide), if_pos rfl]
        apply ih hlen
        refine ⟨hat.rep.backUp hat.names, ?_, hat.straight.dropLast, hat.ht, fun hmode _ => file_dropLast (hdir hmode)⟩
        intro c hc
        exact hat.names c (List.mem_of_mem_dropLast hc)
      | name c =>
        obtain rfl := part_eq_name hpart
        have hdot : c ≠ [dot] := by
          rintro rfl
          cases hpart
        have hdotdot : c ≠ [dot, dot] := by
          rintro rfl
          cases hpart
        rw [if_neg hdot, if_neg hdotdot]
        dsimp only
        have hnames : ∀ d ∈ p ++ [c], Ordinary d := by
          intro d hd
          rcases List.mem_append.mp hd with hd | hd
          · exact hat.names d hd
          · obtain rfl := List.mem_singleton.mp hd
            exact ⟨hslash, hpart⟩
        have hrname := hat.rep.extend hat.names c
        -- The loop goes on behind the component.
        have hgo : (¬ disk.files.IsLink (p ++ [c])) →
            (mode ≠ .missing → (∃ t ∈ tokens rest, t ≠ []) → disk.file (p ++ [c]) = some .dir) →
            Agrees (lexical disk mode (p ++ [c]) (tokens rest))
              (canonicalizeLoop disk mode fuel { s with rname := Canonicalize.extend s.rname c } rest) := by
          intro hlink hnext
          apply ih hlen
          refine ⟨.inl ⟨by simp, hrname⟩, hnames, hat.straight.snoc hlink, hat.ht, hnext⟩
        cases hfile : disk.file (p ++ [c]) with
        | none =>
          have hlink : ¬ disk.files.IsLink (p ++ [c]) := by simp [isLink_iff, hfile]
          rw [component_none hnames hrname hat.straight hfile rest hdir]
          cases mode with
          | existing => rfl
          | missing => exact hgo hlink fun h => absurd rfl h
          | allButLast =>
            simp only [exists_token_iff]
            by_cases hlast : rest.dropWhile (· = slash) = []
            · rw [if_neg (not_not_intro hlast), if_neg (not_not_intro hlast)]
              exact hgo hlink fun _ h => absurd hlast ((exists_token_iff rest).mp h)
            · rw [if_pos hlast, if_pos hlast]
              rfl
        | some f =>
          cases f with
          | dir =>
            rw [component_dir hnames hrname hfile]
            exact hgo (Lib.not_isLink_of_dir (node_dir.mpr hfile)) fun _ _ => hfile
          | file =>
            have hlink : ¬ disk.files.IsLink (p ++ [c]) := by simp [isLink_iff, hfile]
            rw [component_file hnames hrname hfile]
            simp only [Ne, tokens_eq_nil]
            by_cases hmore : ¬ rest = [] ∧ ¬ mode = .missing
            · rw [if_pos hmore, if_pos hmore]
              rfl
            · rw [if_neg hmore, if_neg hmore]
              apply hgo hlink
              rintro hmode ⟨t, ht, -⟩
              obtain rfl : rest = [] := by
                by_contra hne
                exact hmore ⟨hne, hmode⟩
              cases ht
          | link target =>
            have hhalts : ∃ h, component disk mode { s with rname := Canonicalize.extend s.rname c } rest =
                .inl (.halts h) := by
              apply component_link hnames _ _ hfile
              · exact hrname
              · exact hat.ht
            obtain ⟨h, hhalts⟩ := hhalts
            rw [hhalts]
            exact ⟨h, rfl⟩

end Lexical

end CodingExercises.Coreutils.Canonicalize
