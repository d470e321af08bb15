import Mathlib.Tactic.Ring
import CodingExercises.File.Readelf

/-!
# file: runs over ELF files

- Each loop over notes ends, whatever the sizes and the alignment are: `donote` gives 0, or the end of the section, or an offset
  behind the header of the note (`donote_next`), and so `file_tryelf` ends (`fileTryelf_ends`).
- The style of a core file is printed once at most, and so is the name of its program (`fileTryelf_once`).
-/

namespace CodingExercises.File.Readelf

open CodingExercises.Lib

variable {S : Source} {F : Form} {nbuf : List UInt8} {size align : ℕ} {s s' : State}

/-! ## The next note -/

/-- The next multiple, or 0 if it does not fit into a `size_t`. -/
theorem elfAlign_cases (halign : 0 < align) (hlt : align < 2 ^ 64) {a : ℕ} (ha : a < 2 ^ 64) :
    2 ^ 64 ≤ a + align - 1 ∧ elfAlign align a = 0 ∨
      a ≤ elfAlign align a ∧ elfAlign align a ≤ a + align - 1 ∧ a + align - 1 < 2 ^ 64 := by
  rw [elfAlign]
  by_cases hwrap : 2 ^ 64 ≤ a + align - 1
  · left
    refine ⟨hwrap, ?_⟩
    have hmod : (a + align - 1) % 2 ^ 64 = a + align - 1 - 2 ^ 64 := by
      rw [Nat.mod_eq_sub_mod hwrap, Nat.mod_eq_of_lt (by omega)]
    rw [hmod, Nat.div_eq_of_lt (by omega), Nat.zero_mul]
  · right
    rw [Nat.mod_eq_of_lt (by omega)]
    have hdiv := Nat.div_add_mod' (a + align - 1) align
    have hmod := Nat.mod_lt (a + align - 1) halign
    omega

/-- A multiple that is not 0 is not below the alignment. -/
theorem le_elfAlign (a : ℕ) : elfAlign align a = 0 ∨ align ≤ elfAlign align a := by
  rw [elfAlign]
  rcases Nat.eq_zero_or_pos ((a + align - 1) % 2 ^ 64 / align) with h | h
  · left
    rw [h, Nat.zero_mul]
  · right
    exact Nat.le_mul_of_pos_left _ h

theorem nhSizeof_pos : 0 < F.nhSizeof ∧ F.nhSizeof ≤ 12 := by
  rw [Form.nhSizeof]
  split <;> omega

/-- What is printed and the state do not matter for the offset. -/
theorem donote_fst (nbuf : List UInt8) (offset size align : ℕ) (s : State) :
    (donote S F nbuf offset size align s).1 = offset + F.nhSizeof ∨ size ≤ (donote S F nbuf offset size align s).1 ∨
      (∃ namesz descsz, namesz < 2 ^ 31 ∧ descsz < 2 ^ 31 ∧ offset + F.nhSizeof + namesz ≤ size ∧
        (donote S F nbuf offset size align s).1 =
          elfAlign align ((elfAlign align (offset + F.nhSizeof + namesz) + descsz) % 2 ^ 64)) ∨
      ∃ namesz, namesz < 2 ^ 31 ∧ size < offset + F.nhSizeof + namesz ∧
        (donote S F nbuf offset size align s).1 = elfAlign align (offset + F.nhSizeof + namesz) := by
  rw [donote]
  dsimp only
  generalize F.field (nbuf.drop offset) (0, 4) (0, 2) = namesz
  generalize F.field (nbuf.drop offset) (4, 4) (2, 2) = descsz
  split
  · split
    · exact .inl rfl
    · exact .inr (.inl (Nat.le_refl _))
  split
  · exact .inl rfl
  split
  · exact .inl rfl
  next hname hdesc =>
  split
  · next h => exact .inr (.inr (.inr ⟨namesz, by omega, h, rfl⟩))
  next hsize =>
  split
  · right; left
    split
    · assumption
    · exact Nat.le_refl _
  dsimp only
  split
  · exact .inr (.inr (.inl ⟨namesz, descsz, by omega, by omega, by omega, rfl⟩))
  · exact .inr (.inl (Nat.le_refl _))

/-- `donote` gives 0, or an offset behind the section, or one behind the header of the note: no alignment makes it go back. -/
theorem donote_next (halign : 0 < align) (hlt : align < 2 ^ 64) (hsize : size < 2 ^ 62) (nbuf : List UInt8) {offset : ℕ}
    (hoffset : offset < size) (s : State) :
    (donote S F nbuf offset size align s).1 = 0 ∨ size ≤ (donote S F nbuf offset size align s).1 ∨
      offset + F.nhSizeof ≤ (donote S F nbuf offset size align s).1 := by
  obtain ⟨-, hnh⟩ := @nhSizeof_pos F
  rcases donote_fst (S := S) (F := F) nbuf offset size align s with h | h | ⟨namesz, descsz, hname, hdesc, hin, h⟩ |
    ⟨namesz, hname, hout, h⟩
  · exact .inr (.inr h.ge)
  · exact .inr (.inl h)
  · rw [h]
    rcases elfAlign_cases halign hlt (a := offset + F.nhSizeof + namesz) (by omega) with ⟨hwrap, hzero⟩ | ⟨hle, hup, -⟩
    · -- the alignment is so large that a multiple of it is behind the section
      rw [hzero]
      rcases le_elfAlign ((0 + descsz) % 2 ^ 64) with h0 | h0
      · exact .inl h0
      · exact .inr (.inl (by omega))
    · by_cases hfit : elfAlign align (offset + F.nhSizeof + namesz) + descsz < 2 ^ 64
      · rw [Nat.mod_eq_of_lt hfit]
        rcases elfAlign_cases halign hlt hfit with ⟨-, hzero⟩ | ⟨hle', -, -⟩
        · exact .inl hzero
        · exact .inr (.inr (by omega))
      · rcases le_elfAlign ((elfAlign align (offset + F.nhSizeof + namesz) + descsz) % 2 ^ 64) with h0 | h0
        · exact .inl h0
        · exact .inr (.inl (by omega))
  · rw [h]
    rcases elfAlign_cases halign hlt (a := offset + F.nhSizeof + namesz) (by omega) with ⟨-, hzero⟩ | ⟨hle, -, -⟩
    · exact .inl hzero
    · exact .inr (.inr (by omega))

/-! ## Alignments -/

theorem raw_lt (b : List UInt8) (offset width : ℕ) : raw b offset width < 256 ^ width := by
  have hlen : ((b.drop offset).take width).length ≤ width := List.length_take_le _ _
  exact (ByteOrder.number_lt _).trans_le (Nat.pow_le_pow_right (by omega) hlen)

theorem getu_lt {bytes value : ℕ} (h : value < 256 ^ bytes) : F.getu bytes value < 256 ^ bytes := by
  rw [Form.getu]
  split
  · exact ByteOrder.decode_lt _ (ByteOrder.length_digits _ _)
  · exact h

/-- Bytes turned around are not 0 if the value is not. -/
theorem getu_pos {bytes value : ℕ} (h : value < 256 ^ bytes) (hne : value ≠ 0) : 0 < F.getu bytes value := by
  rw [Form.getu]
  split
  · apply Nat.pos_of_ne_zero
    intro hzero
    have hbytes : ∀ c ∈ ByteOrder.digits bytes value, c = 0 := by
      simpa [ByteOrder.encode] using ByteOrder.number_eq_zero.mp hzero
    have hnumber := ByteOrder.number_digits bytes value
    rw [ByteOrder.number_eq_zero.mpr hbytes, Nat.mod_eq_of_lt h] at hnumber
    exact hne hnumber.symm
  · exact Nat.pos_of_ne_zero hne

theorem phAlign_bounds (ph : List UInt8) : 0 < F.phAlign ph ∧ F.phAlign ph < 2 ^ 64 := by
  have h4 := raw_lt ph 28 4
  have h8 := raw_lt ph 48 8
  by_cases hwide : F.wide = true
  · rw [Form.phAlign, if_pos hwide, Form.field, if_pos hwide]
    split
    · omega
    · next hne => exact ⟨getu_pos h8 hne, getu_lt h8⟩
  · rw [Form.phAlign, if_neg hwide, Form.field, if_neg hwide]
    split
    · omega
    · next hne => exact ⟨getu_pos h4 hne, (getu_lt h4).trans (by omega)⟩

/-! ## All loops end -/

section Ends

variable {I : State → Prop}

/-- The loop over the notes of a section ends, and what `donote` keeps holds then. -/
theorem noteLoop_ends (hdonote : ∀ nbuf offset size align s, I s → I (donote S F nbuf offset size align s).2)
    (halign : 0 < align) (hlt : align < 2 ^ 64) (hsize : size < 2 ^ 62) {fuel offset : ℕ} (hfuel : size ≤ offset + fuel)
    (hs : I s) : ∃ s', noteLoop S F nbuf size align fuel offset s = some s' ∧ I s' := by
  induction fuel generalizing offset s with
  | zero => exact ⟨s, if_pos (by omega), hs⟩
  | succ fuel ih =>
    rw [noteLoop]
    split
    · exact ⟨s, rfl, hs⟩
    next hoffset =>
    have hkeeps := hdonote nbuf offset size align s hs
    dsimp only
    split
    · exact ⟨_, rfl, hkeeps⟩
    next hne =>
    have hpos := (@nhSizeof_pos F).1
    have hnext := donote_next (S := S) (F := F) halign hlt hsize nbuf (Nat.lt_of_not_le hoffset) s
    refine ih ?_ hkeeps
    rcases hnext with h | h | h
    · exact absurd h hne
    · omega
    · omega

/-- The text does not say the last of what is found of a core file: its style, or the program that dumped it. -/
def Quiet (p : Printed) : Prop := p.fmt ≠ ", %s-style" ∧ p.fmt ≠ ", from '%.*s'" ∧ p.fmt ≠ " (signal %u)"

/-- A loop has ended, in a state with a property. -/
def Ended {α : Type} (I : State → Prop) (r : Option (α × State)) : Prop := ∃ x, r = some x ∧ I x.2

/-- The state that a step comes to. -/
def after : Except State (List UInt8 × List UInt8 × State) → State
  | .error s => s
  | .ok x => x.2.2

/-- A step has ended, in a state with a property. -/
def Steps (I : State → Prop) (r : Stepped) : Prop := ∃ x, r = some x ∧ I (after x)

theorem Steps.some {x : Except State (List UInt8 × List UInt8 × State)} (h : I (after x)) : Steps I (some x) := ⟨x, rfl, h⟩

theorem Ended.some {α : Type} {x : α × State} (h : I x.2) : Ended I (some x) := ⟨x, rfl, h⟩

theorem Ended.map {α β : Type} {r : Option (α × State)} {f : α × State → β × State} (h : Ended I r)
    (hf : ∀ x, I x.2 → I (f x).2) : Ended I (r.map f) := by
  obtain ⟨x, rfl, hx⟩ := h
  exact ⟨f x, rfl, hf x hx⟩

variable (hdonote : ∀ nbuf offset size align s, I s → I (donote S F nbuf offset size align s).2)

include hdonote

theorem sectionNotes_ends (halign : 0 < align) (hlt : align < 2 ^ 64) (off : ℤ) (filesz : ℕ) (ph nbuf : List UInt8)
    (hs : I s) : Steps I (sectionNotes S F off filesz align ph nbuf s) := by
  rw [sectionNotes]
  split
  · exact .some hs
  next b hb =>
  have hlen := (S.pread_le _ _ _ hb).trans (Nat.min_le_right _ _)
  rw [bufsiz] at hlen
  have hends : ∃ s', noteLoop S F (readOver b nbuf) b.length align (b.length + 1) 0 s = some s' ∧ I s' :=
    noteLoop_ends hdonote halign hlt (by omega) (by omega) hs
  obtain ⟨s', hs', hi⟩ := hends
  rw [hs']
  exact .some hi

theorem coreHeader_ends (off : ℤ) (ph nbuf : List UInt8) (hs : I s) : Steps I (coreHeader S F off ph nbuf s) := by
  rw [coreHeader]
  split
  · exact .some hs
  dsimp only
  split_ifs
  · exact .some hs
  · exact .some hs
  · exact sectionNotes_ends hdonote (by omega) (by omega) _ _ _ _ hs

theorem coreLoop_ends (size num : ℕ) (off : ℤ) (ph nbuf : List UInt8) (hs : I s) :
    Ended I (coreLoop S F size num off ph nbuf s) := by
  induction num generalizing off ph nbuf s with
  | zero => exact .some hs
  | succ num ih =>
    obtain ⟨x, hx, hi⟩ := coreHeader_ends hdonote off ph nbuf hs
    rw [coreLoop, hx]
    cases x with
    | error s => exact .some hi
    | ok x => exact ih _ _ _ hi

variable (hprintf : ∀ p s, Quiet p → I s → I (printf S p s).2)

include hprintf

theorem dophnCore_ends (off : ℤ) (num size : ℕ) (hs : I s) : Ended I (dophnCore S F off num size s) := by
  rw [dophnCore]
  split
  · exact .some (hprintf _ _ (by simp [Quiet]) hs)
  · exact coreLoop_ends hdonote _ _ _ _ _ hs

theorem execHeader_ends (shNum : ℕ) (ph nbuf : List UInt8) (hs : I s) : Steps I (execHeader S F shNum ph nbuf s) := by
  rw [execHeader]
  split
  · exact .some hs
  split
  · exact .some hs
  obtain ⟨hpos, hlt⟩ := phAlign_bounds (F := F) ph
  have htext : I (alignText S F ph s).2 := by
    rw [alignText]
    split
    · exact hprintf _ _ (by simp [Quiet]) hs
    · exact hs
  dsimp only
  split
  · exact .some htext
  split
  · exact .some htext
  · refine sectionNotes_ends hdonote ?_ ?_ _ _ _ _ htext
    · split <;> omega
    · split <;> omega

theorem execLoop_ends (size shNum num : ℕ) (off : ℤ) (ph nbuf : List UInt8) (L : Linking) (hs : I s) :
    Ended I (execLoop S F size shNum num off ph nbuf L s) := by
  induction num generalizing off ph nbuf L s with
  | zero => exact .some hs
  | succ num ih =>
    rw [execLoop]
    split
    · exact .some hs
    next b _ =>
    obtain ⟨x, hx, hi⟩ := execHeader_ends hdonote hprintf shNum (readOver b ph) nbuf hs
    dsimp only
    rw [hx]
    cases x with
    | error s => exact .some hi
    | ok x => exact ih _ _ _ _ hi

theorem dophnExec_ends (off : ℤ) (num size shNum : ℕ) (hs : I s) : Ended I (dophnExec S F off num size shNum s) := by
  rw [dophnExec]
  split
  · exact .some (hprintf _ _ (by simp [Quiet]) hs)
  · refine (execLoop_ends hdonote hprintf _ _ _ _ _ _ _ hs).map fun x hx => ?_
    split
    · exact hx
    · exact hprintf _ _ (by simp [Quiet, Linking.text]) hx

omit hdonote in
theorem capLoop_keeps (k : ℕ) (off : ℤ) (caps : Caps) (hs : I s) : I (capLoop S F k off caps s).2 := by
  induction k generalizing off caps s with
  | zero => exact hs
  | succ k ih =>
    rw [capLoop]
    split
    · exact hs
    dsimp only
    have htext := hprintf ⟨", with unknown capability 0x%llx = 0x%llx", [.num (F.capTag ‹_›), .num (F.capVal ‹_›)]⟩ s
      (by simp [Quiet]) hs
    split_ifs
    · exact hs
    · exact ih _ _ hs
    · exact ih _ _ hs
    · exact ih _ _ hs
    · exact ih _ _ htext
    · exact htext

omit hprintf in
theorem noteSection_ends (x : Sections) (hs : I s) : Ended I (noteSection S F x s) := by
  rw [noteSection]
  split
  · exact .some hs
  next block hblock =>
  split
  · exact .some hs
  next b _ =>
  have hends : ∃ s', noteLoop S F (readOver b block) (F.shSize x.sh) 4 (F.shSize x.sh + 1) 0 s = some s' ∧ I s' :=
    noteLoop_ends hdonote (by omega) (by omega) (S.malloc_lt _ _ hblock) (by omega) hs
  obtain ⟨s', hs', hi⟩ := hends
  rw [hs']
  exact .some hi

omit hdonote in
theorem capSection_keeps (x : Sections) (hs : I s) : I (capSection S F x s).2 := by
  rw [capSection]
  split
  · exact hs
  · rw [Prod.map_snd, id_eq]
    exact capLoop_keeps hprintf _ _ _ hs

theorem sectionBody_ends (mach : ℕ) (x : Sections) (hs : I s) : Ended I (sectionBody S F mach x s) := by
  rw [sectionBody]
  split_ifs
  · exact noteSection_ends hdonote x hs
  · exact .some (capSection_keeps hprintf x hs)
  · exact .some hs

theorem sectionLoop_ends (mach : ℕ) (nameOff : ℤ) (size num : ℕ) (off : ℤ) (name : List UInt8) (x : Sections) (hs : I s) :
    Ended I (sectionLoop S F mach nameOff size num off name x s) := by
  induction num generalizing off name x s with
  | zero => exact .some hs
  | succ num ih =>
    rw [sectionLoop]
    split
    · exact .some hs
    dsimp only
    split
    · exact .some hs
    next b _ =>
    have hheader (y : Sections) : Ended I (sectionHeader S F mach y s) := by
      rw [sectionHeader]
      split
      · exact .some hs
      · exact sectionBody_ends hdonote hprintf _ _ hs
    obtain ⟨⟨r, s'⟩, hr, hi⟩ := hheader _
    rw [hr]
    cases r with
    | none => exact .some hi
    | some x => exact ih _ _ _ hi

omit hdonote in
theorem printAll_keeps {ps : List Printed} (hps : ∀ p ∈ ps, Quiet p) (hs : I s) : I (printAll S ps s).2 := by
  induction ps generalizing s with
  | nil => exact hs
  | cons p ps ih =>
    have hp := hprintf p s (hps p List.mem_cons_self) hs
    rw [printAll]
    split
    · exact ih (fun p hp => hps p (List.mem_cons_of_mem _ hp)) hp
    · exact hp

omit hdonote hprintf in
theorem hwTexts_quiet (mach hw1 : ℕ) : ∀ p ∈ hwTexts mach hw1, Quiet p := by
  intro p hp
  rw [hwTexts] at hp
  split at hp
  · cases hp
  rcases List.mem_cons.mp hp with rfl | hp
  · simp [Quiet]
  split at hp
  · rw [List.mem_singleton.mp hp]
    simp [Quiet]
  · rcases List.mem_append.mp hp with hp | hp
    · obtain ⟨d, -, rfl⟩ := List.mem_map.mp hp
      simp [Quiet]
    · split at hp
      · cases hp
      · rw [List.mem_singleton.mp hp]
        simp [Quiet]

omit hdonote hprintf in
theorem sfTexts_quiet (sf1 : ℕ) : ∀ p ∈ sfTexts sf1, Quiet p := by
  intro p hp
  rw [sfTexts] at hp
  split at hp
  · cases hp
  rcases List.mem_append.mp hp with hp | hp
  · split at hp
    · rw [List.mem_singleton.mp hp]
      split
      · simp [Quiet]
      · simp [Quiet]
    · cases hp
  · split at hp
    · cases hp
    · rw [List.mem_singleton.mp hp]
      simp [Quiet]

theorem doshn_ends (off : ℤ) (num size mach strtab : ℕ) (hs : I s) : Ended I (doshn S F off num size mach strtab s) := by
  rw [doshn]
  split
  · exact .some (hprintf _ _ (by simp [Quiet]) hs)
  split
  · exact .some hs
  · refine (sectionLoop_ends hdonote hprintf _ _ _ _ _ _ _ hs).map fun x hx => ?_
    split
    · exact hx
    · refine printAll_keeps hprintf ?_ hx
      intro p hp
      rcases List.mem_cons.mp hp with rfl | hp
      · simp [Quiet]
      rcases List.mem_append.mp hp with hp | hp
      · exact hwTexts_quiet _ _ p hp
      · exact sfTexts_quiet _ p hp

end Ends

section Files

variable {I : State → Prop} (hdonote : ∀ F nbuf offset size align s, I s → I (donote S F nbuf offset size align s).2)
  (hprintf : ∀ p s, Quiet p → I s → I (printf S p s).2)
  (hcore : ∀ s, I s → I { s with flags := { s.flags with isCore := true } })

include hdonote hprintf hcore

theorem elfClass_ends (buf : List UInt8) (nbytes : ℕ) (wide : Bool) (hs : I s) : Ended I (elfClass S buf nbytes wide s) := by
  rw [elfClass]
  split
  · exact .some hs
  rw [elfType]
  split
  · exact (dophnCore_ends (hdonote _) hprintf _ _ _ (hcore s hs)).map fun _ hx => hx
  split
  · obtain ⟨⟨ok, s'⟩, hr, hi⟩ := dophnExec_ends (hdonote (formOf buf wide)) hprintf ((formOf buf wide).ehdr buf).phoff
      ((formOf buf wide).ehdr buf).phnum ((formOf buf wide).ehdr buf).phentsize ((formOf buf wide).ehdr buf).shnum hs
    rw [hr]
    cases ok with
    | false => exact .some hi
    | true => exact (doshn_ends (hdonote _) hprintf _ _ _ _ _ hi).map fun _ hx => hx
  split
  · exact (doshn_ends (hdonote _) hprintf _ _ _ _ _ hs).map fun _ hx => hx
  · exact .some hs

theorem fileTryelf_keeps (buf : List UInt8) (nbytes : ℕ) (printed : List Printed)
    (hs : I ⟨⟨false, false, false, false, false⟩, printed⟩) : Ended I (fileTryelf S buf nbytes printed) := by
  rw [fileTryelf]
  dsimp only
  split
  · exact .some hs
  split
  · exact elfClass_ends hdonote hprintf hcore _ _ _ hs
  split
  · exact elfClass_ends hdonote hprintf hcore _ _ _ hs
  · exact .some (hprintf _ _ (by simp [Quiet]) hs)

end Files

/-- `file_tryelf` ends for each file: no size and no alignment of a note makes a loop go back. -/
theorem fileTryelf_ends (S : Source) (buf : List UInt8) (nbytes : ℕ) (printed : List Printed) :
    ∃ r s, fileTryelf S buf nbytes printed = some (r, s) := by
  obtain ⟨⟨r, s⟩, h, -⟩ := fileTryelf_keeps (S := S) (I := fun _ => True) (fun _ _ _ _ _ _ _ => trivial)
    (fun _ _ _ _ => trivial) (fun _ _ => trivial) buf nbytes printed trivial
  exact ⟨r, s, h⟩

/-! ## What is printed once -/

/-- How often a text of some formats was printed. -/
def times (fmts : List String) (s : State) : ℕ := s.printed.countP fun p => p.fmt ∈ fmts

/-- What the flags say of the texts. -/
structure Once (styles froms : ℕ) (s : State) : Prop where
  style : times [", %s-style"] s ≤ styles + s.flags.didCoreStyle.toNat
  core : times [", from '%.*s'", " (signal %u)"] s ≤ froms + s.flags.didCore.toNat

variable {styles froms : ℕ} {n : Note}

theorem printf_cases (p : Printed) (s : State) : (printf S p s = (true, { s with printed := s.printed ++ [p] })) ∨
    printf S p s = (false, s) := by
  rw [printf]
  split
  · exact .inl rfl
  · exact .inr rfl

theorem times_append (fmts : List String) (s : State) (p : Printed) :
    times fmts { s with printed := s.printed ++ [p] } = times fmts s + if p.fmt ∈ fmts then 1 else 0 := by
  rw [times, List.countP_append, List.countP_singleton, ← times]
  simp

theorem once_printf {p : Printed} (hp : Quiet p) (h : Once styles froms s) : Once styles froms (printf S p s).2 := by
  obtain ⟨h1, h2, h3⟩ := hp
  rcases printf_cases (S := S) p s with hr | hr
  · rw [hr]
    constructor
    · rw [times_append, if_neg (by simp [h1])]
      exact h.style
    · rw [times_append, if_neg (by simp [h2, h3])]
      exact h.core
  · rw [hr]
    exact h

theorem once_printAll {ps : List Printed} (hps : ∀ p ∈ ps, Quiet p) (h : Once styles froms s) :
    Once styles froms (printAll S ps s).2 :=
  printAll_keeps (I := Once styles froms) (fun _ _ hp hs => once_printf hp hs) hps h

theorem printf_flags (p : Printed) (s : State) : (printf S p s).2.flags = s.flags := by
  rcases printf_cases (S := S) p s with hr | hr
  · rw [hr]
  · rw [hr]

theorem printAll_flags (ps : List Printed) (s : State) : (printAll S ps s).2.flags = s.flags := by
  induction ps generalizing s with
  | nil => rfl
  | cons p ps ih =>
    rw [printAll]
    split
    · rw [ih, printf_flags]
    · exact printf_flags p s

/-- A branch of `donote` that says nothing of a core file. -/
def Announce.Quiet (a : Announce) : Prop := (∀ p ∈ a.texts, Readelf.Quiet p) ∧
  ∀ flags, (a.did flags).didCore = flags.didCore ∧ (a.did flags).didCoreStyle = flags.didCoreStyle

theorem once_announceAll {as : List Announce} (has : ∀ a ∈ as, a.Quiet) (h : Once styles froms s) :
    Once styles froms (announceAll S as s).2 := by
  induction as generalizing s with
  | nil => exact h
  | cons a as ih =>
    obtain ⟨htexts, hdid⟩ := has a List.mem_cons_self
    have hprinted := once_printAll (S := S) htexts h
    have hdone : Once styles froms (announce S a s).2 := by
      rw [announce]
      dsimp only
      split
      · obtain ⟨hcore, hstyle⟩ := hdid (printAll S a.texts s).2.flags
        refine ⟨?_, ?_⟩
        · rw [hstyle]
          exact hprinted.style
        · rw [hcore]
          exact hprinted.core
      · exact hprinted
    rw [announceAll]
    split
    · exact ih (fun a ha => has a (List.mem_cons_of_mem _ ha)) hdone
    · exact hdone

theorem gnuOs_quiet (k : ℕ) : Quiet ⟨gnuOs k, []⟩ := by
  rw [gnuOs.eq_def]
  split <;> simp [Quiet]

/-- A branch that sets `FLAGS_DID_NOTE`. -/
theorem quiet_note {c : Prop} [Decidable c] {texts : List Printed} (h : ∀ p ∈ texts, Quiet p) :
    ∀ a ∈ if c then [(⟨texts, didNote, true⟩ : Announce)] else [], a.Quiet := by
  intro a ha
  split at ha
  · rw [List.mem_singleton.mp ha]
    exact ⟨h, fun _ => ⟨rfl, rfl⟩⟩
  · cases ha

theorem gnuVersion_quiet (F : Form) (n : Note) : ∀ a ∈ gnuVersion F n, a.Quiet := by
  apply quiet_note
  intro p hp
  simp only [List.mem_cons, List.not_mem_nil, or_false] at hp
  rcases hp with rfl | rfl | rfl
  · simp [Quiet]
  · exact gnuOs_quiet _
  · simp [Quiet]

theorem gnuBuildId_quiet (n : Note) : ∀ a ∈ gnuBuildId n, a.Quiet := by
  intro a ha
  rw [gnuBuildId] at ha
  split at ha
  · rw [List.mem_singleton.mp ha]
    refine ⟨fun p hp => ?_, fun _ => ⟨rfl, rfl⟩⟩
    rcases List.mem_cons.mp hp with rfl | hp
    · simp [Quiet]
    · obtain ⟨b, -, rfl⟩ := List.mem_map.mp hp
      simp [Quiet]
  · cases ha

theorem netbsdVersion_quiet (F : Form) (n : Note) : ∀ a ∈ netbsdVersion F n, a.Quiet := by
  apply quiet_note
  intro p hp
  rcases List.mem_cons.mp hp with rfl | hp
  · simp [Quiet]
  split at hp
  case isFalse => cases hp
  rcases List.mem_cons.mp hp with rfl | hp
  · simp [Quiet]
  split_ifs at hp
  · rw [List.mem_singleton.mp hp]
    simp [Quiet]
  · rcases List.mem_append.mp hp with hp | hp
    · rw [List.eq_of_mem_replicate hp]
      simp [Quiet]
    · rw [List.mem_singleton.mp hp]
      simp [Quiet]
  · cases hp

theorem freebsdVersion_quiet (F : Form) (n : Note) : ∀ a ∈ freebsdVersion F n, a.Quiet := by
  apply quiet_note
  generalize F.desc n 0 = desc
  intro p hp
  rcases List.mem_cons.mp hp with rfl | hp
  · simp [Quiet]
  suffices h : p.fmt = " 4.6.2" ∨ p.fmt = " %d.%d" ∨ p.fmt = ".%d" ∨ p.fmt = " (%d)" by
    rcases h with h | h | h | h
    all_goals simp [Quiet, h]
  split_ifs at hp
  all_goals simp only [List.mem_cons, List.not_mem_nil, List.mem_append, or_false, false_or] at hp
  all_goals rcases hp with rfl | rfl | rfl | rfl
  all_goals simp

theorem openbsdVersion_quiet (n : Note) : ∀ a ∈ openbsdVersion n, a.Quiet :=
  quiet_note fun p hp => by rw [List.mem_singleton.mp hp]; simp [Quiet]

theorem dragonflyVersion_quiet (F : Form) (n : Note) : ∀ a ∈ dragonflyVersion F n, a.Quiet := by
  apply quiet_note
  intro p hp
  simp only [List.mem_cons, List.not_mem_nil, or_false] at hp
  rcases hp with rfl | rfl
  · simp [Quiet]
  · simp [Quiet]

theorem versions_quiet (F : Form) (n : Note) : ∀ a ∈ gnuVersion F n ++ gnuBuildId n ++ netbsdVersion F n ++
    freebsdVersion F n ++ openbsdVersion n ++ dragonflyVersion F n, a.Quiet := by
  simp only [List.mem_append]
  rintro a (((((ha | ha) | ha) | ha) | ha) | ha)
  · exact gnuVersion_quiet F n a ha
  · exact gnuBuildId_quiet n a ha
  · exact netbsdVersion_quiet F n a ha
  · exact freebsdVersion_quiet F n a ha
  · exact openbsdVersion_quiet n a ha
  · exact dragonflyVersion_quiet F n a ha

theorem once_suse (n : Note) (h : Once styles froms s) : Once styles froms (suse S n s) := by
  rw [suse]
  split
  · exact once_printf (by simp [Quiet]) h
  · exact h

theorem announceAll_append (as bs : List Announce) (s : State) : announceAll S (as ++ bs) s =
    if (announceAll S as s).1 then announceAll S bs (announceAll S as s).2 else announceAll S as s := by
  induction as generalizing s with
  | nil => rfl
  | cons a as ih =>
    rw [List.cons_append, announceAll, announceAll]
    by_cases h : (announce S a s).1 = true
    · rw [if_pos h, if_pos h, ih]
    · rw [if_neg h, if_neg h, if_neg h]

/-- One branch. -/
theorem announceAll_one (a : Announce) (s : State) : (announceAll S [a] s).2 = (announce S a s).2 := by
  rw [announceAll]
  split
  · rfl
  · rfl

/-- The style is printed if none was. -/
theorem once_style (n : Note) (h : Once styles froms s) (hcore : s.flags.didCore = false) :
    Once styles froms (announceAll S (styleText n s.flags) s).2 ∧
      (announceAll S (styleText n s.flags) s).2.flags.didCore = false := by
  rw [styleText.eq_def]
  split
  · exact ⟨h, hcore⟩
  next style _ =>
  split
  · exact ⟨h, hcore⟩
  next hstyle =>
  rw [Bool.not_eq_true] at hstyle
  rw [announceAll_one, announce, printAll]
  rcases printf_cases (S := S) ⟨", %s-style", [.str style.name.toUTF8.toList]⟩ s with hr | hr
  · rw [hr]
    have hle := h.style
    rw [hstyle] at hle
    have hstyles := times_append [", %s-style"] s ⟨", %s-style", [.str style.name.toUTF8.toList]⟩
    have hfroms := times_append [", from '%.*s'", " (signal %u)"] s ⟨", %s-style", [.str style.name.toUTF8.toList]⟩
    rw [if_pos List.mem_cons_self] at hstyles
    rw [if_neg (by simp)] at hfroms
    exact ⟨⟨hstyles.le.trans (Nat.add_le_add_right hle 1), hfroms.le.trans h.core⟩, hcore⟩
  · rw [hr]
    exact ⟨h, hcore⟩

/-- The last text of the program that dumped core sets the flag. -/
theorem once_last {p : Printed} (hp : p.fmt = ", from '%.*s'" ∨ p.fmt = " (signal %u)") (h : Once styles froms s)
    (hcore : s.flags.didCore = false) : Once styles froms ⟨didCore s.flags, s.printed ++ [p]⟩ := by
  have hle := h.core
  rw [hcore] at hle
  have hother : p.fmt ∉ [", %s-style"] := by rcases hp with hp | hp <;> simp [hp]
  have hlast : p.fmt ∈ [", from '%.*s'", " (signal %u)"] := by rcases hp with hp | hp <;> simp [hp]
  have hstyles := times_append [", %s-style"] s p
  have hfroms := times_append [", from '%.*s'", " (signal %u)"] s p
  rw [if_neg hother] at hstyles
  rw [if_pos hlast] at hfroms
  exact ⟨hstyles.le.trans h.style, hfroms.le.trans (Nat.add_le_add_right hle 1)⟩

/-- The program that dumped core is printed if none was. -/
theorem once_from {F : Form} (n : Note) (flags : ElfFlags) (h : Once styles froms s) (hcore : s.flags.didCore = false) :
    Once styles froms (announceAll S (fromText F n flags) s).2 := by
  rw [fromText]
  split
  · split
    · rw [announceAll_one, announce, printAll, printAll]
      generalize hfirst : (⟨", from '%.31s'", _⟩ : Printed) = p
      have hq : Quiet p := by subst hfirst; simp [Quiet]
      have hone := once_printf (S := S) hq h
      rcases printf_cases (S := S) p s with hr | hr
      · rw [hr] at hone ⊢
        generalize hsecond : (⟨" (signal %u)", _⟩ : Printed) = p' at *
        rcases printf_cases (S := S) p' { s with printed := s.printed ++ [p] } with hr' | hr'
        · dsimp only
          rw [hr']
          exact once_last (.inr (by rw [← hsecond])) hone hcore
        · dsimp only
          rw [hr']
          exact hone
      · rw [hr]
        exact h
    · exact h
  split
  · split
    · exact h
    · rw [announceAll_one, announce, printAll]
      generalize hfirst : (⟨", from '%.*s'", _⟩ : Printed) = p
      rcases printf_cases (S := S) p s with hr | hr
      · rw [hr]
        exact once_last (.inl (by rw [← hfirst])) h hcore
      · rw [hr]
        exact h
  · exact h

theorem once_noteText {F : Form} (n : Note) (h : Once styles froms s) : Once styles froms (noteText S F n s).2 := by
  rw [noteText]
  generalize hr : (if (s.flags.didNote && s.flags.didBuildId) = true then (true, s) else _ : Bool × State) = r
  have hversions : Once styles froms r.2 := by
    subst hr
    split
    · exact h
    · exact once_announceAll (versions_quiet F n) (once_suse n h)
  split
  · exact hversions
  split
  · exact hversions
  next hcore =>
  rw [Bool.not_eq_true] at hcore
  rw [announceAll_append]
  obtain ⟨hstyle, hcore'⟩ := once_style (S := S) n hversions hcore
  split
  · exact once_from n _ hstyle hcore'
  · exact hstyle

theorem once_donote (F : Form) (nbuf : List UInt8) (offset size align : ℕ) (s : State) (h : Once styles froms s) :
    Once styles froms (donote S F nbuf offset size align s).2 := by
  rw [donote]
  dsimp only
  split_ifs
  all_goals first
    | exact h
    | exact once_printf (by simp [Quiet]) h
    | exact once_noteText _ h

/-- `file_tryelf` ends with any file, and it prints the style of a core file once at most, and so the last text of the program
that dumped core, over all notes of all headers, and wherever `file_printf` fails. -/
theorem fileTryelf_once (S : Source) (buf : List UInt8) (nbytes : ℕ) (printed : List Printed) :
    ∃ r s, fileTryelf S buf nbytes printed = some (r, s) ∧
      times [", %s-style"] s ≤ printed.countP (fun p => p.fmt ∈ [", %s-style"]) + 1 ∧
      times [", from '%.*s'", " (signal %u)"] s ≤
        printed.countP (fun p => p.fmt ∈ [", from '%.*s'", " (signal %u)"]) + 1 := by
  obtain ⟨⟨r, s⟩, hx, honce⟩ := fileTryelf_keeps (S := S) (I := Once (printed.countP fun p => p.fmt ∈ [", %s-style"])
    (printed.countP fun p => p.fmt ∈ [", from '%.*s'", " (signal %u)"])) (fun F _ _ _ _ _ hs => once_donote F _ _ _ _ _ hs)
    (fun p _ hp hs => once_printf hp hs) (fun _ hs => ⟨hs.style, hs.core⟩) buf nbytes printed ⟨by simp [times], by simp [times]⟩
  have hstyle := Bool.toNat_le s.flags.didCoreStyle
  have hcore := Bool.toNat_le s.flags.didCore
  exact ⟨r, s, hx, honce.style.trans (Nat.add_le_add_left hstyle _), honce.core.trans (Nat.add_le_add_left hcore _)⟩

end CodingExercises.File.Readelf
