import CodingExercises.File.ReadelfRuns

/-!
# file: what is said of an ELF file

- The structures of `readelf.h` have an `Elf64_Word` of 16 bits, so that the fields behind `e_version` are read from the wrong
  places: of each file with a proper header of 64 bits it is said that the sizes of its headers are corrupted
  (`fileTryelf_elf64`).
- If headers are read, a program is said to be dynamically linked if it has a header of that type, wherever it stands
  (`dophnExec_linked`), and not to be stripped if it has a symbol table, or if one of the names that are looked at says so: the
  one of the name section, and those of all sections but the last (`doshn_stripped`).
-/

namespace CodingExercises.File.Readelf

open CodingExercises.Lib

variable {S : Source} {F : Form} {s s' : State} {buf file : List UInt8} {nbytes : ℕ} {printed : List Printed}

/-! ## Headers of 64 bits -/

/-- The order of bytes that `EI_DATA` gives. -/
def order (buf : List UInt8) : ByteOrder := if raw buf 5 1 = 1 then .little else .big

/-- A field of two bytes. -/
def half64 (buf : List UInt8) (offset : ℕ) : ℕ := (order buf).decode ((buf.drop offset).take 2)

/-- A header of 64 bits as the format has it, of which `e_ehsize` is at 52 and gives its own size. -/
structure IsElf64 (buf : List UInt8) : Prop where
  magic : isElf buf = true
  clazz : raw buf 4 1 = 2
  ehsize : half64 buf 52 = 64

/-- What is read of a field of two bytes. -/
theorem half_eq {narrow wide : ℕ} (h : wide + 2 ≤ buf.length) : (formOf buf true).half buf narrow wide = half64 buf wide := by
  have hlen : ((buf.drop wide).take 2).length = 2 := by simp; omega
  have hswap : (formOf buf true).swap = decide (raw buf 5 1 ≠ 1) := rfl
  have hraw : raw buf (if (formOf buf true).wide = true then wide else narrow) 2 =
      ByteOrder.little.decode ((buf.drop wide).take 2) := rfl
  rw [Form.half, half64, Form.getu, order, hraw, hswap]
  by_cases hdata : raw buf 5 1 = 1
  · rw [if_pos hdata, if_neg (by simp [hdata])]
  · rw [if_neg hdata, if_pos (by simp [hdata]), ByteOrder.encode_decode _ hlen]

section Corrupted

variable (hprintf : ∀ ps p, S.printf ps p = true)

include hprintf

theorem printf_true (p : Printed) (s : State) : printf S p s = (true, { s with printed := s.printed ++ [p] }) := by
  rw [printf, if_pos (hprintf _ _)]

/-- What is said of a file with a proper header of 64 bits, be it a core file, a program, a library or an object file: that
the sizes of its headers are corrupted. The size of a program header is read where the header has its own size, and the size of
a section header where it has the number of program headers. -/
theorem fileTryelf_elf64 (helf : IsElf64 buf) (hnbytes : 64 < nbytes) (hlen : 64 ≤ buf.length)
    (hphnum : half64 buf 56 ≠ 64) : ∃ s, fileTryelf S buf nbytes printed = some (1, s) ∧ s.printed = printed ++
      if half64 buf 16 = 4 then [⟨", corrputed program header size", []⟩]
      else if half64 buf 16 = 2 ∨ half64 buf 16 = 3 then
        [⟨", corrupted program header size", []⟩, ⟨", corrupted section header size", []⟩]
      else if half64 buf 16 = 1 then [⟨", corrupted section header size", []⟩]
      else [] := by
  have htype : ((formOf buf true).ehdr buf).type = half64 buf 16 := half_eq (by omega)
  have hph : ((formOf buf true).ehdr buf).phentsize ≠ (formOf buf true).phSizeof := by
    have heq : ((formOf buf true).ehdr buf).phentsize = half64 buf 52 := half_eq (by omega)
    rw [heq, helf.ehsize]
    simp [Form.phSizeof, formOf]
  have hsh : ((formOf buf true).ehdr buf).shentsize ≠ (formOf buf true).shSizeof := by
    have heq : ((formOf buf true).ehdr buf).shentsize = half64 buf 56 := half_eq (by omega)
    rw [heq]
    simpa [Form.shSizeof, formOf] using hphnum
  have hsections (off : ℤ) (num mach strtab : ℕ) (s : State) :
      doshn S (formOf buf true) off num ((formOf buf true).ehdr buf).shentsize mach strtab s =
        some (true, { s with printed := s.printed ++ [⟨", corrupted section header size", []⟩] }) := by
    rw [doshn, if_pos hsh, printf_true hprintf]
  rw [fileTryelf, if_neg (by simp [helf.magic])]
  simp only [helf.clazz]
  rw [if_neg (by omega), if_pos trivial, elfClass, if_neg (by simp [ehdrSizeof]; omega), elfType, htype]
  split
  · rw [dophnCore, if_pos hph, printf_true hprintf]
    exact ⟨_, rfl, rfl⟩
  split
  · rw [dophnExec, if_pos hph, printf_true hprintf, Option.bind_some, if_pos rfl, hsections]
    exact ⟨_, rfl, by simp⟩
  split
  · rw [hsections]
    exact ⟨_, rfl, rfl⟩
  · exact ⟨_, rfl, by simp⟩

end Corrupted

/-- A file that is read without errors; memory that is not set has zeros. -/
def fileSource (file : List UInt8) : Source where
  fsize := file.length
  pread off n := if off < 0 then none else some ((file.drop off.toNat).take n)
  pread_le off n b h := by
    split at h
    · cases h
    · cases h
      exact List.length_take_le _ _
  malloc n := if n < 4096 then some (List.replicate n 0) else none
  malloc_lt n b h := by
    split at h
    · omega
    · cases h
  printf _ _ := true
  stale _ := List.replicate 100 0

/-- The header of a shared library of 64 bits with 9 program headers, in the other order of bytes. -/
def library : List UInt8 :=
  [0x7f, 0x45, 0x4c, 0x46, 2, 2, 1, 0] ++ List.replicate 8 0 ++ [0, 3, 0, 62, 0, 0, 0, 1] ++ List.replicate 28 0 ++
    [0, 64, 0, 56, 0, 9, 0, 64, 0, 30, 0, 29] ++ List.replicate 36 0

theorem fileTryelf_elf64_library : ∃ s, fileTryelf (fileSource library) library 100 [] = some (1, s) ∧ s.printed = [] ++
    if half64 library 16 = 4 then [⟨", corrputed program header size", []⟩]
    else if half64 library 16 = 2 ∨ half64 library 16 = 3 then
      [⟨", corrupted program header size", []⟩, ⟨", corrupted section header size", []⟩]
    else if half64 library 16 = 1 then [⟨", corrupted section header size", []⟩]
    else [] :=
  fileTryelf_elf64 (fun _ _ => rfl) ⟨by decide, by decide, by decide⟩ (by decide) (by decide) (by decide)

/-! ## Headers in a file -/

/-- The `k`-th header of a table. -/
def header (file : List UInt8) (start size k : ℕ) : List UInt8 := (file.drop (start + k * size)).take size

/-- What is read of a field that was read from the file. -/
theorem raw_readOver {b old : List UInt8} {offset width : ℕ} (h : offset + width ≤ b.length) :
    raw (readOver b old) offset width = raw b offset width := by
  rw [raw, raw, readOver, List.drop_append_of_le_length (by omega), List.take_append_of_le_length (by simp; omega)]

theorem field_readOver {b old : List UInt8} {narrow wide : ℕ × ℕ} (h : narrow.1 + narrow.2 ≤ b.length)
    (hwide : F.wide = true → wide.1 + wide.2 ≤ b.length) : F.field (readOver b old) narrow wide = F.field b narrow wide := by
  rw [Form.field, Form.field]
  split
  · next hw => rw [raw_readOver (hwide hw)]
  · rw [raw_readOver h]

theorem offT_eq {n : ℤ} (h : 0 ≤ n) (hlt : n < 2 ^ 63) : offT n = n := by
  rw [offT, Int.bmod_eq_of_le (by omega) (by omega)]

/-- The file is what `pread` gives. -/
structure Reads (S : Source) (file : List UInt8) : Prop where
  pread : ∀ (off n : ℕ), S.pread off n = some ((file.drop off).take n)
  length : file.length < 2 ^ 63

theorem phType_readOver {b old : List UInt8} (h : b.length = F.phSizeof) : F.phType (readOver b old) = F.phType b := by
  rw [Form.phSizeof] at h
  refine field_readOver ?_ fun hwide => ?_
  · split at h <;> simp <;> omega
  · rw [if_pos hwide] at h
    simp; omega

/-- What one more header says of the linking. -/
theorem see_iff (L : Linking) (type : ℕ) : ((L.see type).dynamic = true ↔ L.dynamic = true ∨ type = 2) ∧
    ((L.see type).shared = true ↔ L.shared = true ∨ type = 3) := by
  rw [Linking.see]
  split_ifs
  · simp; omega
  · simp; omega
  · simp; omega

theorem sectionNotes_ph {off : ℤ} {filesz align : ℕ} {ph nbuf : List UInt8} {x : List UInt8 × List UInt8 × State}
    (h : sectionNotes S F off filesz align ph nbuf s = some (.ok x)) : x.1 = ph := by
  rw [sectionNotes] at h
  split at h
  · cases h
  · obtain ⟨_, -, h⟩ := Option.map_eq_some_iff.mp h
    cases h
    rfl

theorem execHeader_ph {shNum : ℕ} {ph nbuf : List UInt8} {x : List UInt8 × List UInt8 × State}
    (h : execHeader S F shNum ph nbuf s = some (.ok x)) : x.1 = ph := by
  rw [execHeader] at h
  split at h
  · cases h; rfl
  split at h
  · cases h; rfl
  dsimp only at h
  split at h
  · cases h
  split at h
  · cases h; rfl
  · exact sectionNotes_ph h

/-- The loop over the program headers sees all of them. -/
theorem execLoop_linked (hreads : Reads S file) {shNum num start : ℕ} (hfits : start + num * F.phSizeof ≤ file.length)
    {ph nbuf : List UInt8} {L L' : Linking}
    (h : execLoop S F F.phSizeof shNum num start ph nbuf L s = some (some L', s')) :
    (L'.dynamic = true ↔ L.dynamic = true ∨ ∃ k < num, F.phType (header file start F.phSizeof k) = 2) ∧
      (L'.shared = true ↔ L.shared = true ∨ ∃ k < num, F.phType (header file start F.phSizeof k) = 3) := by
  induction num generalizing start ph nbuf L s with
  | zero =>
    cases h
    simp
  | succ num ih =>
    rw [Nat.add_mul, Nat.one_mul] at hfits
    rw [execLoop, hreads.pread] at h
    have hzero : header file start F.phSizeof 0 = (file.drop start).take F.phSizeof := by simp [header]
    have hsucc (k : ℕ) : header file start F.phSizeof (k + 1) = header file (start + F.phSizeof) F.phSizeof k := by
      rw [header, header, Nat.add_mul, Nat.one_mul, Nat.add_assoc, Nat.add_comm (k * _)]
    have hlen : ((file.drop start).take F.phSizeof).length = F.phSizeof := by simp; omega
    have hoff : offT ((start : ℤ) + F.phSizeof) = ((start + F.phSizeof : ℕ) : ℤ) := by
      have := hreads.length
      rw [offT_eq (by omega) (by omega)]
      push_cast
      ring
    have htype : F.phType (readOver ((file.drop start).take F.phSizeof) ph) = F.phType ((file.drop start).take F.phSizeof) :=
      phType_readOver hlen
    dsimp only at h
    split at h
    · cases h
    · cases h
    next ph' nbuf' s₁ hstep =>
    have hph := execHeader_ph hstep
    dsimp only at hph
    rw [hoff, hph, htype] at h
    obtain ⟨hdyn, hshared⟩ := ih (by omega) h
    obtain ⟨hdyn', hshared'⟩ := see_iff L (F.phType ((file.drop start).take F.phSizeof))
    rw [hdyn, hshared, hdyn', hshared', Nat.exists_lt_succ_left, Nat.exists_lt_succ_left]
    simp only [hzero, hsucc, or_assoc]
    exact ⟨trivial, trivial⟩

/-- A program is said to be dynamically linked if one of its headers is of the type `PT_DYNAMIC`, and to use shared libraries if
one is of the type `PT_INTERP`, whatever their order is, and whether the sections that they are about are in the file. -/
theorem dophnExec_linked (hreads : Reads S file) {shNum num start : ℕ} (hfits : start + num * F.phSizeof ≤ file.length)
    (h : dophnExec S F start num F.phSizeof shNum s = some (true, s')) : ∃ (L : Linking) (pre : List Printed),
      s'.printed = pre ++ [L.text] ∧
      (L.dynamic = true ↔ ∃ k < num, F.phType (header file start F.phSizeof k) = 2) ∧
      (L.shared = true ↔ ∃ k < num, F.phType (header file start F.phSizeof k) = 3) := by
  rw [dophnExec, if_neg (by simp)] at h
  obtain ⟨⟨L, s₁⟩, hloop, h⟩ := Option.map_eq_some_iff.mp h
  cases L with
  | none => cases h
  | some L =>
    obtain ⟨hdyn, hshared⟩ := execLoop_linked hreads hfits hloop
    dsimp only at h
    rcases printf_cases (S := S) L.text s₁ with hr | hr
    · rw [hr] at h
      cases h
      exact ⟨L, s₁.printed, rfl, by simpa using hdyn, by simpa using hshared⟩
    · rw [hr] at h
      cases h

theorem fileSource_reads {file : List UInt8} (h : file.length < 2 ^ 63) : Reads (fileSource file) file :=
  ⟨fun off n => by simp [fileSource], h⟩

/-- A table with one header of the type `PT_DYNAMIC`, of 32 bits. -/
def dynamicTable : List UInt8 := 2 :: List.replicate 31 0

def startState : State := ⟨⟨false, false, false, false, false⟩, []⟩

theorem dophnExec_linked_dynamic : ∃ (s' : State) (L : Linking) (pre : List Printed), s'.printed = pre ++ [L.text] ∧
    (L.dynamic = true ↔ ∃ k < 1, Form.phType ⟨false, false⟩ (header dynamicTable 0 (Form.phSizeof ⟨false, false⟩) k) = 2) ∧
    (L.shared = true ↔ ∃ k < 1, Form.phType ⟨false, false⟩ (header dynamicTable 0 (Form.phSizeof ⟨false, false⟩) k) = 3) := by
  obtain ⟨s', h⟩ : ∃ s', dophnExec (fileSource dynamicTable) ⟨false, false⟩ (0 : ℕ) 1 (Form.phSizeof ⟨false, false⟩) 0
      startState = some (true, s') := ⟨_, rfl⟩
  exact ⟨s', dophnExec_linked (fileSource_reads (by decide)) (by decide) h⟩

/-! ## Sections -/

theorem shSizeof_cases : F.wide = true ∧ F.shSizeof = 64 ∨ F.wide = false ∧ F.shSizeof = 40 := by
  rw [Form.shSizeof]
  cases hw : F.wide <;> simp

theorem shName_readOver {b old : List UInt8} (h : b.length = F.shSizeof) : F.shName (readOver b old) = F.shName b := by
  rcases shSizeof_cases (F := F) with ⟨hw, hs⟩ | ⟨hw, hs⟩
  · exact field_readOver (by simp; omega) fun _ => by simp; omega
  · exact field_readOver (by simp; omega) fun hw' => by simp [hw] at hw'

theorem shType_readOver {b old : List UInt8} (h : b.length = F.shSizeof) : F.shType (readOver b old) = F.shType b := by
  rcases shSizeof_cases (F := F) with ⟨hw, hs⟩ | ⟨hw, hs⟩
  · exact field_readOver (by simp; omega) fun _ => by simp; omega
  · exact field_readOver (by simp; omega) fun hw' => by simp [hw] at hw'

theorem shOffset_readOver {b old : List UInt8} (h : b.length = F.shSizeof) : F.shOffset (readOver b old) = F.shOffset b := by
  rcases shSizeof_cases (F := F) with ⟨hw, hs⟩ | ⟨hw, hs⟩
  · exact field_readOver (by simp; omega) fun _ => by simp; omega
  · exact field_readOver (by simp; omega) fun hw' => by simp [hw] at hw'

theorem isDebugInfo_readOver {b old : List UInt8} (h : b.length = 50) : isDebugInfo (readOver b old) = isDebugInfo b := by
  rw [isDebugInfo, isDebugInfo, readOver, List.take_append_of_le_length (by omega)]

theorem see_stripped (x : Sections) (kept : Bool) :
    (x.see kept).stripped = false ↔ x.stripped = false ∨ kept = true := by
  rw [Sections.see, Bool.and_eq_false_iff]
  simp

/-- What a section says of symbols. -/
theorem sectionHeader_some {mach : ℕ} {x x' : Sections} (h : sectionHeader S F mach x s = some (some x', s')) :
    x'.sh = x.sh ∧ (x'.stripped = false ↔ x.stripped = false ∨ F.shType x.sh = 2) := by
  rw [sectionHeader] at h
  split at h
  · next hskip =>
    cases h
    exact ⟨rfl, by simp [hskip.1]⟩
  next =>
  suffices hbody : x'.sh = x.sh ∧ x'.stripped = (x.see (F.shType x.sh = 2)).stripped by
    refine ⟨hbody.1, ?_⟩
    rw [hbody.2, see_stripped, decide_eq_true_iff]
  rw [sectionBody] at h
  split at h
  · rw [noteSection] at h
    split at h
    · cases h
    split at h
    · cases h
    obtain ⟨_, -, h⟩ := Option.map_eq_some_iff.mp h
    cases h
    exact ⟨rfl, rfl⟩
  split at h
  · rw [capSection] at h
    split at h
    · cases h
    have h := congrArg Prod.fst (Option.some.inj h)
    rw [Prod.map_fst] at h
    obtain ⟨caps, -, rfl⟩ := Option.map_eq_some_iff.mp h
    exact ⟨rfl, rfl⟩
  · cases h
    exact ⟨rfl, rfl⟩

/-- The name that is looked at with the `k`-th section: the one of the section before it, and with the first one another. -/
def nameBefore (F : Form) (file : List UInt8) (start first : ℕ) : ℕ → ℕ
  | 0 => first
  | k + 1 => F.shName (header file start F.shSizeof k)

/-- The 50 bytes of a name. -/
def nameAt (file : List UInt8) (nameOff name : ℕ) : List UInt8 := (file.drop (nameOff + name)).take 50

/-- The loop over the sections sees the types of all of them, and the names of those before them. -/
theorem sectionLoop_stripped (hreads : Reads S file) {mach nameOff num start first : ℕ}
    (hfits : start + num * F.shSizeof ≤ file.length)
    (hnames : ∀ k < num, nameOff + nameBefore F file start first k + 50 ≤ file.length) {name : List UInt8}
    {x x' : Sections} (hfirst : F.shName x.sh = first)
    (h : sectionLoop S F mach nameOff F.shSizeof num start name x s = some (some x', s')) :
    x'.stripped = false ↔ x.stripped = false ∨ ∃ k < num,
      isDebugInfo (nameAt file nameOff (nameBefore F file start first k)) = true ∨
        F.shType (header file start F.shSizeof k) = 2 := by
  induction num generalizing start name x s first with
  | zero =>
    cases h
    simp
  | succ num ih =>
    have hlen63 := hreads.length
    rw [Nat.add_mul, Nat.one_mul] at hfits
    have hname0 := hnames 0 (Nat.succ_pos _)
    rw [nameBefore] at hname0
    have hzero : header file start F.shSizeof 0 = (file.drop start).take F.shSizeof := by simp [header]
    have hsucc (k : ℕ) : header file start F.shSizeof (k + 1) = header file (start + F.shSizeof) F.shSizeof k := by
      rw [header, header, Nat.add_mul, Nat.one_mul, Nat.add_assoc, Nat.add_comm (k * _)]
    have hlen : ((file.drop start).take F.shSizeof).length = F.shSizeof := by simp; omega
    have hoff : offT ((start : ℤ) + F.shSizeof) = ((start + F.shSizeof : ℕ) : ℤ) := by
      rw [offT_eq (by omega) (by omega)]
      push_cast
      ring
    have hnameOff : offT ((nameOff : ℤ) + F.shName x.sh) = ((nameOff + first : ℕ) : ℤ) := by
      rw [hfirst, offT_eq (by omega) (by omega)]
      push_cast
      ring
    have hnext (k : ℕ) : nameBefore F file start first (k + 1) =
        nameBefore F file (start + F.shSizeof) (F.shName (header file start F.shSizeof 0)) k := by
      cases k with
      | zero => rfl
      | succ k => rw [nameBefore, nameBefore, hsucc]
    rw [sectionLoop, hnameOff, hreads.pread, hreads.pread] at h
    have hlen50 : ((file.drop (nameOff + first)).take 50).length = 50 := by simp; omega
    dsimp only at h
    rw [isDebugInfo_readOver hlen50, hoff] at h
    split at h
    · cases h
    · cases h
    next x₁ s₁ hstep =>
    obtain ⟨hsh, hstripped⟩ := sectionHeader_some hstep
    dsimp only at hsh hstripped
    have hname : isDebugInfo ((file.drop (nameOff + first)).take 50) =
        isDebugInfo (nameAt file nameOff (nameBefore F file start first 0)) := rfl
    rw [shType_readOver hlen, see_stripped, ← hzero, hname] at hstripped
    have hih := ih (by omega)
      (fun k hk => hnext k ▸ hnames (k + 1) (by omega)) (by rw [hsh, shName_readOver hlen, hzero]) h
    have hrest (k : ℕ) : (isDebugInfo (nameAt file nameOff (nameBefore F file (start + F.shSizeof)
          (F.shName (header file start F.shSizeof 0)) k)) = true ∨
        F.shType (header file (start + F.shSizeof) F.shSizeof k) = 2) ↔
        (isDebugInfo (nameAt file nameOff (nameBefore F file start first (k + 1))) = true ∨
          F.shType (header file start F.shSizeof (k + 1)) = 2) := by
      rw [hnext, hsucc]
    rw [hih, hstripped, Nat.exists_lt_succ_left]
    simp only [hrest, or_assoc]

theorem printAll_true {ps : List Printed} (h : printAll S ps s = (true, s')) : s'.printed = s.printed ++ ps := by
  induction ps generalizing s with
  | nil =>
    cases h
    simp
  | cons p ps ih =>
    rw [printAll] at h
    rcases printf_cases (S := S) p s with hr | hr
    · rw [hr] at h
      rw [ih h, List.append_assoc]
      rfl
    · rw [hr] at h
      cases h

/-- A file is said not to be stripped if it has a section of the type `SHT_SYMTAB`, or if a name that is looked at is
`.debug_info`. The name of a section is read by what is in `sh` before the header of the section is: the names that are looked
at are the one of the name section and those of the sections but the last one. -/
theorem doshn_stripped (hreads : Reads S file) {start num mach strtab : ℕ}
    (hfits : start + num * F.shSizeof ≤ file.length) (hstrtab : start + (strtab + 1) * F.shSizeof ≤ file.length)
    (hnames : ∀ k < num, F.shOffset (header file start F.shSizeof strtab) +
      nameBefore F file start (F.shName (header file start F.shSizeof strtab)) k + 50 ≤ file.length)
    (h : doshn S F start num F.shSizeof mach strtab s = some (true, s')) : ∃ (stripped : Bool) (pre post : List Printed),
      s'.printed = pre ++ ⟨", %sstripped", [.str (if stripped then "" else "not ").toUTF8.toList]⟩ :: post ∧
      (stripped = false ↔ ∃ k < num,
        isDebugInfo (nameAt file (F.shOffset (header file start F.shSizeof strtab))
          (nameBefore F file start (F.shName (header file start F.shSizeof strtab)) k)) = true ∨
        F.shType (header file start F.shSizeof k) = 2) := by
  have hlen63 := hreads.length
  rw [Nat.add_mul, Nat.one_mul] at hstrtab
  have hoff : offT ((start : ℤ) + (F.shSizeof : ℤ) * (strtab : ℤ)) = ((start + strtab * F.shSizeof : ℕ) : ℤ) := by
    have hcast : (start : ℤ) + (F.shSizeof : ℤ) * (strtab : ℤ) = ((start + strtab * F.shSizeof : ℕ) : ℤ) := by
      push_cast
      ring
    rw [hcast, offT_eq (by omega) (by omega)]
  have hlen : (header file start F.shSizeof strtab).length = F.shSizeof := by simp [header]; omega
  rw [doshn, if_neg (by simp), hoff, hreads.pread] at h
  dsimp only at h
  rw [← header, shOffset_readOver hlen] at h
  obtain ⟨⟨x, s₁⟩, hloop, h⟩ := Option.map_eq_some_iff.mp h
  cases x with
  | none => cases h
  | some x =>
    dsimp only at h
    have hprinted := printAll_true h
    refine ⟨x.stripped, s₁.printed, hwTexts mach x.caps.hw1 ++ sfTexts x.caps.sf1, ?_, ?_⟩
    · rw [hprinted]
    · cases num with
      | zero =>
        cases hloop
        simp
      | succ num =>
        have hzero := hnames 0 (Nat.succ_pos _)
        rw [offT_eq (by omega) (by omega)] at hloop
        have hname : F.shName (readOver (header file start F.shSizeof strtab) (S.stale "sh")) = _ := shName_readOver hlen
        have hseen := sectionLoop_stripped hreads hfits hnames (by exact hname) hloop
        simpa using hseen

/-- The table of a name section and a symbol table, of 32 bits, and the names. -/
def symbolTable : List UInt8 :=
  List.replicate 16 0 ++ [80, 0, 0, 0] ++ List.replicate 24 0 ++ [2, 0, 0, 0] ++ List.replicate 32 0 ++ List.replicate 60 0

theorem symbolTable_length : symbolTable.length = 140 := by simp [symbolTable]

theorem doshn_stripped_symbols : ∃ (s' : State) (stripped : Bool) (pre post : List Printed),
    s'.printed = pre ++ ⟨", %sstripped", [.str (if stripped then "" else "not ").toUTF8.toList]⟩ :: post ∧
    (stripped = false ↔ ∃ k < 2, isDebugInfo (nameAt symbolTable
        (Form.shOffset ⟨false, false⟩ (header symbolTable 0 (Form.shSizeof ⟨false, false⟩) 0))
        (nameBefore ⟨false, false⟩ symbolTable 0
          (Form.shName ⟨false, false⟩ (header symbolTable 0 (Form.shSizeof ⟨false, false⟩) 0)) k)) = true ∨
      Form.shType ⟨false, false⟩ (header symbolTable 0 (Form.shSizeof ⟨false, false⟩) k) = 2) := by
  have hdone : (doshn (fileSource symbolTable) ⟨false, false⟩ (0 : ℕ) 2 (Form.shSizeof ⟨false, false⟩) 3 0 startState).map
      Prod.fst = some true := by decide +kernel
  obtain ⟨⟨-, s'⟩, h, rfl⟩ := Option.map_eq_some_iff.mp hdone
  have hreads : Reads (fileSource symbolTable) symbolTable := fileSource_reads (by rw [symbolTable_length]; omega)
  exact ⟨s', doshn_stripped hreads (by decide +kernel) (by decide +kernel) (by decide +kernel) h⟩

end CodingExercises.File.Readelf
