import CodingExercises.File.Encoding

/-!
# file: character sets

`file_encoding` of `encoding.c` with the tests `looks_ascii`, `looks_utf8_with_BOM`, `looks_ucs16`, `looks_latin1` and
`looks_extended`, and `from_ebcdic`. A list stands for what is in `ubuf` below `ulen`; its allocation succeeds.

- What is found is the first of nine character sets in which the buffer is a text, with its characters (`fileEncoding_first`).
- What is stored is never more than there is room for, and `encode_utf8` never refuses it; what has been found to be a text is one
  in UTF-8 again, with the same characters (`fileEncoding_transcodes`).
- A text that is written in UTF-16 is read back (`utf16_read`), and so is one in EBCDIC just if one of its bytes stands for a
  control character (`ebcdic_read`).
-/

namespace CodingExercises.File.Charsets

open Encoding Lib.Utf8

/-! ## The tests -/

/-- `text_chars` at a character below 256. -/
def textChar (u : ℕ) : TextChar := textChars.getD u .f

/-- The loop of `looks_ascii`, `looks_latin1` and `looks_extended`: bytes of some kinds are stored. -/
def looksLike (kinds : List TextChar) (ubuf : List ℕ) : List UInt8 → Bool × List ℕ
  | [] => (true, ubuf)
  | b :: buf => if textChar b.toNat ∈ kinds then looksLike kinds (ubuf ++ [b.toNat]) buf else (false, ubuf)

/-- `looks_ascii`. -/
def looksAscii (buf : List UInt8) : Bool × List ℕ := looksLike [.t] [] buf

/-- `looks_latin1`. -/
def looksLatin1 (buf : List UInt8) : Bool × List ℕ := looksLike [.t, .i] [] buf

/-- `looks_extended`. -/
def looksExtended (buf : List UInt8) : Bool × List ℕ := looksLike [.t, .i, .x] [] buf

/-- `looks_utf8_with_BOM`; `ubuf` is what has been stored before. -/
def looksUtf8WithBom (buf : List UInt8) (ubuf : List ℕ) : ℤ × List ℕ :=
  if 3 < buf.length ∧ buf.take 3 = [0xef, 0xbb, 0xbf] then fileLooksUtf8 (buf.drop 3) else (-1, ubuf)

/-- The `unichar` of two bytes. -/
def unitOf (bigend : Bool) (b b' : UInt8) : ℕ := if bigend then b'.toNat + 256 * b.toNat else b.toNat + 256 * b'.toNat

/-- The loop of `looks_ucs16`; a last byte alone is left out. -/
def ucs16Loop (bigend : Bool) (ubuf : List ℕ) : List UInt8 → ℤ × List ℕ
  | [] => (if bigend then 2 else 1, ubuf)
  | [_] => (if bigend then 2 else 1, ubuf)
  | b :: b' :: buf =>
    if unitOf bigend b b' = 0xfffe then (0, ubuf ++ [unitOf bigend b b'])
    else if unitOf bigend b b' < 128 ∧ textChar (unitOf bigend b b') ≠ .t then (0, ubuf ++ [unitOf bigend b b'])
    else ucs16Loop bigend (ubuf ++ [unitOf bigend b b']) buf

/-- `looks_ucs16`; `ubuf` is what has been stored before. -/
def looksUcs16 (buf : List UInt8) (ubuf : List ℕ) : ℤ × List ℕ :=
  if buf.length < 2 then (0, ubuf)
  else if buf.take 2 = [0xff, 0xfe] then ucs16Loop false [] (buf.drop 2)
  else if buf.take 2 = [0xfe, 0xff] then ucs16Loop true [] (buf.drop 2)
  else (0, ubuf)

/-- `ebcdic_to_ascii`. -/
def ebcdicToAscii : List UInt8 :=
  [0, 1, 2, 3, 156, 9, 134, 127, 151, 141, 142, 11, 12, 13, 14, 15] ++
  [16, 17, 18, 19, 157, 133, 8, 135, 24, 25, 146, 143, 28, 29, 30, 31] ++
  [128, 129, 130, 131, 132, 10, 23, 27, 136, 137, 138, 139, 140, 5, 6, 7] ++
  [144, 145, 22, 147, 148, 149, 150, 4, 152, 153, 154, 155, 20, 21, 158, 26] ++
  [32, 160, 161, 162, 163, 164, 165, 166, 167, 168, 213, 46, 60, 40, 43, 124] ++
  [38, 169, 170, 171, 172, 173, 174, 175, 176, 177, 33, 36, 42, 41, 59, 126] ++
  [45, 47, 178, 179, 180, 181, 182, 183, 184, 185, 203, 44, 37, 95, 62, 63] ++
  [186, 187, 188, 189, 190, 191, 192, 193, 194, 96, 58, 35, 64, 39, 61, 34] ++
  [195, 97, 98, 99, 100, 101, 102, 103, 104, 105, 196, 197, 198, 199, 200, 201] ++
  [202, 106, 107, 108, 109, 110, 111, 112, 113, 114, 94, 204, 205, 206, 207, 208] ++
  [209, 229, 115, 116, 117, 118, 119, 120, 121, 122, 210, 211, 212, 91, 214, 215] ++
  [216, 217, 218, 219, 220, 221, 222, 223, 224, 225, 226, 227, 228, 93, 230, 231] ++
  [123, 65, 66, 67, 68, 69, 70, 71, 72, 73, 232, 233, 234, 235, 236, 237] ++
  [125, 74, 75, 76, 77, 78, 79, 80, 81, 82, 238, 239, 240, 241, 242, 243] ++
  [92, 159, 83, 84, 85, 86, 87, 88, 89, 90, 244, 245, 246, 247, 248, 249] ++
  [48, 49, 50, 51, 52, 53, 54, 55, 56, 57, 250, 251, 252, 253, 254, 255]

/-- The byte that a byte stands for in EBCDIC. -/
def fromEbcdicByte (b : UInt8) : UInt8 := ebcdicToAscii.getD b.toNat 0

/-- `from_ebcdic`. -/
def fromEbcdic (buf : List UInt8) : List UInt8 := buf.map fromEbcdicByte

/-- What `file_encoding` leaves behind its pointers, with its value; nothing where a pointer is not written. -/
structure Found where
  looksText : Bool
  code : Option String
  codeMime : Option String
  type : String
  ubuf : List ℕ

/-- What is left where a test has found a text. -/
def text (code codeMime : String) (ubuf : List ℕ) : Found := ⟨true, some code, some codeMime, "text", ubuf⟩

/-- `file_encoding` behind `looks_extended`. -/
def ebcdicTests (nbuf : List UInt8) : Found :=
  if (looksAscii nbuf).1 then text "EBCDIC" "ebcdic" (looksAscii nbuf).2
  else if (looksLatin1 nbuf).1 then text "International EBCDIC" "ebcdic" (looksLatin1 nbuf).2
  else ⟨false, none, none, "binary", (looksLatin1 nbuf).2⟩

/-- `file_encoding`. -/
def fileEncoding (buf : List UInt8) : Found :=
  let ascii := looksAscii buf
  let bom := looksUtf8WithBom buf ascii.2
  let utf8 := fileLooksUtf8 buf
  let ucs16 := looksUcs16 buf utf8.2
  if ascii.1 then text "ASCII" "us-ascii" ascii.2
  else if 0 < bom.1 then text "UTF-8 Unicode (with BOM)" "utf-8" bom.2
  else if 1 < utf8.1 then text "UTF-8 Unicode" "utf-8" utf8.2
  else if ucs16.1 ≠ 0 then
    if ucs16.1 = 1 then text "Little-endian UTF-16 Unicode" "utf-16le" ucs16.2
    else text "Big-endian UTF-16 Unicode" "utf-16be" ucs16.2
  else if (looksLatin1 buf).1 then text "ISO-8859" "iso-8859-1" (looksLatin1 buf).2
  else if (looksExtended buf).1 then text "Non-ISO extended-ASCII" "unknown-8bit" (looksExtended buf).2
  else ebcdicTests (fromEbcdic buf)

/-! ## Texts of a character set -/

/-- The character sets, in the order in which they are tried. -/
inductive Charset
  | ascii
  | utf8Bom
  | utf8
  | utf16le
  | utf16be
  | latin1
  | extended
  | ebcdic
  | international
deriving DecidableEq

namespace Charset

/-- The place of a character set in the order. -/
def rank : Charset → ℕ
  | ascii => 0
  | utf8Bom => 1
  | utf8 => 2
  | utf16le => 3
  | utf16be => 4
  | latin1 => 5
  | extended => 6
  | ebcdic => 7
  | international => 8

/-- `*code`. -/
def code : Charset → String
  | ascii => "ASCII"
  | utf8Bom => "UTF-8 Unicode (with BOM)"
  | utf8 => "UTF-8 Unicode"
  | utf16le => "Little-endian UTF-16 Unicode"
  | utf16be => "Big-endian UTF-16 Unicode"
  | latin1 => "ISO-8859"
  | extended => "Non-ISO extended-ASCII"
  | ebcdic => "EBCDIC"
  | international => "International EBCDIC"

/-- `*code_mime`. -/
def codeMime : Charset → String
  | ascii => "us-ascii"
  | utf8Bom => "utf-8"
  | utf8 => "utf-8"
  | utf16le => "utf-16le"
  | utf16be => "utf-16be"
  | latin1 => "iso-8859-1"
  | extended => "unknown-8bit"
  | ebcdic => "ebcdic"
  | international => "ebcdic"

end Charset

/-- Bytes below 128 are characters of a plain text. -/
def Plain (buf : List UInt8) : Prop := ∀ b ∈ buf, b.toNat < 0x80 → textChar b.toNat = .t

/-- The two bytes of a `unichar`. -/
def unitBytes (bigend : Bool) (u : ℕ) : List UInt8 :=
  if bigend then [.ofNat (u / 256), .ofNat (u % 256)] else [.ofNat (u % 256), .ofNat (u / 256)]

/-- The mark before a text in UTF-16. -/
def byteOrderMark (bigend : Bool) : List UInt8 := unitBytes bigend 0xfeff

/-- A `unichar` that `looks_ucs16` takes. -/
def IsUnit (u : ℕ) : Prop := u < 0x10000 ∧ u ≠ 0xfffe ∧ (u < 128 → textChar u = .t)

instance decidableIsUnit (u : ℕ) : Decidable (IsUnit u) := inferInstanceAs (Decidable (_ ∧ _ ∧ _))

/-- A text in UTF-16: a mark, its characters, and perhaps half of one. -/
def Utf16 (bigend : Bool) (buf : List UInt8) (us : List ℕ) : Prop :=
  ∃ half : List UInt8, buf = byteOrderMark bigend ++ us.flatMap (unitBytes bigend) ++ half ∧ half.length ≤ 1 ∧ ∀ u ∈ us, IsUnit u

/-- The bytes are characters of some kinds. -/
def OfKinds (kinds : List TextChar) (buf : List UInt8) (us : List ℕ) : Prop :=
  (∀ b ∈ buf, textChar b.toNat ∈ kinds) ∧ us = buf.map UInt8.toNat

/-- The buffer is a text of the character set, with these characters. -/
def Charset.Reads : Charset → List UInt8 → List ℕ → Prop
  | ascii, buf, us => OfKinds [.t] buf us
  | utf8Bom, buf, us => ∃ rest, buf = 0xef :: 0xbb :: 0xbf :: rest ∧ rest ≠ [] ∧ Text rest us ∧ Plain rest
  -- there is a character of more than one byte
  | utf8, buf, us => Text buf us ∧ Plain buf ∧ buf.countP (fun b => b.toNat < 0x80) < us.length
  | utf16le, buf, us => Utf16 false buf us
  | utf16be, buf, us => Utf16 true buf us
  | latin1, buf, us => OfKinds [.t, .i] buf us
  | extended, buf, us => OfKinds [.t, .i, .x] buf us
  | ebcdic, buf, us => OfKinds [.t] (fromEbcdic buf) us
  | international, buf, us => OfKinds [.t, .i] (fromEbcdic buf) us

/-! ## Bytes of some kinds -/

theorem textChar_eq {u : ℕ} (hu : u < 256) : textChars[u]? = some (textChar u) := by
  have hlength : textChars.length = 256 := by
    simp only [textChars, List.length_append, List.length_replicate, List.length_cons, List.length_nil]
  rw [textChar, List.getD_eq_getElem?_getD, List.getElem?_eq_getElem (hlength ▸ hu), Option.getD_some]

theorem textChar_mem {u : ℕ} (hu : u < 256) : (textChar u, u) ∈ textChars.zipIdx :=
  List.mk_mem_zipIdx_iff_getElem?.mpr (textChar_eq hu)

/-- The loop stores the bytes before the first one of another kind. -/
theorem looksLike_spec (kinds : List TextChar) (ubuf : List ℕ) (buf : List UInt8) :
    ((looksLike kinds ubuf buf).1 = true ∧ (∀ b ∈ buf, textChar b.toNat ∈ kinds) ∧
      (looksLike kinds ubuf buf).2 = ubuf ++ buf.map UInt8.toNat) ∨
    ((looksLike kinds ubuf buf).1 = false ∧ (∃ b ∈ buf, textChar b.toNat ∉ kinds) ∧
      ∃ pre, pre <+: buf ∧ (looksLike kinds ubuf buf).2 = ubuf ++ pre.map UInt8.toNat) := by
  induction buf generalizing ubuf with
  | nil => exact .inl ⟨rfl, fun b hb => absurd hb List.not_mem_nil, (List.append_nil _).symm⟩
  | cons b buf ih =>
    by_cases hb : textChar b.toNat ∈ kinds
    · rw [looksLike, if_pos hb]
      obtain ⟨h, hall, hstored⟩ | ⟨h, ⟨c, hc, hkind⟩, pre, hpre, hstored⟩ := ih (ubuf ++ [b.toNat])
      · exact .inl ⟨h, List.forall_mem_cons.mpr ⟨hb, hall⟩, by simpa using hstored⟩
      · exact .inr ⟨h, ⟨c, List.mem_cons_of_mem _ hc, hkind⟩, b :: pre, by simpa using hpre, by simpa using hstored⟩
    · rw [looksLike, if_neg hb]
      exact .inr ⟨rfl, ⟨b, List.mem_cons_self, hb⟩, [], List.nil_prefix, by simp⟩

/-- The loop finds a text, or there is none. -/
theorem looksLike_decides (kinds : List TextChar) (buf : List UInt8) :
    ((looksLike kinds [] buf).1 = true ∧ OfKinds kinds buf (looksLike kinds [] buf).2) ∨
      (looksLike kinds [] buf).1 = false ∧ ∀ us, ¬OfKinds kinds buf us := by
  obtain ⟨h, hall, hstored⟩ | ⟨h, ⟨b, hb, hkind⟩, -⟩ := looksLike_spec kinds [] buf
  · exact .inl ⟨h, hall, by simpa using hstored⟩
  · exact .inr ⟨h, fun us hus => hkind (hus.1 b hb)⟩

/-- What the loop stores are bytes, and no more than there are. -/
theorem looksLike_stored (kinds : List TextChar) (buf : List UInt8) :
    (looksLike kinds [] buf).2.length ≤ buf.length ∧ ∀ u ∈ (looksLike kinds [] buf).2, u < 256 := by
  have hbytes : ∀ pre : List UInt8, pre <+: buf → (pre.map UInt8.toNat).length ≤ buf.length ∧
      ∀ u ∈ pre.map UInt8.toNat, u < 256 := by
    intro pre hpre
    constructor
    · rw [List.length_map]
      exact hpre.length_le
    · intro u hu
      obtain ⟨b, -, rfl⟩ := List.mem_map.mp hu
      exact b.toNat_lt
  obtain ⟨-, -, hstored⟩ | ⟨-, -, pre, hpre, hstored⟩ := looksLike_spec kinds [] buf
  · rw [hstored]
    exact hbytes buf List.prefix_rfl
  · rw [hstored]
    exact hbytes pre hpre

/-! ## What `file_looks_utf8` returns -/

section

variable {n c : ℕ} {b : UInt8} {ts bs buf rest : List UInt8} {us : List ℕ}

theorem followLoop_append (hts : ∀ t ∈ ts, IsTail t) : followLoop ts.length c (ts ++ rest) = .char (value c ts) rest := by
  induction ts generalizing c with
  | nil => rfl
  | cons t ts ih =>
    obtain ⟨ht, hts⟩ := List.forall_mem_cons.mp hts
    rw [List.length_cons, List.cons_append, followLoop, if_neg (by rwa [tail_tests, not_not]), ih hts, tail_bits ht,
      Nat.shiftLeft_eq, Nat.mul_comm, value, value, List.foldl_cons]

theorem followLoop_cut (hlt : ts.length < n) (hts : ∀ t ∈ ts, IsTail t) : followLoop n c ts = .done := by
  induction ts generalizing c n with
  | nil =>
    obtain ⟨n, rfl⟩ := Nat.exists_eq_succ_of_ne_zero (Nat.ne_of_gt hlt)
    rfl
  | cons t ts ih =>
    obtain ⟨ht, hts⟩ := List.forall_mem_cons.mp hts
    rw [List.length_cons] at hlt
    obtain ⟨n, rfl⟩ := Nat.exists_eq_succ_of_ne_zero (Nat.ne_of_gt (Nat.lt_of_le_of_lt (Nat.zero_le _) hlt))
    rw [followLoop, if_neg (by rwa [tail_tests, not_not])]
    exact ih (by omega) hts

/-- What is tested of a first byte, and what is set at it. -/
theorem following_lead (hb : IsLead n b) : ¬b &&& 0x80 = 0 ∧ ¬b &&& 0x40 = 0 ∧ following b = some (leadValue n b, n) := by
  have hge := hb.ge
  have h80 : ¬b.toNat < 0x80 := hb.not_ascii
  refine ⟨mt (bits_tests b).1.mp h80, mt ((bits_tests b).2 (by omega)).mp (by omega), ?_⟩
  obtain ⟨n', hsome, hlead⟩ | ⟨-, hfe⟩ := following_spec hge
  · obtain rfl := hb.unique hlead
    exact hsome
  · have := hb.lt
    omega

theorem looksLoop_sequence (st : Looks) (hb : IsLead ts.length b) (hts : ∀ t ∈ ts, IsTail t) : looksLoop st (b :: (ts ++ rest)) =
    looksLoop { st with gotone := true, ubuf := st.ubuf ++ [value (leadValue ts.length b) ts] } rest := by
  obtain ⟨h80, h40, hsome⟩ := following_lead hb
  have hloop : followLoop ts.length (leadValue ts.length b) (ts ++ rest) = .char (value (leadValue ts.length b) ts) rest :=
    followLoop_append hts
  rw [looksLoop, if_neg h80, if_neg h40]
  simp only [hsome]
  split
  · next h => rw [hloop] at h; cases h
  · next h => rw [hloop] at h; cases h
  · next h => rw [hloop] at h; cases h; rfl

theorem looksLoop_cut (st : Looks) (hb : IsLead n b) (hlt : ts.length < n) (hts : ∀ t ∈ ts, IsTail t) :
    looksLoop st (b :: ts) = (st.result, st.ubuf) := by
  obtain ⟨h80, h40, hsome⟩ := following_lead hb
  have hloop := followLoop_cut (c := leadValue n b) hlt hts
  rw [looksLoop, if_neg h80, if_neg h40]
  simp only [hsome]
  split
  · next h => rw [hloop] at h; cases h
  · rfl
  · next h => rw [hloop] at h; cases h

theorem plain_cons : Plain (b :: buf) ↔ (b.toNat < 0x80 → textChar b.toNat = .t) ∧ Plain buf := List.forall_mem_cons

theorem plain_append (hbs : ∀ c ∈ bs, ¬c.toNat < 0x80) : Plain (bs ++ rest) ↔ Plain rest := by
  constructor
  · exact fun h c hc => h c (List.mem_append_right bs hc)
  · intro h c hc hlt
    obtain hc | hc := List.mem_append.mp hc
    · exact absurd hlt (hbs c hc)
    · exact h c hc hlt

/-- Both flags behind the loop, where the buffer is a text. -/
theorem looksLoop_flags (h : Text buf us) (st : Looks) : ∃ ctrl gotone, (looksLoop st buf).1 = Looks.result ⟨ctrl, gotone, []⟩ ∧
    (ctrl = true ↔ st.ctrl = true ∨ ¬Plain buf) ∧
    (gotone = true ↔ st.gotone = true ∨ buf.countP (fun b => b.toNat < 0x80) < us.length) := by
  induction h generalizing st with
  | nil => exact ⟨st.ctrl, st.gotone, by rw [looksLoop]; rfl, by simp [Plain], by simp⟩
  | cut hlead hlt htails =>
    refine ⟨st.ctrl, st.gotone, by rw [looksLoop_cut st hlead hlt htails]; rfl, ?_, by simp⟩
    have hplain : Plain (_ ++ []) :=
      (plain_append (sequence_not_ascii hlead htails)).mpr fun c hc => absurd hc List.not_mem_nil
    rw [List.append_nil] at hplain
    simp [hplain]
  | @ascii b bs us hb _ ih =>
    obtain ⟨ctrl, gotone, hvalue, hctrl, hgotone⟩ :=
      ih { st with ctrl := st.ctrl || textChars[b.toNat]? ≠ some .t, ubuf := st.ubuf ++ [b.toNat] }
    refine ⟨ctrl, gotone, ?_, ?_, ?_⟩
    · rw [looksLoop, if_pos ((bits_tests b).1.mpr hb)]
      exact hvalue
    · rw [hctrl, plain_cons, textChar_eq b.toNat_lt]
      simp [hb]
      tauto
    · rw [hgotone, List.countP_cons_of_pos (by simpa using hb), List.length_cons, Nat.add_lt_add_iff_right]
  | sequence hlead hlength htails h ih =>
    subst hlength
    obtain ⟨ctrl, gotone, hvalue, hctrl, hgotone⟩ := ih _
    refine ⟨ctrl, gotone, by rw [looksLoop_sequence st hlead htails]; exact hvalue, ?_, ?_⟩
    · rw [hctrl, ← List.cons_append, plain_append (sequence_not_ascii hlead htails)]
    · have hle := h.countP_le
      have hlt := Nat.lt_succ_of_le hle
      rw [hgotone, ← List.cons_append, List.countP_append, countP_sequence hlead htails, Nat.zero_add, List.length_cons]
      simp [hlt]

/-- What is returned for a text. -/
theorem fileLooksUtf8_pos (h : Text buf us) : (0 < (fileLooksUtf8 buf).1 ↔ Plain buf) ∧
    (1 < (fileLooksUtf8 buf).1 ↔ Plain buf ∧ buf.countP (fun b => b.toNat < 0x80) < us.length) := by
  obtain ⟨ctrl, gotone, hvalue, hctrl, hgotone⟩ := looksLoop_flags h ⟨false, false, []⟩
  simp only [Bool.false_eq_true, false_or] at hctrl hgotone
  rw [fileLooksUtf8, hvalue, Looks.result, ← hgotone, ← not_iff_not.mpr hctrl |>.trans not_not]
  cases ctrl <;> cases gotone <;> simp

end

/-! ## Texts in UTF-8 -/

section

variable {buf rest : List UInt8} {us : List ℕ}

theorem looksUtf8WithBom_decides (buf : List UInt8) (ubuf : List ℕ) :
    (0 < (looksUtf8WithBom buf ubuf).1 ∧ Charset.utf8Bom.Reads buf (looksUtf8WithBom buf ubuf).2) ∨
      ¬0 < (looksUtf8WithBom buf ubuf).1 ∧ ∀ us, ¬Charset.utf8Bom.Reads buf us := by
  rw [looksUtf8WithBom]
  by_cases hmark : 3 < buf.length ∧ buf.take 3 = [0xef, 0xbb, 0xbf]
  · rw [if_pos hmark]
    have hbuf : buf = 0xef :: 0xbb :: 0xbf :: buf.drop 3 := by
      conv_lhs => rw [← List.take_append_drop 3 buf, hmark.2]
      rfl
    have hrest : buf.drop 3 ≠ [] := by
      rw [Ne, List.drop_eq_nil_iff]
      omega
    generalize buf.drop 3 = rest at hbuf hrest
    have hreads : ∀ us, Charset.utf8Bom.Reads buf us → Text rest us ∧ Plain rest := by
      rintro us ⟨rest', heq, -, htext, hplain⟩
      rw [hbuf] at heq
      simp only [List.cons.injEq, true_and] at heq
      exact heq ▸ ⟨htext, hplain⟩
    by_cases htext : ∃ us, Text rest us
    · obtain ⟨us, htext⟩ := htext
      by_cases hplain : Plain rest
      · refine .inl ⟨(fileLooksUtf8_pos htext).1.mpr hplain, rest, hbuf, hrest, ?_, hplain⟩
        rwa [(fileLooksUtf8_text htext).2]
      · exact .inr ⟨mt (fileLooksUtf8_pos htext).1.mp hplain, fun us' h => hplain (hreads us' h).2⟩
    · have hvalue := (fileLooksUtf8_refused rest).mpr htext
      exact .inr ⟨by omega, fun us h => htext ⟨us, (hreads us h).1⟩⟩
  · rw [if_neg hmark]
    refine .inr ⟨Int.not_lt.mpr (by decide : (-1 : ℤ) ≤ 0), ?_⟩
    rintro us ⟨rest, rfl, hrest, -⟩
    have hpos := List.length_pos_iff.mpr hrest
    exact hmark ⟨by simpa using hpos, rfl⟩

theorem fileLooksUtf8_decides (buf : List UInt8) :
    (1 < (fileLooksUtf8 buf).1 ∧ Charset.utf8.Reads buf (fileLooksUtf8 buf).2) ∨
      ¬1 < (fileLooksUtf8 buf).1 ∧ ∀ us, ¬Charset.utf8.Reads buf us := by
  by_cases htext : ∃ us, Text buf us
  · obtain ⟨us, htext⟩ := htext
    have hpos := (fileLooksUtf8_pos htext).2
    by_cases hvalue : 1 < (fileLooksUtf8 buf).1
    · refine .inl ⟨hvalue, ?_⟩
      rw [(fileLooksUtf8_text htext).2]
      exact ⟨htext, hpos.mp hvalue⟩
    · refine .inr ⟨hvalue, ?_⟩
      rintro us' ⟨htext', hplain⟩
      rw [htext'.unique htext] at hplain
      exact hvalue (hpos.mpr hplain)
  · have hvalue := (fileLooksUtf8_refused buf).mpr htext
    exact .inr ⟨by omega, fun us h => htext ⟨us, h.1⟩⟩

end

/-! ## Texts in UTF-16 -/

section

variable {bigend : Bool} {u : ℕ} {b b' : UInt8} {buf half : List UInt8} {us : List ℕ}

theorem unitOf_lt (bigend : Bool) (b b' : UInt8) : unitOf bigend b b' < 0x10000 := by
  have hb := b.toNat_lt
  have hb' := b'.toNat_lt
  rw [unitOf]
  split <;> omega

/-- The bytes of a `unichar`, and the `unichar` of these bytes. -/
theorem unitBytes_unitOf (bigend : Bool) (b b' : UInt8) : unitBytes bigend (unitOf bigend b b') = [b, b'] := by
  have hdiv : ∀ c d : UInt8, UInt8.ofNat ((c.toNat + 256 * d.toNat) / 256) = d := by
    intro c d
    have hc := c.toNat_lt
    rw [show (c.toNat + 256 * d.toNat) / 256 = d.toNat by omega, UInt8.ofNat_toNat]
  have hmod : ∀ c d : UInt8, UInt8.ofNat ((c.toNat + 256 * d.toNat) % 256) = c := by
    intro c d
    have hc := c.toNat_lt
    rw [show (c.toNat + 256 * d.toNat) % 256 = c.toNat by omega, UInt8.ofNat_toNat]
  cases bigend
  · simp only [unitBytes, unitOf, Bool.false_eq_true, if_false, hdiv, hmod]
  · simp only [unitBytes, unitOf, if_true, hdiv, hmod]

theorem unitOf_unitBytes (hu : u < 0x10000) (h : unitBytes bigend u = [b, b']) : unitOf bigend b b' = u := by
  have hhi : (UInt8.ofNat (u / 256)).toNat = u / 256 := UInt8.toNat_ofNat_of_lt' (by rw [UInt8.size]; omega)
  have hlo : (UInt8.ofNat (u % 256)).toNat = u % 256 := UInt8.toNat_ofNat_of_lt' (by rw [UInt8.size]; omega)
  cases bigend
  · simp only [unitBytes, Bool.false_eq_true, if_false, List.cons.injEq, and_true] at h
    obtain ⟨rfl, rfl⟩ := h
    simp only [unitOf, Bool.false_eq_true, if_false, hhi, hlo]
    omega
  · simp only [unitBytes, if_true, List.cons.injEq, and_true] at h
    obtain ⟨rfl, rfl⟩ := h
    simp only [unitOf, if_true, hhi, hlo]
    omega

/-- The bytes of these characters, and perhaps one more. -/
def Units (bigend : Bool) (buf : List UInt8) (us : List ℕ) : Prop :=
  ∃ half : List UInt8, buf = us.flatMap (unitBytes bigend) ++ half ∧ half.length ≤ 1 ∧ ∀ u ∈ us, IsUnit u

theorem length_unitBytes (bigend : Bool) (u : ℕ) : (unitBytes bigend u).length = 2 := by
  rw [unitBytes]
  split <;> rfl

theorem units_short (h : buf.length ≤ 1) : Units bigend buf us ↔ us = [] := by
  constructor
  · rintro ⟨half, rfl, -, -⟩
    cases us with
    | nil => rfl
    | cons u us =>
      simp only [List.flatMap_cons, List.length_append, length_unitBytes] at h
      omega
  · rintro rfl
    exact ⟨buf, rfl, h, fun u hu => absurd hu List.not_mem_nil⟩

theorem units_cons : Units bigend (b :: b' :: buf) us ↔
    ∃ us', us = unitOf bigend b b' :: us' ∧ IsUnit (unitOf bigend b b') ∧ Units bigend buf us' := by
  constructor
  · rintro ⟨half, heq, hhalf, hus⟩
    cases us with
    | nil =>
      rw [List.flatMap_nil, List.nil_append] at heq
      rw [← heq, List.length_cons, List.length_cons] at hhalf
      omega
    | cons u us =>
      obtain ⟨hu, hus⟩ := List.forall_mem_cons.mp hus
      rw [List.flatMap_cons, List.append_assoc] at heq
      replace heq : [b, b'] ++ buf = unitBytes bigend u ++ (us.flatMap (unitBytes bigend) ++ half) := heq
      obtain ⟨hbytes, hrest⟩ := List.append_inj heq (length_unitBytes _ _).symm
      have hunit := unitOf_unitBytes hu.1 hbytes.symm
      exact ⟨us, by rw [hunit], hunit ▸ hu, half, hrest, hhalf, hus⟩
  · rintro ⟨us', rfl, hu, half, rfl, hhalf, hus⟩
    refine ⟨half, ?_, hhalf, List.forall_mem_cons.mpr ⟨hu, hus⟩⟩
    rw [List.flatMap_cons, unitBytes_unitOf]
    rfl

/-- The loop stores the characters, or there is one that it does not take. -/
theorem ucs16Loop_spec (bigend : Bool) (ubuf : List ℕ) (buf : List UInt8) :
    (∃ us, Units bigend buf us ∧ ucs16Loop bigend ubuf buf = (if bigend then 2 else 1, ubuf ++ us)) ∨
      (ucs16Loop bigend ubuf buf).1 = 0 ∧ ∀ us, ¬Units bigend buf us := by
  fun_induction ucs16Loop bigend ubuf buf with
  | case1 ubuf => exact .inl ⟨[], (units_short (by simp)).mpr rfl, by rw [List.append_nil]⟩
  | case2 ubuf b => exact .inl ⟨[], (units_short (by simp)).mpr rfl, by rw [List.append_nil]⟩
  | case3 ubuf b b' buf hmark =>
    refine .inr ⟨rfl, fun us h => ?_⟩
    obtain ⟨-, -, hu, -⟩ := units_cons.mp h
    exact hu.2.1 hmark
  | case4 ubuf b b' buf _ hkind =>
    refine .inr ⟨rfl, fun us h => ?_⟩
    obtain ⟨-, -, hu, -⟩ := units_cons.mp h
    exact hkind.2 (hu.2.2 hkind.1)
  | case5 ubuf b b' buf hmark hkind ih =>
    obtain ⟨us, hunits, heq⟩ | ⟨hvalue, hno⟩ := ih
    · refine .inl ⟨unitOf bigend b b' :: us, units_cons.mpr ⟨us, rfl, ⟨unitOf_lt _ _ _, hmark, ?_⟩, hunits⟩, ?_⟩
      · intro hlt
        exact not_not.mp fun hne => hkind ⟨hlt, hne⟩
      · rw [heq, List.append_assoc, List.singleton_append]
    · refine .inr ⟨hvalue, fun us h => ?_⟩
      obtain ⟨us', -, -, hunits⟩ := units_cons.mp h
      exact hno us' hunits

theorem utf16_iff : Utf16 bigend buf us ↔ buf.take 2 = byteOrderMark bigend ∧ Units bigend (buf.drop 2) us := by
  have hlength : (byteOrderMark bigend).length = 2 := length_unitBytes _ _
  constructor
  · rintro ⟨half, rfl, hhalf, hus⟩
    rw [List.append_assoc, List.take_left' hlength, List.drop_left' hlength]
    exact ⟨rfl, half, rfl, hhalf, hus⟩
  · rintro ⟨hmark, half, hrest, hhalf, hus⟩
    refine ⟨half, ?_, hhalf, hus⟩
    rw [List.append_assoc, ← hrest, ← hmark, List.take_append_drop]

theorem byteOrderMark_false : byteOrderMark false = [0xff, 0xfe] := by decide

theorem byteOrderMark_true : byteOrderMark true = [0xfe, 0xff] := by decide

/-- A text in UTF-16, with the order of its bytes, or none. -/
theorem looksUcs16_decides (buf : List UInt8) (ubuf : List ℕ) :
    ((looksUcs16 buf ubuf).1 = 1 ∧ Utf16 false buf (looksUcs16 buf ubuf).2) ∨
    ((looksUcs16 buf ubuf).1 = 2 ∧ (∀ us, ¬Utf16 false buf us) ∧ Utf16 true buf (looksUcs16 buf ubuf).2) ∨
    ((looksUcs16 buf ubuf).1 = 0 ∧ (∀ us, ¬Utf16 false buf us) ∧ ∀ us, ¬Utf16 true buf us) := by
  simp only [utf16_iff, byteOrderMark_false, byteOrderMark_true]
  rw [looksUcs16]
  by_cases hshort : buf.length < 2
  · have htake : ∀ l : List UInt8, l.length = 2 → buf.take 2 ≠ l := by
      rintro l hl rfl
      rw [List.length_take] at hl
      omega
    rw [if_pos hshort]
    exact .inr (.inr ⟨rfl, fun us h => htake _ rfl h.1, fun us h => htake _ rfl h.1⟩)
  rw [if_neg hshort]
  by_cases hle : buf.take 2 = [0xff, 0xfe]
  · have hbe : buf.take 2 ≠ [0xfe, 0xff] := by
      rw [hle]
      decide
    rw [if_pos hle]
    obtain ⟨us, hunits, heq⟩ | ⟨hvalue, hno⟩ := ucs16Loop_spec false [] (buf.drop 2)
    · rw [heq]
      exact .inl ⟨rfl, hle, hunits⟩
    · exact .inr (.inr ⟨hvalue, fun us h => hno us h.2, fun us h => hbe h.1⟩)
  rw [if_neg hle]
  by_cases hbe : buf.take 2 = [0xfe, 0xff]
  · rw [if_pos hbe]
    obtain ⟨us, hunits, heq⟩ | ⟨hvalue, hno⟩ := ucs16Loop_spec true [] (buf.drop 2)
    · rw [heq]
      exact .inr (.inl ⟨rfl, fun us h => hle h.1, hbe, hunits⟩)
    · exact .inr (.inr ⟨hvalue, fun us h => hle h.1, fun us h => hno us h.2⟩)
  · rw [if_neg hbe]
    exact .inr (.inr ⟨rfl, fun us h => hle h.1, fun us h => hbe h.1⟩)

end

/-! ## What is found -/

namespace Charset

/-- No character set before this place has the buffer as a text. -/
def NoneBefore (n : ℕ) (buf : List UInt8) : Prop := ∀ cs : Charset, cs.rank < n → ∀ us, ¬cs.Reads buf us

theorem rank_injective {cs cs' : Charset} (h : cs.rank = cs'.rank) : cs = cs' := by
  cases cs <;> cases cs' <;> first | rfl | exact absurd h (by decide)

theorem rank_lt (cs : Charset) : cs.rank < 9 := by
  cases cs <;> decide

theorem noneBefore_zero (buf : List UInt8) : NoneBefore 0 buf := fun _ h => absurd h (Nat.not_lt_zero _)

theorem NoneBefore.next (cs : Charset) {buf : List UInt8} (h : NoneBefore cs.rank buf) (hno : ∀ us, ¬cs.Reads buf us) :
    NoneBefore (cs.rank + 1) buf := by
  intro cs' hlt us
  obtain hlt | heq := Nat.lt_succ_iff_lt_or_eq.mp hlt
  · exact h cs' hlt us
  · exact rank_injective heq ▸ hno us

end Charset

/-- The first character set in which the buffer is a text is found, with the characters; where there is none, the buffer is said to
be binary. -/
theorem fileEncoding_first (buf : List UInt8) :
    (∃ (cs : Charset) (us : List ℕ), cs.Reads buf us ∧ Charset.NoneBefore cs.rank buf ∧
      fileEncoding buf = text cs.code cs.codeMime us) ∨
    (∀ (cs : Charset) us, ¬cs.Reads buf us) ∧
      fileEncoding buf = ⟨false, none, none, "binary", (looksLatin1 (fromEbcdic buf)).2⟩ := by
  have hascii : ((looksAscii buf).1 = true ∧ Charset.ascii.Reads buf (looksAscii buf).2) ∨
      (looksAscii buf).1 = false ∧ ∀ us, ¬Charset.ascii.Reads buf us := looksLike_decides [.t] buf
  have hlatin1 : ((looksLatin1 buf).1 = true ∧ Charset.latin1.Reads buf (looksLatin1 buf).2) ∨
      (looksLatin1 buf).1 = false ∧ ∀ us, ¬Charset.latin1.Reads buf us := looksLike_decides [.t, .i] buf
  have hextended : ((looksExtended buf).1 = true ∧ Charset.extended.Reads buf (looksExtended buf).2) ∨
      (looksExtended buf).1 = false ∧ ∀ us, ¬Charset.extended.Reads buf us := looksLike_decides [.t, .i, .x] buf
  have hebcdic : ((looksAscii (fromEbcdic buf)).1 = true ∧ Charset.ebcdic.Reads buf (looksAscii (fromEbcdic buf)).2) ∨
      (looksAscii (fromEbcdic buf)).1 = false ∧ ∀ us, ¬Charset.ebcdic.Reads buf us := looksLike_decides [.t] (fromEbcdic buf)
  have hinternational :
      ((looksLatin1 (fromEbcdic buf)).1 = true ∧ Charset.international.Reads buf (looksLatin1 (fromEbcdic buf)).2) ∨
      (looksLatin1 (fromEbcdic buf)).1 = false ∧ ∀ us, ¬Charset.international.Reads buf us :=
    looksLike_decides [.t, .i] (fromEbcdic buf)
  have hbefore := Charset.noneBefore_zero buf
  obtain ⟨h0, hreads⟩ | ⟨h0, hno⟩ := hascii
  · exact .inl ⟨.ascii, _, hreads, hbefore, by simp only [fileEncoding, h0, if_true]; rfl⟩
  replace hbefore := Charset.NoneBefore.next .ascii hbefore hno
  obtain ⟨h1, hreads⟩ | ⟨h1, hno⟩ := looksUtf8WithBom_decides buf (looksAscii buf).2
  · exact .inl ⟨.utf8Bom, _, hreads, hbefore, by simp only [fileEncoding, h0, h1, Bool.false_eq_true, if_true, if_false]; rfl⟩
  replace hbefore := Charset.NoneBefore.next .utf8Bom hbefore hno
  obtain ⟨h2, hreads⟩ | ⟨h2, hno⟩ := fileLooksUtf8_decides buf
  · exact .inl ⟨.utf8, _, hreads, hbefore, by simp only [fileEncoding, h0, h1, h2, Bool.false_eq_true, if_true, if_false]; rfl⟩
  replace hbefore := Charset.NoneBefore.next .utf8 hbefore hno
  obtain ⟨h3, hreads⟩ | ⟨h3, hle, hreads⟩ | ⟨h3, hle, hbe⟩ := looksUcs16_decides buf (fileLooksUtf8 buf).2
  · refine .inl ⟨.utf16le, _, hreads, hbefore, ?_⟩
    simp only [fileEncoding, h0, h1, h2, h3, ne_eq, Bool.false_eq_true, if_true, if_false]
    rfl
  · have hne : (looksUcs16 buf (fileLooksUtf8 buf).2).1 ≠ 0 := by omega
    have hne1 : (looksUcs16 buf (fileLooksUtf8 buf).2).1 ≠ 1 := by omega
    refine .inl ⟨.utf16be, _, hreads, Charset.NoneBefore.next .utf16le hbefore hle, ?_⟩
    simp only [fileEncoding, h0, h1, h2, hne, hne1, ne_eq, not_false_eq_true, Bool.false_eq_true, if_true, if_false]
    rfl
  replace hbefore := Charset.NoneBefore.next .utf16be (Charset.NoneBefore.next .utf16le hbefore hle) hbe
  obtain ⟨h4, hreads⟩ | ⟨h4, hno⟩ := hlatin1
  · refine .inl ⟨.latin1, _, hreads, hbefore, ?_⟩
    simp only [fileEncoding, h0, h1, h2, h3, h4, ne_eq, not_true_eq_false, Bool.false_eq_true, if_true, if_false]
    rfl
  replace hbefore := Charset.NoneBefore.next .latin1 hbefore hno
  obtain ⟨h5, hreads⟩ | ⟨h5, hno⟩ := hextended
  · refine .inl ⟨.extended, _, hreads, hbefore, ?_⟩
    simp only [fileEncoding, h0, h1, h2, h3, h4, h5, ne_eq, not_true_eq_false, Bool.false_eq_true, if_true, if_false]
    rfl
  replace hbefore := Charset.NoneBefore.next .extended hbefore hno
  have hebcdicTests : fileEncoding buf = ebcdicTests (fromEbcdic buf) := by
    simp only [fileEncoding, h0, h1, h2, h3, h4, h5, ne_eq, not_true_eq_false, Bool.false_eq_true, if_false]
  rw [hebcdicTests]
  obtain ⟨h6, hreads⟩ | ⟨h6, hno⟩ := hebcdic
  · exact .inl ⟨.ebcdic, _, hreads, hbefore, by simp only [ebcdicTests, h6, if_true]; rfl⟩
  replace hbefore := Charset.NoneBefore.next .ebcdic hbefore hno
  obtain ⟨h7, hreads⟩ | ⟨h7, hno⟩ := hinternational
  · exact .inl ⟨.international, _, hreads, hbefore, by simp only [ebcdicTests, h6, h7, Bool.false_eq_true, if_true, if_false]; rfl⟩
  replace hbefore := Charset.NoneBefore.next .international hbefore hno
  exact .inr ⟨fun cs => hbefore cs cs.rank_lt, by simp only [ebcdicTests, h6, h7, Bool.false_eq_true, if_false]⟩

/-! ## Transcoding -/

section

variable {cs : Charset} {kinds : List TextChar} {bigend : Bool} {b : UInt8} {buf bytes : List UInt8} {us us' : List ℕ}

/-- A character below 128 that is in a text is in a plain one. -/
theorem kind_of_lt (u : ℕ) (hu : u < 128) : textChar u ≠ .i ∧ textChar u ≠ .x := by
  have hall : ∀ p ∈ textChars.zipIdx, p.2 < 128 → p.1 ≠ .i ∧ p.1 ≠ .x := by decide +kernel
  exact hall _ (textChar_mem (by omega)) hu

/-- A character that is in no text is below 128. -/
theorem lt_of_kind (b : UInt8) (hb : textChar b.toNat = .f) : b.toNat < 0x80 := by
  have hall : ∀ p ∈ textChars.zipIdx, p.1 = .f → p.2 < 0x80 := by decide +kernel
  exact hall _ (textChar_mem b.toNat_lt) hb

/-- What `encode_utf8` can write, and what it makes a plain text of. -/
structure Encodable (us : List ℕ) (n : ℕ) : Prop where
  length_le : us.length ≤ n
  lt : ∀ u ∈ us, u < 2 ^ 31

theorem encodable_map (buf : List UInt8) : Encodable (buf.map UInt8.toNat) buf.length := by
  refine ⟨Nat.le_of_eq (List.length_map _), fun u hu => ?_⟩
  obtain ⟨b, -, rfl⟩ := List.mem_map.mp hu
  exact Nat.lt_trans b.toNat_lt (by decide)

theorem length_flatMap_unitBytes (bigend : Bool) (us : List ℕ) : (us.flatMap (unitBytes bigend)).length = 2 * us.length := by
  induction us with
  | nil => rfl
  | cons u us ih =>
    rw [List.flatMap_cons, List.length_append, length_unitBytes, ih, List.length_cons]
    omega

theorem Utf16.encodable (h : Utf16 bigend buf us) : Encodable us buf.length := by
  obtain ⟨half, rfl, -, hus⟩ := h
  constructor
  · rw [List.length_append, List.length_append, length_flatMap_unitBytes]
    omega
  · exact fun u hu => Nat.lt_trans (hus u hu).1 (by decide)

theorem Charset.Reads.encodable (h : cs.Reads buf us) : Encodable us buf.length := by
  have hebcdic : (fromEbcdic buf).length = buf.length := List.length_map _
  cases cs with
  | ascii => exact h.2 ▸ encodable_map buf
  | utf8Bom =>
    obtain ⟨rest, rfl, -, htext, -⟩ := h
    have hle := htext.length_le
    exact ⟨by simp only [List.length_cons]; omega, htext.lt⟩
  | utf8 => exact ⟨h.1.length_le, h.1.lt⟩
  | utf16le => exact Utf16.encodable h
  | utf16be => exact Utf16.encodable h
  | latin1 => exact h.2 ▸ encodable_map buf
  | extended => exact h.2 ▸ encodable_map buf
  | ebcdic => exact hebcdic ▸ h.2 ▸ encodable_map (fromEbcdic buf)
  | international => exact hebcdic ▸ h.2 ▸ encodable_map (fromEbcdic buf)

theorem OfKinds.plain (h : OfKinds kinds buf us) (hf : .f ∉ kinds) : ∀ u ∈ us, u < 128 → textChar u = .t := by
  obtain ⟨hall, rfl⟩ := h
  intro u hu hlt
  obtain ⟨b, hb, rfl⟩ := List.mem_map.mp hu
  obtain ⟨hi, hx⟩ := kind_of_lt b.toNat hlt
  have hkind := hall b hb
  cases hchar : textChar b.toNat with
  | f => exact absurd (hchar ▸ hkind) hf
  | t => rfl
  | i => exact absurd hchar hi
  | x => exact absurd hchar hx

/-- The characters below 128 are those of a plain text, but for sequences of bytes that are longer than they have to be. -/
theorem Charset.Reads.plain (h : cs.Reads buf us) (hmime : cs.codeMime ≠ "utf-8") : ∀ u ∈ us, u < 128 → textChar u = .t := by
  have hutf16 : ∀ {bigend}, Utf16 bigend buf us → ∀ u ∈ us, u < 128 → textChar u = .t := by
    rintro bigend ⟨half, -, -, hus⟩ u hu
    exact (hus u hu).2.2
  cases cs with
  | ascii => exact h.plain (by decide)
  | utf8Bom => exact absurd rfl hmime
  | utf8 => exact absurd rfl hmime
  | utf16le => exact hutf16 h
  | utf16be => exact hutf16 h
  | latin1 => exact h.plain (by decide)
  | extended => exact h.plain (by decide)
  | ebcdic => exact h.plain (by decide)
  | international => exact h.plain (by decide)

end

/-- No more characters are stored than there are bytes, and `encode_utf8` makes a text in UTF-8 of them, with room for six bytes
for each. Where the buffer is a text in another character set than UTF-8, that one is a plain text. -/
theorem fileEncoding_transcodes (buf : List UInt8) : (fileEncoding buf).ubuf.length ≤ buf.length ∧
    ∃ bytes, encodeUtf8 (6 * (fileEncoding buf).ubuf.length) (fileEncoding buf).ubuf = some bytes ∧
      (fileLooksUtf8 bytes).1 ≠ -1 ∧ (fileLooksUtf8 bytes).2 = (fileEncoding buf).ubuf ∧
      ((fileEncoding buf).looksText = true → (fileEncoding buf).codeMime ≠ some "utf-8" → 0 < (fileLooksUtf8 bytes).1) := by
  have hencode : ∀ us : List ℕ, Encodable us buf.length → ∃ bytes, encodeUtf8 (6 * us.length) us = some bytes ∧ Text bytes us :=
    fun us h => encodeUtf8_text us (fun u hu => Nat.le_of_lt_succ (h.lt u hu)) _ (Nat.le_refl _)
  obtain ⟨cs, us, hreads, -, heq⟩ | ⟨-, heq⟩ := fileEncoding_first buf
  · obtain ⟨bytes, hbytes, htext⟩ := hencode us hreads.encodable
    rw [heq]
    refine ⟨hreads.encodable.length_le, bytes, hbytes, (fileLooksUtf8_text htext).1, (fileLooksUtf8_text htext).2, ?_⟩
    intro _ hmime
    apply (fileLooksUtf8_pos htext).1.mpr
    intro b hb hlt
    exact hreads.plain (fun h => hmime (congrArg some h)) b.toNat (htext.mem_of_ascii hb hlt) hlt
  · obtain ⟨hlength, hlt⟩ := looksLike_stored [.t, .i] (fromEbcdic buf)
    have hle : (looksLatin1 (fromEbcdic buf)).2.length ≤ buf.length := by
      rw [fromEbcdic, List.length_map] at hlength
      exact hlength
    obtain ⟨bytes, hbytes, htext⟩ := hencode _ ⟨hle, fun u hu => Nat.lt_trans (hlt u hu) (by decide)⟩
    rw [heq]
    exact ⟨hle, bytes, hbytes, (fileLooksUtf8_text htext).1, (fileLooksUtf8_text htext).2, fun h => by cases h⟩

/-! ## Texts that are read back -/

section

variable {cs : Charset} {bigend : Bool} {b : UInt8} {buf : List UInt8} {us us' : List ℕ}

/-- A text of a character set, where no earlier one has it. -/
theorem fileEncoding_of_reads (h : cs.Reads buf us) (hbefore : Charset.NoneBefore cs.rank buf) :
    ∃ us', cs.Reads buf us' ∧ fileEncoding buf = text cs.code cs.codeMime us' := by
  obtain ⟨cs', us', hreads, hbefore', heq⟩ | ⟨hno, -⟩ := fileEncoding_first buf
  · obtain rfl : cs' = cs := by
      obtain hlt | hrank | hlt := Nat.lt_trichotomy cs'.rank cs.rank
      · exact absurd hreads (hbefore cs' hlt us')
      · exact Charset.rank_injective hrank
      · exact absurd h (hbefore' cs hlt us)
    exact ⟨us', hreads, heq⟩
  · exact absurd h (hno cs us)

theorem Units.unique (h : Units bigend buf us) (h' : Units bigend buf us') : us = us' := by
  induction us generalizing buf us' with
  | nil =>
    obtain ⟨half, rfl, hhalf, -⟩ := h
    exact ((units_short hhalf).mp h').symm
  | cons u us ih =>
    have hlong : ¬buf.length ≤ 1 := fun hle => absurd ((units_short hle).mp h) (List.cons_ne_nil u us)
    obtain _ | ⟨b, _ | ⟨b', buf⟩⟩ := buf
    · exact absurd (Nat.zero_le 1) hlong
    · exact absurd (Nat.le_refl 1) hlong
    obtain ⟨us1, heq, -, hunits⟩ := units_cons.mp h
    obtain ⟨us2, rfl, -, hunits'⟩ := units_cons.mp h'
    obtain ⟨rfl, rfl⟩ := List.cons.inj heq
    rw [ih hunits hunits']

/-- A first byte that is never in UTF-8. -/
theorem noneBefore_of_high (buf : List UInt8) (hb : 0xfe ≤ b.toNat) : Charset.NoneBefore 3 (b :: buf) := by
  have hkind : textChar b.toNat ∉ [TextChar.t] := by
    have hall : ∀ p ∈ textChars.zipIdx, 0xfe ≤ p.2 → p.1 ∉ [TextChar.t] := by decide +kernel
    exact hall _ (textChar_mem b.toNat_lt) hb
  intro cs hrank us h
  cases cs with
  | ascii => exact hkind (h.1 b List.mem_cons_self)
  | utf8Bom =>
    obtain ⟨rest, heq, -⟩ := h
    obtain ⟨rfl, -⟩ := List.cons.inj heq
    exact absurd hb (by decide)
  | utf8 => exact text_cons_other (by omega) (fun n hlead => absurd hlead.lt (by omega)) h.1
  | utf16le => exact absurd hrank (by decide)
  | utf16be => exact absurd hrank (by decide)
  | latin1 => exact absurd hrank (by decide)
  | extended => exact absurd hrank (by decide)
  | ebcdic => exact absurd hrank (by decide)
  | international => exact absurd hrank (by decide)

end

/-- A text that is written in UTF-16 behind its mark is read back, and half of a character behind it makes no difference. -/
theorem utf16_read (bigend : Bool) (us : List ℕ) (hus : ∀ u ∈ us, IsUnit u) (half : List UInt8) (hhalf : half.length ≤ 1) :
    fileEncoding (byteOrderMark bigend ++ us.flatMap (unitBytes bigend) ++ half) =
      text (if bigend then "Big-endian UTF-16 Unicode" else "Little-endian UTF-16 Unicode")
        (if bigend then "utf-16be" else "utf-16le") us := by
  have hutf16 : Utf16 bigend (byteOrderMark bigend ++ us.flatMap (unitBytes bigend) ++ half) us := ⟨half, rfl, hhalf, hus⟩
  cases bigend with
  | false =>
    obtain ⟨us', hreads, heq⟩ := fileEncoding_of_reads (show Charset.utf16le.Reads _ us from hutf16)
      (noneBefore_of_high (b := 0xff) _ (by decide))
    rw [heq, ((utf16_iff.mp hutf16).2.unique (utf16_iff.mp hreads).2)]
    rfl
  | true =>
    have hbefore : Charset.NoneBefore 3 (byteOrderMark true ++ us.flatMap (unitBytes true) ++ half) :=
      noneBefore_of_high (b := 0xfe) _ (by decide)
    have hle : ∀ us', ¬Charset.utf16le.Reads (byteOrderMark true ++ us.flatMap (unitBytes true) ++ half) us' := by
      intro us' h
      have hmark := (utf16_iff.mp hutf16).1.symm.trans (utf16_iff.mp h).1
      exact absurd hmark (by decide)
    obtain ⟨us', hreads, heq⟩ := fileEncoding_of_reads (show Charset.utf16be.Reads _ us from hutf16)
      (Charset.NoneBefore.next .utf16le hbefore hle)
    rw [heq, ((utf16_iff.mp hutf16).2.unique (utf16_iff.mp hreads).2)]
    rfl

/-- The letter `A` and the euro sign. -/
theorem utf16_read_euro : fileEncoding [0xff, 0xfe, 0x41, 0x00, 0xac, 0x20, 0x0a] =
    text "Little-endian UTF-16 Unicode" "utf-16le" [0x41, 0x20ac] :=
  utf16_read false [0x41, 0x20ac] (by decide +kernel) [0x0a] (by decide)

/-- The byte that stands for a byte in EBCDIC. -/
def toEbcdic (b : UInt8) : UInt8 := .ofNat (ebcdicToAscii.idxOf b)

/-- A bit for each byte of a list. -/
def byteBits (l : List UInt8) : ℕ := l.foldr (fun b n => n ||| 2 ^ b.toNat) 0

theorem mem_of_testBit {b : UInt8} {l : List UInt8} (h : (byteBits l).testBit b.toNat = true) : b ∈ l := by
  induction l with
  | nil => simp [byteBits] at h
  | cons c l ih =>
    rw [byteBits, List.foldr_cons, Nat.testBit_or, Bool.or_eq_true, Nat.testBit_two_pow, decide_eq_true_eq] at h
    rcases h with h | h
    · exact List.mem_cons_of_mem c (ih h)
    · rw [UInt8.toNat_inj.mp h]
      exact List.mem_cons_self

/-- Every byte is in the table. -/
theorem mem_ebcdicToAscii (b : UInt8) : b ∈ ebcdicToAscii := by
  have hbits : byteBits ebcdicToAscii = 2 ^ 256 - 1 := by decide +kernel
  apply mem_of_testBit
  rw [hbits, Nat.testBit_two_pow_sub_one]
  exact decide_eq_true b.toNat_lt

theorem fromEbcdicByte_toEbcdic (b : UInt8) : fromEbcdicByte (toEbcdic b) = b := by
  have hlength : ebcdicToAscii.length = 256 := by simp only [ebcdicToAscii, List.length_append, List.length_cons, List.length_nil]
  have hlt : ebcdicToAscii.idxOf b < ebcdicToAscii.length := List.idxOf_lt_length_of_mem (mem_ebcdicToAscii b)
  have htoNat : (toEbcdic b).toNat = ebcdicToAscii.idxOf b := UInt8.toNat_ofNat_of_lt' (by rw [UInt8.size]; omega)
  rw [fromEbcdicByte, htoNat, List.getD_eq_getElem?_getD, List.getElem?_eq_getElem hlt, Option.getD_some, List.getElem_idxOf]

/-- A plain text that is written in EBCDIC is read back just if one of its bytes would be in no text of another character set. -/
theorem ebcdic_read (l : List UInt8) (hl : ∀ b ∈ l, textChar b.toNat = .t) :
    fileEncoding (l.map toEbcdic) = text "EBCDIC" "ebcdic" (l.map UInt8.toNat) ↔
      ∃ b ∈ l, textChar (toEbcdic b).toNat = .f := by
  have hfrom : fromEbcdic (l.map toEbcdic) = l := by
    rw [fromEbcdic, List.map_map]
    exact (List.map_congr_left fun b _ => fromEbcdicByte_toEbcdic b).trans (List.map_id l)
  have hmem : ∀ c ∈ l.map toEbcdic, textChar (fromEbcdicByte c).toNat = .t := by
    intro c hc
    obtain ⟨b, hb, rfl⟩ := List.mem_map.mp hc
    rw [fromEbcdicByte_toEbcdic]
    exact hl b hb
  constructor
  · intro h
    by_contra hno
    have hextended : Charset.extended.Reads (l.map toEbcdic) ((l.map toEbcdic).map UInt8.toNat) := by
      refine ⟨fun c hc => ?_, rfl⟩
      obtain ⟨b, hb, rfl⟩ := List.mem_map.mp hc
      cases hkind : textChar (toEbcdic b).toNat with
      | f => exact absurd ⟨b, hb, hkind⟩ hno
      | t => decide
      | i => decide
      | x => decide
    obtain ⟨cs, us, -, hbefore, heq⟩ | ⟨-, heq⟩ := fileEncoding_first (l.map toEbcdic)
    · have hcode : some cs.code = some "EBCDIC" := congrArg Found.code (heq.symm.trans h)
      have hrank : 6 < cs.rank := by
        cases cs <;> first | decide | exact absurd hcode (by decide)
      exact hbefore .extended hrank _ hextended
    · exact Bool.false_ne_true (congrArg Found.looksText (heq.symm.trans h))
  · rintro ⟨b, hb, hkind⟩
    have hc : toEbcdic b ∈ l.map toEbcdic := List.mem_map_of_mem hb
    have hlt := lt_of_kind _ hkind
    have hkinds : ∀ kinds us, .f ∉ kinds → ¬OfKinds kinds (l.map toEbcdic) us := fun kinds us hf h => hf (hkind ▸ h.1 _ hc)
    have hplain : ¬Plain (l.map toEbcdic) := fun h => absurd (hkind.symm.trans (h _ hc hlt)) (by decide)
    have hutf16 : ∀ bigend us, ¬Utf16 bigend (l.map toEbcdic) us := by
      rintro bigend us ⟨half, heq, -, -⟩
      have hmark : 0xff ∈ byteOrderMark bigend := by
        cases bigend <;> decide
      have hin : 0xff ∈ l.map toEbcdic := by
        rw [heq]
        exact List.mem_append_left _ (List.mem_append_left _ hmark)
      exact absurd (hmem 0xff hin) (by decide +kernel)
    have hbefore : Charset.NoneBefore 7 (l.map toEbcdic) := by
      intro cs hrank us h
      cases cs with
      | ascii => exact hkinds _ _ (by decide) h
      | utf8Bom =>
        obtain ⟨rest, heq, -, -, hrest⟩ := h
        apply hplain
        rw [heq]
        have hmark : ∀ c ∈ ([0xef, 0xbb, 0xbf] : List UInt8), ¬c.toNat < 0x80 := by simp
        exact (plain_append hmark).mpr hrest
      | utf8 => exact hplain h.2.1
      | utf16le => exact hutf16 _ _ h
      | utf16be => exact hutf16 _ _ h
      | latin1 => exact hkinds _ _ (by decide) h
      | extended => exact hkinds _ _ (by decide) h
      | ebcdic => exact absurd hrank (by decide)
      | international => exact absurd hrank (by decide)
    have hreads : Charset.ebcdic.Reads (l.map toEbcdic) (l.map UInt8.toNat) := by
      rw [Charset.Reads, hfrom]
      exact ⟨fun c hc => List.mem_singleton.mpr (hl c hc), rfl⟩
    obtain ⟨us', hreads', heq⟩ := fileEncoding_of_reads hreads hbefore
    rw [heq, hreads'.2, hfrom]
    rfl

/-- The letter `A` and a new line. -/
theorem ebcdic_read_line : fileEncoding [0xc1, 0x15] = text "EBCDIC" "ebcdic" [0x41, 0x85] := by
  have hline := (ebcdic_read [0x41, 0x85] (by decide +kernel)).mpr ⟨0x85, by decide, by decide +kernel⟩
  have hbytes : [0x41, 0x85].map toEbcdic = [0xc1, 0x15] := by decide +kernel
  have hchars : [(0x41 : UInt8), 0x85].map UInt8.toNat = [0x41, 0x85] := by decide
  rwa [hbytes, hchars] at hline

end CodingExercises.File.Charsets
