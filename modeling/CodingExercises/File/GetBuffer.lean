import Mathlib.Algebra.Group.Nat.Defs
import Mathlib.Data.Nat.Bits
import Mathlib.Logic.Relation
import CodingExercises.Lib.Cells

/-!
# file: the printable text

`file_getbuffer` of `funcs.c` and what else there is to `ms->o`. A string is the list of its bytes without the null; `o.pbuf`
points to a block, or it is null. Memory is available.

With a block of `4 * len + 1` bytes the text is returned with its octal escapes, and `o.buf` is kept (`getbuffer_meets`). But it is
`o.buf` that is made larger, and nothing ever sets `o.pbuf` but to null (`Reachable.pbuf`): the text is stored through a null pointer
(`never_meets`).
-/

namespace CodingExercises.File.GetBuffer

open CodingExercises.Lib

/-! ## Multibyte characters -/

/-- A multibyte decoder with a state: what `mbrtowc` gives for the bytes up to the end (nothing for -1 and -2), and what is
printable. A character has one byte or more. -/
structure Decoder (σ : Type) where
  init : σ
  mbrtowc : σ → List UInt8 → Option (ℕ × ℕ) × σ
  iswprint : ℕ → Bool
  isprint : UInt8 → Bool
  consumes : ∀ st op nextchar n st', op ≠ [] → mbrtowc st op = (some (nextchar, n), st') → 1 ≤ n ∧ n ≤ op.length

variable {σ : Type}

/-! ## The code -/

/-- `OCTALIFY`: what is stored. -/
def octalify (b : UInt8) : List UInt8 := [0x5c, (b >>> 6 &&& 3) + 0x30, (b >>> 3 &&& 7) + 0x30, (b >>> 0 &&& 7) + 0x30]

/-- A store that is undefined. -/
inductive Fault
  | null
  | outside
deriving DecidableEq

/-- Stores at the index `np` of the block of `o.pbuf`. -/
def put (pbuf : Option (List UInt8)) (np : ℕ) (src : List UInt8) : Except Fault (Option (List UInt8)) :=
  match pbuf with
  | none => .error .null
  | some cells => (Lib.store Fault.outside cells np src).map some

/-- The multibyte loop: `mb_conv`, `np` and the block. -/
def mbLoop (dec : Decoder σ) (state : σ) (np : ℕ) (pbuf : Option (List UInt8)) :
    List UInt8 → Except Fault (Bool × ℕ × Option (List UInt8))
  | [] => .ok (true, np, pbuf)
  | b :: op =>
    match hconv : dec.mbrtowc state (b :: op) with
    | (none, _) => .ok (false, np, pbuf)
    | (some (nextchar, bytesconsumed), state) => do
      let consumed := (b :: op).take bytesconsumed
      if dec.iswprint nextchar then
        let pbuf ← put pbuf np consumed
        mbLoop dec state (np + bytesconsumed) pbuf ((b :: op).drop bytesconsumed)
      else
        let pbuf ← put pbuf np (consumed.flatMap octalify)
        mbLoop dec state (np + 4 * bytesconsumed) pbuf ((b :: op).drop bytesconsumed)
termination_by op => op.length
decreasing_by
  all_goals
    have hconsumes := dec.consumes _ _ _ _ _ (List.cons_ne_nil b op) hconv
    rw [List.length_drop]
    omega

/-- The loop over the bytes. -/
def byteLoop (dec : Decoder σ) (np : ℕ) (pbuf : Option (List UInt8)) : List UInt8 → Except Fault (ℕ × Option (List UInt8))
  | [] => .ok (np, pbuf)
  | b :: op => do
    if dec.isprint b then
      let pbuf ← put pbuf np [b]
      byteLoop dec (np + 1) pbuf op
    else
      let pbuf ← put pbuf np (octalify b)
      byteLoop dec (np + 4) pbuf op

/-- What is used of `struct magic_set`: `o`, `EVENT_HAD_ERR` and `MAGIC_RAW`. -/
structure MagicSet where
  buf : Option (List UInt8)
  pbuf : Option (List UInt8)
  hadErr : Bool
  raw : Bool

/-- `file_vprintf` and `file_printf`, for the text that is formatted. -/
def fileVprintf (text : List UInt8) (ms : MagicSet) : MagicSet := { ms with buf := some (ms.buf.getD [] ++ text) }

/-- `file_error_core`: `line` is the text for a line number, if there is one, and `text` the message with the error. -/
def fileErrorCore (line : Option (List UInt8)) (text : List UInt8) (ms : MagicSet) : MagicSet :=
  if ms.hadErr then ms
  else
    let ms := match line with
      | none => ms
      | some line => fileVprintf line { ms with buf := none }
    { fileVprintf text ms with hadErr := true }

/-- The string at a pointer to a block. -/
def stringAt (cells : List UInt8) : List UInt8 := cells.takeWhile (· ≠ 0)

/-- `file_getbuffer`: the string that is returned. `oomem` is the text of `file_oomem`. -/
def getbuffer (dec : Decoder σ) (oomem : List UInt8) (ms : MagicSet) : Except Fault (Option (List UInt8) × MagicSet) :=
  if ms.hadErr then .ok (none, ms)
  else if ms.raw then .ok (ms.buf, ms)
  else
    match ms.buf with
    | none => .ok (none, ms)
    | some buf =>
      if (2 ^ 64 - 1 - 1) / 4 < buf.length then .ok (none, fileErrorCore none oomem ms)
      else do
        -- `realloc` is for `o.buf`, which keeps its contents
        let (mbConv, np, pbuf) ← mbLoop dec dec.init 0 ms.pbuf buf
        let pbuf ← put pbuf np [0]
        if mbConv then return (pbuf.map stringAt, { ms with pbuf := pbuf })
        else
          let (np, pbuf) ← byteLoop dec 0 pbuf buf
          let pbuf ← put pbuf np [0]
          return (pbuf.map stringAt, { ms with pbuf := pbuf })

/-- `file_ms_alloc`. -/
def fileMsAlloc (raw : Bool) : MagicSet := ⟨none, none, false, raw⟩

/-- `file_reset`, where magic files are loaded. -/
def fileReset (ms : MagicSet) : MagicSet := { ms with buf := none, pbuf := none, hadErr := false }

/-- What is done to a `magic_set` between calls. -/
inductive Step : MagicSet → MagicSet → Prop
  | printf (text : List UInt8) (ms : MagicSet) : Step ms (fileVprintf text ms)
  | error (line : Option (List UInt8)) (text : List UInt8) (ms : MagicSet) : Step ms (fileErrorCore line text ms)
  | reset (ms : MagicSet) : Step ms (fileReset ms)
  /-- `file_replace` cuts `o.buf` off before it prints, and `FILE_INDIRECT` puts another `o.buf` there for a while. -/
  | buf (buf : Option (List UInt8)) (ms : MagicSet) : Step ms { ms with buf := buf }
  /-- `magic_setflags`. -/
  | flags (raw : Bool) (ms : MagicSet) : Step ms { ms with raw := raw }
  | getbuffer {σ : Type} (dec : Decoder σ) (oomem : List UInt8) {ms ms' : MagicSet} {ret : Option (List UInt8)} :
      getbuffer dec oomem ms = .ok (ret, ms') → Step ms ms'

/-- The states of a `magic_set`. -/
def Reachable (ms : MagicSet) : Prop := ∃ raw, Relation.ReflTransGen Step (fileMsAlloc raw) ms

/-! ## The text with its escapes -/

/-- A character with its escapes. -/
def Decoder.shown (dec : Decoder σ) (nextchar : ℕ) (consumed : List UInt8) : List UInt8 :=
  if dec.iswprint nextchar then consumed else consumed.flatMap octalify

/-- The text, character by character, if all of it can be decoded. -/
def Decoder.chars (dec : Decoder σ) (state : σ) : List UInt8 → Option (List UInt8)
  | [] => some []
  | b :: op =>
    match _hconv : dec.mbrtowc state (b :: op) with
    | (none, _) => none
    | (some (nextchar, n), state) =>
      (dec.chars state ((b :: op).drop n)).map (dec.shown nextchar ((b :: op).take n) ++ ·)
termination_by op => op.length
decreasing_by
  have hconsumes := dec.consumes _ _ _ _ _ (List.cons_ne_nil b op) _hconv
  rw [List.length_drop]
  omega

/-- The text, byte by byte. -/
def Decoder.bytes (dec : Decoder σ) (op : List UInt8) : List UInt8 := op.flatMap fun b => if dec.isprint b then [b] else octalify b

/-- The text with its escapes. -/
def Decoder.escaped (dec : Decoder σ) (op : List UInt8) : List UInt8 := (dec.chars dec.init op).getD (dec.bytes op)

/-- The three digits are those of the byte. -/
theorem octalify_eq (b : UInt8) :
    octalify b = [0x5c, .ofNat (0x30 + b.toNat / 64), .ofNat (0x30 + b.toNat / 8 % 8), .ofNat (0x30 + b.toNat % 8)] := by
  have hall : ∀ n < 256, octalify (.ofNat n) = [0x5c, .ofNat (0x30 + n / 64), .ofNat (0x30 + n / 8 % 8), .ofNat (0x30 + n % 8)] := by
    decide +kernel
  have hb := hall b.toNat b.toNat_lt
  rwa [UInt8.ofNat_toNat] at hb

theorem length_octalify (b : UInt8) : (octalify b).length = 4 := rfl

theorem octalify_ne_zero (b : UInt8) : ∀ c ∈ octalify b, c ≠ 0 := by
  have hall : ∀ n < 256, (octalify (.ofNat n)).all (· != 0) = true := by decide +kernel
  have hb := hall b.toNat b.toNat_lt
  rw [UInt8.ofNat_toNat, List.all_eq_true] at hb
  exact fun c hc => bne_iff_ne.mp (hb c hc)

theorem length_flatMap_octalify (op : List UInt8) : (op.flatMap octalify).length = 4 * op.length := by
  induction op with
  | nil => rfl
  | cons b op ih =>
    rw [List.flatMap_cons, List.length_append, ih, length_octalify, List.length_cons]
    omega

/-! ## The loops -/

section

variable {dec : Decoder σ} {state state' : σ} {b : UInt8} {op : List UInt8} {nextchar n np : ℕ} {pbuf : Option (List UInt8)}

theorem mbLoop_none (h : dec.mbrtowc state (b :: op) = (none, state')) :
    mbLoop dec state np pbuf (b :: op) = .ok (false, np, pbuf) := by
  rw [mbLoop]
  split
  · rfl
  · rename_i h'
    rw [h] at h'
    cases h'

/-- What is stored takes as many bytes as the pointer moves on. -/
theorem length_shown (h : dec.mbrtowc state (b :: op) = (some (nextchar, n), state')) :
    1 ≤ n ∧ n ≤ (b :: op).length ∧ (dec.shown nextchar ((b :: op).take n)).length = if dec.iswprint nextchar then n else 4 * n := by
  obtain ⟨hpos, hle⟩ := dec.consumes _ _ _ _ _ (List.cons_ne_nil b op) h
  refine ⟨hpos, hle, ?_⟩
  rw [Decoder.shown, apply_ite List.length, length_flatMap_octalify, List.length_take_of_le hle]

theorem mbLoop_some (h : dec.mbrtowc state (b :: op) = (some (nextchar, n), state')) :
    mbLoop dec state np pbuf (b :: op) = put pbuf np (dec.shown nextchar ((b :: op).take n)) >>= fun pbuf =>
      mbLoop dec state' (np + (dec.shown nextchar ((b :: op).take n)).length) pbuf ((b :: op).drop n) := by
  obtain ⟨-, -, hlength⟩ := length_shown h
  rw [mbLoop]
  split
  · rename_i h'
    rw [h] at h'
    cases h'
  · rename_i h'
    rw [h] at h'
    cases h'
    rw [hlength, Decoder.shown]
    split_ifs <;> rfl

theorem put_mid (done src mid rest : List UInt8) (h : mid.length = src.length) :
    put (some (done ++ (mid ++ rest))) done.length src = .ok (some (done ++ src ++ rest)) := by
  rw [put, store_mid _ _ _ _ _ h]
  rfl

/-- Stores with enough room. -/
theorem put_room (done src rest : List UInt8) (h : src.length ≤ rest.length) :
    put (some (done ++ rest)) done.length src = .ok (some (done ++ src ++ rest.drop src.length)) := by
  have hput := put_mid done src (rest.take src.length) (rest.drop src.length) (List.length_take_of_le h)
  rwa [List.take_append_drop] at hput

/-- The room that a character takes is four times its bytes at most. -/
theorem length_shown_le (h : dec.mbrtowc state (b :: op) = (some (nextchar, n), state')) :
    (dec.shown nextchar ((b :: op).take n)).length + 4 * ((b :: op).drop n).length ≤ 4 * (b :: op).length := by
  obtain ⟨-, hle, hlength⟩ := length_shown h
  rw [hlength, List.length_drop]
  split_ifs <;> omega

/-- A text takes no more than four bytes for one. -/
theorem length_chars {out : List UInt8} (h : dec.chars state op = some out) : out.length ≤ 4 * op.length := by
  fun_induction Decoder.chars dec state op generalizing out with
  | case1 =>
    cases h
    exact Nat.le_refl 0
  | case2 => cases h
  | case3 state b op nextchar n state' hconv ih =>
    obtain ⟨out', hout', rfl⟩ := Option.map_eq_some_iff.mp h
    have hle := length_shown_le hconv
    have hrest := ih hout'
    rw [List.length_append]
    omega

/-- The multibyte loop stores the text, as far as it can be decoded. -/
theorem mbLoop_spec (dec : Decoder σ) (state : σ) (op done rest : List UInt8) (hroom : 4 * op.length ≤ rest.length) :
    match dec.chars state op with
    | some out => mbLoop dec state done.length (some (done ++ rest)) op =
        .ok (true, done.length + out.length, some (done ++ out ++ rest.drop out.length))
    | none => ∃ np cells, mbLoop dec state done.length (some (done ++ rest)) op = .ok (false, np, some cells) ∧
        np ≤ done.length + 4 * op.length ∧ cells.length = done.length + rest.length := by
  fun_induction Decoder.chars dec state op generalizing done rest with
  | case1 state =>
    simp only [mbLoop, List.append_nil, List.length_nil, Nat.add_zero, List.drop_zero]
  | case2 state b op state' hconv =>
    exact ⟨_, _, mbLoop_none hconv, Nat.le_add_right _ _, List.length_append⟩
  | case3 state b op nextchar n state' hconv ih =>
    have hle := length_shown_le hconv
    rw [mbLoop_some hconv]
    generalize dec.shown nextchar ((b :: op).take n) = src at hle
    have hdrop : (rest.drop src.length).length = rest.length - src.length := List.length_drop
    have hih := ih (done ++ src) (rest.drop src.length) (by omega)
    have hbind : put (some (done ++ rest)) done.length src >>= (fun pbuf =>
        mbLoop dec state' (done.length + src.length) pbuf ((b :: op).drop n)) =
        mbLoop dec state' (done ++ src).length (some (done ++ src ++ rest.drop src.length)) ((b :: op).drop n) := by
      rw [put_room _ _ _ (by omega), List.length_append]
      rfl
    rw [hbind]
    cases hchars : dec.chars state' ((b :: op).drop n) with
    | some out =>
      rw [hchars] at hih
      simp only [Option.map_some]
      rw [hih, List.length_append, List.length_append, Nat.add_assoc, List.append_assoc done, List.drop_drop]
    | none =>
      rw [hchars] at hih
      obtain ⟨np, cells, hloop, hnp, hcells⟩ := hih
      refine ⟨np, cells, hloop, ?_, ?_⟩
      · rw [List.length_append] at hnp
        omega
      · rw [hcells, List.length_append]
        omega

theorem byteLoop_spec (dec : Decoder σ) (op done rest : List UInt8) (hroom : 4 * op.length ≤ rest.length) :
    byteLoop dec done.length (some (done ++ rest)) op =
      .ok (done.length + (dec.bytes op).length, some (done ++ dec.bytes op ++ rest.drop (dec.bytes op).length)) ∧
    (dec.bytes op).length ≤ 4 * op.length := by
  induction op generalizing done rest with
  | nil =>
    constructor
    · rw [byteLoop, Decoder.bytes, List.flatMap_nil, List.append_nil]
      rfl
    · exact Nat.le_refl 0
  | cons b op ih =>
    rw [List.length_cons] at hroom ⊢
    obtain ⟨src, hsrc⟩ : ∃ src, (if dec.isprint b then [b] else octalify b) = src := ⟨_, rfl⟩
    have hlength : src.length ≤ 4 ∧ src.length = if dec.isprint b then 1 else 4 := by
      rw [← hsrc, apply_ite List.length, length_octalify, List.length_singleton]
      split_ifs <;> decide
    have hbytes : dec.bytes (b :: op) = src ++ dec.bytes op := by
      rw [Decoder.bytes, List.flatMap_cons, hsrc]
      rfl
    have hstep : byteLoop dec done.length (some (done ++ rest)) (b :: op) =
        put (some (done ++ rest)) done.length src >>= fun pbuf => byteLoop dec (done.length + src.length) pbuf op := by
      rw [hlength.2, ← hsrc, byteLoop]
      split_ifs <;> rfl
    obtain ⟨hloop, hle⟩ := ih (done ++ src) (rest.drop src.length) (by rw [List.length_drop]; omega)
    constructor
    · rw [hstep, put_room _ _ _ (by omega), hbytes, List.length_append, ← Nat.add_assoc, ← List.append_assoc, ← List.drop_drop,
        ← List.length_append]
      exact hloop
    · rw [hbytes, List.length_append]
      omega

end

/-! ## The printable text -/

section

variable {dec : Decoder σ} {oomem s : List UInt8} {ms : MagicSet}

theorem flatMap_ne_zero {f : UInt8 → List UInt8} (hf : ∀ b, b ≠ 0 → ∀ c ∈ f b, c ≠ 0) {op : List UInt8} (hop : ∀ b ∈ op, b ≠ 0) :
    ∀ c ∈ op.flatMap f, c ≠ 0 := by
  intro c hc
  obtain ⟨b, hb, hcb⟩ := List.mem_flatMap.mp hc
  exact hf b (hop b hb) c hcb

theorem shown_ne_zero (nextchar : ℕ) {op : List UInt8} (hop : ∀ b ∈ op, b ≠ 0) : ∀ c ∈ dec.shown nextchar op, c ≠ 0 := by
  rw [Decoder.shown]
  split_ifs
  · exact hop
  · exact flatMap_ne_zero (fun b _ => octalify_ne_zero b) hop

theorem chars_ne_zero {state : σ} {op out : List UInt8} (hop : ∀ b ∈ op, b ≠ 0) (h : dec.chars state op = some out) :
    ∀ c ∈ out, c ≠ 0 := by
  fun_induction Decoder.chars dec state op generalizing out with
  | case1 =>
    cases h
    nofun
  | case2 => cases h
  | case3 state b op nextchar n state' hconv ih =>
    obtain ⟨out', hout', rfl⟩ := Option.map_eq_some_iff.mp h
    intro c hc
    rcases List.mem_append.mp hc with hc | hc
    · exact shown_ne_zero nextchar (fun b hb => hop b (List.mem_of_mem_take hb)) c hc
    · exact ih (fun b hb => hop b (List.mem_of_mem_drop hb)) hout' c hc

theorem bytes_ne_zero {op : List UInt8} (hop : ∀ b ∈ op, b ≠ 0) : ∀ c ∈ dec.bytes op, c ≠ 0 := by
  refine flatMap_ne_zero ?_ hop
  intro b hb
  split_ifs
  · intro c hc
    rwa [List.mem_singleton.mp hc]
  · exact octalify_ne_zero b

/-- A string in a block. -/
theorem stringAt_append {out : List UInt8} (hout : ∀ c ∈ out, c ≠ 0) (rest : List UInt8) : stringAt (out ++ [0] ++ rest) = out := by
  rw [stringAt, List.append_assoc, List.takeWhile_append_of_pos (fun c hc => decide_eq_true (hout c hc))]
  exact List.append_nil out

theorem length_escaped_le (dec : Decoder σ) (s : List UInt8) : (dec.escaped s).length ≤ 4 * s.length := by
  rw [Decoder.escaped]
  cases h : dec.chars dec.init s with
  | some out => exact length_chars h
  | none => exact (byteLoop_spec dec s [] (List.replicate (4 * s.length) 0) (Nat.le_of_eq List.length_replicate.symm)).2

/-- What is asked of `file_getbuffer` for the string in `o.buf`: it returns the text with its escapes, `o.buf` is kept, and it does so
again; and more text comes behind the text without the escapes. -/
def Meets (dec : Decoder σ) (oomem : List UInt8) (s : List UInt8) (ms : MagicSet) : Prop :=
  ∃ ms', getbuffer dec oomem ms = .ok (some (dec.escaped s), ms') ∧ (dec.escaped s).length + 1 ≤ 4 * s.length + 1 ∧ ms'.buf = some s ∧
    (∃ ms'', getbuffer dec oomem ms' = .ok (some (dec.escaped s), ms'')) ∧ ∀ text, (fileVprintf text ms').buf = some (s ++ text)

/-- One byte more in the block. -/
theorem put_inside (cells : List UInt8) (np : ℕ) (h : np < cells.length) (b : UInt8) :
    ∃ cells', put (some cells) np [b] = .ok (some cells') ∧ cells'.length = cells.length := by
  have hput := put_room (cells.take np) [b] (cells.drop np) (by rw [List.length_drop, List.length_singleton]; omega)
  rw [List.take_append_drop, List.length_take_of_le (Nat.le_of_lt h)] at hput
  refine ⟨_, hput, ?_⟩
  simp only [List.length_append, List.length_take, List.length_drop, List.length_singleton]
  omega

/-- The end of a text that has been stored from the beginning of the block on. -/
theorem put_end (out : List UInt8) {cells : List UInt8} (h : out.length < cells.length) :
    put (some (out ++ cells.drop out.length)) out.length [0] = .ok (some (out ++ [0] ++ (cells.drop out.length).drop 1)) :=
  put_room out [0] (cells.drop out.length) (by rw [List.length_drop, List.length_singleton]; omega)

/-- With a block of enough room, `file_getbuffer` stores the text there. -/
theorem getbuffer_room (dec : Decoder σ) (oomem : List UInt8) {ms : MagicSet} {cells : List UInt8} (hs : ∀ b ∈ s, b ≠ 0) (hlen : s.length ≤ (2 ^ 64 - 2) / 4) (hbuf : ms.buf = some s)
    (herr : ms.hadErr = false) (hraw : ms.raw = false) (hpbuf : ms.pbuf = some cells) (hroom : 4 * s.length + 1 ≤ cells.length) :
    ∃ cells', getbuffer dec oomem ms = .ok (some (dec.escaped s), { ms with pbuf := some cells' }) ∧
      cells'.length = cells.length := by
  have hmb := mbLoop_spec dec dec.init s [] cells (by omega)
  rw [getbuffer, herr, hraw, hbuf, hpbuf, Decoder.escaped]
  simp only [Bool.false_eq_true, if_false, if_neg (show ¬(2 ^ 64 - 1 - 1) / 4 < s.length by omega)]
  cases hchars : dec.chars dec.init s with
  | some out =>
    simp only [hchars, List.nil_append, List.length_nil, Nat.zero_add] at hmb
    have hout := length_chars hchars
    refine ⟨out ++ [0] ++ (cells.drop out.length).drop 1, ?_, ?_⟩
    · rw [hmb]
      simp only [bind, Except.bind]
      rw [put_end out (by omega)]
      simp only [if_true, Option.map_some, stringAt_append (chars_ne_zero hs hchars), Option.getD_some]
      rfl
    · simp only [List.length_append, List.length_drop, List.length_singleton]
      omega
  | none =>
    rw [hchars] at hmb
    obtain ⟨np, cells₁, hloop, hnp, hcells₁⟩ := hmb
    rw [List.length_nil, Nat.zero_add] at hnp hcells₁
    obtain ⟨cells₂, hput, hcells₂⟩ := put_inside cells₁ np (by omega) 0
    obtain ⟨hbytes, hle⟩ := byteLoop_spec dec s [] cells₂ (by omega)
    rw [List.nil_append, List.nil_append, List.length_nil, Nat.zero_add] at hbytes
    refine ⟨dec.bytes s ++ [0] ++ (cells₂.drop (dec.bytes s).length).drop 1, ?_, ?_⟩
    · rw [List.nil_append, List.length_nil] at hloop
      rw [hloop]
      simp only [bind, Except.bind]
      rw [hput]
      simp only [Bool.false_eq_true, if_false]
      rw [hbytes]
      simp only
      rw [put_end _ (by omega)]
      simp only [Option.map_some, stringAt_append (bytes_ne_zero hs), Option.getD_none]
      rfl
    · simp only [List.length_append, List.length_drop, List.length_singleton]
      omega

/-- With a block of `4 * len + 1` bytes behind `o.pbuf`, `file_getbuffer` does what is asked of it. -/
theorem getbuffer_meets {cells : List UInt8} (hs : ∀ b ∈ s, b ≠ 0) (hlen : s.length ≤ (2 ^ 64 - 2) / 4) (hbuf : ms.buf = some s)
    (herr : ms.hadErr = false) (hraw : ms.raw = false) (hpbuf : ms.pbuf = some cells) (hroom : 4 * s.length + 1 ≤ cells.length) :
    Meets dec oomem s ms := by
  obtain ⟨cells₁, hfirst, hcells₁⟩ := getbuffer_room dec oomem hs hlen hbuf herr hraw hpbuf hroom
  have hkept : { ms with pbuf := some cells₁ }.buf = some s := hbuf
  obtain ⟨cells₂, hsecond, -⟩ := getbuffer_room dec oomem hs hlen hkept herr hraw rfl (by omega)
  refine ⟨_, hfirst, Nat.succ_le_succ (length_escaped_le dec s), hbuf, ⟨_, hsecond⟩, ?_⟩
  intro text
  rw [fileVprintf, hbuf]
  rfl

/-! ## The null pointer -/

theorem mbLoop_null (dec : Decoder σ) (s : List UInt8) :
    mbLoop dec dec.init 0 none s = .error .null ∨ ∃ b, mbLoop dec dec.init 0 none s = .ok (b, 0, none) := by
  cases s with
  | nil =>
    right
    exact ⟨true, by rw [mbLoop]⟩
  | cons b op =>
    rcases hconv : dec.mbrtowc dec.init (b :: op) with ⟨_ | ⟨nextchar, n⟩, state'⟩
    · right
      exact ⟨false, mbLoop_none hconv⟩
    · left
      rw [mbLoop_some hconv]
      rfl

/-- What is stored through a null pointer is undefined. -/
theorem getbuffer_null (hlen : s.length ≤ (2 ^ 64 - 2) / 4) (hbuf : ms.buf = some s) (herr : ms.hadErr = false)
    (hraw : ms.raw = false) (hpbuf : ms.pbuf = none) : getbuffer dec oomem ms = .error .null := by
  rw [getbuffer, herr, hraw, hbuf, hpbuf]
  simp only [Bool.false_eq_true, if_false, if_neg (show ¬(2 ^ 64 - 1 - 1) / 4 < s.length by omega)]
  rcases mbLoop_null dec s with h | ⟨b, h⟩
  · rw [h]
    rfl
  · rw [h]
    rfl

theorem fileErrorCore_pbuf (line : Option (List UInt8)) (text : List UInt8) (ms : MagicSet) :
    (fileErrorCore line text ms).pbuf = ms.pbuf := by
  unfold fileErrorCore
  split_ifs
  · rfl
  · cases line <;> rfl

/-- `file_getbuffer` does not set the pointer. -/
theorem getbuffer_pbuf {ms' : MagicSet} {ret : Option (List UInt8)} (hpbuf : ms.pbuf = none)
    (h : getbuffer dec oomem ms = .ok (ret, ms')) : ms'.pbuf = none := by
  unfold getbuffer at h
  split at h
  · cases h
    exact hpbuf
  split at h
  · cases h
    exact hpbuf
  split at h
  · cases h
    exact hpbuf
  split at h
  · cases h
    rw [fileErrorCore_pbuf, hpbuf]
  · rename_i s _ _
    rw [hpbuf] at h
    rcases mbLoop_null dec s with hloop | ⟨b, hloop⟩
    · rw [hloop] at h
      cases h
    · rw [hloop] at h
      cases h

/-- A step leaves a null pointer a null pointer. -/
theorem Step.pbuf {ms ms' : MagicSet} (h : Step ms ms') (hpbuf : ms.pbuf = none) : ms'.pbuf = none := by
  cases h with
  | printf => exact hpbuf
  | error => rw [fileErrorCore_pbuf, hpbuf]
  | reset => rfl
  | buf => exact hpbuf
  | flags => exact hpbuf
  | getbuffer dec oomem h => exact getbuffer_pbuf hpbuf h

theorem Reachable.pbuf (h : Reachable ms) : ms.pbuf = none := by
  obtain ⟨raw, h⟩ := h
  induction h with
  | refl => rfl
  | tail _ hstep ih => exact hstep.pbuf ih

/-- In no state that is reached does `file_getbuffer` do what is asked of it. -/
theorem never_meets {σ : Type} (dec : Decoder σ) (oomem s : List UInt8) (ms : MagicSet) (hreach : Reachable ms)
    (hbuf : ms.buf = some s) (herr : ms.hadErr = false) (hraw : ms.raw = false) : ¬Meets dec oomem s ms := by
  rintro ⟨ms', hget, -⟩
  by_cases hlen : s.length ≤ (2 ^ 64 - 2) / 4
  · rw [getbuffer_null hlen hbuf herr hraw hreach.pbuf] at hget
    cases hget
  · rw [getbuffer, herr, hraw, hbuf] at hget
    simp only [Bool.false_eq_true, if_false, if_pos (show (2 ^ 64 - 1 - 1) / 4 < s.length by omega)] at hget
    cases hget

end

/-- ASCII. -/
def ascii : Decoder Unit where
  init := ()
  mbrtowc _ op := (if op.headD 0 < 0x80 then some ((op.headD 0).toNat, 1) else none, ())
  iswprint c := 0x20 ≤ c ∧ c < 0x7f
  isprint c := 0x20 ≤ c ∧ c < 0x7f
  consumes := by
    intro st op nextchar n st' hop h
    have hlen := List.length_pos_of_ne_nil hop
    split_ifs at h
    · cases h
      exact ⟨Nat.le_refl 1, hlen⟩
    · cases h

/-- The text `data`. -/
def data : List UInt8 := [0x64, 0x61, 0x74, 0x61]

theorem reachable_data : Reachable (fileVprintf data (fileMsAlloc false)) := ⟨false, .single (.printf data _)⟩

theorem never_meets_data : ¬Meets ascii [] data (fileVprintf data (fileMsAlloc false)) :=
  never_meets ascii [] data _ reachable_data rfl rfl rfl

/-- The text cannot be returned. -/
theorem getbuffer_data : Reachable (fileVprintf data (fileMsAlloc false)) ∧ ¬Meets ascii [] data (fileVprintf data (fileMsAlloc false)) := by
  refine ⟨reachable_data, ?_⟩
  rintro ⟨ms', hget, -⟩
  rw [getbuffer_null (by decide) rfl rfl rfl rfl] at hget
  cases hget

end CodingExercises.File.GetBuffer
