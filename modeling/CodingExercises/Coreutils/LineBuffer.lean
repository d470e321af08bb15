import Mathlib.Data.List.TakeWhile
import CodingExercises.Coreutils.Xalloc

/-!
# coreutils: reading lines

`lib/linebuffer.c`. A `linebuffer` is used again for every line; `readLoop` is the loop of `readlinebuffer_delim` with
its pointers as offsets into the block.
-/

namespace CodingExercises.Coreutils

/-- `struct linebuffer`. A null pointer is a buffer without bytes. -/
structure Linebuffer where
  size : ℕ
  length : ℕ
  buffer : List Byte

/-- `initbuffer`. -/
def initbuffer : Linebuffer := ⟨0, 0, []⟩

/-- A stream: the bytes that are left, the end-of-file and the error indicator, and whether reading behind the last byte
is an error. -/
structure File where
  rest : List Byte
  feof : Bool
  ferror : Bool
  fails : Bool

/-- A stream at its start. -/
def File.ofBytes (bytes : List Byte) : File := ⟨bytes, false, false, false⟩

/-- `getc` behind the last byte. -/
def File.atEnd (stream : File) : File :=
  if stream.fails then { stream with rest := [], ferror := true } else { stream with rest := [], feof := true }

/-- `realloc`: it fails, or it gives a block of the size asked for that starts with the bytes of the old one. -/
structure Realloc where
  realloc : List Byte → ℕ → Option (List Byte)
  keeps : ∀ {p n q}, realloc p n = some q → p.length ≤ n → q.length = n ∧ q.take p.length = p

/-- The memory is exhausted, and `xalloc_die` ends the program, or a byte outside the block is read or written. -/
inductive Fault
  | die
  | wild
deriving DecidableEq

/-- The variables of the loop: `linebuffer->size`, `buffer`, and the offsets of `p` and `end`. -/
structure Cursor where
  size : ℕ
  buffer : List Byte
  p : ℕ
  stop : ℕ

/-- What the loop does when `p` reaches `end`: it enlarges the block and goes on behind the old one. -/
def Cursor.enlarge (mem : Realloc) (cur : Cursor) : Except Fault Cursor :=
  match x2nrealloc cur.buffer.isEmpty cur.size 1 with
  | none => .error .die
  | some n =>
    match mem.realloc cur.buffer n with
    | none => .error .die
    | some block => .ok ⟨n, block, cur.size, n⟩

/-- `*p++ = c`. -/
def Cursor.store (cur : Cursor) (c : Byte) : Except Fault Cursor :=
  if cur.p < cur.buffer.length then .ok { cur with buffer := cur.buffer.set cur.p c, p := cur.p + 1 }
  else .error .wild

/-- The end of a pass of the loop. -/
def Cursor.put (mem : Realloc) (cur : Cursor) (c : Byte) : Except Fault Cursor :=
  if cur.p = cur.stop then
    match cur.enlarge mem with
    | .error e => .error e
    | .ok cur => cur.store c
  else cur.store c

/-- The line that the loop has read. -/
def Cursor.line (cur : Cursor) : Linebuffer := ⟨cur.size, cur.p, cur.buffer⟩

/-- A `char` as an `int`. -/
def charInt (signed : Bool) (c : Byte) : ℤ := if signed && 128 ≤ c.toNat then c.toNat - 256 else c.toNat

section Program

variable (mem : Realloc) (signed : Bool) (delimiter : Byte)

/-- The loop of `readlinebuffer_delim`: whether it returns the buffer or `NULL`, and what it leaves. -/
def readLoop (length : ℕ) (stream : File) : List Byte → Cursor → Except Fault (Bool × Linebuffer × File)
  | [], cur =>
    let stream := stream.atEnd
    if cur.p = 0 ∨ stream.ferror then .ok (false, ⟨cur.size, length, cur.buffer⟩, stream)
    else
      match cur.buffer[cur.p - 1]? with
      | none => .error .wild
      | some c =>
        if c = delimiter then .ok (true, cur.line, stream)
        else
          match cur.put mem delimiter with
          | .error e => .error e
          | .ok cur => .ok (true, cur.line, stream)
  | c :: rest, cur =>
    match cur.put mem c with
    | .error e => .error e
    | .ok cur =>
      if (c.toNat : ℤ) = charInt signed delimiter then .ok (true, cur.line, { stream with rest := rest })
      else readLoop length stream rest cur

/-- `readlinebuffer_delim`. -/
def readlinebufferDelim (linebuffer : Linebuffer) (stream : File) : Except Fault (Bool × Linebuffer × File) :=
  if stream.feof then .ok (false, linebuffer, stream)
  else
    -- The sentinel is put behind the line that the buffer holds, and not behind the block.
    readLoop mem signed delimiter linebuffer.length stream stream.rest
      ⟨linebuffer.size, linebuffer.buffer, 0, linebuffer.length⟩

/-- `readlinebuffer`. -/
def readlinebuffer (linebuffer : Linebuffer) (stream : File) : Except Fault (Bool × Linebuffer × File) :=
  readlinebufferDelim mem signed 10 linebuffer stream

end Program

/-- The line that a buffer holds. -/
def Linebuffer.text (lb : Linebuffer) : List Byte := lb.buffer.take lb.length

/-- What a call gives its caller. -/
inductive Reading
  | line (text : List Byte)
  | null
  | fault (f : Fault)
deriving DecidableEq

/-- The results of `n` calls with one buffer, up to a fault. -/
def readings (mem : Realloc) (signed : Bool) (delimiter : Byte) : ℕ → Linebuffer → File → List Reading
  | 0, _, _ => []
  | n + 1, lb, stream =>
    match readlinebufferDelim mem signed delimiter lb stream with
    | .error f => [.fault f]
    | .ok (true, lb, stream) => .line lb.text :: readings mem signed delimiter n lb stream
    | .ok (false, lb, stream) => .null :: readings mem signed delimiter n lb stream

/-! ## What is expected -/

/-- The pieces of a stream, each with its delimiter. -/
def pieces (delimiter : Byte) : List Byte → List (List Byte)
  | [] => []
  | c :: rest =>
    if c = delimiter then [c] :: pieces delimiter rest
    else
      match pieces delimiter rest with
      | [] => [[c, delimiter]]
      | q :: qs => (c :: q) :: qs

/-- The results of `n` calls that give the pieces one by one, and then `NULL`. -/
def expected : ℕ → List (List Byte) → List Reading
  | 0, _ => []
  | n + 1, [] => .null :: expected n []
  | n + 1, q :: qs => .line q :: expected n qs

/-- The size that a block of `size` bytes has got once it holds `m` bytes. -/
def capacity (m size : ℕ) : ℕ :=
  if m ≤ size then size else capacity m (if size = 0 then 64 else size + (size + 1) / 2)
termination_by m - size
decreasing_by split <;> omega

/-- The first `n` pieces fit into the buffer that holds a line of `length` bytes in a block of `size`: a piece is no
longer than the line before it, or that line has filled the block. -/
def Fits : ℕ → ℕ → ℕ → List (List Byte) → Prop
  | 0, _, _, _ => True
  | _ + 1, _, _, [] => True
  | n + 1, length, size, q :: qs => (q.length ≤ length ∨ length = size) ∧ Fits n q.length (capacity q.length size) qs

/-! ## The block -/

/-- A buffer between two calls: the block has the size noted, and the line lies in it. -/
structure Linebuffer.Ok (lb : Linebuffer) : Prop where
  block : lb.buffer.length = lb.size
  line : lb.length ≤ lb.size

/-- The stream can be read: there is no error, and at the end of the file nothing is left. -/
structure File.Ok (stream : File) : Prop where
  ferror : stream.ferror = false
  fails : stream.fails = false
  feof : stream.feof = true → stream.rest = []

/-- The cursor in a pass of the loop: `p`, `end` and the end of the block come in this order. -/
structure Cursor.Ok (cur : Cursor) : Prop where
  block : cur.buffer.length = cur.size
  p_le : cur.p ≤ cur.stop
  stop_le : cur.stop ≤ cur.size

/-- There is room for `m` more bytes before the sentinel, or the sentinel is the end of the block. -/
def Cursor.Room (m : ℕ) (cur : Cursor) : Prop := cur.p + m ≤ cur.stop ∨ cur.stop = cur.size

/-- The bytes put so far. -/
def Cursor.text (cur : Cursor) : List Byte := cur.buffer.take cur.p

/-- The byte put last. -/
def Cursor.last (cur : Cursor) : Option Byte := if cur.p = 0 then none else cur.buffer[cur.p - 1]?

/-- The next size of a block. -/
def grown (size : ℕ) : ℕ := if size = 0 then 64 else size + (size + 1) / 2

theorem lt_grown (size : ℕ) : size < grown size := by
  unfold grown
  split <;> omega

theorem capacity_of_le {m size : ℕ} (h : m ≤ size) : capacity m size = size := by
  rw [capacity, if_pos h]

theorem capacity_of_lt {m size : ℕ} (h : size < m) : capacity m size = capacity m (grown size) := by
  rw [capacity, if_neg (by omega), grown]

theorem le_capacity (m size : ℕ) : m ≤ capacity m size := by
  induction size using capacity.induct m with
  | case1 size h => rw [capacity_of_le h]; exact h
  | case2 size h ih => rw [capacity_of_lt (by omega)]; exact ih

/-- A block grows to the same size in one go or in two. -/
theorem capacity_capacity {m m' : ℕ} (size : ℕ) (h : m ≤ m') : capacity m' (capacity m size) = capacity m' size := by
  induction size using capacity.induct m with
  | case1 size hm => rw [capacity_of_le hm]
  | case2 size hm ih =>
    rw [capacity_of_lt (by omega : size < m), capacity_of_lt (by omega : size < m')]
    exact ih

section Program

variable (mem : Realloc) (signed : Bool) (delimiter : Byte)

/-- What `enlarge` does. -/
theorem enlarge_spec {cur : Cursor} (ok : cur.Ok) :
    cur.enlarge mem = .error .die ∨
      ∃ block, cur.enlarge mem = .ok ⟨grown cur.size, block, cur.size, grown cur.size⟩ ∧
        block.length = grown cur.size ∧ block.take cur.size = cur.buffer := by
  have hb := ok.block
  unfold Cursor.enlarge
  cases hx : x2nrealloc cur.buffer.isEmpty cur.size 1 with
  | none => exact Or.inl rfl
  | some n =>
    have hn : n = grown cur.size := by
      unfold x2nrealloc at hx
      unfold grown
      cases hbuf : cur.buffer with
      | nil =>
        have h0 : cur.size = 0 := by rw [← hb, hbuf]; rfl
        simpa [hbuf, h0] using hx.symm
      | cons c cs =>
        have h0 : cur.size ≠ 0 := by rw [← hb, hbuf]; simp
        simp only [hbuf, List.isEmpty_cons, Bool.false_eq_true, if_false] at hx
        split at hx
        · cases hx
        · rw [if_neg h0]; exact (Option.some.inj hx).symm
    subst hn
    simp only
    cases hr : mem.realloc cur.buffer (grown cur.size) with
    | none => exact Or.inl rfl
    | some block =>
      have hle : cur.buffer.length ≤ grown cur.size := by rw [hb]; exact (lt_grown _).le
      obtain ⟨hlen, htake⟩ := mem.keeps hr hle
      rw [hb] at htake
      exact Or.inr ⟨block, rfl, hlen, htake⟩

/-- `*p++ = c` inside of the block. -/
theorem store_of_lt {cur : Cursor} (c : Byte) (h : cur.p < cur.buffer.length) :
    cur.store c = .ok ⟨cur.size, cur.buffer.set cur.p c, cur.p + 1, cur.stop⟩ := by
  rw [Cursor.store, if_pos h]

/-- What a pass leaves when it puts a byte: a byte more, and, where there was room, the same bytes before it. -/
structure Put (cur : Cursor) (c : Byte) (cur' : Cursor) : Prop where
  ok : cur'.Ok
  pos : 0 < cur'.p
  last : cur'.last = some c
  lt : cur.p < cur'.p
  room : cur.Room 1 → cur'.p = cur.p + 1 ∧ cur'.text = cur.text ++ [c] ∧ cur'.size = capacity cur'.p cur.size ∧
    ∀ m, cur.Room (m + 1) ↔ cur'.Room m
  jump : ¬ cur.Room 1 → cur.p + 1 < cur'.p

/-- A byte that was put with `p` before the end. -/
theorem put_store {cur : Cursor} (c : Byte) (ok : cur.Ok) (h : cur.p < cur.stop) :
    Put cur c ⟨cur.size, cur.buffer.set cur.p c, cur.p + 1, cur.stop⟩ := by
  have hb := ok.block
  have hs := ok.stop_le
  have hp : cur.p < cur.buffer.length := by omega
  constructor
  · constructor
    · simpa using hb
    · exact h
    · exact hs
  · exact Nat.succ_pos _
  · simp [Cursor.last, hp]
  · exact Nat.lt_succ_self _
  · intro _
    refine ⟨rfl, ?_, (capacity_of_le (by simp only; omega)).symm, ?_⟩
    · simp [Cursor.text, List.take_add_one, hp, List.take_set_of_le]
    · intro m
      simp only [Cursor.Room, Nat.add_assoc, Nat.add_comm 1 m]
  · intro hr
    exact absurd (Or.inl h) hr

/-- The end of a pass: the program ends, or the byte has been put. -/
theorem put_spec {cur : Cursor} (c : Byte) (ok : cur.Ok) :
    cur.put mem c = .error .die ∨ ∃ cur', cur.put mem c = .ok cur' ∧ Put cur c cur' := by
  have hb := ok.block
  have hp := ok.p_le
  have hs := ok.stop_le
  unfold Cursor.put
  by_cases hend : cur.p = cur.stop
  · rw [if_pos hend]
    obtain he | ⟨block, he, hlen, htake⟩ := enlarge_spec mem ok
    · left; rw [he]
    · right
      have hg := lt_grown cur.size
      have ok' : Cursor.Ok ⟨grown cur.size, block, cur.size, grown cur.size⟩ := ⟨hlen, hg.le, le_rfl⟩
      have put := put_store c ok' hg
      refine ⟨_, by rw [he]; exact store_of_lt c (by simp only; omega), put.ok, put.pos, put.last, ?_, ?_, ?_⟩
      · simp only; omega
      · intro hr
        -- The sentinel is the end of the block: `p` stays where it was.
        have hsize : cur.stop = cur.size := by
          rcases hr with hr | hr
          · omega
          · exact hr
        obtain ⟨-, htext, -, -⟩ := put.room (Or.inr rfl)
        refine ⟨by simp only; omega, ?_, ?_, fun m => iff_of_true (Or.inr hsize) (Or.inr rfl)⟩
        · rw [htext]
          simp only [Cursor.text]
          rw [htake, hend, hsize, ← hb, List.take_length]
        · simp only
          rw [capacity_of_lt (by omega), capacity_of_le (by omega)]
      · intro hr
        have : cur.stop ≠ cur.size := fun h => hr (Or.inr h)
        simp only
        omega
  · rw [if_neg hend]
    right
    have hlt : cur.p < cur.stop := by omega
    exact ⟨_, store_of_lt c (by omega), put_store c ok hlt⟩

/-! ## A call -/

/-- Whether `c != delimiter` ends the loop. -/
def Hits (signed : Bool) (delimiter c : Byte) : Prop := (c.toNat : ℤ) = charInt signed delimiter

instance (signed : Bool) (delimiter c : Byte) : Decidable (Hits signed delimiter c) := by
  unfold Hits; infer_instance

/-- The bytes that a call still puts when `last` is the byte put last. -/
def restOfLine (signed : Bool) (delimiter : Byte) : Option Byte → List Byte → List Byte
  | last, [] => if last = some delimiter then [] else [delimiter]
  | _, c :: rest => if Hits signed delimiter c then [c] else c :: restOfLine signed delimiter (some c) rest

/-- The stream after a call. -/
def afterLine (signed : Bool) (delimiter : Byte) (stream : File) : List Byte → File
  | [] => stream.atEnd
  | c :: rest =>
    if Hits signed delimiter c then { stream with rest := rest } else afterLine signed delimiter stream rest

/-- What a call leaves that puts the bytes `line`. -/
structure Called (cur : Cursor) (line : List Byte) (lb : Linebuffer) : Prop where
  ok : lb.Ok
  room : cur.Room line.length → lb.text = cur.text ++ line ∧ lb.length = cur.p + line.length ∧
    lb.size = capacity lb.length cur.size
  jump : ¬ cur.Room line.length → cur.p + line.length < lb.length

/-- A call that puts no more. -/
theorem called_nil {cur : Cursor} (ok : cur.Ok) : Called cur [] cur.line := by
  have hp := ok.p_le
  have hs := ok.stop_le
  constructor
  · exact ⟨ok.block, by simp only [Cursor.line]; omega⟩
  · intro _
    refine ⟨by simp [Linebuffer.text, Cursor.line, Cursor.text], rfl, ?_⟩
    exact (capacity_of_le (by simp only [Cursor.line]; omega)).symm
  · intro hr
    exact absurd (Or.inl hp) hr

/-- A call that puts a byte and then a line. -/
theorem called_cons {cur cur' : Cursor} {c : Byte} {line : List Byte} {lb : Linebuffer} (put : Put cur c cur')
    (called : Called cur' line lb) : Called cur (c :: line) lb := by
  have hlt := put.lt
  -- However the rest goes, it is put behind `p`.
  have hlen : cur'.p + line.length ≤ lb.length := by
    by_cases hr : cur'.Room line.length
    · exact (called.room hr).2.1.ge
    · exact (called.jump hr).le
  constructor
  · exact called.ok
  · intro hr
    have hr1 : cur.Room 1 := by
      rcases hr with hr | hr
      · rw [List.length_cons] at hr
        exact Or.inl (by omega)
      · exact Or.inr hr
    obtain ⟨hp, htext, hsize, hroom⟩ := put.room hr1
    obtain ⟨htext', hlen', hsize'⟩ := called.room ((hroom _).mp hr)
    refine ⟨?_, ?_, ?_⟩
    · rw [htext', htext, List.append_assoc, List.singleton_append]
    · rw [hlen', hp, List.length_cons]; omega
    · rw [hsize', hsize, capacity_capacity cur.size (by omega)]
  · intro hr
    rw [List.length_cons] at hr ⊢
    by_cases hr1 : cur.Room 1
    · obtain ⟨hp, -, -, hroom⟩ := put.room hr1
      have := called.jump (fun h => hr ((hroom _).mpr h))
      omega
    · have := put.jump hr1
      omega

/-- The byte before `p`. -/
theorem last_eq {cur : Cursor} (ok : cur.Ok) (hp : 0 < cur.p) :
    ∃ c, cur.last = some c ∧ cur.buffer[cur.p - 1]? = some c := by
  have hb := ok.block
  have := ok.p_le
  have := ok.stop_le
  have hlt : cur.p - 1 < cur.buffer.length := by omega
  refine ⟨cur.buffer[cur.p - 1], ?_, List.getElem?_eq_getElem hlt⟩
  rw [Cursor.last, if_neg (by omega), List.getElem?_eq_getElem hlt]

/-- The loop ends the program, or it puts the rest of the line. -/
theorem readLoop_spec (length : ℕ) {stream : File} (he : stream.ferror = false) (hf : stream.fails = false)
    (bytes : List Byte) {cur : Cursor} (ok : cur.Ok) (hsome : 0 < cur.p ∨ bytes ≠ []) :
    readLoop mem signed delimiter length stream bytes cur = .error .die ∨
      ∃ lb, readLoop mem signed delimiter length stream bytes cur =
          .ok (true, lb, afterLine signed delimiter stream bytes) ∧
        Called cur (restOfLine signed delimiter cur.last bytes) lb := by
  induction bytes generalizing cur with
  | nil =>
    have hp : 0 < cur.p := hsome.resolve_right (fun h => h rfl)
    obtain ⟨c, hlast, hget⟩ := last_eq ok hp
    have hno : ¬ (cur.p = 0 ∨ stream.atEnd.ferror) := by
      rintro (h | h)
      · omega
      · simp [File.atEnd, he, hf] at h
    simp only [readLoop, if_neg hno, hget, restOfLine, hlast, afterLine, Option.some.injEq]
    by_cases hc : c = delimiter
    · right
      rw [if_pos hc, if_pos hc]
      exact ⟨_, rfl, called_nil ok⟩
    · rw [if_neg hc, if_neg hc]
      obtain hput | ⟨cur', hput, put⟩ := put_spec mem delimiter ok
      · left; rw [hput]
      · right
        rw [hput]
        exact ⟨_, rfl, called_cons put (called_nil put.ok)⟩
  | cons c rest ih =>
    simp only [readLoop, restOfLine, afterLine]
    obtain hput | ⟨cur', hput, put⟩ := put_spec mem c ok
    · left; rw [hput]
    · rw [hput]
      by_cases hc : Hits signed delimiter c
      · right
        simp only [if_pos hc]
        exact ⟨_, by rw [if_pos (by exact hc)], called_cons put (called_nil put.ok)⟩
      · simp only [if_neg hc]
        rw [if_neg (by exact hc)]
        obtain h | ⟨lb, h, called⟩ := ih put.ok (Or.inl put.pos)
        · exact Or.inl h
        · right
          rw [put.last] at called
          exact ⟨lb, h, called_cons put called⟩

theorem Linebuffer.Ok.length_text {lb : Linebuffer} (ok : lb.Ok) : lb.text.length = lb.length := by
  have hb := ok.block
  have hl := ok.line
  rw [Linebuffer.text, List.length_take]
  omega

/-- A call on a stream with bytes ends the program, or it puts a line; the text is that line exactly when it fits. -/
theorem delim_spec {lb : Linebuffer} (ok : lb.Ok) {stream : File} (he : stream.ferror = false)
    (hf : stream.fails = false) (heof : stream.feof = false) (hrest : stream.rest ≠ []) :
    readlinebufferDelim mem signed delimiter lb stream = .error .die ∨
      ∃ lb', readlinebufferDelim mem signed delimiter lb stream =
          .ok (true, lb', afterLine signed delimiter stream stream.rest) ∧ lb'.Ok ∧
        let line := restOfLine signed delimiter none stream.rest
        (lb'.text = line ↔ line.length ≤ lb.length ∨ lb.length = lb.size) ∧
        line.length ≤ lb'.length ∧
        (lb'.length = line.length → lb'.text = line ∧ lb'.size = capacity line.length lb.size) := by
  unfold readlinebufferDelim
  rw [heof, if_neg Bool.false_ne_true]
  have okc : Cursor.Ok ⟨lb.size, lb.buffer, 0, lb.length⟩ := ⟨ok.block, Nat.zero_le _, ok.line⟩
  obtain h | ⟨lb', h, called⟩ := readLoop_spec mem signed delimiter lb.length he hf
    stream.rest okc (Or.inr hrest)
  · exact Or.inl h
  · right
    have hlast : Cursor.last ⟨lb.size, lb.buffer, 0, lb.length⟩ = none := rfl
    rw [hlast] at called
    -- A line that is too long for the buffer leaves more bytes in it than it has.
    have hroom : lb'.length = (restOfLine signed delimiter none stream.rest).length →
        Cursor.Room (restOfLine signed delimiter none stream.rest).length ⟨lb.size, lb.buffer, 0, lb.length⟩ := by
      intro hlen
      by_contra hr
      have := called.jump hr
      omega
    refine ⟨lb', h, called.ok, ⟨?_, ?_⟩, ?_, ?_⟩
    · intro htext
      simpa [Cursor.Room] using hroom (by rw [← htext, called.ok.length_text])
    · intro hr
      exact (called.room (by simpa [Cursor.Room] using hr)).1
    · by_cases hr : Cursor.Room (restOfLine signed delimiter none stream.rest).length ⟨lb.size, lb.buffer, 0, lb.length⟩
      · have := (called.room hr).2.1
        omega
      · have := called.jump hr
        omega
    · intro hlen
      obtain ⟨htext, -, hsize⟩ := called.room (hroom hlen)
      exact ⟨htext, by rw [hsize, hlen]⟩

/-- A call at the end of the file. -/
theorem delim_nil (lb : Linebuffer) {stream : File} (hs : stream.Ok) (hrest : stream.rest = []) :
    ∃ stream', readlinebufferDelim mem signed delimiter lb stream = .ok (false, lb, stream') ∧
      stream'.rest = [] ∧ stream'.Ok := by
  unfold readlinebufferDelim
  by_cases heof : stream.feof
  · exact ⟨stream, by rw [if_pos heof], hrest, hs⟩
  · refine ⟨stream.atEnd, by simp [heof, hrest, readLoop], ?_⟩
    unfold File.atEnd
    rw [hs.fails, if_neg Bool.false_ne_true]
    exact ⟨rfl, hs.ferror, rfl, fun _ => rfl⟩

end Program

/-! ## The pieces -/

section Pieces

variable {signed : Bool} {delimiter : Byte}

/-- A delimiter that keeps its value as a `char` is found. -/
theorem hits_iff (h : charInt signed delimiter = delimiter.toNat) (c : Byte) :
    Hits signed delimiter c ↔ c = delimiter := by
  unfold Hits
  rw [h]
  constructor
  · intro hc
    exact UInt8.toNat_inj.mp (by exact_mod_cast hc)
  · intro hc
    rw [hc]

/-- A delimiter that is negative as a `char` is never found. -/
theorem not_hits (h : charInt signed delimiter ≠ delimiter.toNat) (c : Byte) : ¬ Hits signed delimiter c := by
  intro hc
  unfold Hits at hc
  unfold charInt at h hc
  have := delimiter.toNat_lt
  split at h
  · rename_i hs
    rw [if_pos hs] at hc
    omega
  · exact h rfl

theorem pieces_ne_nil {c : Byte} {rest : List Byte} : pieces delimiter (c :: rest) ≠ [] := by
  unfold pieces
  split
  · exact List.cons_ne_nil _ _
  · split <;> exact List.cons_ne_nil _ _

theorem afterLine_nil_rest (signed : Bool) (delimiter : Byte) (stream : File) :
    (afterLine signed delimiter stream []).rest = [] := by
  unfold afterLine File.atEnd
  split <;> rfl

/-- A call reads the first piece of the stream. -/
theorem pieces_cons (h : charInt signed delimiter = delimiter.toNat) (stream : File) (bytes : List Byte)
    (hne : bytes ≠ []) :
    pieces delimiter bytes =
      restOfLine signed delimiter none bytes :: pieces delimiter (afterLine signed delimiter stream bytes).rest := by
  induction bytes with
  | nil => exact absurd rfl hne
  | cons c rest ih =>
    simp only [pieces, restOfLine, afterLine, hits_iff h]
    by_cases hc : c = delimiter
    · simp [hc]
    · simp only [if_neg hc]
      cases rest with
      | nil =>
        have hrest := afterLine_nil_rest signed delimiter stream
        rw [hrest]
        simp [pieces, restOfLine, hc]
      | cons c' rest =>
        rw [ih (List.cons_ne_nil _ _)]
        rfl

/-- When the delimiter is never found, all the rest of the stream is one line. -/
theorem length_le_restOfLine (h : charInt signed delimiter ≠ delimiter.toNat) (last : Option Byte) (bytes : List Byte) :
    bytes.length ≤ (restOfLine signed delimiter last bytes).length := by
  induction bytes generalizing last with
  | nil => exact Nat.zero_le _
  | cons c rest ih =>
    rw [restOfLine, if_neg (not_hits h c), List.length_cons, List.length_cons]
    exact Nat.succ_le_succ (ih _)

theorem afterLine_rest (h : charInt signed delimiter ≠ delimiter.toNat) (stream : File) (bytes : List Byte) :
    (afterLine signed delimiter stream bytes).rest = [] := by
  induction bytes with
  | nil => exact afterLine_nil_rest signed delimiter stream
  | cons c rest ih => rw [afterLine, if_neg (not_hits h c)]; exact ih

/-- The only piece of a stream is such a line. -/
theorem pieces_singleton (h : charInt signed delimiter ≠ delimiter.toNat) {bytes q : List Byte}
    (hq : pieces delimiter bytes = [q]) : restOfLine signed delimiter none bytes = q := by
  induction bytes generalizing q with
  | nil => cases hq
  | cons c rest ih =>
    rw [restOfLine, if_neg (not_hits h c)]
    cases rest with
    | nil =>
      by_cases hc : c = delimiter <;> simp_all [pieces, restOfLine]
    | cons c' rest =>
      rw [pieces] at hq
      by_cases hc : c = delimiter
      · rw [if_pos hc, List.cons.injEq] at hq
        exact absurd hq.2 pieces_ne_nil
      · rw [if_neg hc] at hq
        cases hp : pieces delimiter (c' :: rest) with
        | nil => exact absurd hp pieces_ne_nil
        | cons p ps =>
          simp only [hp, List.cons.injEq] at hq
          obtain ⟨rfl, rfl⟩ := hq
          rw [← ih hp]
          rfl

/-- The first of more than one piece is shorter than the stream. -/
theorem length_piece_lt {bytes q r : List Byte} {qs : List (List Byte)} (hq : pieces delimiter bytes = q :: r :: qs) :
    q.length < bytes.length := by
  induction bytes generalizing q with
  | nil => cases hq
  | cons c rest ih =>
    rw [pieces] at hq
    by_cases hc : c = delimiter
    · rw [if_pos hc, List.cons.injEq] at hq
      obtain ⟨rfl, hrest⟩ := hq
      cases rest with
      | nil => cases hrest
      | cons c' rest => simp
    · rw [if_neg hc] at hq
      cases hp : pieces delimiter rest with
      | nil => simp [hp] at hq
      | cons p ps =>
        simp only [hp, List.cons.injEq] at hq
        obtain ⟨rfl, rfl⟩ := hq
        exact Nat.succ_lt_succ (ih hp)

end Pieces

/-! ## All calls -/

section Readings

variable {mem : Realloc} {signed : Bool} {delimiter : Byte}

/-- At the end of the file every call gives `NULL`. -/
theorem readings_nil (n : ℕ) {lb : Linebuffer} {stream : File} (hs : stream.Ok) (hrest : stream.rest = []) :
    readings mem signed delimiter n lb stream = expected n [] := by
  induction n generalizing stream with
  | zero => rfl
  | succ n ih =>
    obtain ⟨stream', h, hrest', hs'⟩ := delim_nil mem signed delimiter lb hs hrest
    rw [readings, h, expected]
    simp only
    rw [ih hs' hrest']

theorem afterLine_ok {stream : File} (ok : stream.Ok) (heof : stream.feof = false) (bytes : List Byte) :
    (afterLine signed delimiter stream bytes).Ok := by
  induction bytes with
  | nil =>
    unfold afterLine File.atEnd
    rw [ok.fails, if_neg Bool.false_ne_true]
    exact ⟨ok.ferror, rfl, fun _ => rfl⟩
  | cons c rest ih =>
    unfold afterLine
    split
    · exact ⟨ok.ferror, ok.fails, fun h => absurd (h.symm.trans heof) (by simp)⟩
    · exact ih

/-- No call touches a byte outside the block. -/
theorem wild_not_mem_readings (n : ℕ) {lb : Linebuffer} (ok : lb.Ok) {stream : File} (hs : stream.Ok) :
    Reading.fault .wild ∉ readings mem signed delimiter n lb stream := by
  induction n generalizing lb stream with
  | zero => exact List.not_mem_nil
  | succ n ih =>
    by_cases hrest : stream.rest = []
    · rw [readings_nil _ hs hrest]
      intro h
      have : ∀ m, Reading.fault .wild ∉ expected m [] := by
        intro m
        induction m with
        | zero => exact List.not_mem_nil
        | succ m ih => simpa [expected] using ih
      exact this _ h
    · have heof : stream.feof = false := by
        cases he : stream.feof with
        | false => rfl
        | true => exact absurd (hs.feof he) hrest
      rw [readings]
      obtain h | ⟨lb', h, ok', -⟩ := delim_spec mem signed delimiter ok hs.ferror
        hs.fails heof hrest
      · rw [h]; simp
      · rw [h]
        simp only [List.mem_cons, reduceCtorEq, false_or]
        exact ih ok' (afterLine_ok hs heof _)

/-- With a delimiter that is found, the calls give the pieces as long as they fit. -/
theorem readings_iff_fits (hd : charInt signed delimiter = delimiter.toNat) (n : ℕ) {lb : Linebuffer} (ok : lb.Ok)
    {stream : File} (hs : stream.Ok) (hdie : Reading.fault .die ∉ readings mem signed delimiter n lb stream) :
    readings mem signed delimiter n lb stream = expected n (pieces delimiter stream.rest) ↔
      Fits n lb.length lb.size (pieces delimiter stream.rest) := by
  induction n generalizing lb stream with
  | zero => exact iff_of_true rfl trivial
  | succ n ih =>
    by_cases hrest : stream.rest = []
    · rw [readings_nil _ hs hrest, hrest]
      exact iff_of_true rfl trivial
    · have heof : stream.feof = false := by
        cases he : stream.feof with
        | false => rfl
        | true => exact absurd (hs.feof he) hrest
      rw [pieces_cons hd stream _ hrest]
      rw [readings] at hdie ⊢
      obtain h | ⟨lb', h, ok', hiff, -, himp⟩ := delim_spec mem signed delimiter ok
        hs.ferror hs.fails heof hrest
      · rw [h] at hdie
        simp at hdie
      · rw [h] at hdie ⊢
        simp only [List.mem_cons, reduceCtorEq, false_or] at hdie
        simp only [expected, Fits, List.cons.injEq, Reading.line.injEq]
        rw [ih ok' (afterLine_ok hs heof _) hdie, ← hiff]
        refine and_congr_right (fun htext => ?_)
        have hlen := ok'.length_text
        rw [htext] at hlen
        rw [← hlen, (himp hlen.symm).2]

/-- With a delimiter that is never found, the first call takes the whole stream. -/
theorem readings_iff_single (hd : charInt signed delimiter ≠ delimiter.toNat) (n : ℕ) {stream : File} (hs : stream.Ok)
    (hdie : Reading.fault .die ∉ readings mem signed delimiter (n + 1) initbuffer stream) :
    readings mem signed delimiter (n + 1) initbuffer stream = expected (n + 1) (pieces delimiter stream.rest) ↔
      (pieces delimiter stream.rest).length ≤ 1 := by
  have ok : initbuffer.Ok := ⟨rfl, le_rfl⟩
  by_cases hrest : stream.rest = []
  · rw [readings_nil _ hs hrest, hrest]
    exact iff_of_true rfl (Nat.zero_le _)
  · have heof : stream.feof = false := by
      cases he : stream.feof with
      | false => rfl
      | true => exact absurd (hs.feof he) hrest
    rw [readings] at hdie ⊢
    obtain h | ⟨lb', h, -, hiff, -, -⟩ := delim_spec mem signed delimiter ok
      hs.ferror hs.fails heof hrest
    · rw [h] at hdie
      simp at hdie
    · rw [h]
      have htext := hiff.mpr (Or.inr rfl)
      simp only [htext, readings_nil n (afterLine_ok hs heof _) (afterLine_rest hd stream stream.rest)]
      match hp : pieces delimiter stream.rest with
      | [] =>
        obtain ⟨c, rest, hc⟩ := List.exists_cons_of_ne_nil hrest
        rw [hc] at hp
        exact absurd hp pieces_ne_nil
      | [q] => exact iff_of_true (by rw [pieces_singleton hd hp, expected]) le_rfl
      | q :: r :: qs =>
        refine iff_of_false ?_ (by simp)
        intro heq
        rw [expected, List.cons.injEq, Reading.line.injEq] at heq
        have h1 := length_le_restOfLine hd none stream.rest
        have h2 := length_piece_lt hp
        rw [heq.1] at h1
        omega

/-- The pieces of a stream that has at most one fit. -/
theorem fits_of_length_le {n : ℕ} {qs : List (List Byte)} (h : qs.length ≤ 1) : Fits n 0 0 qs := by
  match n, qs, h with
  | 0, _, _ => trivial
  | _ + 1, [], _ => trivial
  | 0 + 1, [q], _ => exact ⟨Or.inr rfl, trivial⟩
  | _ + 1 + 1, [q], _ => exact ⟨Or.inr rfl, trivial⟩

/-- Calls of `readlinebuffer_delim` with a fresh buffer, as long as the memory suffices: none touches a byte outside the
block, and they give the pieces of the stream and then `NULL` exactly when each piece but the first is no longer than
the one before it or that one has filled the block, and the delimiter is one that is found or not needed. -/
theorem readings_iff (mem : Realloc) (signed : Bool) (delimiter : Byte) (bytes : List Byte) (n : ℕ)
    (hdie : Reading.fault .die ∉ readings mem signed delimiter n initbuffer (File.ofBytes bytes)) :
    Reading.fault .wild ∉ readings mem signed delimiter n initbuffer (File.ofBytes bytes) ∧
      (readings mem signed delimiter n initbuffer (File.ofBytes bytes) = expected n (pieces delimiter bytes) ↔
        Fits n 0 0 (pieces delimiter bytes) ∧
          (n = 0 ∨ charInt signed delimiter = delimiter.toNat ∨ (pieces delimiter bytes).length ≤ 1)) := by
  have ok : initbuffer.Ok := ⟨rfl, le_rfl⟩
  have hs : (File.ofBytes bytes).Ok := ⟨rfl, rfl, fun h => by cases h⟩
  refine ⟨wild_not_mem_readings n ok hs, ?_⟩
  by_cases hd : charInt signed delimiter = delimiter.toNat
  · rw [and_iff_left (Or.inr (Or.inl hd))]
    exact readings_iff_fits hd n ok hs hdie
  · cases n with
    | zero => exact iff_of_true rfl ⟨trivial, Or.inl rfl⟩
    | succ n =>
      rw [show pieces delimiter bytes = pieces delimiter (File.ofBytes bytes).rest from rfl,
        readings_iff_single hd n hs hdie]
      constructor
      · intro hle
        exact ⟨fits_of_length_le hle, Or.inr (Or.inr hle)⟩
      · rintro ⟨-, h | h | h⟩
        · cases h
        · exact absurd h hd
        · exact h

/-- A `realloc` that never fails, and that clears the new bytes. -/
def clearing : Realloc where
  realloc p n := some (p ++ List.replicate (n - p.length) 0)
  keeps := by
    rintro p n q h hle
    obtain rfl := Option.some.inj h
    constructor
    · simp only [List.length_append, List.length_replicate]
      omega
    · exact List.take_left

/-- The second of the lines `ab` and `c` is shorter than the first. -/
theorem readings_iff_shorter :
    Reading.fault .wild ∉ readings clearing true 10 3 initbuffer (File.ofBytes [97, 98, 10, 99]) ∧
      readings clearing true 10 3 initbuffer (File.ofBytes [97, 98, 10, 99]) =
        expected 3 (pieces 10 [97, 98, 10, 99]) := by
  have h := readings_iff clearing true 10 [97, 98, 10, 99] 3 (by decide +kernel)
  refine ⟨h.1, h.2.mpr ⟨?_, Or.inr (Or.inl rfl)⟩⟩
  have hp : pieces 10 [97, 98, 10, 99] = [[97, 98, 10], [99, 10]] := by decide
  rw [hp]
  simp [Fits]

/-- The second of the lines `a` and `bc` is longer: its first two bytes are the first two of the block, and the third is
behind the block as it was. -/
theorem readings_longer_line :
    Reading.fault .die ∉ readings clearing true 10 2 initbuffer (File.ofBytes [97, 10, 98, 99, 10]) ∧
      pieces 10 [97, 10, 98, 99, 10] = [[97, 10], [98, 99, 10]] ∧
      readings clearing true 10 2 initbuffer (File.ofBytes [97, 10, 98, 99, 10]) =
        [.line [97, 10], .line ([98, 99] ++ List.replicate 62 0 ++ [10])] ∧
      readings clearing true 10 2 initbuffer (File.ofBytes [97, 10, 98, 99, 10]) ≠
        expected 2 (pieces 10 [97, 10, 98, 99, 10]) := by
  decide +kernel

end Readings

end CodingExercises.Coreutils
