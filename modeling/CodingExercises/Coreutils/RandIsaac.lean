import CodingExercises.Coreutils.Xalloc

/-!
# coreutils: the ISAAC generator

`lib/rand-isaac.c`. The state array is memory, since it is filled byte by byte when it is seeded; how a word is stored in
memory is a parameter. A store outside of the array has no value.
-/

namespace CodingExercises.Coreutils.RandIsaac

/-- How words are stored in memory. -/
structure ByteOrder where
  bytes : UInt32 → Vector Byte 4
  word : Vector Byte 4 → UInt32
  word_bytes : ∀ w, word (bytes w) = w

/-- The byte of least weight first. -/
def littleEndian : ByteOrder where
  bytes w := #v[.ofNat w.toNat, .ofNat (w.toNat / 2 ^ 8), .ofNat (w.toNat / 2 ^ 16), .ofNat (w.toNat / 2 ^ 24)]
  word b := .ofNat (b[0].toNat + 2 ^ 8 * b[1].toNat + 2 ^ 16 * b[2].toNat + 2 ^ 24 * b[3].toNat)
  word_bytes w := by
    apply UInt32.toNat_inj.mp
    have hlt := w.toNat_lt
    simp only [UInt32.toNat_ofNat', UInt8.toNat_ofNat', Vector.getElem_mk, List.getElem_toArray, List.getElem_cons_zero,
      List.getElem_cons_succ]
    omega

/-- `ISAAC_LOG`. -/
def isaacLog : UInt32 := 8

/-- `ISAAC_BYTES`: there are 256 words. -/
def isaacBytes : ℕ := 1024

/-- `mm`. -/
abbrev Mem := Vector Byte 1024

/-- A word of the array. -/
def Mem.word (o : ByteOrder) (mm : Mem) (i : Fin 256) : UInt32 :=
  o.word #v[mm.get ⟨4 * i, by omega⟩, mm.get ⟨4 * i + 1, by omega⟩, mm.get ⟨4 * i + 2, by omega⟩, mm.get ⟨4 * i + 3, by omega⟩]

/-- A word of the array is set. -/
def Mem.setWord (o : ByteOrder) (mm : Mem) (i : Fin 256) (w : UInt32) : Mem :=
  let b := o.bytes w
  let mm := mm.set (4 * i) b[0] (by omega)
  let mm := mm.set (4 * i + 1) b[1] (by omega)
  let mm := mm.set (4 * i + 2) b[2] (by omega)
  mm.set (4 * i + 3) b[3] (by omega)

/-- `struct isaac_state`. -/
structure IsaacState where
  mm : Mem
  iv : Vector UInt32 8
  a : UInt32
  b : UInt32
  c : UInt32

/-! ## `isaac_refill` -/

/-- `ind`. -/
def ind (o : ByteOrder) (mm : Mem) (x : UInt32) : UInt32 := mm.word o (Fin.ofNat 256 ((x &&& 1020).toNat / 4))

/-- `mm`, `a`, `b` and the words of `r` so far. -/
structure Filling where
  mm : Mem
  a : UInt32
  b : UInt32
  r : List UInt32

/-- `isaac_step`, for the word `i`. -/
def isaacStep (o : ByteOrder) (mix : UInt32 → UInt32) (off : Fin 256) (s : Filling) (i : Fin 256) : Filling :=
  let a := (s.a ^^^ mix s.a) + s.mm.word o (i + off)
  let x := s.mm.word o i
  let y := ind o s.mm x + a + s.b
  let mm := s.mm.setWord o i y
  let b := ind o mm (y >>> isaacLog) + x
  ⟨mm, a, b, s.r ++ [b]⟩

/-- The body of the loops of `isaac_refill`. -/
def isaacSteps (o : ByteOrder) (off : Fin 256) (s : Filling) (m : Fin 256) : Filling :=
  let s := isaacStep o (· <<< 13) off s m
  let s := isaacStep o (· >>> 6) off s (m + 1)
  let s := isaacStep o (· <<< 2) off s (m + 2)
  isaacStep o (· >>> 16) off s (m + 3)

/-- `isaac_refill`: the state, and what is stored at `r`. -/
def isaacRefill (o : ByteOrder) (s : IsaacState) : IsaacState × List Byte :=
  let c := s.c + 1
  let f : Filling := ⟨s.mm, s.a, s.b + c, []⟩
  let f := (List.range 32).foldl (fun f k => isaacSteps o 128 f (Fin.ofNat 256 (4 * k))) f
  let f := (List.range 32).foldl (fun f k => isaacSteps o (-128) f (Fin.ofNat 256 (128 + 4 * k))) f
  (⟨f.mm, s.iv, f.a, f.b, c⟩, f.r.flatMap fun w => (o.bytes w).toList)

theorem length_isaacSteps (o : ByteOrder) (off : Fin 256) (s : Filling) (m : Fin 256) :
    (isaacSteps o off s m).r.length = s.r.length + 4 := by
  simp [isaacSteps, isaacStep]

theorem length_foldl_isaacSteps (o : ByteOrder) (off : Fin 256) (m : ℕ → Fin 256) (s : Filling) (l : List ℕ) :
    (l.foldl (fun s k => isaacSteps o off s (m k)) s).r.length = s.r.length + 4 * l.length := by
  induction l generalizing s with
  | nil => rfl
  | cons k l ih =>
    rw [List.foldl_cons, ih, length_isaacSteps, List.length_cons]
    omega

theorem length_isaacRefill (o : ByteOrder) (s : IsaacState) : (isaacRefill o s).2.length = isaacBytes := by
  have hwords (l : List UInt32) : (l.flatMap fun w => (o.bytes w).toList).length = 4 * l.length := by
    induction l with
    | nil => rfl
    | cons w l ih =>
      rw [List.flatMap_cons, List.length_append, ih, Vector.length_toList, List.length_cons]
      omega
  simp only [isaacRefill, hwords, length_foldl_isaacSteps, List.length_range, List.length_nil]
  rfl

/-! ## Seeding -/

/-- `mix`. -/
def mix (v : Vector UInt32 8) : Vector UInt32 8 :=
  let (a, b, c, d) := (v[0], v[1], v[2], v[3])
  let (e, f, g, h) := (v[4], v[5], v[6], v[7])
  let a := a ^^^ (b <<< 11)
  let d := d + a
  let b := b + c
  let b := b ^^^ (c >>> 2)
  let e := e + b
  let c := c + d
  let c := c ^^^ (d >>> 8)
  let f := f + c
  let d := d + e
  let d := d ^^^ (e >>> 16)
  let g := g + d
  let e := e + f
  let e := e ^^^ (f >>> 10)
  let h := h + e
  let f := f + g
  let f := f ^^^ (g >>> 4)
  let a := a + f
  let g := g + h
  let g := g ^^^ (h >>> 8)
  let b := b + g
  let h := h + a
  let h := h ^^^ (a >>> 9)
  let c := c + h
  let a := a + b
  #v[a, b, c, d, e, f, g, h]

/-- The body of the loop of `isaac_mix`, for the words from `8 * i` on. -/
def isaacMixStep (o : ByteOrder) (s : Mem × Vector UInt32 8) (i : Fin 32) : Mem × Vector UInt32 8 :=
  let at' (j : Fin 8) : Fin 256 := ⟨8 * i + j, by omega⟩
  let v := mix (Vector.ofFn fun j => s.2.get j + s.1.word o (at' j))
  ((List.finRange 8).foldl (fun mm j => mm.setWord o (at' j) (v.get j)) s.1, v)

/-- `isaac_mix`, where the seed is the state array itself. -/
def isaacMix (o : ByteOrder) (s : IsaacState) : IsaacState :=
  let (mm, iv) := (List.finRange 32).foldl (isaacMixStep o) (s.mm, s.iv)
  { s with mm, iv }

/-- The loops of `isaac_seed_data` that add bytes to the array, from the byte `i` on. -/
def xorBytes (mm : Mem) (i : ℕ) : List Byte → Option Mem
  | [] => some mm
  | b :: buf => if h : i < 1024 then xorBytes (mm.set i (mm[i] ^^^ b)) (i + 1) buf else none

/-- `isaac_seed_data` from the loop on. -/
def seedLoop (o : ByteOrder) (s : IsaacState) (avail : ℕ) (buf : List Byte) : Option IsaacState :=
  if buf.length > avail then do
    let mm ← xorBytes s.mm s.c.toNat (buf.take avail)
    seedLoop o { isaacMix o { s with mm } with c := 0 } isaacBytes (buf.drop avail)
  else do
    let mm ← xorBytes s.mm s.c.toNat buf
    some { s with mm, c := .ofNat buf.length }
  termination_by 2 * buf.length + if avail = 0 then 1 else 0
  decreasing_by
    rw [if_neg (by decide), List.length_drop]
    split <;> omega

/-- `isaac_seed_data`. -/
def isaacSeedData (o : ByteOrder) (s : IsaacState) (buf : List Byte) : Option IsaacState :=
  seedLoop o s ((isaacBytes + 2 ^ 64 - s.c.toNat) % 2 ^ 64) buf

/-- `isaac_seed_start`. -/
def isaacSeedStart : IsaacState where
  mm := Vector.replicate 1024 0
  iv := #v[0x1367df5a, 0x95d90059, 0xc3163e4b, 0x0f421ad8, 0xd92a4a78, 0xa51a3c49, 0xc4efea1b, 0x30609119]
  a := 0
  b := 0
  c := 0

/-- Calls of `isaac_seed_data`. -/
def seedPieces (o : ByteOrder) (s : IsaacState) (pieces : List (List Byte)) : Option IsaacState :=
  pieces.foldlM (isaacSeedData o) s

/-- `isaac_seed_finish`. -/
def isaacSeedFinish (o : ByteOrder) (s : IsaacState) : IsaacState := { isaacMix o (isaacMix o s) with c := 0 }

/-- `isaac_seed`, with the bytes of `getpid ()`, `getppid ()`, `getuid ()`, `getgid ()` and `gethrxtime ()`. -/
def isaacSeed (o : ByteOrder) (pid ppid uid gid time : List Byte) : Option IsaacState := do
  let s ← seedPieces o isaacSeedStart [pid, ppid, uid, gid, time]
  some (isaacSeedFinish o s)

end CodingExercises.Coreutils.RandIsaac
