import Mathlib.Data.List.Basic
import CodingExercises.Coreutils.Xalloc

/-!
# coreutils: the modes of chmod

`mode_compile` of `lib/modechange.c`. The pointer into the string is a `Pointer`, the bytes before it and those from it
on.

- An octal number is compiled as it should be (`compile_octal`);
- a string that starts with an operator makes the parser read the byte before the string, and any other symbolic mode
  is refused (`compile_symbolic`);
- so the function does what it should exactly on the strings that are neither (`compilesRight_iff`).
-/

namespace CodingExercises.Coreutils

/-- A string: the bytes before the one that ends it. -/
structure CString where
  bytes : List Byte
  noNul : 0 ∉ bytes

/-- The byte of a character. -/
def byte (c : Char) : Byte := UInt8.ofNat c.toNat

/-! ## Modes -/

/-- `mode_t`. -/
abbrev ModeT := UInt32

/-- `S_ISUID`. -/
def sIsuid : ModeT := 0o4000
/-- `S_ISGID`. -/
def sIsgid : ModeT := 0o2000
/-- `S_ISVTX`. -/
def sIsvtx : ModeT := 0o1000
/-- `S_IRWXU`. -/
def sIrwxu : ModeT := 0o700
/-- `S_IRWXG`. -/
def sIrwxg : ModeT := 0o070
/-- `S_IRWXO`. -/
def sIrwxo : ModeT := 0o007
/-- `S_IRUSR | S_IRGRP | S_IROTH`. -/
def sIrugo : ModeT := 0o444
/-- `S_IWUSR | S_IWGRP | S_IWOTH`. -/
def sIwugo : ModeT := 0o222
/-- `S_IXUSR | S_IXGRP | S_IXOTH`. -/
def sIxugo : ModeT := 0o111
/-- `S_IRWXUGO`. -/
def sIrwxugo : ModeT := sIrwxu ||| sIrwxg ||| sIrwxo
/-- `CHMOD_MODE_BITS`. -/
def chmodModeBits : ModeT := sIsuid ||| sIsgid ||| sIsvtx ||| sIrwxu ||| sIrwxg ||| sIrwxo
/-- `ALLM`. -/
def allm : ℕ := 0o7777

/-- `octal_to_mode`, where the mode bits have their traditional values. -/
def octalToMode (octal : ℕ) : ModeT := UInt32.ofNat octal

/-- The flags of a change. `MODE_DONE` is not among them: it is the end of the list. -/
inductive ModeFlag
  | ordinaryChange
  | xIfAnyX
  | copyExisting
deriving DecidableEq

/-- `struct mode_change`. -/
structure ModeChange where
  op : Byte
  flag : ModeFlag
  affected : ModeT
  value : ModeT
  mentioned : ModeT
deriving DecidableEq

/-- The size of a `struct mode_change`. -/
def sizeofModeChange : ℕ := 16

/-! ## The program -/

/-- Why a call does not return: the memory is exhausted, and `xalloc_die` ends the program; a byte before the string is
read; a change is stored behind the array. -/
inductive ModeFault
  | die
  | before
  | beyond
deriving DecidableEq

/-- `mode_string`: the bytes before it, the nearest first, and those from it on. -/
structure Pointer where
  before : List Byte
  rest : List Byte
deriving DecidableEq

/-- `*mode_string`. -/
def Pointer.get (p : Pointer) : Byte := p.rest.headD 0

/-- `mode_string++`, at a byte of the string. -/
def Pointer.next (p : Pointer) : Pointer :=
  match p.rest with
  | [] => p
  | c :: rest => ⟨c :: p.before, rest⟩

/-- `mode_string--`; nothing can be read before the string. -/
def Pointer.back (p : Pointer) : Option Pointer :=
  match p.before with
  | [] => none
  | c :: before => some ⟨before, c :: p.rest⟩

/-- An octal digit. -/
def isOctal (c : Byte) : Bool := byte '0' ≤ c && c < byte '8'

/-- One of `=+-`. -/
def isOp (c : Byte) : Bool := c = byte '=' || c = byte '+' || c = byte '-'

/-- `make_node_op_equals`. -/
def makeNodeOpEquals (newMode mentioned : ModeT) : List ModeChange :=
  [⟨byte '=', .ordinaryChange, chmodModeBits, newMode, mentioned⟩]

/-- The loop that reads an octal number; without a value it is too large. -/
def octalLoop : ℕ → List Byte → Option (ℕ × List Byte)
  | octalMode, [] => some (octalMode, [])
  | octalMode, c :: rest =>
    if isOctal c then
      let octalMode := 8 * octalMode + c.toNat - (byte '0').toNat
      if allm < octalMode then none else octalLoop octalMode rest
    else some (octalMode, c :: rest)

/-- The loop that turns on the bits in `affected`; without a value the string is invalid. -/
def affectedLoop (affected : ModeT) (before : List Byte) : List Byte → Option (ModeT × Pointer)
  | [] => none
  | c :: rest =>
    if c = byte 'u' then affectedLoop (affected ||| sIsuid ||| sIrwxu) (c :: before) rest
    else if c = byte 'g' then affectedLoop (affected ||| sIsgid ||| sIrwxg) (c :: before) rest
    else if c = byte 'o' then affectedLoop (affected ||| sIsvtx ||| sIrwxo) (c :: before) rest
    else if c = byte 'a' then affectedLoop (affected ||| chmodModeBits) (c :: before) rest
    else if isOp c then some (affected, ⟨before, c :: rest⟩)
    else none

/-- The loop that reads the values. -/
def valueLoop (value : ModeT) (flag : ModeFlag) (before : List Byte) : List Byte → ModeT × ModeFlag × Pointer
  | [] => (value, flag, ⟨before, []⟩)
  | c :: rest =>
    if c = byte 'r' then valueLoop (value ||| sIrugo) flag (c :: before) rest
    else if c = byte 'w' then valueLoop (value ||| sIwugo) flag (c :: before) rest
    else if c = byte 'x' then valueLoop (value ||| sIxugo) flag (c :: before) rest
    else if c = byte 'X' then valueLoop value .xIfAnyX (c :: before) rest
    else if c = byte 's' then valueLoop (value ||| sIsuid ||| sIsgid) flag (c :: before) rest
    else if c = byte 't' then valueLoop (value ||| sIsvtx) flag (c :: before) rest
    else (value, flag, ⟨before, c :: rest⟩)

/-- A change as it is stored. -/
def changeOf (op : Byte) (flag : ModeFlag) (affected value : ModeT) : ModeChange :=
  ⟨op, flag, affected, value, if affected ≠ 0 then affected &&& value else value⟩

/-- The body of the `do` loop up to the change: it does not go on behind the operator. -/
def readChange (affected : ModeT) (p : Pointer) : Except ModeFault (ModeChange × Pointer) :=
  let op := p.get
  if op = byte 'u' then .ok (changeOf op .copyExisting affected sIrwxu, p)
  else if op = byte 'g' then .ok (changeOf op .copyExisting affected sIrwxg, p)
  else if op = byte 'o' then .ok (changeOf op .copyExisting affected sIrwxo, p)
  else
    match p.back with
    | none => .error .before
    | some p =>
      let (value, flag, p) := valueLoop 0 .ordinaryChange p.before p.rest
      .ok (changeOf op flag affected value, p)

/-- The `do` loop, with `fuel` passes at most; `mc` are the changes stored in an array of `needed`. -/
def changeLoop (needed : ℕ) (affected : ModeT) :
    ℕ → List ModeChange → Pointer → Option (Except ModeFault (List ModeChange × Pointer))
  | 0, _, _ => none
  | fuel + 1, mc, p =>
    match readChange affected p with
    | .error e => some (.error e)
    | .ok (change, p) =>
      if mc.length < needed then
        if isOp p.get then changeLoop needed affected fuel (mc ++ [change]) p
        else some (.ok (mc ++ [change], p))
      else some (.error .beyond)

/-- The loop over the clauses, with `fuel` passes at most: the list that is returned, or `NULL`. -/
def clauseLoop (needed : ℕ) : ℕ → List ModeChange → Pointer → Option (Except ModeFault (Option (List ModeChange)))
  | 0, _, _ => none
  | fuel + 1, mc, p =>
    match affectedLoop 0 p.before p.rest with
    | none => some (.ok none)
    | some (affected, p) =>
      match changeLoop needed affected fuel mc p with
      | none => none
      | some (.error e) => some (.error e)
      | some (.ok (mc, p)) =>
        if p.get ≠ byte ',' then
          if p.get = 0 then
            if mc.length < needed then some (.ok (some mc)) else some (.error .beyond)
          else some (.ok none)
        else clauseLoop needed fuel mc p.next

/-- The number of changes that memory is allocated for. -/
def needed (s : List Byte) : ℕ := 1 + s.countP isOp

/-- `mode_compile`, where `malloc` says which sizes can be allocated: the changes up to the one with `MODE_DONE`, or
`NULL`. -/
def modeCompile (malloc : ℕ → Bool) (fuel : ℕ) (modeString : List Byte) :
    Option (Except ModeFault (Option (List ModeChange))) :=
  if isOctal (modeString.headD 0) then
    match octalLoop 0 modeString with
    | none => some (.ok none)
    | some (octalMode, rest) =>
      if rest.headD 0 ≠ 0 then some (.ok none)
      else
        let mode := octalToMode octalMode
        let mentioned := (mode &&& (sIsuid ||| sIsgid)) ||| sIsvtx ||| sIrwxugo
        if malloc (2 * sizeofModeChange) then some (.ok (some (makeNodeOpEquals mode mentioned)))
        else some (.error .die)
  else if xallocOversized (needed modeString) sizeofModeChange || !malloc (needed modeString * sizeofModeChange) then
    some (.error .die)
  else clauseLoop (needed modeString) fuel [] ⟨[], modeString⟩

/-! ## What is expected -/

/-- The number that some octal digits are. -/
def octalValue (s : List Byte) : ℕ := s.foldl (fun n c => 8 * n + (c.toNat - (byte '0').toNat)) 0

/-- An octal number that is at most 07777. -/
structure OctalNumber (s : List Byte) : Prop where
  ne_nil : s ≠ []
  digits : ∀ c ∈ s, isOctal c = true
  le : octalValue s ≤ 0o7777

/-- The owner, the group and the others. -/
inductive Owner
  | user
  | group
  | other

/-- `[ugoa]`. -/
inductive Who
  | owner (w : Owner)
  | all

/-- `[-+=]`. -/
inductive Op
  | remove
  | add
  | set

/-- `[rwxXst]`. -/
inductive Perm
  | r
  | w
  | x
  | xIfAnyX
  | s
  | t

/-- `[rwxXst]* | u | g | o`. -/
inductive Perms
  | bits (ps : List Perm)
  | copy (w : Owner)

/-- `[ugoa]* ([-+=] ([rwxXst]* | u | g | o))+`. -/
structure Clause where
  who : List Who
  first : Op × Perms
  more : List (Op × Perms)

/-- `clause(,clause)*`. -/
structure SymbolicMode where
  first : Clause
  more : List Clause

def Owner.text : Owner → Byte
  | .user => byte 'u'
  | .group => byte 'g'
  | .other => byte 'o'

def Who.text : Who → Byte
  | .owner w => w.text
  | .all => byte 'a'

def Op.text : Op → Byte
  | .remove => byte '-'
  | .add => byte '+'
  | .set => byte '='

def Perm.text : Perm → Byte
  | .r => byte 'r'
  | .w => byte 'w'
  | .x => byte 'x'
  | .xIfAnyX => byte 'X'
  | .s => byte 's'
  | .t => byte 't'

def Perms.text : Perms → List Byte
  | .bits ps => ps.map Perm.text
  | .copy w => [w.text]

def Clause.text (c : Clause) : List Byte :=
  c.who.map Who.text ++ (c.first :: c.more).flatMap fun a => a.1.text :: a.2.text

def SymbolicMode.text (m : SymbolicMode) : List Byte := m.first.text ++ m.more.flatMap fun c => byte ',' :: c.text

/-- The bits of an owner. -/
def Owner.rwx : Owner → ModeT
  | .user => sIrwxu
  | .group => sIrwxg
  | .other => sIrwxo

/-- The bits that a clause may affect. -/
def Who.bits : Who → ModeT
  | .owner .user => sIsuid ||| sIrwxu
  | .owner .group => sIsgid ||| sIrwxg
  | .owner .other => sIsvtx ||| sIrwxo
  | .all => chmodModeBits

/-- The bits of a permission. -/
def Perm.bits : Perm → ModeT
  | .r => sIrugo
  | .w => sIwugo
  | .x => sIxugo
  | .xIfAnyX => 0
  | .s => sIsuid ||| sIsgid
  | .t => sIsvtx

/-- Whether the permission is `X`. -/
def Perm.isX : Perm → Bool
  | .xIfAnyX => true
  | _ => false

/-- The change for an operator with its permissions. -/
def actionChange (affected : ModeT) (a : Op × Perms) : ModeChange :=
  match a.2 with
  | .bits ps =>
    changeOf a.1.text (if ps.any Perm.isX then .xIfAnyX else .ordinaryChange) affected
      (ps.foldl (fun v p => v ||| p.bits) 0)
  | .copy w => changeOf a.1.text .copyExisting affected w.rwx

/-- The changes of a clause. -/
def Clause.changes (c : Clause) : List ModeChange :=
  (c.first :: c.more).map (actionChange (c.who.foldl (fun m w => m ||| w.bits) 0))

/-- The changes of a symbolic mode, in order. -/
def SymbolicMode.changes (m : SymbolicMode) : List ModeChange := (m.first :: m.more).flatMap Clause.changes

/-- The change of an octal number. -/
def octalChange (s : List Byte) : ModeChange :=
  let mode := octalToMode (octalValue s)
  ⟨byte '=', .ordinaryChange, chmodModeBits, mode, (mode &&& (sIsuid ||| sIsgid)) ||| sIsvtx ||| sIrwxugo⟩

/-- A string that matches the grammar of symbolic modes. -/
def Symbolic (s : List Byte) : Prop := ∃ m : SymbolicMode, m.text = s

/-- What a string denotes. -/
def Denotes (s : List Byte) (changes : List ModeChange) : Prop :=
  (OctalNumber s ∧ changes = [octalChange s]) ∨ ∃ m : SymbolicMode, m.text = s ∧ changes = m.changes

/-- A call returns, without a byte read before the string or a change stored behind the array; it does not return `NULL`
exactly when the string is an octal number up to 07777 or a symbolic mode, and then it returns what the string
denotes. -/
def CompilesRight (malloc : ℕ → Bool) (s : CString) : Prop :=
  ∃ n, ∀ fuel ≥ n, ∃ r, modeCompile malloc fuel s.bytes = some (.ok r) ∧
    (r ≠ none ↔ OctalNumber s.bytes ∨ Symbolic s.bytes) ∧ ∀ changes, r = some changes → Denotes s.bytes changes

/-! ## Octal numbers -/

/-- The number after some more octal digits. -/
def octalFrom (n : ℕ) (s : List Byte) : ℕ := s.foldl (fun n c => 8 * n + (c.toNat - (byte '0').toNat)) n

theorem le_octalFrom (n : ℕ) (s : List Byte) : n ≤ octalFrom n s := by
  induction s generalizing n with
  | nil => exact Nat.le_refl n
  | cons c s ih => exact Nat.le_trans (by omega) (ih (8 * n + (c.toNat - (byte '0').toNat)))

theorem octal_digit {c : Byte} (h : isOctal c = true) (n : ℕ) :
    8 * n + c.toNat - (byte '0').toNat = 8 * n + (c.toNat - (byte '0').toNat) := by
  have : (byte '0').toNat ≤ c.toNat := by
    simp only [isOctal, Bool.and_eq_true, decide_eq_true_eq] at h
    exact UInt8.le_iff_toNat_le.mp h.1
  omega

/-- The loop on octal digits: the number, unless it is too large. -/
theorem octalLoop_digits {s : List Byte} (h : ∀ c ∈ s, isOctal c = true) (n : ℕ) :
    octalLoop n s = if s ≠ [] ∧ allm < octalFrom n s then none else some (octalFrom n s, []) := by
  induction s generalizing n with
  | nil => simp [octalLoop, octalFrom]
  | cons c s ih =>
    have hc := h c List.mem_cons_self
    have ih := ih (fun d hd => h d (List.mem_cons_of_mem _ hd))
    simp only [octalLoop, hc, if_true, octal_digit hc]
    have hfrom : octalFrom n (c :: s) = octalFrom (8 * n + (c.toNat - (byte '0').toNat)) s := rfl
    rw [hfrom]
    have hle := le_octalFrom (8 * n + (c.toNat - (byte '0').toNat)) s
    by_cases hlt : allm < 8 * n + (c.toNat - (byte '0').toNat)
    · have hlarge : allm < octalFrom (8 * n + (c.toNat - (byte '0').toNat)) s := by omega
      simp [hlt, hlarge]
    · rw [if_neg hlt, ih]
      cases s with
      | nil => simp [octalFrom, hlt]
      | cons d s => simp

/-- The loop stops before a byte that is no digit. -/
theorem octalLoop_rest {s : List Byte} {n m : ℕ} {rest : List Byte} (h : octalLoop n s = some (m, rest)) :
    (rest = [] ∧ ∀ c ∈ s, isOctal c = true) ∨ ∃ c ∈ s, isOctal c = false ∧ rest.head? = some c := by
  induction s generalizing n with
  | nil =>
    obtain ⟨-, rfl⟩ := Prod.mk.inj (Option.some.inj h)
    exact Or.inl ⟨rfl, by simp⟩
  | cons c s ih =>
    rw [octalLoop] at h
    cases hc : isOctal c with
    | false =>
      rw [hc, if_neg Bool.false_ne_true] at h
      obtain ⟨-, rfl⟩ := Prod.mk.inj (Option.some.inj h)
      exact Or.inr ⟨c, List.mem_cons_self, hc, rfl⟩
    | true =>
      rw [hc, if_pos rfl] at h
      dsimp only at h
      split at h
      · cases h
      · rcases ih h with ⟨hnil, hall⟩ | ⟨d, hd, hno, hhead⟩
        · left
          refine ⟨hnil, fun d hd => ?_⟩
          rcases List.mem_cons.mp hd with rfl | hd
          · exact hc
          · exact hall d hd
        · exact Or.inr ⟨d, List.mem_cons_of_mem _ hd, hno, hhead⟩

section Program

variable {malloc : ℕ → Bool} {s : CString}

/-- A string that starts with an octal digit is compiled as an octal number. -/
theorem compile_octal (h : isOctal (s.bytes.headD 0) = true)
    (hdie : ∀ fuel, modeCompile malloc fuel s.bytes ≠ some (.error .die)) (fuel : ℕ) :
    (OctalNumber s.bytes ∧ modeCompile malloc fuel s.bytes = some (.ok (some [octalChange s.bytes]))) ∨
      ¬ OctalNumber s.bytes ∧ modeCompile malloc fuel s.bytes = some (.ok none) := by
  have hne : s.bytes ≠ [] := by
    intro hnil
    rw [hnil] at h
    revert h
    decide
  have hdie := hdie fuel
  unfold modeCompile at hdie ⊢
  rw [if_pos h] at hdie ⊢
  cases hloop : octalLoop 0 s.bytes with
  | none =>
    right
    refine ⟨fun hn => ?_, rfl⟩
    rw [octalLoop_digits hn.digits] at hloop
    have hle : octalFrom 0 s.bytes ≤ allm := hn.le
    rw [if_neg (by omega)] at hloop
    cases hloop
  | some r =>
    obtain ⟨m, rest⟩ := r
    rw [hloop] at hdie
    dsimp only at hdie ⊢
    rcases octalLoop_rest hloop with ⟨rfl, hall⟩ | ⟨c, hc, hno, hhead⟩
    · left
      rw [octalLoop_digits hall] at hloop
      split at hloop
      · cases hloop
      · rename_i hle
        obtain ⟨rfl, -⟩ := Prod.mk.inj (Option.some.inj hloop)
        have hsmall : octalFrom 0 s.bytes ≤ allm := by
          by_contra hlt
          exact hle ⟨hne, by omega⟩
        refine ⟨⟨hne, hall, hsmall⟩, ?_⟩
        simp only [List.headD_nil, ne_eq, not_true_eq_false, if_false] at hdie ⊢
        split
        · rfl
        · rename_i hm
          rw [if_neg hm] at hdie
          exact absurd rfl hdie
    · right
      have h0 : rest.headD 0 ≠ 0 := by
        rw [List.headD_eq_head?_getD, hhead, Option.getD_some]
        rintro rfl
        exact s.noNul hc
      rw [if_pos h0]
      refine ⟨fun hn => ?_, rfl⟩
      rw [hn.digits c hc] at hno
      cases hno

end Program

/-! ## Symbolic modes -/

/-- One of `ugoa`. -/
def isWho (c : Byte) : Prop := c = byte 'u' ∨ c = byte 'g' ∨ c = byte 'o' ∨ c = byte 'a'

theorem isWho_text (w : Who) : isWho w.text := by
  unfold isWho
  cases w with
  | owner w => cases w <;> simp [Who.text, Owner.text]
  | all => simp [Who.text]

theorem isOp_text (op : Op) : isOp op.text = true := by
  cases op <;> rfl

/-- The loop over `ugoa` stops at the operator behind them. -/
theorem affectedLoop_who {who : List Byte} (h : ∀ c ∈ who, isWho c) {op : Byte} (hop : isOp op = true)
    (affected : ModeT) (before rest : List Byte) :
    ∃ affected', affectedLoop affected before (who ++ op :: rest) =
      some (affected', ⟨who.reverse ++ before, op :: rest⟩) := by
  induction who generalizing affected before with
  | nil =>
    refine ⟨affected, ?_⟩
    rw [List.nil_append, affectedLoop]
    have hne : op ≠ byte 'u' ∧ op ≠ byte 'g' ∧ op ≠ byte 'o' ∧ op ≠ byte 'a' := by
      simp only [isOp, Bool.or_eq_true, decide_eq_true_eq] at hop
      rcases hop with (rfl | rfl) | rfl <;> decide
    simp only [if_neg hne.1, if_neg hne.2.1, if_neg hne.2.2.1, if_neg hne.2.2.2, hop, if_true]
    rfl
  | cons c who ih =>
    have ih := ih (fun d hd => h d (List.mem_cons_of_mem _ hd))
    rw [List.cons_append, affectedLoop, List.reverse_cons, List.append_assoc, List.singleton_append]
    split
    · exact ih _ _
    · split
      · exact ih _ _
      · split
        · exact ih _ _
        · split
          · exact ih _ _
          · rename_i hu hg ho ha
            have := h c List.mem_cons_self
            simp only [isWho, hu, hg, ho, ha, or_self] at this

/-- Where the loop over `ugoa` stops. -/
theorem affectedLoop_stops {affected affected' : ModeT} {before rest : List Byte} {p : Pointer}
    (h : affectedLoop affected before rest = some (affected', p)) :
    ∃ who op tail, rest = who ++ op :: tail ∧ (∀ c ∈ who, isWho c) ∧ isOp op = true ∧
      p = ⟨who.reverse ++ before, op :: tail⟩ := by
  induction rest generalizing affected before with
  | nil => cases h
  | cons c rest ih =>
    -- Every branch but the last goes on behind one of `ugoa`.
    have next : ∀ affected₁, isWho c → affectedLoop affected₁ (c :: before) rest = some (affected', p) →
        ∃ who op tail, c :: rest = who ++ op :: tail ∧ (∀ d ∈ who, isWho d) ∧ isOp op = true ∧
          p = ⟨who.reverse ++ before, op :: tail⟩ := by
      intro affected₁ hc h₁
      obtain ⟨who, op, tail, rfl, hwho, hop, rfl⟩ := ih h₁
      refine ⟨c :: who, op, tail, rfl, ?_, hop, by simp⟩
      intro d hd
      rcases List.mem_cons.mp hd with rfl | hd
      · exact hc
      · exact hwho d hd
    rw [affectedLoop] at h
    split at h
    · rename_i hc
      exact next _ (by simp [isWho, hc]) h
    · split at h
      · rename_i hc
        exact next _ (by simp [isWho, hc]) h
      · split at h
        · rename_i hc
          exact next _ (by simp [isWho, hc]) h
        · split at h
          · rename_i hc
            exact next _ (by simp [isWho, hc]) h
          · split at h
            · rename_i hop
              obtain ⟨-, rfl⟩ := Prod.mk.inj (Option.some.inj h)
              exact ⟨[], c, rest, rfl, by simp, hop, rfl⟩
            · cases h

/-- A symbolic mode starts with some of `ugoa` and an operator. -/
theorem symbolic_start {s : List Byte} (h : Symbolic s) :
    ∃ who op tail, s = who ++ op :: tail ∧ (∀ c ∈ who, isWho c) ∧ isOp op = true := by
  obtain ⟨m, rfl⟩ := h
  refine ⟨m.first.who.map Who.text, m.first.first.1.text,
    m.first.first.2.text ++ (m.first.more.flatMap fun a => a.1.text :: a.2.text) ++
      m.more.flatMap fun c => byte ',' :: c.text, ?_, ?_, isOp_text _⟩
  · simp [SymbolicMode.text, Clause.text]
  · intro c hc
    obtain ⟨w, -, rfl⟩ := List.mem_map.mp hc
    exact isWho_text w

/-- Behind one of `ugoa` the loop over the values does not go on. -/
theorem valueLoop_who {c : Byte} (hc : isWho c) (value : ModeT) (flag : ModeFlag) (before rest : List Byte) :
    valueLoop value flag before (c :: rest) = (value, flag, ⟨before, c :: rest⟩) := by
  rcases hc with rfl | rfl | rfl | rfl <;> rfl

/-- An operator is read together with the byte before it. -/
theorem readChange_op {op : Byte} (hop : isOp op = true) (affected : ModeT) (rest : List Byte) :
    readChange affected ⟨[], op :: rest⟩ = .error .before ∧
      ∀ c, isWho c → ∀ before, readChange affected ⟨c :: before, op :: rest⟩ =
        .ok (changeOf op .ordinaryChange affected 0, ⟨before, c :: op :: rest⟩) := by
  have hne : op ≠ byte 'u' ∧ op ≠ byte 'g' ∧ op ≠ byte 'o' := by
    simp only [isOp, Bool.or_eq_true, decide_eq_true_eq] at hop
    rcases hop with (rfl | rfl) | rfl <;> decide
  constructor
  · simp [readChange, Pointer.get, Pointer.back, hne]
  · intro c hc before
    simp [readChange, Pointer.get, Pointer.back, hne, valueLoop_who hc]

section Program

variable {malloc : ℕ → Bool} {s : CString}

/-- The first byte is one of `=+-`. -/
def StartsWithOp (s : List Byte) : Prop := isOp (s.headD 0) = true

/-- What the parser is called with when there is memory for the changes. -/
theorem compile_clauses (h : isOctal (s.bytes.headD 0) = false)
    (hdie : ∀ fuel, modeCompile malloc fuel s.bytes ≠ some (.error .die)) (fuel : ℕ) :
    modeCompile malloc fuel s.bytes = clauseLoop (needed s.bytes) fuel [] ⟨[], s.bytes⟩ := by
  have hdie := hdie fuel
  unfold modeCompile at hdie ⊢
  rw [h, if_neg Bool.false_ne_true] at hdie ⊢
  split
  · rename_i hm
    rw [if_pos hm] at hdie
    exact absurd rfl hdie
  · rfl

/-- On a string that starts with an operator, the byte before the string is read. -/
theorem compile_op (hdie : ∀ fuel, modeCompile malloc fuel s.bytes ≠ some (.error .die))
    (hop : StartsWithOp s.bytes) {fuel : ℕ} (hfuel : 2 ≤ fuel) :
    modeCompile malloc fuel s.bytes = some (.error .before) := by
  obtain ⟨fuel, rfl⟩ : ∃ k, fuel = k + 1 + 1 := ⟨fuel - 2, by omega⟩
  obtain ⟨op, rest, hs⟩ : ∃ op rest, s.bytes = op :: rest := by
    apply List.exists_cons_of_ne_nil
    intro hnil
    rw [StartsWithOp, hnil] at hop
    exact absurd hop (by decide)
  have hop : isOp op = true := by simpa [StartsWithOp, hs] using hop
  have hoct : isOctal (s.bytes.headD 0) = false := by
    rw [hs]
    simp only [isOp, Bool.or_eq_true, decide_eq_true_eq] at hop
    rcases hop with (rfl | rfl) | rfl <;> rfl
  rw [compile_clauses hoct hdie, clauseLoop, hs]
  have hnone : ∀ c ∈ ([] : List Byte), isWho c := by simp
  obtain ⟨affected, hloop⟩ := affectedLoop_who hnone hop 0 [] rest
  rw [List.nil_append, List.reverse_nil, List.nil_append] at hloop
  dsimp only
  rw [hloop]
  dsimp only
  rw [changeLoop, (readChange_op hop affected rest).1]

/-- Any other string that does not start with an octal digit is refused. -/
theorem compile_other (hoct : isOctal (s.bytes.headD 0) = false)
    (hdie : ∀ fuel, modeCompile malloc fuel s.bytes ≠ some (.error .die)) (hno : ¬ StartsWithOp s.bytes) {fuel : ℕ}
    (hfuel : 2 ≤ fuel) : modeCompile malloc fuel s.bytes = some (.ok none) := by
  obtain ⟨fuel, rfl⟩ : ∃ k, fuel = k + 1 + 1 := ⟨fuel - 2, by omega⟩
  rw [compile_clauses hoct hdie, clauseLoop]
  cases hloop : affectedLoop 0 [] s.bytes with
  | none => rfl
  | some r =>
    obtain ⟨affected, p⟩ := r
    obtain ⟨who, op, tail, hs, hwho, hop, rfl⟩ := affectedLoop_stops hloop
    cases hrev : who.reverse with
    | nil =>
      rw [List.reverse_eq_nil_iff.mp hrev, List.nil_append] at hs
      rw [hs] at hno
      exact absurd hop hno
    | cons c before =>
      have hc : isWho c := by
        apply hwho
        rw [← List.mem_reverse, hrev]
        exact List.mem_cons_self
      have hneeded : 0 < needed s.bytes := by
        unfold needed
        omega
      -- The pointer is at the byte before the operator, where nothing goes on.
      have hget : isOp c = false ∧ c ≠ byte ',' ∧ c ≠ 0 := by
        rcases hc with rfl | rfl | rfl | rfl <;> decide
      have hread := (readChange_op hop affected tail).2 c hc before
      simp [changeLoop, hread, hneeded, Pointer.get, hget]

/-- A symbolic mode does not start with an octal digit. -/
theorem Symbolic.not_octal {s : List Byte} (h : Symbolic s) : isOctal (s.headD 0) = false := by
  obtain ⟨who, op, tail, rfl, hwho, hop⟩ := symbolic_start h
  cases who with
  | nil =>
    simp only [isOp, Bool.or_eq_true, decide_eq_true_eq] at hop
    rcases hop with (rfl | rfl) | rfl <;> rfl
  | cons c who =>
    rcases hwho c List.mem_cons_self with rfl | rfl | rfl | rfl <;> rfl

/-- `mode_compile`, as long as the memory suffices, does what it should on a string exactly when the string does not
start with an operator and is no symbolic mode. -/
theorem compilesRight_iff (malloc : ℕ → Bool) (s : CString)
    (hdie : ∀ fuel, modeCompile malloc fuel s.bytes ≠ some (.error .die)) :
    CompilesRight malloc s ↔ ¬ StartsWithOp s.bytes ∧ ¬ Symbolic s.bytes := by
  cases hoct : isOctal (s.bytes.headD 0) with
  | true =>
    have hop : ¬ StartsWithOp s.bytes := by
      intro hop
      have := compile_op hdie hop (Nat.le_refl 2)
      rcases compile_octal hoct hdie 2 with ⟨-, h⟩ | ⟨-, h⟩
      · rw [h] at this
        cases this
      · rw [h] at this
        cases this
    have hsym : ¬ Symbolic s.bytes := by
      intro hsym
      rw [hsym.not_octal] at hoct
      cases hoct
    refine iff_of_true ⟨0, fun fuel _ => ?_⟩ ⟨hop, hsym⟩
    rcases compile_octal hoct hdie fuel with ⟨hnum, h⟩ | ⟨hnum, h⟩
    · refine ⟨_, h, ?_, ?_⟩
      · simp [hnum]
      · intro changes heq
        exact Or.inl ⟨hnum, (Option.some.inj heq).symm⟩
    · refine ⟨_, h, ?_, ?_⟩
      · simp [hnum, hsym]
      · intro changes heq
        cases heq
  | false =>
    have hnum : ¬ OctalNumber s.bytes := by
      intro hnum
      obtain ⟨c, rest, hs⟩ := List.exists_cons_of_ne_nil hnum.ne_nil
      have := hnum.digits c (by rw [hs]; exact List.mem_cons_self)
      rw [hs, List.headD_cons, this] at hoct
      cases hoct
    constructor
    · rintro ⟨n, h⟩
      obtain ⟨r, hr, hiff, -⟩ := h (n + 2) (by omega)
      have hno : ¬ StartsWithOp s.bytes := by
        intro hop
        rw [compile_op hdie hop (by omega)] at hr
        cases hr
      refine ⟨hno, fun hsym => ?_⟩
      rw [compile_other hoct hdie hno (by omega)] at hr
      obtain rfl : none = r := Except.ok.inj (Option.some.inj hr)
      exact hiff.mpr (Or.inr hsym) rfl
    · rintro ⟨hop, hsym⟩
      refine ⟨2, fun fuel hfuel => ⟨none, compile_other hoct hdie hop hfuel, ?_, ?_⟩⟩
      · simp [hnum, hsym]
      · intro changes heq
        cases heq

end Program

/-- The octal number 644. -/
theorem compilesRight_644 : CompilesRight (fun _ => true) ⟨[54, 52, 52], by decide⟩ := by
  have hrun : ∀ fuel, modeCompile (fun _ => true) fuel [54, 52, 52] = some (.ok (some [octalChange [54, 52, 52]])) :=
    fun _ => rfl
  have hsym : ¬ Symbolic [54, 52, 52] := fun h => absurd h.not_octal (by decide)
  have hop : ¬ StartsWithOp [54, 52, 52] := fun h => absurd (show isOp 54 = true from h) (by decide)
  apply (compilesRight_iff (fun _ => true) ⟨[54, 52, 52], by decide⟩ (fun fuel h => ?_)).mpr ⟨hop, hsym⟩
  rw [hrun] at h
  cases h

/-- `u+x` is a symbolic mode, and it is refused. -/
theorem compile_u_plus_x :
    modeCompile (fun _ => true) 2 [117, 43, 120] = some (.ok none) ∧ Symbolic [117, 43, 120] ∧
      ¬ CompilesRight (fun _ => true) ⟨[117, 43, 120], by decide⟩ := by
  have hsym : Symbolic [117, 43, 120] := ⟨⟨⟨[.owner .user], (.add, .bits [.x]), []⟩, []⟩, rfl⟩
  have hrun : ∀ fuel, modeCompile (fun _ => true) (fuel + 2) [117, 43, 120] = some (.ok none) := fun _ => rfl
  refine ⟨hrun 0, hsym, ?_⟩
  rintro ⟨n, h⟩
  obtain ⟨r, hr, hiff, -⟩ := h (n + 2) (by omega)
  obtain rfl : none = r := Except.ok.inj (Option.some.inj ((hrun n).symm.trans hr))
  exact hiff.mpr (Or.inr hsym) rfl

end CodingExercises.Coreutils
