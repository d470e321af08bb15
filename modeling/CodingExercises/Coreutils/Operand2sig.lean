import CodingExercises.Coreutils.Xstrtol

/-!
# coreutils: the operand of kill

`operand2sig` of `lib/operand2sig.c`, over `str2sig` and `sig2str` of `lib/sig2str.c`. What `<signal.h>` defines is a parameter.

- A number up to `INT_MAX` is read as it should be, and one beyond `LONG_MAX` is refused (`operand2sig_decimal`);
- the copy that is there to notice that a number does not fit in an `int` is a `long`, so what is between them may be taken for a
  signal (`operand2sig_iff`).
-/

namespace CodingExercises.Coreutils.Operand2sig

/-- `SIGNUM_BOUND`. -/
def signumBound : ℤ := 64

/-- The signals of a system: the numbers of the macros `SIGHUP` and so on that it defines, `SIGRTMIN` and `SIGRTMAX`. -/
structure Signals where
  number : List Byte → Option ℤ
  rtmin : ℤ
  rtmax : ℤ
  number_pos : ∀ name n, number name = some n → 0 < n
  number_le : ∀ name n, number name = some n → n ≤ signumBound
  rtmin_nonneg : 0 ≤ rtmin
  rtmax_le : rtmax ≤ signumBound

/-! ## sig2str.c -/

/-- The bytes of a string literal. -/
def bytes (s : String) : List Byte := s.toList.map fun c => UInt8.ofNat c.toNat

/-- The entries of `numname_table`, each for the systems that define it, but for the last one. -/
def numnames : List String :=
  ["HUP", "INT", "QUIT", "ILL", "TRAP", "ABRT", "FPE", "KILL", "BUS", "SEGV", "PIPE", "ALRM", "TERM", "USR1", "USR2", "CHLD",
    "URG", "STOP", "TSTP", "CONT", "TTIN", "TTOU", "SYS", "POLL", "VTALRM", "PROF", "XCPU", "XFSZ", "IOT", "EMT", "PHONE", "WIND",
    "CLD", "PWR", "CANCEL", "LWP", "WAITING", "FREEZE", "THAW", "LOST", "WINCH", "INFO", "IO", "STKFLT", "DANGER", "GRANT",
    "MIGRATE", "MSG", "PRE", "RETRACT", "SAK", "SOUND", "ALRM1", "KAP", "VIRT", "WINDOW", "KILLTHR", "DIL"]

/-- `numname_table`. -/
def Signals.numnameTable (sys : Signals) : List (ℤ × List Byte) :=
  (numnames.filterMap fun name => (sys.number (bytes name)).map (·, bytes name)) ++ [(0, bytes "EXIT")]

/-- `str2signum`. -/
def str2signum (sys : Signals) (signame : List Byte) : ℤ :=
  if isDigit 10 (signame.headD 0) then
    let (n, endp, _) := strtol .long signame 10
    if endp = [] ∧ n ≤ signumBound then n else -1
  else
    match sys.numnameTable.find? (·.2 = signame) with
    | some (num, _) => num
    | none =>
      if 0 < sys.rtmin ∧ bytes "RTMIN" <+: signame then
        let (n, endp, _) := strtol .long (signame.drop 5) 10
        if endp = [] ∧ 0 ≤ n ∧ n ≤ sys.rtmax - sys.rtmin then sys.rtmin + n else -1
      else if 0 < sys.rtmax ∧ bytes "RTMAX" <+: signame then
        let (n, endp, _) := strtol .long (signame.drop 5) 10
        if endp = [] ∧ sys.rtmin - sys.rtmax ≤ n ∧ n ≤ 0 then sys.rtmax + n else -1
      else -1

/-- `str2sig`, with nothing for -1. -/
def str2sig (sys : Signals) (signame : List Byte) : Option ℤ :=
  if str2signum sys signame < 0 then none else some (str2signum sys signame)

/-- `sprintf` with `"%d"`, for a number that is not negative. -/
def decimal (n : ℤ) : List Byte := (Nat.toDigits 10 n.toNat).map fun c => UInt8.ofNat c.toNat

/-- `sig2str`: the name, or nothing for -1. -/
def sig2str (sys : Signals) (signum : ℤ) : Option (List Byte) :=
  match sys.numnameTable.find? (·.1 = signum) with
  | some (_, name) => some name
  | none =>
    if ¬(sys.rtmin ≤ signum ∧ signum ≤ sys.rtmax) then none
    else if signum ≤ sys.rtmin + (sys.rtmax - sys.rtmin).tdiv 2 then
      let delta := signum - sys.rtmin
      some (if delta ≠ 0 then bytes "RTMIN+" ++ decimal delta else bytes "RTMIN")
    else
      let delta := sys.rtmax - signum
      some (if delta ≠ 0 then bytes "RTMAX-" ++ decimal delta else bytes "RTMAX")

/-! ## operand2sig.c -/

/-- `WIFSIGNALED`, which looks at a `signed char`. -/
def wifsignaled (status : ℤ) : Bool := 0 < (status % 128 + 1).bmod 256 / 2

/-- `WTERMSIG`. -/
def wtermsig (status : ℤ) : ℤ := status % 128

/-- An `int`. -/
def int32 (x : ℤ) : ℤ := x.bmod (2 ^ 32)

/-- `"abcdefghijklmnopqrstuvwxyz"`. -/
def lowercase : List Byte := bytes "abcdefghijklmnopqrstuvwxyz"

/-- The loop over `upcased`, for a byte. -/
def upcase (c : Byte) : Byte := if c ∈ lowercase then c + (65 - 97) else c

/-- `signum`, as it is before it is looked up. -/
def operandSignum (sys : Signals) (operand : List Byte) : ℤ :=
  if isDigit 10 (operand.headD 0) then
    let (l, endp, errno) := strtol .long operand 10
    -- both are a `long`
    let i := l
    if operand = endp ∨ endp ≠ [] ∨ errno ∨ i ≠ l then -1 else int32 (if wifsignaled i then wtermsig i else i)
  else
    let upcased := operand.map upcase
    match str2sig sys upcased with
    | some signum => signum
    | none => if bytes "SIG" <+: upcased then (str2sig sys (upcased.drop 3)).getD (-1) else -1

/-- `operand2sig`: the signal and `signame`, or nothing for -1. -/
def operand2sig (sys : Signals) (operand : List Byte) : Option (ℤ × List Byte) :=
  let signum := operandSignum sys operand
  if signum < 0 then none else (sig2str sys signum).map (signum, ·)

/-! ## What is right -/

/-- `INT_MAX`. -/
def intMax : ℕ := 2 ^ 31 - 1

/-- `LONG_MAX`. -/
def longMax : ℕ := 2 ^ 63 - 1

/-- The whole string is a decimal number. -/
def IsDecimal (s : List Byte) (v : ℕ) : Prop :=
  ∃ digits : List (Fin 10), digits ≠ [] ∧ s = digits.map digitByte ∧ v = Nat.ofDigits 10 (digits.reverse.map Fin.val)

/-- A signal of the system, or 0. -/
def Signals.Valid (sys : Signals) (n : ℤ) : Prop :=
  n = 0 ∨ (∃ name ∈ numnames, sys.number (bytes name) = some n) ∨ sys.rtmin ≤ n ∧ n ≤ sys.rtmax

/-- The number is that of the signal, or it is a status that tells of a termination by the signal. -/
def Signals.Denotes (sys : Signals) (v n : ℤ) : Prop :=
  sys.Valid n ∧ (n = v ∨ wifsignaled v = true ∧ n = wtermsig v)

/-- The bytes are the same, or the same letter of ASCII. -/
def SameLetter (c d : Byte) : Prop := c = d ∨ (97 ≤ c ∧ c ≤ 122 ∧ d = c - 32) ∨ (97 ≤ d ∧ d ≤ 122 ∧ c = d - 32)

/-- What `operand2sig` has to do with an operand. -/
structure Meets (sys : Signals) (operand : List Byte) : Prop where
  number : isDigit 10 (operand.headD 0) = true → ∀ n,
    (∃ name, operand2sig sys operand = some (n, name)) ↔ ∃ v : ℕ, IsDecimal operand v ∧ v ≤ intMax ∧ sys.Denotes v n
  name : isDigit 10 (operand.headD 0) = false → ∀ other, List.Forall₂ SameLetter operand other →
    operand2sig sys other = operand2sig sys operand

/-! ## Signals -/

section

variable {sys : Signals} {n : ℤ}

theorem Signals.Valid.bounds (h : sys.Valid n) : 0 ≤ n ∧ n ≤ signumBound := by
  obtain rfl | ⟨name, -, hname⟩ | ⟨hlo, hhi⟩ := h
  · exact ⟨le_rfl, by decide⟩
  · exact ⟨(sys.number_pos _ _ hname).le, sys.number_le _ _ hname⟩
  · exact ⟨sys.rtmin_nonneg.trans hlo, hhi.trans sys.rtmax_le⟩

theorem find_numnameTable_isSome :
    (sys.numnameTable.find? (·.1 = n)).isSome = true ↔ n = 0 ∨ ∃ name ∈ numnames, sys.number (bytes name) = some n := by
  rw [List.find?_isSome]
  constructor
  · rintro ⟨⟨num, text⟩, hmem, hnum⟩
    obtain rfl : num = n := of_decide_eq_true hnum
    rcases List.mem_append.mp hmem with hmem | hmem
    · obtain ⟨name, hname, hentry⟩ := List.mem_filterMap.mp hmem
      obtain ⟨num', hnumber, hpair⟩ := Option.map_eq_some_iff.mp hentry
      exact .inr ⟨name, hname, hnumber.trans (congrArg (some ·.1) hpair)⟩
    · exact .inl (congrArg Prod.fst (List.mem_singleton.mp hmem))
  · rintro (rfl | ⟨name, hname, hnumber⟩)
    · exact ⟨(0, bytes "EXIT"), List.mem_append_right _ (List.mem_singleton.mpr rfl), decide_eq_true rfl⟩
    · refine ⟨(n, bytes name), List.mem_append_left _ (List.mem_filterMap.mpr ⟨name, hname, ?_⟩), decide_eq_true rfl⟩
      rw [hnumber]
      rfl

/-- The signals that have a name. -/
theorem sig2str_isSome : (sig2str sys n).isSome = true ↔ sys.Valid n := by
  rw [Signals.Valid, ← or_assoc, ← find_numnameTable_isSome, sig2str]
  cases sys.numnameTable.find? (·.1 = n) with
  | some entry => simp
  | none =>
    by_cases hrange : sys.rtmin ≤ n ∧ n ≤ sys.rtmax
    · simp only [Option.isSome_none, Bool.false_eq_true, false_or, hrange, and_self, not_true, if_false]
      split <;> simp
    · simp [hrange]

/-- A status tells of a signal unless its low bits are those of an exit or of a stop. -/
theorem wifsignaled_iff (v : ℤ) : wifsignaled v = true ↔ v % 128 ≠ 0 ∧ v % 128 ≠ 127 := by
  rw [wifsignaled, decide_eq_true_iff, Int.bmod_def]
  split <;> omega

/-- The number of a signal has no more than seven bits. -/
theorem Signals.Valid.wtermsig (h : sys.Valid n) : wtermsig n = n := by
  obtain ⟨hlo, hhi⟩ := h.bounds
  rw [signumBound] at hhi
  unfold Operand2sig.wtermsig
  omega

end

/-! ## Numbers -/

section

variable {s : List Byte} {v : ℕ}

theorem IsDecimal.head (h : IsDecimal s v) : isDigit 10 (s.headD 0) = true := by
  obtain ⟨_ | ⟨n, digits⟩, hne, rfl, -⟩ := h
  · exact absurd rfl hne
  · exact Decimal.isDigit_digitByte n

theorem digitByte_injective : Function.Injective digitByte := by
  intro m n
  revert m n
  decide

theorem IsDecimal.unique {w : ℕ} (h : IsDecimal s v) (h' : IsDecimal s w) : v = w := by
  obtain ⟨digits, -, rfl, rfl⟩ := h
  obtain ⟨digits', -, heq, rfl⟩ := h'
  rw [List.map_injective_iff.mpr digitByte_injective heq]

/-- `strtol` reads all of a number. -/
theorem strtol_decimal (h : IsDecimal s v) :
    strtol .long s 10 = if v ≤ longMax then ((v : ℤ), [], false) else ((longMax : ℤ), [], true) := by
  obtain ⟨digits, hne, rfl, hv⟩ := h
  have hstrtol := Decimal.strtol_bytes (t := .long) ⟨[], nofun, .none, nofun, digits, hne, ⟨[], nofun⟩, nofun⟩
  simp only [Decimal.bytes, Decimal.number, Sign.bytes, List.nil_append, List.append_nil, ← hv] at hstrtol
  have hmin : StrtolT.minimum .long = -2 ^ 63 := rfl
  have hmax : StrtolT.maximum .long = longMax := rfl
  have hsign : (if Sign.none = .minus then -(v : ℤ) else v) = v := if_neg (by decide)
  rw [hstrtol, hsign, hmin, hmax]
  by_cases hv : v ≤ longMax
  · have hin : ¬Lib.Outside (-2 ^ 63) longMax v := by
      rintro (hlo | hhi) <;> omega
    rw [if_pos hv, Lib.clamp_of_not_outside hin, decide_eq_false hin]
  · have hout : (longMax : ℤ) < v := by omega
    rw [if_neg hv, Lib.clamp_of_gt (by decide) hout, decide_eq_true (.inr hout)]

/-- A string that starts with a digit and is no number has something behind the digits. -/
theorem strtol_not_decimal (hnul : 0 ∉ s) (hdigit : isDigit 10 (s.headD 0) = true) (h : ¬∃ v, IsDecimal s v) :
    (strtol .long s 10).2.1 ≠ [] := by
  obtain ⟨digits, hdigits⟩ := exists_digits (l := s.takeWhile (isDigit 10)) fun c hc => List.mem_takeWhile_imp hc
  have hne : digits ≠ [] := by
    rintro rfl
    cases s with
    | nil => cases hdigit
    | cons c s =>
      have hc : isDigit 10 c = true := hdigit
      rw [List.takeWhile_cons_of_pos hc] at hdigits
      cases hdigits
  have hsplit : digits.map digitByte ++ s.dropWhile (isDigit 10) = s := by
    rw [hdigits, List.takeWhile_append_dropWhile]
  have hrest : 0 ∉ s.dropWhile (isDigit 10) := fun hmem => hnul (List.dropWhile_suffix _ |>.subset hmem)
  have hstart : ∀ c ∈ (s.dropWhile (isDigit 10)).head?, isDigit 10 c = false := by
    intro c hc
    have hhead := List.head?_dropWhile_not (isDigit 10) s
    rwa [Option.mem_def.mp hc] at hhead
  have hstrtol := Decimal.strtol_bytes (t := .long) ⟨[], nofun, .none, nofun, digits, hne, ⟨_, hrest⟩, hstart⟩
  simp only [Decimal.bytes, Sign.bytes, List.nil_append, hsplit] at hstrtol
  intro hnil
  refine h ⟨_, digits, hne, ?_, rfl⟩
  have hall : s.dropWhile (isDigit 10) = [] := (congrArg (·.2.1) hstrtol).symm.trans hnil
  rw [← hsplit, hall, List.append_nil]

end

/-! ## The operand -/

section

variable {sys : Signals} {operand : List Byte} {v : ℕ}

theorem operand2sig_eq (sys : Signals) (operand : List Byte) (n : ℤ) :
    (∃ name, operand2sig sys operand = some (n, name)) ↔ operandSignum sys operand = n ∧ 0 ≤ n ∧ sys.Valid n := by
  rw [← sig2str_isSome, operand2sig, Option.isSome_iff_exists]
  by_cases hneg : operandSignum sys operand < 0
  · simp only [hneg, if_true, reduceCtorEq, exists_false, false_iff]
    rintro ⟨rfl, hnonneg, -⟩
    omega
  · simp only [hneg, if_false, Option.map_eq_some_iff, Prod.mk.injEq]
    constructor
    · rintro ⟨name, name', hname, rfl, -⟩
      exact ⟨rfl, by omega, name', hname⟩
    · rintro ⟨rfl, -, name, hname⟩
      exact ⟨name, name, hname, rfl, rfl⟩

/-- What is made of a number. -/
theorem operandSignum_decimal (h : IsDecimal operand v) : operandSignum sys operand =
    if v ≤ longMax then int32 (if wifsignaled v then wtermsig v else v) else -1 := by
  have hne : operand ≠ [] := by
    rintro rfl
    cases h.head
  rw [operandSignum, if_pos h.head, strtol_decimal h]
  by_cases hv : v ≤ longMax
  · rw [if_pos hv, if_pos hv]
    exact if_neg fun hor => hor.elim hne fun hor => hor.elim (absurd rfl) fun hor => hor.elim nofun fun hcopy => hcopy rfl
  · rw [if_neg hv, if_neg hv]
    exact if_pos (.inr (.inr (.inl rfl)))

theorem operandSignum_not_decimal (hnul : 0 ∉ operand) (hdigit : isDigit 10 (operand.headD 0) = true)
    (h : ¬∃ v, IsDecimal operand v) : operandSignum sys operand = -1 := by
  rw [operandSignum, if_pos hdigit]
  exact if_pos (.inr (.inl (strtol_not_decimal hnul hdigit h)))

/-- In the range of an `int` the signal is the one that the number denotes. -/
theorem denotes_iff (hv : v ≤ intMax) (n : ℤ) :
    int32 (if wifsignaled v then wtermsig v else v) = n ∧ 0 ≤ n ∧ sys.Valid n ↔ sys.Denotes v n := by
  have hint : int32 (if wifsignaled v then wtermsig v else v) = if wifsignaled v then wtermsig v else (v : ℤ) := by
    unfold intMax at hv
    unfold int32 wtermsig
    split <;> rw [Int.bmod_def] <;> split <;> omega
  rw [hint, Signals.Denotes]
  constructor
  · rintro ⟨hsignum, -, hvalid⟩
    refine ⟨hvalid, ?_⟩
    by_cases hsignaled : wifsignaled v = true
    · exact .inr ⟨hsignaled, (hsignum.symm.trans (if_pos hsignaled))⟩
    · exact .inl (hsignum.symm.trans (if_neg hsignaled))
  · rintro ⟨hvalid, heq⟩
    refine ⟨?_, hvalid.bounds.1, hvalid⟩
    obtain rfl | ⟨hsignaled, rfl⟩ := heq
    · rw [hvalid.wtermsig, ite_self]
    · exact if_pos hsignaled

/-- The numbers that do not fit in an `int` and are taken for a signal. -/
theorem aliased_iff (sys : Signals) (v : ℕ) :
    (∃ n, int32 (if wifsignaled v then wtermsig v else v) = n ∧ 0 ≤ n ∧ sys.Valid n) ↔
      v % 2 ^ 32 = 0 ∨ v % 128 ≠ 0 ∧ sys.Valid (v % 128 : ℕ) := by
  have hsignaled := wifsignaled_iff (v : ℤ)
  have hterm : int32 (wtermsig v) = (v % 128 : ℕ) := by
    unfold int32 wtermsig
    rw [Int.bmod_def]
    split <;> omega
  constructor
  · rintro ⟨n, hn, -, hvalid⟩
    have hbounds := hvalid.bounds
    rw [signumBound] at hbounds
    by_cases h : wifsignaled v = true
    · rw [if_pos h, hterm] at hn
      exact .inr ⟨by have := hsignaled.mp h; omega, hn ▸ hvalid⟩
    · have hlow := not_and_or.mp (fun hand => h (hsignaled.mpr hand))
      rw [if_neg h, int32, Int.bmod_def] at hn
      refine .inl ?_
      split at hn <;> omega
  · rintro (hmultiple | ⟨hne, hvalid⟩)
    · have h : ¬wifsignaled v = true := fun h => (hsignaled.mp h).1 (by omega)
      refine ⟨0, ?_, le_rfl, .inl rfl⟩
      rw [if_neg h, int32, Int.bmod_def]
      split <;> omega
    · have hbounds := hvalid.bounds
      rw [signumBound] at hbounds
      have h : wifsignaled v = true := hsignaled.mpr ⟨by omega, by omega⟩
      exact ⟨_, by rw [if_pos h, hterm], hbounds.1, hvalid⟩

end

/-! ## Letters -/

theorem upcase_lower {c : Byte} (hlo : 97 ≤ c) (hhi : c ≤ 122) :
    upcase c = c - 32 ∧ upcase (c - 32) = c - 32 ∧ isDigit 10 c = false ∧ isDigit 10 (c - 32) = false := by
  have hall : ∀ n < 26, upcase (UInt8.ofNat (97 + n)) = UInt8.ofNat (97 + n) - 32 ∧
      upcase (UInt8.ofNat (97 + n) - 32) = UInt8.ofNat (97 + n) - 32 ∧ isDigit 10 (UInt8.ofNat (97 + n)) = false ∧
      isDigit 10 (UInt8.ofNat (97 + n) - 32) = false := by decide +kernel
  have hlo' : 97 ≤ c.toNat := UInt8.le_iff_toNat_le.mp hlo
  have hhi' : c.toNat ≤ 122 := UInt8.le_iff_toNat_le.mp hhi
  have hc := hall (c.toNat - 97) (by omega)
  rwa [show 97 + (c.toNat - 97) = c.toNat by omega, UInt8.ofNat_toNat] at hc

theorem SameLetter.upcase {c d : Byte} (h : SameLetter c d) : upcase c = upcase d ∧ isDigit 10 c = isDigit 10 d := by
  obtain rfl | ⟨hlo, hhi, rfl⟩ | ⟨hlo, hhi, rfl⟩ := h
  · exact ⟨rfl, rfl⟩
  · obtain ⟨hup, hup', hdigit, hdigit'⟩ := upcase_lower hlo hhi
    exact ⟨hup.trans hup'.symm, hdigit.trans hdigit'.symm⟩
  · obtain ⟨hup, hup', hdigit, hdigit'⟩ := upcase_lower hlo hhi
    exact ⟨hup'.trans hup.symm, hdigit'.trans hdigit.symm⟩

theorem map_upcase {operand other : List Byte} (h : List.Forall₂ SameLetter operand other) :
    other.map upcase = operand.map upcase := by
  induction h with
  | nil => rfl
  | cons hsame _ ih => rw [List.map_cons, List.map_cons, ih, hsame.upcase.1]

/-- A name is looked up by its letters. -/
theorem operand2sig_letters (sys : Signals) {operand other : List Byte} (hdigit : isDigit 10 (operand.headD 0) = false)
    (h : List.Forall₂ SameLetter operand other) : operand2sig sys other = operand2sig sys operand := by
  have hdigit' : isDigit 10 (other.headD 0) = false := by
    cases h with
    | nil => exact hdigit
    | cons hsame _ => exact hsame.upcase.2.symm.trans hdigit
  have hsignum : operandSignum sys other = operandSignum sys operand := by
    rw [operandSignum, operandSignum, if_neg (Bool.eq_false_iff.mp hdigit'), if_neg (Bool.eq_false_iff.mp hdigit), map_upcase h]
  rw [operand2sig, operand2sig, hsignum]

/-! ## When the operand is read as it should be -/

/-- The operands that go wrong are the numbers that fit in a `long`, not in an `int`, and have the low bits of a signal. -/
theorem operand2sig_iff (sys : Signals) (operand : CString) : Meets sys operand.bytes ↔
    ¬∃ v, IsDecimal operand.bytes v ∧ intMax < v ∧ v ≤ longMax ∧ (v % 2 ^ 32 = 0 ∨ v % 128 ≠ 0 ∧ sys.Valid (v % 128 : ℕ)) := by
  constructor
  · rintro hmeets ⟨v, hv, hint, hlong, halias⟩
    obtain ⟨n, hn⟩ := (aliased_iff sys v).mpr halias
    obtain ⟨w, hw, hle, -⟩ := (hmeets.number hv.head n).mp ((operand2sig_eq sys _ n).mpr (by
      rwa [operandSignum_decimal hv, if_pos hlong]))
    have := hv.unique hw
    omega
  · intro hnone
    refine ⟨fun hdigit n => ?_, fun hdigit other hother => operand2sig_letters sys hdigit hother⟩
    rw [operand2sig_eq]
    by_cases hdecimal : ∃ v, IsDecimal operand.bytes v
    · obtain ⟨v, hv⟩ := hdecimal
      have hdenotes : (∃ w, IsDecimal operand.bytes w ∧ w ≤ intMax ∧ sys.Denotes w n) ↔ v ≤ intMax ∧ sys.Denotes v n :=
        ⟨fun ⟨w, hw, h⟩ => hv.unique hw ▸ h, fun h => ⟨v, hv, h⟩⟩
      rw [operandSignum_decimal hv, hdenotes]
      by_cases hint : v ≤ intMax
      · have hlong : v ≤ longMax := hint.trans (by decide)
        rw [if_pos hlong, denotes_iff hint]
        exact (and_iff_right hint).symm
      · refine iff_of_false ?_ fun h => hint h.1
        by_cases hlong : v ≤ longMax
        · rw [if_pos hlong]
          exact fun h => hnone ⟨v, hv, not_le.mp hint, hlong, (aliased_iff sys v).mp ⟨n, h⟩⟩
        · rw [if_neg hlong]
          rintro ⟨rfl, hnonneg, -⟩
          exact absurd hnonneg (by decide)
    · rw [operandSignum_not_decimal operand.noNul hdigit hdecimal]
      refine iff_of_false ?_ fun ⟨v, hv, _⟩ => hdecimal ⟨v, hv⟩
      rintro ⟨rfl, hnonneg, -⟩
      exact absurd hnonneg (by decide)

/-- The signals of GNU/Linux on x86-64. -/
def linuxNumbers : List (String × ℤ) :=
  [("HUP", 1), ("INT", 2), ("QUIT", 3), ("ILL", 4), ("TRAP", 5), ("ABRT", 6), ("IOT", 6), ("BUS", 7), ("FPE", 8), ("KILL", 9),
    ("USR1", 10), ("SEGV", 11), ("USR2", 12), ("PIPE", 13), ("ALRM", 14), ("TERM", 15), ("STKFLT", 16), ("CHLD", 17), ("CLD", 17),
    ("CONT", 18), ("STOP", 19), ("TSTP", 20), ("TTIN", 21), ("TTOU", 22), ("URG", 23), ("XCPU", 24), ("XFSZ", 25),
    ("VTALRM", 26), ("PROF", 27), ("WINCH", 28), ("IO", 29), ("POLL", 29), ("PWR", 30), ("SYS", 31)]

/-- The number of the macro for the name. -/
def linuxNumber (name : List Byte) : Option ℤ := (linuxNumbers.find? (bytes ·.1 = name)).map (·.2)

theorem linuxNumber_bounds {name : List Byte} {n : ℤ} (h : linuxNumber name = some n) : 0 < n ∧ n ≤ signumBound := by
  obtain ⟨entry, hfind, rfl⟩ := Option.map_eq_some_iff.mp h
  have hall : linuxNumbers.all fun entry => 0 < entry.2 ∧ entry.2 ≤ signumBound := by decide
  exact of_decide_eq_true (List.all_eq_true.mp hall entry (List.mem_of_find?_eq_some hfind))

def linux : Signals where
  number := linuxNumber
  rtmin := 34
  rtmax := 64
  number_pos _ _ h := (linuxNumber_bounds h).1
  number_le _ _ h := (linuxNumber_bounds h).2
  rtmin_nonneg := by decide
  rtmax_le := by decide

/-- `"4294967305"` is 2 ^ 32 + 9, and taken for `SIGKILL`. -/
theorem not_meets_large : ¬∀ (sys : Signals) (operand : CString), Meets sys operand.bytes := by
  intro h
  have hv : IsDecimal (bytes "4294967305") 4294967305 := ⟨[4, 2, 9, 4, 9, 6, 7, 3, 0, 5], by decide, by decide, by decide⟩
  have hkill : linux.Valid 9 := .inr (.inl ⟨"KILL", by decide, by decide⟩)
  have htaken : ∃ name, operand2sig linux (bytes "4294967305") = some (9, name) := by
    rw [operand2sig_eq, operandSignum_decimal hv, if_pos (by decide)]
    exact ⟨by decide, by decide, hkill⟩
  obtain ⟨w, hw, hle, -⟩ := ((h linux ⟨bytes "4294967305", by decide⟩).number hv.head 9).mp htaken
  obtain rfl := hv.unique hw
  exact absurd hle (by decide)

end CodingExercises.Coreutils.Operand2sig
