import Mathlib.Data.List.DropRight
import CodingExercises.PeotrixNginx.Rendering

/-!
# Peotrix on nginx: the signal process

`ptrx_signal_process` of `core/ptrx_cycle.c`, which signals the process of a pid file. `ptrx_atoi` and
`ptrx_os_signal_process` are not part of the program.

`if(file.fd = PTRX_INVALID_FILE)` is an assignment, and no process is signalled (`meets_iff`). What stands behind it is right
(`signalOpened_meets`).
-/

namespace CodingExercises.PeotrixNginx

/-- `CR`. -/
def cr : Byte := 13

/-- `LF`. -/
def lf : Byte := 10

/-- `PTRX_INVALID_FILE`. -/
def invalidFile : ℤ := -1

/-- `PTRX_ERROR`. -/
def ptrxError : ℤ := -1

/-- A pid file. -/
inductive PidFile
  | missing
  | unreadable
  | content (bytes : List Byte)

/-- `ptrx_read_file` into `buf`. -/
def PidFile.read : PidFile → Option (List Byte)
  | .content bytes => some (bytes.take (int64Len + 2))
  | _ => none

/-- What is returned, and the processes that are signalled. -/
structure Signalled where
  returned : ℤ
  pids : List ℤ
deriving DecidableEq

/-- `while(n-- && (buf[n] == CR || buf[n] == LF)) { }`. Bytes of `buf` that have not been read are no part of it. -/
def newlineLoop (buf : List Byte) : ℕ → Option ℤ
  | 0 => some (-1)
  | n + 1 =>
    match buf[n]? with
    | none => none
    | some c => if c = cr ∨ c = lf then newlineLoop buf n else some n

/-- `ptrx_signal_process` behind the test of `file.fd`, or nothing for an access outside of `buf`. -/
def signalOpened (file : PidFile) (atoi : List Byte → ℤ) (osSignalProcess : ℤ → ℤ) : Option Signalled :=
  match file.read with
  | none => some ⟨1, []⟩
  | some buf =>
    match newlineLoop buf buf.length with
    | none => none
    | some n =>
      if 0 ≤ n + 1 ∧ n + 1 ≤ buf.length then
        let pid := atoi (buf.take (n + 1).toNat)
        if pid = ptrxError then some ⟨1, []⟩ else some ⟨osSignalProcess pid, [pid]⟩
      else none

/-- `ptrx_signal_process`. -/
def signalProcess (file : PidFile) (atoi : List Byte → ℤ) (osSignalProcess : ℤ → ℤ) : Option Signalled :=
  -- the value that is tested is the one that is stored
  let fd := invalidFile
  if fd ≠ 0 then some ⟨1, []⟩ else signalOpened file atoi osSignalProcess

/-! ## Pid files -/

/-- The file has the number of a process, with newlines behind it. -/
def PidFile.Holds (file : PidFile) (pid : ℕ) : Prop :=
  ∃ ds newlines, file = .content (ds ++ newlines) ∧ (ds ++ newlines).length ≤ int64Len + 2 ∧ ds ≠ [] ∧
    (∀ c ∈ ds, isDigit c) ∧ (∀ c ∈ newlines, c = cr ∨ c = lf) ∧ decimal ds = pid ∧ pid < 2 ^ 31

/-- The process of the file is signalled and no other one, and with another file nothing is and 1 is returned. -/
def Meets (file : PidFile) (r : Option Signalled) : Prop :=
  ∃ s, r = some s ∧ (∀ pid, file.Holds pid → s.pids = [(pid : ℤ)]) ∧
    ((¬ ∃ pid, file.Holds pid) → s.returned = 1 ∧ s.pids = [])

/-- `ptrx_atoi` as it is meant: the value of digits that fits, and `PTRX_ERROR` otherwise. -/
def atoi (line : List Byte) : ℤ :=
  if line ≠ [] ∧ line.all isDigit ∧ decimal line < 2 ^ 31 then decimal line else ptrxError

/-! ## What stands behind the test of `file.fd` -/

def isNewline (c : Byte) : Bool := c = cr ∨ c = lf

@[simp] theorem isNewline_iff (c : Byte) : isNewline c = true ↔ c = cr ∨ c = lf := decide_eq_true_iff

/-- The scan from the end stops at the last byte that is no newline, or at -1. -/
theorem newlineLoop_eq (line rest : List Byte) :
    newlineLoop (line ++ rest) line.length = some ((line.rdropWhile isNewline).length - 1 : ℤ) := by
  induction line using List.reverseRecOn generalizing rest with
  | nil => simp [newlineLoop]
  | append_singleton line c ih =>
    have hat : (line ++ [c] ++ rest)[line.length]? = some c := by simp
    rw [List.length_append, List.length_singleton, newlineLoop, hat]
    by_cases hc : c = cr ∨ c = lf
    · rw [List.rdropWhile_concat_pos _ _ _ ((isNewline_iff c).mpr hc)]
      simpa only [if_pos hc, List.append_assoc] using ih ([c] ++ rest)
    · rw [List.rdropWhile_concat_neg _ _ _ (mt (isNewline_iff c).mp hc)]
      simp only [if_neg hc, List.length_append, List.length_singleton]
      congr 1
      push_cast
      omega

/-- A digit is no newline. -/
theorem isNewline_of_isDigit {c : Byte} (h : isDigit c = true) : isNewline c = false := by
  simp only [isDigit, Bool.and_eq_true, decide_eq_true_eq] at h
  have h48 : (48 : Byte).toNat ≤ c.toNat := h.1
  refine Bool.eq_false_iff.mpr fun hnewline => ?_
  obtain rfl | rfl := (isNewline_iff c).mp hnewline
  · exact absurd h48 (by decide)
  · exact absurd h48 (by decide)

/-- The number of a process is what stands before the newlines at the end. -/
theorem holds_content_iff {bytes : List Byte} (hlen : bytes.length ≤ int64Len + 2) (pid : ℕ) :
    (PidFile.content bytes).Holds pid ↔
      bytes.rdropWhile isNewline ≠ [] ∧ (∀ c ∈ bytes.rdropWhile isNewline, isDigit c) ∧
        decimal (bytes.rdropWhile isNewline) = pid ∧ pid < 2 ^ 31 := by
  constructor
  · rintro ⟨ds, newlines, hfile, -, hne, hds, hnewlines, hpid, hfits⟩
    cases hfile
    have hall : ∀ {l : List Byte}, (∀ c ∈ l, c = cr ∨ c = lf) → (ds ++ l).rdropWhile isNewline = ds := by
      intro l
      induction l using List.reverseRecOn with
      | nil =>
        intro _
        rw [List.append_nil, List.rdropWhile_eq_self_iff]
        exact fun hl => by simp [isNewline_of_isDigit (hds _ (List.getLast_mem hl))]
      | append_singleton l c ih =>
        intro hl
        rw [← List.append_assoc, List.rdropWhile_concat_pos _ _ _ ((isNewline_iff c).mpr (hl c (by simp)))]
        exact ih fun c hc => hl c (by simp [hc])
    rw [hall hnewlines]
    exact ⟨hne, hds, hpid, hfits⟩
  · rintro ⟨hne, hds, hpid, hfits⟩
    refine ⟨bytes.rdropWhile isNewline, bytes.rtakeWhile isNewline, ?_, ?_, hne, hds, ?_, hpid, hfits⟩
    · rw [List.rdropWhile_append_rtakeWhile]
    · rwa [List.rdropWhile_append_rtakeWhile]
    · exact fun c hc => (isNewline_iff c).mp (List.mem_rtakeWhile_imp hc)

/-- Behind the test everything is right, for files that are not longer than `buf`. -/
theorem signalOpened_meets {file : PidFile} (osSignalProcess : ℤ → ℤ)
    (hlen : ∀ bytes, file = .content bytes → bytes.length ≤ int64Len + 2) :
    Meets file (signalOpened file atoi osSignalProcess) := by
  have hno : ∀ {file : PidFile}, (∀ bytes, file ≠ .content bytes) → Meets file (some ⟨1, []⟩) := by
    intro file hfile
    exact ⟨_, rfl, fun pid ⟨_, _, h, _⟩ => absurd h (hfile _), fun _ => ⟨rfl, rfl⟩⟩
  cases file with
  | missing => exact hno fun _ => PidFile.noConfusion
  | unreadable => exact hno fun _ => PidFile.noConfusion
  | content bytes =>
    have hbytes := hlen bytes rfl
    have hread : (PidFile.content bytes).read = some bytes := congrArg some (List.take_of_length_le hbytes)
    have hloop := newlineLoop_eq bytes []
    rw [List.append_nil] at hloop
    have hbegins := List.rdropWhile_prefix isNewline (l := bytes)
    have hle := hbegins.length_le
    have hline : bytes.take ((bytes.rdropWhile isNewline).length - 1 + 1 : ℤ).toNat = bytes.rdropWhile isNewline := by
      rw [sub_add_cancel, Int.toNat_natCast]
      exact (List.prefix_iff_eq_take.mp hbegins).symm
    simp only [signalOpened, hread, hloop, hline]
    rw [if_pos (by omega)]
    by_cases hpid : bytes.rdropWhile isNewline ≠ [] ∧ (bytes.rdropWhile isNewline).all isDigit ∧
        decimal (bytes.rdropWhile isNewline) < 2 ^ 31
    · rw [atoi, if_pos hpid, if_neg (by simp only [ptrxError]; omega)]
      refine ⟨_, rfl, fun pid hholds => ?_, fun hnone => absurd ?_ hnone⟩
      · rw [((holds_content_iff hbytes pid).mp hholds).2.2.1]
      · exact ⟨_, (holds_content_iff hbytes _).mpr ⟨hpid.1, List.all_eq_true.mp hpid.2.1, rfl, hpid.2.2⟩⟩
    · rw [atoi, if_neg hpid, if_pos rfl]
      refine ⟨_, rfl, fun pid hholds => absurd ?_ hpid, fun _ => ⟨rfl, rfl⟩⟩
      obtain ⟨hne, hds, hval, hfits⟩ := (holds_content_iff hbytes pid).mp hholds
      exact ⟨hne, List.all_eq_true.mpr hds, hval ▸ hfits⟩

/-! ## The signal process -/

theorem signalProcess_eq (file : PidFile) (atoi : List Byte → ℤ) (osSignalProcess : ℤ → ℤ) :
    signalProcess file atoi osSignalProcess = some ⟨1, []⟩ := by
  simp [signalProcess, invalidFile]

/-- No process is ever signalled, so that it is right to do so just where the file has no number of a process. -/
theorem meets_iff (file : PidFile) (atoi : List Byte → ℤ) (osSignalProcess : ℤ → ℤ) :
    Meets file (signalProcess file atoi osSignalProcess) ↔ ¬ ∃ pid, file.Holds pid := by
  rw [signalProcess_eq]
  constructor
  · rintro ⟨s, hs, hpid, -⟩ ⟨pid, hholds⟩
    cases hs
    exact List.cons_ne_nil _ _ (hpid pid hholds).symm
  · intro hnone
    exact ⟨_, rfl, fun pid hholds => absurd ⟨pid, hholds⟩ hnone, fun _ => ⟨rfl, rfl⟩⟩

/-- A file with the number 1. -/
theorem not_meets : ¬ ∀ file osSignalProcess, Meets file (signalProcess file atoi osSignalProcess) := by
  intro hmeets
  obtain ⟨s, hs, hpid, -⟩ := hmeets (.content [49, lf]) fun _ => 0
  have hholds : (PidFile.content [49, lf]).Holds 1 := 
    ⟨[49], [lf], rfl, by decide, by decide, List.forall_mem_singleton.mpr rfl, List.forall_mem_singleton.mpr (.inr rfl), rfl,
      by omega⟩
  rw [signalProcess_eq] at hs
  cases hs
  exact List.cons_ne_nil _ _ (hpid 1 hholds).symm

end CodingExercises.PeotrixNginx
