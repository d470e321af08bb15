import CodingExercises.Lib.Runs
import CodingExercises.Tftp.File

/-!
# TFTP: netascii transfers

- A file read by `file_read` in any pieces and written by `file_write` in any pieces arrives unchanged
  (`netascii_round_trip`).
- The client's `file_open` leaves `lastcr` and `nextchar` as the last transfer left them. `Command` is what a `get` or a
  `put` does to these statics, `client` the process that executes one command after another. A transfer behaves like
  the first one exactly when nothing it would use is left over (`finds_asFirst_iff_finds_clean`).
-/

namespace CodingExercises.Tftp

open Lib

/-! ## The round trip -/

/-- **Netascii round trip.** However a file is cut by the calls of `file_read` that end with one returning 0, and
however the bytes they delivered are cut for `file_write`, the receiver's file is the sender's and can be closed. -/
theorem netascii_round_trip (file : List Byte) (asked : List ℕ) (n : ℕ) (hn : 0 < n)
    (hend : (fileRead ((fileSource .ascii).pieces asked (opened file)).2 n .ascii).1 = [])
    (handed : List (List Byte))
    (hsame : handed.flatten = ((fileSource .ascii).pieces asked (opened file)).1.flatten) :
    ∃ fp, (fileSink .ascii).writes handed (opened []) = .ok fp ∧ fp.written = file ∧ fp.lastcr = false ∧
      fileClose .server fp = .ok () := by
  have hnone : pending .ascii ((fileSource .ascii).pieces asked (opened file)).2 = [] :=
    ((fileSource .ascii).read_eq_nil_iff hn _).1 hend
  have hall : handed.flatten = netascii file := by
    have h : handed.flatten ++ pending .ascii ((fileSource .ascii).pieces asked (opened file)).2 =
        pending .ascii (opened file) := by
      rw [hsame]; exact (fileSource .ascii).read_pieces asked (opened file)
    rw [hnone, List.append_nil] at h
    simpa [pending, opened] using h
  refine ⟨{ opened [] with written := file }, ?_, rfl, rfl, rfl⟩
  rw [Sink.write_pieces, hall]
  exact fileWrite_netascii file (opened []) rfl

theorem netascii_round_trip_cut :
    ∃ fp, (fileSink .ascii).writes [[97, 13], [], [10, 13], [0, 13, 10, 98]] (opened []) = .ok fp ∧
      fp.written = [97, 10, 13, 10, 98] ∧ fp.lastcr = false ∧ fileClose .server fp = .ok () :=
  netascii_round_trip [97, 10, 13, 10, 98] [2, 1, 512] 512 (by decide) (by decide) _ (by decide)

/-! ## One transfer after another -/

/-- What a command makes the file routines do: `put` asks `file_read` for pieces, `get` hands pieces to `file_write`.
Where the lists end is where the transfer ended, timed out or was interrupted. -/
inductive Command
  | put (mode : Mode) (file : List Byte) (asked : List ℕ)
  | get (mode : Mode) (handed : List (List Byte))

/-- What a command produces: the network bytes of a `put`, or the local bytes of a `get` with the exit, if any. -/
inductive Output
  | network (pieces : List (List Byte))
  | localFile (why : Option Exit) (written : List Byte)
deriving DecidableEq, Repr

/-- The local bytes after some calls of `file_write`. -/
def localBytes : Except (Exit × LocalFile) LocalFile → Output
  | .ok fp => .localFile none fp.written
  | .error e => .localFile (some e.1) e.2.written

/-- The output of a command on a stream opened for it. -/
def Command.output (start : List Byte → LocalFile) : Command → Output
  | .put mode file asked => .network ((fileSource mode).pieces asked (start file)).1
  | .get mode handed => localBytes ((fileSink mode).writes handed (start []))

/-- The statics after a command; none when the process has exited. -/
def Command.next (old : LocalFile) : Command → Option LocalFile
  | .put mode file asked => some ((fileSource mode).pieces asked (reopened file old)).2
  | .get mode handed => ((fileSink mode).writes handed (reopened [] old)).toOption

/-- The client process, as far as its files go. -/
def client : Machine (Option LocalFile) Command Output where
  step s c := s.bind fun old => c.next old
  emit s c := s.toList.map fun old => c.output fun content => reopened content old

/-! ## Transfers that behave like the first one -/

/-- A transfer: the file a `put` sends, or the file a `get` asks this server for. -/
inductive Job
  | put (mode : Mode) (file : List Byte)
  | get (mode : Mode) (file : List Byte)

/-- The commands a transfer may be, by how it is cut and by how far it comes. -/
def Job.Runs : Job → Command → Prop
  | .put mode file, c => ∃ asked, c = .put mode file asked
  | .get mode file, c => ∃ handed, c = .get mode handed ∧ handed.flatten <+: pending mode (opened file)

/-- A transfer does what it would do with no character state carried over, however it is cut. -/
def AsFirst (old : LocalFile) (j : Job) : Prop :=
  ∀ c, j.Runs c → (c.output fun content => reopened content old) = c.output opened

/-- Nothing that the transfer would use is left over. -/
def Clean (old : LocalFile) : Job → Prop
  | .put .ascii _ => old.nextchar < 0
  | .get .ascii file => old.lastcr = false ∨ file = []
  | .put .binary _ => True
  | .get .binary _ => True

/-- Two streams that look the same to `file_write`. -/
theorem localBytes_writeAscii_congr (cs : List Byte) {f g : LocalFile} (hw : f.written = g.written)
    (hc : f.lastcr = g.lastcr) : localBytes (writeAscii cs f) = localBytes (writeAscii cs g) := by
  induction cs generalizing f g with
  | nil => simp [writeAscii, localBytes, hw]
  | cons c cs ih =>
    unfold writeAscii
    rw [← hc]
    split
    · split
      · exact ih (by simp [hw]) rfl
      · split
        · exact ih (by simp [hw]) rfl
        · simp [localBytes, hw]
    · split
      · exact ih hw rfl
      · exact ih (by simp [hw]) rfl

/-- A byte owed changes what the next `put` sends. -/
theorem not_asFirst_put {old : LocalFile} (file : List Byte) (h : 0 ≤ old.nextchar) :
    ¬ AsFirst old (.put .ascii file) := by
  intro hf
  have hp := hf (.put .ascii file [(netascii file).length + 1]) ⟨_, rfl⟩
  simp only [Command.output, Output.network.injEq, Source.pieces, List.cons.injEq, and_true, fileSource,
    fileRead_fst] at hp
  have hlen := congrArg List.length hp
  simp [pending, reopened, opened, h] at hlen

/-- A half pair changes what the next `get` writes, unless nothing arrives. -/
theorem not_asFirst_get {old : LocalFile} {file : List Byte} (h : old.lastcr = true) (hne : file ≠ []) :
    ¬ AsFirst old (.get .ascii file) := by
  intro hf
  obtain ⟨c, rest, rfl⟩ := List.exists_cons_of_ne_nil hne
  have hsent : ∀ b, [b] <+: netasciiByte c → localBytes (writeAscii [b] (reopened [] old)) =
      localBytes (writeAscii [b] (opened [])) := by
    intro b hb
    have hpre : [[b]].flatten <+: pending .ascii (opened (c :: rest)) := by
      have h1 : pending .ascii (opened (c :: rest)) = netasciiByte c ++ netascii rest := by
        simp [pending, opened, netascii]
      rw [h1]
      exact hb.trans (List.prefix_append _ _)
    simpa [Command.output, Sink.write_pieces, fileSink, fileWrite] using hf (.get .ascii [[b]]) ⟨_, rfl, hpre⟩
  by_cases hlf : c = lf
  · have := hsent cr (by simp [netasciiByte, hlf])
    simp [writeAscii, reopened, opened, h, localBytes, cr, lf] at this
  · by_cases hcr : c = cr
    · have := hsent cr (by simp [netasciiByte, hcr, cr, lf])
      simp [writeAscii, reopened, opened, h, localBytes, cr, lf] at this
    · have hc := hsent c (by simp [netasciiByte, hlf, hcr])
      by_cases h0 : c = 0
      · subst h0
        simp [writeAscii, reopened, opened, h, localBytes, cr, lf] at hc
      · simp [writeAscii, reopened, opened, h, localBytes, hlf, hcr, h0] at hc

/-- A transfer with nothing left over behaves like the first one. -/
theorem asFirst_of_clean {old : LocalFile} {j : Job} (h : Clean old j) : AsFirst old j := by
  intro c hc
  cases j with
  | put mode file =>
    obtain ⟨asked, rfl⟩ := hc
    refine congrArg Output.network ((fileSource mode).pieces_congr asked ?_)
    cases mode with
    | binary => rfl
    | ascii =>
      have hn : ¬ 0 ≤ old.nextchar := by simp only [Clean] at h; omega
      simp [fileSource, pending, reopened, opened, hn]
  | get mode file =>
    obtain ⟨handed, rfl, hpre⟩ := hc
    simp only [Command.output, Sink.write_pieces]
    cases mode with
    | binary => rfl
    | ascii =>
      rcases h with h | rfl
      · exact localBytes_writeAscii_congr _ rfl h
      · have hnil : handed.flatten = [] := by simpa [pending, opened, netascii] using hpre
        rw [hnil]; rfl

theorem asFirst_iff_clean (old : LocalFile) (j : Job) : AsFirst old j ↔ Clean old j := by
  refine ⟨?_, asFirst_of_clean⟩
  intro hf
  match j with
  | .put .binary file => trivial
  | .get .binary file => trivial
  | .put .ascii file =>
    by_contra hn
    exact not_asFirst_put file (by simpa [Clean] using hn) hf
  | .get .ascii file =>
    by_contra hn
    simp only [Clean, not_or, Bool.not_eq_false] at hn
    exact not_asFirst_get hn.1 hn.2 hf

/-! ## Histories of one client process -/

/-- A transfer and the way it went. -/
structure Transferred where
  job : Job
  cmd : Command
  runs : job.Runs cmd

/-- `P` holds of the statics every transfer of the history finds, and of the transfer. -/
def Finds (P : LocalFile → Job → Prop) (history : List Transferred) : Prop :=
  ∀ before t after, history = before ++ t :: after →
    ∀ old, client.run (some initvars.localfp) (before.map Transferred.cmd) = some old → P old t.job

/-- **What is carried over.** In every history of a client process, every transfer behaves like the first one exactly
when every transfer finds nothing left over that it would use. -/
theorem finds_asFirst_iff_finds_clean (history : List Transferred) : Finds AsFirst history ↔ Finds Clean history := by
  constructor
  · intro h before t after he old hold
    exact (asFirst_iff_clean old t.job).1 (h before t after he old hold)
  · intro h before t after he old hold
    exact (asFirst_iff_clean old t.job).2 (h before t after he old hold)

/-- A client's first `put` of a one-letter file in netascii: the initial `nextchar` travels ahead of the letter. -/
def firstPut : Transferred where
  job := .put .ascii [97]
  cmd := .put .ascii [97] [512, 512]
  runs := ⟨_, rfl⟩

/-- The first `put` of a process does not behave like a transfer with nothing carried over: it sends a null first. -/
theorem firstPut_not_asFirst :
    client.trace (some initvars.localfp) [firstPut.cmd] = [.network [[0, 97], []]] ∧
      firstPut.cmd.output opened = .network [[97], []] ∧ ¬ Finds AsFirst [firstPut] := by
  refine ⟨by decide, by decide, ?_⟩
  intro h
  have := h [] firstPut [] rfl initvars.localfp rfl _ firstPut.runs
  exact absurd this (by decide)

end CodingExercises.Tftp
