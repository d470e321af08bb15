import CodingExercises.Tftp.Simulation

/-!
# TFTP: what a transfer delivers

- Over a network that loses, duplicates, delays and reorders datagrams, with any timeouts, the receiver's file is a
  prefix of the sender's, and all of it once an end has finished (`octet_transfer`).
- Over channels that keep the order, no packet is refused in a transfer of at most 65534 full blocks
  (`fifo_transfer_accepted`).
- Without losses and timeouts, an octet transfer completes exactly when the file is shorter than 65535 full blocks
  (`completes_iff`): block 65536 travels as 0.
-/

namespace CodingExercises.Tftp

open Lib Lib.StopWait

namespace Session

variable {s : Session} {x y : Transfer} {alarms : List Readings} {net : Net}

/-- The bytes of the sender's file. -/
def file (s : Session) : List Byte := s.source.unread

/-- The process has left through one of the exits. -/
def Exited (p : Proc) : Prop := ∃ why, p.status = .exited why

theorem At.known {I : ℕ → Globals → Prop} {n : ℕ} {p : Proc} {ph : Phase} (h : At I n p ph) (hp : ¬ Exited p) :
    I n p.g := by
  cases ph with
  | running => exact h.2
  | finished => exact h.2
  | gaveUp => exact h.2
  | aborted => obtain ⟨why, -, hw⟩ := h; exact absurd ⟨why, hw⟩ hp
  | failed => obtain ⟨why, -, hw⟩ := h; exact absurd ⟨why, hw⟩ hp

/-- A process that has returned 0 is finished. -/
theorem At.finished {I : ℕ → Globals → Prop} {n : ℕ} {p : Proc} {ph : Phase} (h : At I n p ph)
    (hp : p.status = .returned 0) : ph = .finished ∧ I n p.g := by
  cases ph with
  | running => have h1 := h.1; rw [hp] at h1; cases h1
  | finished => exact ⟨rfl, h.2⟩
  | gaveUp => have h1 := h.1; rw [hp] at h1; cases h1
  | aborted => obtain ⟨why, -, h1⟩ := h; rw [hp] at h1; cases h1
  | failed => obtain ⟨why, -, h1⟩ := h; rw [hp] at h1; cases h1

theorem At.exited {I : ℕ → Globals → Prop} {n : ℕ} {p : Proc} {ph : Phase} (h : At I n p ph) {why : Exit}
    (hp : p.status = .exited why) : ph = .aborted ∧ why.OfNumber ∨ ph = .failed ∧ why.OfFile := by
  cases ph with
  | running => have h1 := h.1; rw [hp] at h1; cases h1
  | finished => have h1 := h.1; rw [hp] at h1; cases h1
  | gaveUp => have h1 := h.1; rw [hp] at h1; cases h1
  | aborted =>
    obtain ⟨w, hw, h1⟩ := h
    rw [hp] at h1
    exact .inl ⟨rfl, Status.exited.inj h1 ▸ hw⟩
  | failed =>
    obtain ⟨w, hw, h1⟩ := h
    rw [hp] at h1
    exact .inr ⟨rfl, Status.exited.inj h1 ▸ hw⟩

/-- A stream that is written has nothing in it when it is opened. -/
theorem target_written : s.target.written = [] := by
  have h : ∀ {side fs name mode old fp}, fileOpen side fs name mode old = some fp → fp.written = [] := by
    intro side fs name mode old fp h
    unfold fileOpen at h
    split at h
    · cases h
    · cases side <;> cases h <;> rfl
  have ht := s.opens_target
  unfold openTarget at ht
  split at ht
  · exact h ht
  · exact h ht

/-- What an octet receiver has written. -/
theorem Receiving.written {n : ℕ} {g : Globals} (h : s.Receiving n g) (hm : s.mode = .binary) :
    g.localfp.written = s.file.take (maxData * n) := by
  have hstored := h.stored
  have hstream : s.stream = s.file := by unfold stream; rw [hm]; rfl
  rw [hm, hstream] at hstored
  rw [← Except.ok.inj hstored, target_written]; rfl

/-- What an octet receiver has written once it has received the last block. -/
theorem Receiving.written_last {g : Globals} (h : s.Receiving s.protocol.last g) (hm : s.mode = .binary) :
    g.localfp.written = s.file := by
  have hstream : s.stream = s.file := by unfold stream; rw [hm]; rfl
  rw [h.written hm, ← hstream]
  exact take_lastBlock (by decide)

/-- The receiver of a transfer in which an end has finished has received the last block. -/
theorem Sim.received_last {a : St} (h : s.Sim a x) (hs : s.protocol.Safe a)
    (hf : x.rcv.status = .returned 0 ∨ x.snd.status = .returned 0) : s.Receiving s.protocol.last x.rcv.g := by
  have hlast : a.rcvd = s.protocol.last := by
    rcases hf with hf | hf
    · exact hs.rcv_finished.1 (h.rcv.finished hf).1
    · exact hs.snd_finished (h.snd.finished hf).1
  have hrcv := h.rcv
  rw [hs.rcv_finished.2 hlast, hlast] at hrcv
  exact hrcv.2

/-- Ends that run or are finished have not exited. -/
theorem Sim.not_exited {a : St} (h : s.Sim a x) (hsnd : a.snd = .running ∨ a.snd = .finished)
    (hrcv : a.rcv = .running ∨ a.rcv = .finished) : ¬ Exited x.snd ∧ ¬ Exited x.rcv := by
  constructor
  · rintro ⟨why, hw⟩
    rcases h.snd.exited hw with ⟨hb, -⟩ | ⟨hb, -⟩ <;> rcases hsnd with hc | hc <;> rw [hb] at hc <;> cases hc
  · rintro ⟨why, hw⟩
    rcases h.rcv.exited hw with ⟨hb, -⟩ | ⟨hb, -⟩ <;> rcases hrcv with hc | hc <;> rw [hb] at hc <;> cases hc

/-- When both ends are finished, both have returned and the receiver has the whole file. -/
theorem Sim.delivered {a : St} (h : s.Sim a x) (hs : s.protocol.Safe a) (hm : s.mode = .binary) (hsnd : a.snd = .finished)
    (hrcv : a.rcv = .finished) :
    x.snd.status = .returned 0 ∧ x.rcv.status = .returned 0 ∧ x.rcv.g.localfp.written = s.file := by
  have hS := h.snd
  have hR := h.rcv
  rw [hsnd] at hS
  rw [hrcv] at hR
  exact ⟨hS.1, hR.1, (h.received_last hs (.inl hR.1)).written_last hm⟩

/-! ## Over any network -/

/-- **An octet transfer over any network.** As long as neither end has exited, the receiver has written the blocks
before the one it expects, which is the sender's last block or the one behind it; once an end has finished, the
receiver has written the whole file. -/
theorem octet_transfer (hm : s.mode = .binary) (h : s.Started alarms x)
    (hr : Relation.ReflTransGen (s.Any .anyOrder) x y) :
    (¬ Exited y.snd → ¬ Exited y.rcv →
      y.rcv.g.localfp.written = firstBlocks maxData s.file (y.rcv.g.nextblknum - 1).toNat ∧
      (y.rcv.g.nextblknum = y.snd.g.nextblknum ∨ y.rcv.g.nextblknum = y.snd.g.nextblknum + 1)) ∧
    (y.rcv.status = .returned 0 → y.rcv.g.localfp.written = s.file) ∧
    (y.snd.status = .returned 0 → y.rcv.g.localfp.written = s.file) := by
  obtain ⟨_, b, -, -, hsafe, hsim⟩ := sim_of_reaches h hr
  refine ⟨?_, ?_, ?_⟩
  · intro hsnd hrcv
    have hS := hsim.snd.known hsnd
    have hR := hsim.rcv.known hrcv
    have hle := hsafe.rcvd_le
    have hge := hsafe.sent_le
    rw [hR.nextblknum, hS.nextblknum, firstBlocks_eq_take, hR.written hm]
    constructor
    · congr 2
      omega
    · omega
  · intro hf
    exact (hsim.received_last hsafe (.inl hf)).written_last hm
  · intro hf
    exact (hsim.received_last hsafe (.inr hf)).written_last hm

/-- A get of two bytes, to its end. -/
theorem octet_transfer_sample :
    let s := sample .get [104, 105]
    let x := s.rcvEvent (sampleStart .get [104, 105]) (s.hears .server [0, 3, 0, 1, 104, 105] ⟨0, 0⟩)
      [[0, 3, 0, 1, 104, 105]]
    (s.sndEvent x (s.hears .client [0, 4, 0, 1] ⟨0, 0⟩) [[0, 4, 0, 1]]).rcv.g.localfp.written = [104, 105] := by
  intro s x
  refine (octet_transfer (s := s) rfl (sample_started (by decide +kernel)) ?_).2.2 (by decide +kernel)
  refine .tail (.tail .refl ⟨_, .data ⟨0, 0⟩ (by decide +kernel) ⟨?_, ?_⟩⟩) ⟨_, .ack ⟨0, 0⟩ (by decide +kernel) ⟨?_, ?_⟩⟩
  all_goals decide +kernel

/-! ## Channels that keep the order -/

/-- The next packet for a process is one that the table hands to `f`, with the number it expects or the one before. -/
def Accepts (side : Side) (f : Handler) (g : Globals) (b : List Byte) : Prop :=
  fsmPtr side g.opSent (ldshort b) = f ∧
    ((ldshort (b.drop 2) : Int) = g.nextblknum ∨ (ldshort (b.drop 2) : Int) = g.nextblknum - 1)

/-- Every block number survives the 16 bits. -/
theorem exact_iff : s.protocol.Exact ↔ s.stream.length / maxData ≤ 65534 := by
  have hlast : s.protocol.last = s.stream.length / maxData + 1 := rfl
  constructor
  · intro h
    by_contra hc
    have hw : 65536 % 65536 = 65536 := h 65536 (by omega)
    omega
  · intro h k hk
    show k % 65536 = k
    omega

theorem ldshort_dataPkt (s : Session) (k : ℕ) : ldshort (s.dataPkt k) = opData :=
  ldshort_blockPacket s.stream k

theorem Receiving.accepts {n k : ℕ} {g : Globals} (h : s.Receiving n g) (hk : k % 65536 = k)
    (hn : k = n + 1 ∨ k = n) : Accepts s.dir.receiver .recvData g (s.dataPkt k) := by
  have hnum : ldshort ((s.dataPkt k).drop 2) = k := by
    rw [dataPkt, blockPacket, dataPacket, List.append_assoc, drop_stshort, ldshort_stshort_nat, hk]
  constructor
  · rw [ldshort_dataPkt]
    rcases h.contact with ⟨ho, -⟩ | ⟨-, ho, hd, -⟩
    · rw [ho]; exact fsmPtr_data _
    · rw [ho, hd]; rfl
  · rw [hnum, h.nextblknum]; omega

theorem Sending.accepts {n k : ℕ} {g : Globals} (h : s.Sending n g) (hk : k % 65536 = k)
    (hn : k = n ∨ k + 1 = n) : Accepts s.dir.sender .recvAck g (ackPkt k) := by
  have hop : ldshort (ackPkt k) = opAck := by
    rw [ackPkt, ackPacket, ldshort_stshort_nat]; rfl
  have hnum : ldshort ((ackPkt k).drop 2) = k := by
    have h := ldshort_stshort_nat k []
    rw [List.append_nil, hk] at h
    exact h
  constructor
  · rw [hop]
    rcases h.contact with ⟨-, ho, -⟩ | ⟨-, ho, hd, -⟩
    · rw [ho]; exact fsmPtr_ack _
    · rw [ho, hd]; rfl
  · rw [hnum, h.nextblknum]; omega

/-- **Nothing is refused over channels that keep the order.** In a transfer of at most 65534 full blocks neither end
exits, but for a receiver in netascii that cannot write what it gets, and the next packet for an end is always of the
kind and of a number that it accepts. -/
theorem fifo_transfer_accepted (hlen : s.stream.length / maxData ≤ 65534) (h : s.Started alarms x)
    (hr : Relation.ReflTransGen (s.Any .fifo) x y) :
    (¬ Exited y.snd ∧ ∀ why, y.rcv.status = .exited why → s.mode = .ascii ∧ why.OfFile) ∧
    (∀ b q, y.data = b :: q → y.rcv.status = .waiting → Accepts s.dir.receiver .recvData y.rcv.g b) ∧
    (∀ b q, y.acks = b :: q → y.snd.status = .waiting → Accepts s.dir.sender .recvAck y.snd.g b) := by
  obtain ⟨a, c, ha, hac, hsafe, hsim⟩ := sim_of_reaches h hr
  have hx := exact_iff.2 hlen
  have hord := Protocol.ordered_of_reaches hx (ha.ordered (P := s.protocol)) hac
  refine ⟨⟨?_, ?_⟩, ?_, ?_⟩
  · rintro ⟨why, hw⟩
    rcases hsim.snd.exited hw with ⟨hph, -⟩ | ⟨hph, -⟩
    · exact hord.snd_ok hph
    · exact hsafe.snd_failed hph
  · intro why hw
    rcases hsim.rcv.exited hw with ⟨hph, -⟩ | ⟨hph, hwhy⟩
    · exact absurd hph hord.rcv_ok
    · exact ⟨hsafe.rcv_failed hph, hwhy⟩
  · intro b q hb hp
    rw [hsim.data] at hb
    obtain ⟨k, q', hq, rfl, -⟩ := List.map_eq_cons_iff.1 hb
    have hk : k ∈ c.data := by rw [hq]; exact List.mem_cons_self
    have h1 := hord.data_ge k hk
    have h2 := hsafe.data_le k hk
    have h3 := hsafe.sent_le
    exact (hsim.rcv.running hp).2.accepts (hx k (by have := hsafe.sent_last; omega)) (by omega)
  · intro b q hb hp
    rw [hsim.acks] at hb
    obtain ⟨k, q', hq, rfl, -⟩ := List.map_eq_cons_iff.1 hb
    have hk : k ∈ c.acks := by rw [hq]; exact List.mem_cons_self
    have h1 := hord.acks_ge k hk
    have h2 := hsafe.acks_le k hk
    have h3 := hsafe.rcvd_le
    exact (hsim.snd.running hp).2.accepts (hx k (by have := hsafe.sent_last; omega)) (by omega)

/-- A put of one byte, once the first block is in flight. -/
theorem fifo_transfer_accepted_sample :
    let s := sample .put [104]
    let y := s.sndEvent (sampleStart .put [104]) (s.hears .server [0, 4, 0, 0] ⟨0, 0⟩) []
    ¬ Exited y.snd ∧ Accepts .server .recvData y.rcv.g [0, 3, 0, 1, 104] := by
  intro s y
  have hr : Relation.ReflTransGen (s.Any .fifo) (sampleStart .put [104]) y :=
    .tail .refl ⟨_, .ack ⟨0, 0⟩ (by decide +kernel)
      (show (sampleStart .put [104]).acks = [[0, 4, 0, 0]] by decide +kernel)⟩
  obtain ⟨⟨hsnd, -⟩, hdata, -⟩ := fifo_transfer_accepted (s := s) (by decide +kernel)
    (sample_started (by decide +kernel)) hr
  exact ⟨hsnd, hdata _ [] (by decide +kernel) (by decide +kernel)⟩

/-! ## The run without losses and timeouts -/

/-- The run without losses and timeouts ends, neither end exits on the way, and when there is nothing left to deliver
both ends have returned and the receiver has the whole file. -/
structure Completes (s : Session) (x : Transfer) : Prop where
  ends : Terminates s.Delivery x
  clean : ∀ y, Relation.ReflTransGen s.Delivery x y → ¬ Exited y.snd ∧ ¬ Exited y.rcv
  done : ∀ y, Relation.ReflTransGen s.Delivery x y → Stuck s.Delivery y →
    y.snd.status = .returned 0 ∧ y.rcv.status = .returned 0 ∧ y.rcv.g.localfp.written = s.file

/-- A state of the protocol's lockstep run and the state of the two programs that it describes. -/
def InLockstep (s : Session) (a : St) (x : Transfer) : Prop := s.protocol.Lockstep a ∧ s.protocol.Safe a ∧ s.Sim a x

theorem InLockstep.step (hf : ¬ s.protocol.fallible) {a : St} (h : s.InLockstep a x) (hst : s.Delivery x y) :
    ∃ b, s.protocol.Delivery a b ∧ s.InLockstep b y := by
  obtain ⟨hl, hs, hsim⟩ := h
  have hb : ∃ b, s.protocol.Delivery a b ∧ s.protocol.Safe b ∧ s.Sim b y := by
    rcases hst with hst | hst
    · obtain ⟨b, hab, hb⟩ := hsim.step hs hst
      exact ⟨b, .inl hab, hs.step hab, hb⟩
    · obtain ⟨b, hab, hb⟩ := hsim.step hs hst
      exact ⟨b, .inr hab, hs.step hab, hb⟩
  obtain ⟨b, hab, hsafe, hb⟩ := hb
  exact ⟨b, hab, (hl.step hf hab).1, hsafe, hb⟩

theorem Started.inLockstep (h : s.Started [] x) : ∃ a, s.InLockstep a x := by
  obtain ⟨a, ha, hsim, hrun⟩ := h.sim
  obtain ⟨hs, hr⟩ := hrun rfl
  exact ⟨a, ha.lockstep hs hr, ha.safe, hsim⟩

/-- While a packet is in flight the run goes on. -/
theorem InLockstep.stuck {a : St} (h : s.InLockstep a x) (hstuck : Stuck s.Delivery x) :
    a.snd = .finished ∧ a.rcv = .finished ∧ s.protocol.Exact ∨ a.rcv = .aborted ∧ ¬ s.protocol.Exact := by
  obtain ⟨hl, -, hsim⟩ := h
  cases hl with
  | data hw hk =>
    have hd : Net.fifo.Deliver x.data (s.dataPkt _) [] := hsim.data
    exact absurd (.inl (.data ⟨0, 0⟩ hsim.rcv.1 hd)) (hstuck _)
  | ack hw hk =>
    have hd : Net.fifo.Deliver x.acks (ackPkt _) [] := hsim.acks
    exact absurd (.inr (.ack ⟨0, 0⟩ hsim.snd.1 hd)) (hstuck _)
  | done hx => exact .inl ⟨rfl, rfl, hx⟩
  | @refused k hw hk => exact .inr ⟨rfl, fun hx => hw (hx _ hk)⟩

/-- Nobody has exited while every number survives the wire. -/
theorem InLockstep.clean {a : St} (h : s.InLockstep a x) (hx : s.protocol.Exact) : ¬ Exited x.snd ∧ ¬ Exited x.rcv := by
  obtain ⟨hl, -, hsim⟩ := h
  cases hl with
  | data hw hk => exact hsim.not_exited (.inl rfl) (.inl rfl)
  | @ack k hw hk => exact hsim.not_exited (.inl rfl) (Protocol.after_cases k)
  | done => exact hsim.not_exited (.inr rfl) (.inr rfl)
  | @refused k hw hk => exact absurd (hx _ hk) hw

section Complete

variable (hm : s.mode = .binary)
include hm

theorem not_fallible : ¬ s.protocol.fallible := by
  show ¬ s.mode = .ascii
  rw [hm]; simp

theorem inLockstep_of_reaches (h : s.Started [] x) (hr : Relation.ReflTransGen s.Delivery x y) :
    ∃ a, s.InLockstep a y := by
  obtain ⟨a, ha⟩ := h.inLockstep
  obtain ⟨b, -, hb⟩ := simulation_of_reaches s.protocol.Delivery s.InLockstep
    (fun _ _ _ h hst => h.step (not_fallible hm) hst) hr ha
  exact ⟨b, hb⟩

theorem delivery_terminates (h : s.Started [] x) : Terminates s.Delivery x := by
  obtain ⟨a, ha⟩ := h.inLockstep
  exact (ha.1.terminates (not_fallible hm)).of_simulation s.InLockstep
    (fun _ _ _ h hst => h.step (not_fallible hm) hst) ha

theorem completes_of_exact (hx : s.protocol.Exact) (h : s.Started [] x) : s.Completes x := by
  refine ⟨delivery_terminates hm h, ?_, ?_⟩
  · intro y hr
    obtain ⟨a, ha⟩ := inLockstep_of_reaches hm h hr
    exact ha.clean hx
  · intro y hr hstuck
    obtain ⟨a, ha⟩ := inLockstep_of_reaches hm h hr
    rcases ha.stuck hstuck with ⟨hs, hrcv, -⟩ | ⟨-, hne⟩
    · exact ha.2.2.delivered ha.2.1 hm hs hrcv
    · exact absurd hx hne

/-- A transfer with a number that does not survive the wire ends with the receiver's exit. -/
theorem not_completes (hx : ¬ s.protocol.Exact) (h : s.Started [] x) : ¬ s.Completes x := by
  intro hc
  obtain ⟨y, hr, hstuck⟩ := hc.ends.exists_stuck
  obtain ⟨a, ha⟩ := inLockstep_of_reaches hm h hr
  rcases ha.stuck hstuck with ⟨-, -, hex⟩ | ⟨hab, -⟩
  · exact hx hex
  · have hrcv := ha.2.2.rcv
    rw [hab] at hrcv
    obtain ⟨why, -, hw⟩ := hrcv
    exact (hc.clean y hr).2 ⟨why, hw⟩

theorem stream_eq_file : s.stream = s.file := by
  unfold stream
  rw [hm]; rfl

theorem exact_iff_file : s.protocol.Exact ↔ s.file.length < 65535 * maxData := by
  rw [exact_iff, stream_eq_file hm]
  unfold maxData
  omega

/-- **When an octet transfer completes.** Without losses and timeouts it does exactly when the file is shorter than
65535 full blocks. -/
theorem completes_iff (h : s.Started [] x) : s.Completes x ↔ s.file.length < 65535 * maxData := by
  rw [← exact_iff_file hm]
  constructor
  · intro hc
    by_contra hx
    exact not_completes hm hx h hc
  · intro hx
    exact completes_of_exact hm hx h

end Complete

theorem completes_iff_sample : (sample .get [104, 105]).Completes (sampleStart .get [104, 105]) :=
  (completes_iff rfl (sample_started (by decide +kernel))).2 (by decide +kernel)

/-- A put of a file that is too long does not complete. -/
theorem sample_put_not_completes {content : List Byte} (h : 65535 * maxData ≤ content.length) :
    ¬ (sample .put content).Completes (sampleStart .put content) := by
  refine not_completes rfl ?_ (sample_started rfl)
  have hfile : (sample .put content).stream = content := rfl
  rw [exact_iff, hfile]
  unfold maxData at *
  omega

/-- A put of 65535 full blocks ends with an exit: the empty block 65536 travels as 0. -/
theorem longPut_not_completes :
    ∃ content : List Byte, content.length = 33553920 ∧ (sample .put content).mode = .binary ∧
      (sample .put content).file = content ∧ (sample .put content).Started [] (sampleStart .put content) ∧
      ¬ (sample .put content).Completes (sampleStart .put content) := by
  refine ⟨List.replicate 33553920 97, List.length_replicate, rfl, rfl, sample_started rfl,
    sample_put_not_completes ?_⟩
  rw [List.length_replicate]
  decide

end Session

end CodingExercises.Tftp
