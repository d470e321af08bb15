import CodingExercises.Tftp.Reading
import CodingExercises.Tftp.Transfer

/-!
# TFTP: a transfer is a run of the stop-and-wait protocol

The blocks of the protocol are the pieces of 512 bytes of what the sender's file delivers, and their numbers travel as
16 bits. `Sending` and `Receiving` say what the variables of an end are once some blocks are sent or received, and `Sim`
relates a state of the protocol to a state of the two programs.

- `Receiving.step_next`, `Receiving.step_again` and `Receiving.step_refuse` are the steps of the receiver on a block,
  `Sending.step_next`, `Sending.step_done`, `Sending.step_again` and `Sending.step_refuse` those of the sender on an
  acknowledgement;
- every step of a transfer is a step of the protocol (`Sim.step`), so runs of the one are runs of the other
  (`sim_of_reaches`).
-/

namespace CodingExercises.Tftp

open Lib Lib.StopWait

namespace Session

variable (s : Session)

/-- The protocol that the two programs run. -/
def protocol : Protocol where
  wire k := k % 65536
  wire_spec k := by omega
  last := lastBlock maxData s.stream
  last_pos := Nat.succ_pos _
  fallible := s.mode = .ascii

/-- The packet of a block. -/
def dataPkt (k : ℕ) : List Byte := blockPacket s.stream k

/-- The packet of an acknowledgement. -/
def ackPkt (k : ℕ) : List Byte := ackPacket k

/-- The variables of a sender that has sent `n` blocks. Before the first one it is a client that waits for the answer to
its request. -/
structure Sending (n : ℕ) (g : Globals) : Prop extends Reading s.mode s.stream n g where
  contact : (0 < n ∧ g.opSent = opData ∧ g.sendbuff = s.dataPkt n ∧
      g.recvFirst = false ∧ g.peer = s.addr s.dir.receiver) ∨
    (n = 0 ∧ g.opSent = opWrq ∧ s.dir = .put ∧ g.recvFirst = true ∧ g.peer = s.listener)

/-- The variables of a receiver that has received `n` blocks. -/
structure Receiving (n : ℕ) (g : Globals) : Prop where
  nextblknum : g.nextblknum = n + 1
  modetype : g.modetype = s.mode
  stored : fileWrite s.target (s.stream.take (maxData * n)) s.mode = .ok g.localfp
  contact : (g.opSent = opAck ∧ g.sendbuff = ackPkt n ∧
      g.recvFirst = false ∧ g.peer = s.addr s.dir.sender) ∨
    (n = 0 ∧ g.opSent = opRrq ∧ s.dir = .get ∧ g.recvFirst = true ∧ g.peer = s.listener)

/-- A process in a phase of the protocol; its variables are known as long as it has not exited. -/
def At (I : ℕ → Globals → Prop) (n : ℕ) (p : Proc) : Phase → Prop
  | .running => p.status = .waiting ∧ I n p.g
  | .finished => p.status = .returned 0 ∧ I n p.g
  | .gaveUp => p.status = .returned (-1) ∧ I n p.g
  | .aborted => ∃ why : Exit, why.OfNumber ∧ p.status = .exited why
  | .failed => ∃ why : Exit, why.OfFile ∧ p.status = .exited why

/-- A state of the protocol and a state of the two programs that it describes. -/
structure Sim (a : St) (x : Transfer) : Prop where
  snd : At s.Sending a.sent x.snd a.snd
  rcv : At s.Receiving a.rcvd x.rcv a.rcv
  data : x.data = a.data.map s.dataPkt
  acks : x.acks = a.acks.map ackPkt

variable {s}

/-! ## Addresses -/

theorem listener_ne (side : Side) (h : side = .server) : s.listener ≠ s.addr side := by
  subst h
  intro he
  exact s.fresh_port (congrArg SockAddr.sinPort he).symm

/-- A client that waits for the answer to its request expects it from the child. -/
theorem expects_child {g : Globals} (hf : g.recvFirst = true) (hp : g.peer = s.listener) :
    Expects .client (s.addr .server) g :=
  .inr ⟨rfl, hf, by rw [hp]; exact s.same_host.symm, by rw [hp]; exact fun h => s.fresh_port h.symm⟩

theorem Sending.expects {n : ℕ} {g : Globals} (h : s.Sending n g) :
    Expects s.dir.sender (s.addr s.dir.receiver) g := by
  rcases h.contact with ⟨-, -, -, hf, hp⟩ | ⟨-, -, hd, hf, hp⟩
  · exact .inl ⟨hf, hp⟩
  · rw [hd]; exact expects_child hf hp

theorem Receiving.expects {n : ℕ} {g : Globals} (h : s.Receiving n g) :
    Expects s.dir.receiver (s.addr s.dir.sender) g := by
  rcases h.contact with ⟨-, -, hf, hp⟩ | ⟨-, -, hd, hf, hp⟩
  · exact .inl ⟨hf, hp⟩
  · rw [hd]; exact expects_child hf hp

/-- The server opens a stream that owes nothing. -/
theorem fileOpen_server {fs : FileSys} {name : List Byte} {mode : OpenMode} (old : LocalFile)
    {fp : LocalFile} (h : fileOpen .server fs name mode old = some fp) : ∃ content, fp = opened content := by
  unfold fileOpen at h
  split at h
  · cases h
  · rename_i content _
    cases h
    exact ⟨content, rfl⟩

theorem target_opened (h : s.dir.receiver = .server) : ∃ content, s.target = opened content := by
  have ht := s.opens_target
  cases hd : s.dir with
  | get => rw [hd] at h; cases h
  | put => rw [hd] at ht; exact fileOpen_server initvars.localfp ht

@[simp] theorem arrivals_nil (a : SockAddr) : arrivals a [] = [] := rfl

@[simp] theorem arrivals_self (a : SockAddr) (b : List Byte) : arrivals a [⟨a, b⟩] = [b] := by simp [arrivals]

theorem arrivals_other {a c : SockAddr} (h : c ≠ a) (b : List Byte) : arrivals a [⟨c, b⟩] = [] := by
  simp [arrivals, h]

/-! ## The receiver -/

section Receiver

variable {n k : ℕ} {p : Proc} {g : Globals}

theorem after_length (hk : 1 ≤ k) (hle : k ≤ s.protocol.last) :
    s.protocol.after k = if (block maxData s.stream k).length = maxData then .running else .finished := by
  have h1 := length_block_lt_iff (n := maxData) (l := s.stream) (by decide) hk hle
  have h2 := length_block_le maxData s.stream k
  unfold Protocol.after
  by_cases hl : k = s.protocol.last
  · have : (block maxData s.stream k).length < maxData := h1.2 hl
    rw [if_pos hl, if_neg (by omega)]
  · have : ¬ (block maxData s.stream k).length < maxData := fun h => hl (h1.1 h)
    rw [if_neg hl, if_pos (by omega)]

/-- A receiver that gets a block calls `recv_DATA`. -/
theorem Receiving.step_data (h : s.Receiving n p.g) (hp : p.status = .waiting) (k : ℕ) (t : Readings) :
    ∃ rest buff, (s.program s.dir.receiver).step p (s.hears s.dir.sender (s.dataPkt k) t) =
      proceed (recvData s.dir.receiver (stshort k ++ (block maxData s.stream k ++ rest))
        ((block maxData s.stream k).length + 2) (heard (s.addr s.dir.sender) buff opData t p.g))
        (passEnd t) := by
  have hlen := length_block_le maxData s.stream k
  have hbody : (stshort k ++ block maxData s.stream k).length = (block maxData s.stream k).length + 2 := by
    rw [List.length_append, length_stshort, Nat.add_comm]
  have htable : fsmPtr s.dir.receiver p.g.opSent opData = .recvData := by
    rcases h.contact with ⟨ho, -⟩ | ⟨-, ho, hd, -⟩
    · rw [ho]; exact fsmPtr_data _
    · rw [ho, hd]; rfl
  obtain ⟨rest, hstep⟩ := step_packet (s.fs s.dir.receiver) hp h.expects opData
    (stshort k ++ block maxData s.stream k) (by decide) (by decide) (by omega)
    (by rw [hbody]; unfold maxBuff maxData at *; omega) t
  refine ⟨rest, stshort opData ++ (stshort k ++ block maxData s.stream k ++ rest), ?_⟩
  rw [htable, hbody] at hstep
  rw [← List.append_assoc (stshort k)]
  exact hstep

/-- In octet mode the server's stream never owes anything. -/
theorem Receiving.ascii_of_left (h : s.Receiving n g) (hside : s.dir.receiver = .server)
    (hleft : g.localfp.lastcr = true ∨ 0 ≤ g.localfp.nextchar) : s.mode = .ascii := by
  cases hm : s.mode with
  | ascii => rfl
  | binary =>
    have hfp := h.stored
    rw [hm] at hfp
    rw [← Except.ok.inj hfp] at hleft
    obtain ⟨content, ht⟩ := target_opened hside
    simp [opened, ht] at hleft

theorem Receiving.arm (h : s.Receiving n g) (now : Int) : s.Receiving n (Tftp.arm now g) :=
  ⟨h.nextblknum, h.modetype, h.stored, h.contact⟩

/-- The end of `recv_DATA` and of the pass: an acknowledgement is sent, and a short block ends the loop. -/
theorem proceed_ackData (b : Int) (len : Nat) (g : Globals) (t : Readings) :
    proceed (.ok (ackData b len g)) (passEnd t) =
      if len = maxData then ⟨.waiting, Tftp.arm t.start (sendAck b g)⟩ else ⟨.returned 0, sendAck b g⟩ := by
  by_cases hl : len = maxData <;> simp [passEnd, ackData, hl]

/-- The receiver acknowledges block `k`. -/
theorem Receiving.acked (h : s.Receiving k (sendAck k g)) (ho : g.outbox = []) (hp : g.peer = s.addr s.dir.sender)
    (hk : 1 ≤ k) (hle : k ≤ s.protocol.last) (hw : k % 65536 = k) (t : Readings) {p' : Proc}
    (he : p' = proceed (.ok (ackData (k % 65536 : Nat) (block maxData s.stream k).length g)) (passEnd t)) :
    At s.Receiving k p' (s.protocol.after k) ∧ p'.g.outbox = [⟨s.addr s.dir.sender, ackPkt k⟩] := by
  have hout : (sendAck k g).outbox = [⟨s.addr s.dir.sender, ackPkt k⟩] := by
    rw [sendAck_outbox, ho, hp]; rfl
  rw [proceed_ackData, hw] at he
  rw [after_length hk hle]
  by_cases hl : (block maxData s.stream k).length = maxData
  · rw [if_pos hl] at he ⊢
    subst he
    exact ⟨⟨rfl, h.arm t.start⟩, hout⟩
  · rw [if_neg hl] at he ⊢
    subst he
    exact ⟨⟨rfl, h⟩, hout⟩

/-- The next block is received, unless its bytes cannot be written. -/
theorem Receiving.step_next (h : s.Receiving n p.g) (hp : p.status = .waiting) (hle : n + 1 ≤ s.protocol.last)
    (hw : (n + 1) % 65536 = n + 1) (t : Readings) {p' : Proc}
    (he : p' = (s.program s.dir.receiver).step p (s.hears s.dir.sender (s.dataPkt (n + 1)) t)) :
    At s.Receiving (n + 1) p' (s.protocol.after (n + 1)) ∧ p'.g.outbox = [⟨s.addr s.dir.sender, ackPkt (n + 1)⟩] ∨
      s.mode = .ascii ∧ At s.Receiving n p' .failed ∧ p'.g.outbox = [] := by
  obtain ⟨rest, buff, hstep⟩ := h.step_data hp (n + 1) t
  have hlen := length_block_le maxData s.stream (n + 1)
  let g := heard (s.addr s.dir.sender) buff opData t p.g
  have hnum : (((n + 1) % 65536 : Nat) : Int) = g.nextblknum := by
    rw [hw]; exact_mod_cast h.nextblknum.symm
  rw [hstep] at he
  let g₁ : Globals := { g with
    nextblknum := g.nextblknum + 1
    totnbytes := g.totnbytes + (block maxData s.stream (n + 1)).length }
  cases hs : storeData s.dir.receiver (block maxData s.stream (n + 1)) (block maxData s.stream (n + 1)).length g₁ with
  | ok g' =>
    left
    rw [recvData_next hlen hnum hs] at he
    obtain ⟨fp, hfp, rfl⟩ := storeData_ok hs
    refine Receiving.acked (g := { g₁ with localfp := fp }) ⟨?_, h.modetype, ?_, .inl ⟨rfl, rfl, rfl, rfl⟩⟩ rfl rfl (by omega) hle hw t he
    · show p.g.nextblknum + 1 = _
      rw [h.nextblknum]; push_cast; rfl
    · show fileWrite _ _ _ = .ok fp
      have hfp' : fileWrite p.g.localfp (block maxData s.stream (n + 1)) s.mode = .ok fp := by
        rw [← h.modetype]; exact hfp
      rw [← take_block, fileWrite_append, h.stored]
      exact hfp'
  | error e =>
    obtain ⟨why, g'⟩ := e
    right
    rw [recvData_spoil hlen hnum hs] at he
    obtain ⟨hwhy, hout, hbad⟩ := storeData_error hs
    subst he
    refine ⟨?_, ⟨why, hwhy, rfl⟩, hout⟩
    rcases hbad with hm | ⟨hside, hleft⟩
    · rw [← h.modetype]; exact hm
    · exact h.ascii_of_left hside hleft

/-- The last block received is acknowledged again. -/
theorem Receiving.step_again (h : s.Receiving n p.g) (hp : p.status = .waiting) (hn : 1 ≤ n)
    (hle : n ≤ s.protocol.last) (hw : n % 65536 = n) (t : Readings) {p' : Proc}
    (he : p' = (s.program s.dir.receiver).step p (s.hears s.dir.sender (s.dataPkt n) t)) :
    At s.Receiving n p' (s.protocol.after n) ∧ p'.g.outbox = [⟨s.addr s.dir.sender, ackPkt n⟩] := by
  obtain ⟨rest, buff, hstep⟩ := h.step_data hp n t
  let g := heard (s.addr s.dir.sender) buff opData t p.g
  have hnum : ((n % 65536 : Nat) : Int) + 1 = g.nextblknum := by
    rw [hw]; exact h.nextblknum.symm
  rw [hstep, recvData_again (length_block_le maxData s.stream n) hnum] at he
  exact Receiving.acked (g := g) ⟨h.nextblknum, h.modetype, h.stored, .inl ⟨rfl, rfl, rfl, rfl⟩⟩ rfl rfl hn hle hw t he

/-- Any other number makes the receiver exit. -/
theorem Receiving.step_refuse (h : s.Receiving n p.g) (hp : p.status = .waiting) (h0 : k % 65536 ≠ n + 1)
    (h1 : k % 65536 ≠ n) (t : Readings) {p' : Proc}
    (he : p' = (s.program s.dir.receiver).step p (s.hears s.dir.sender (s.dataPkt k) t)) :
    At s.Receiving n p' .aborted ∧ p'.g.outbox = [] := by
  obtain ⟨rest, buff, hstep⟩ := h.step_data hp k t
  let g := heard (s.addr s.dir.sender) buff opData t p.g
  have hg : g.nextblknum = n + 1 := h.nextblknum
  obtain ⟨why, hwhy, hr⟩ := recvData_refuse (g := g) s.dir.receiver rest (length_block_le maxData s.stream k)
    (by rw [hg]; exact_mod_cast h0) (by rw [hg]; omega)
  rw [hstep, hr] at he
  subst he
  refine ⟨⟨why, ?_, rfl⟩, rfl⟩
  rcases hwhy with rfl | rfl <;> simp [Exit.OfNumber]

/-- A receiver that times out sends its last acknowledgement again, or its request. -/
theorem Receiving.step_alarm (h : s.Receiving n p.g) (hp : p.status = .waiting) (t : Readings) {p' : Proc}
    (he : p' = (s.program s.dir.receiver).step p (.alarm t)) :
    At s.Receiving n p' .gaveUp ∧ p'.g.outbox = [] ∨
      At s.Receiving n p' .running ∧ ∃ again, (again = [] ∧ s.dir = .get ∨ again = [n]) ∧
        arrivals (s.addr s.dir.sender) p'.g.outbox = again.map ackPkt := by
  obtain ⟨r, hr | hr⟩ := Tftp.step_alarm_cases s.dir.receiver (s.fs s.dir.receiver) hp t
  · obtain rfl := he.trans hr
    exact .inl ⟨⟨rfl, h.nextblknum, h.modetype, h.stored, h.contact⟩, rfl⟩
  · obtain rfl := he.trans hr
    refine .inr ⟨⟨rfl, h.nextblknum, h.modetype, h.stored, h.contact⟩, ?_⟩
    rcases h.contact with ⟨-, hb, -, hpeer⟩ | ⟨-, -, hd, -, hpeer⟩
    · refine ⟨[n], .inr rfl, ?_⟩
      rw [arm_outbox, hb, hpeer]
      exact arrivals_self _ _
    · refine ⟨[], .inl ⟨rfl, hd⟩, ?_⟩
      rw [arm_outbox, hpeer]
      exact arrivals_other (listener_ne _ (by rw [hd]; rfl)) _

end Receiver

/-! ## The sender -/

section Sender

variable {n a : ℕ} {p : Proc} {g : Globals}

/-- A sender that gets an acknowledgement calls `recv_ACK`. -/
theorem Sending.step_ack (h : s.Sending n p.g) (hp : p.status = .waiting) (a : ℕ) (t : Readings) :
    ∃ rest buff, (s.program s.dir.sender).step p (s.hears s.dir.receiver (ackPkt a) t) =
      proceed (recvAck (stshort a ++ rest) 2 (heard (s.addr s.dir.receiver) buff opAck t p.g))
        (passEnd t) := by
  have htable : fsmPtr s.dir.sender p.g.opSent opAck = .recvAck := by
    rcases h.contact with ⟨-, ho, -⟩ | ⟨-, ho, hd, -⟩
    · rw [ho]; exact fsmPtr_ack _
    · rw [ho, hd]; rfl
  obtain ⟨rest, hstep⟩ := step_packet (s.fs s.dir.sender) hp h.expects opAck (stshort a) (by decide) (by decide)
    (by simp) (by simp [maxBuff]) t
  rw [htable] at hstep
  exact ⟨rest, _, hstep⟩

theorem Sending.arm (h : s.Sending n g) (now : Int) : s.Sending n (Tftp.arm now g) :=
  ⟨⟨h.nextblknum, h.modetype, h.left, h.lastsend⟩, h.contact⟩

/-- The sender of block `n` sends the next one. -/
theorem sending_next (h : Reading s.mode s.stream n g) (ho : g.outbox = []) (hf : g.recvFirst = false)
    (hp : g.peer = s.addr s.dir.receiver) (now : Int) :
    s.Sending (n + 1) (Tftp.arm now
        (sendData (g.nextblknum + 1) (fileRead g.localfp maxData g.modetype).1 (readNext g))) ∧
      (sendData (g.nextblknum + 1) (fileRead g.localfp maxData g.modetype).1 (readNext g)).outbox =
        [⟨s.addr s.dir.receiver, s.dataPkt (n + 1)⟩] := by
  have hr := h.next
  refine ⟨⟨⟨hr.nextblknum, hr.modetype, hr.left, hr.lastsend⟩,
    .inl ⟨Nat.succ_pos n, rfl, h.nextPkt, hf, hp⟩⟩, ?_⟩
  rw [sendData_outbox]
  show g.outbox ++ [⟨g.peer, _⟩] = _
  rw [ho, hp, h.nextPkt]; rfl

/-- The next block is sent once this one is acknowledged; -/
theorem Sending.step_next (h : s.Sending n p.g) (hp : p.status = .waiting) (hle : n ≤ s.protocol.last)
    (hne : n ≠ s.protocol.last) (ha : a % 65536 = n) (t : Readings) {p' : Proc}
    (he : p' = (s.program s.dir.sender).step p (s.hears s.dir.receiver (ackPkt a) t)) :
    At s.Sending (n + 1) p' .running ∧ p'.g.outbox = [⟨s.addr s.dir.receiver, s.dataPkt (n + 1)⟩] := by
  obtain ⟨rest, buff, hstep⟩ := h.step_ack hp a t
  have hg := h.toReading.heard (s.addr s.dir.receiver) buff opAck t
  rw [hstep, recvAck_next (by rw [ha]; exact hg.nextblknum.symm) fun hd => hne ((hg.read_done hle).1 hd)] at he
  obtain ⟨hsent, hout⟩ := sending_next hg rfl rfl rfl t.start
  subst he
  exact ⟨⟨rfl, hsent⟩, hout⟩

/-- nothing is sent once the last block is. -/
theorem Sending.step_done (h : s.Sending n p.g) (hp : p.status = .waiting) (hn : 0 < n)
    (hlast : n = s.protocol.last) (ha : a % 65536 = n) (t : Readings) {p' : Proc}
    (he : p' = (s.program s.dir.sender).step p (s.hears s.dir.receiver (ackPkt a) t)) :
    At s.Sending n p' .finished ∧ p'.g.outbox = [] := by
  obtain ⟨rest, buff, hstep⟩ := h.step_ack hp a t
  have hg := h.toReading.heard (s.addr s.dir.receiver) buff opAck t
  have hd := (hg.read_done (Nat.le_of_eq hlast)).2 hlast
  rw [hstep, recvAck_done (by rw [ha]; exact hg.nextblknum.symm) hd] at he
  subst he
  refine ⟨⟨rfl, ⟨hg.nextblknum, hg.modetype, ?_, hg.lastsend⟩, ?_⟩, rfl⟩
  · show pending s.mode (fileRead p.g.localfp maxData p.g.modetype).2 = _
    rw [h.modetype, pending_fileRead, h.left, List.drop_drop, hlast, show s.protocol.last = lastBlock maxData s.stream
      from rfl, ← List.drop_drop, drop_lastBlock (by decide), List.drop_nil]
  · rcases h.contact with ⟨-, ho, hb, -, -⟩ | ⟨h0, -⟩
    · exact .inl ⟨hn, ho, hb, rfl, rfl⟩
    · omega

/-- The acknowledgement of the block before is ignored, -/
theorem Sending.step_again (h : s.Sending n p.g) (hp : p.status = .waiting) (ha : a % 65536 + 1 = n) (t : Readings)
    {p' : Proc} (he : p' = (s.program s.dir.sender).step p (s.hears s.dir.receiver (ackPkt a) t)) :
    At s.Sending n p' .running ∧ p'.g.outbox = [] := by
  obtain ⟨rest, buff, hstep⟩ := h.step_ack hp a t
  have hg := h.toReading.heard (s.addr s.dir.receiver) buff opAck t
  rw [hstep, recvAck_again (by rw [hg.nextblknum]; omega)] at he
  subst he
  refine ⟨⟨rfl, ⟨hg.nextblknum, hg.modetype, hg.left, hg.lastsend⟩, ?_⟩, rfl⟩
  rcases h.contact with ⟨hn, ho, hb, -, -⟩ | ⟨h0, -⟩
  · exact .inl ⟨hn, ho, hb, rfl, rfl⟩
  · omega

/-- and any other makes the sender exit. -/
theorem Sending.step_refuse (h : s.Sending n p.g) (hp : p.status = .waiting) (h0 : a % 65536 ≠ n)
    (h1 : a % 65536 + 1 ≠ n) (t : Readings) {p' : Proc}
    (he : p' = (s.program s.dir.sender).step p (s.hears s.dir.receiver (ackPkt a) t)) :
    At s.Sending n p' .aborted ∧ p'.g.outbox = [] := by
  obtain ⟨rest, buff, hstep⟩ := h.step_ack hp a t
  have hg := h.toReading.heard (s.addr s.dir.receiver) buff opAck t
  obtain ⟨why, hwhy, hr⟩ := recvAck_refuse rest (a := a) (by rw [hg.nextblknum]; exact_mod_cast h0)
    (by rw [hg.nextblknum]; exact_mod_cast h1)
  rw [hstep, hr] at he
  subst he
  refine ⟨⟨why, ?_, rfl⟩, rfl⟩
  rcases hwhy with rfl | rfl <;> simp [Exit.OfNumber]

/-- A sender that times out sends its last block again, or its request. -/
theorem Sending.step_alarm (h : s.Sending n p.g) (hp : p.status = .waiting) (t : Readings) {p' : Proc}
    (he : p' = (s.program s.dir.sender).step p (.alarm t)) :
    At s.Sending n p' .gaveUp ∧ p'.g.outbox = [] ∨
      At s.Sending n p' .running ∧ ∃ again, (again = [] ∧ s.dir = .put ∧ n = 0 ∨ 0 < n ∧ again = [n]) ∧
        arrivals (s.addr s.dir.receiver) p'.g.outbox = again.map s.dataPkt := by
  obtain ⟨r, hr | hr⟩ := Tftp.step_alarm_cases s.dir.sender (s.fs s.dir.sender) hp t
  · obtain rfl := he.trans hr
    exact .inl ⟨⟨rfl, ⟨h.nextblknum, h.modetype, h.left, h.lastsend⟩, h.contact⟩, rfl⟩
  · obtain rfl := he.trans hr
    refine .inr ⟨⟨rfl, ⟨h.nextblknum, h.modetype, h.left, h.lastsend⟩, h.contact⟩, ?_⟩
    rcases h.contact with ⟨hn, -, hb, -, hpeer⟩ | ⟨hn, -, hd, -, hpeer⟩
    · refine ⟨[n], .inr ⟨hn, rfl⟩, ?_⟩
      rw [arm_outbox, hb, hpeer]
      exact arrivals_self _ _
    · refine ⟨[], .inl ⟨rfl, hd, hn⟩, ?_⟩
      rw [arm_outbox, hpeer]
      exact arrivals_other (listener_ne _ (by rw [hd]; rfl)) _

end Sender

/-! ## The simulation -/

section Steps

variable {a : St} {x y : Transfer} {net : Net} {l : Label}

/-- A process that waits is in a phase that runs. -/
theorem At.running {I : ℕ → Globals → Prop} {n : ℕ} {p : Proc} {ph : Phase} (h : At I n p ph)
    (hp : p.status = .waiting) : ph = .running ∧ I n p.g := by
  cases ph with
  | running => exact ⟨rfl, h.2⟩
  | finished => have h1 := h.1; rw [hp] at h1; cases h1
  | gaveUp => have h1 := h.1; rw [hp] at h1; cases h1
  | aborted => obtain ⟨why, -, h1⟩ := h; rw [hp] at h1; cases h1
  | failed => obtain ⟨why, -, h1⟩ := h; rw [hp] at h1; cases h1

/-- What a waiting end has sent is in flight. -/
theorem rcvEvent_acks (hp : x.rcv.status = .waiting) {e : Event} {out : List Datagram} (q : List (List Byte))
    (hout : ((s.program s.dir.receiver).step x.rcv e).g.outbox = out) :
    (s.rcvEvent x e q).acks = x.acks ++ arrivals (s.addr s.dir.sender) out := by
  have hemit : (s.program s.dir.receiver).emit x.rcv e = out := (if_pos hp).trans hout
  exact congrArg (fun d => x.acks ++ arrivals _ d) hemit

theorem sndEvent_data (hp : x.snd.status = .waiting) {e : Event} {out : List Datagram} (q : List (List Byte))
    (hout : ((s.program s.dir.sender).step x.snd e).g.outbox = out) :
    (s.sndEvent x e q).data = x.data ++ arrivals (s.addr s.dir.receiver) out := by
  have hemit : (s.program s.dir.sender).emit x.snd e = out := (if_pos hp).trans hout
  exact congrArg (fun d => x.data ++ arrivals _ d) hemit

/-- A block that reaches the receiver. -/
theorem Sim.data_step (h : s.Sim a x) (hs : s.protocol.Safe a) (t : Readings) (hp : x.rcv.status = .waiting)
    {b : List Byte} {q : List (List Byte)} (hd : net.Deliver x.data b q) :
    ∃ c, s.protocol.Step net .toRcv a c ∧ s.Sim c (s.rcvEvent x (s.hears s.dir.sender b t) q) := by
  obtain ⟨hrun, hI⟩ := h.rcv.running hp
  rw [h.data] at hd
  obtain ⟨k, q', hdel, rfl, rfl⟩ := Net.deliver_map hd
  have hk := hs.data_pos k hdel.mem
  have hle := hs.data_le k hdel.mem
  have hsent := hs.sent_le
  have hlast := hs.sent_last
  have hstep : s.protocol.Step net .toRcv a _ := .data hrun hdel
  by_cases hnext : k % 65536 = a.rcvd + 1
  · obtain rfl : k = a.rcvd + 1 := by omega
    rw [Protocol.onData_next hnext] at hstep
    rcases hI.step_next hp (by omega) hnext t rfl with ⟨hat, hout⟩ | ⟨hf, hat, hout⟩
    · refine ⟨_, hstep, h.snd, hat, rfl, ?_⟩
      rw [rcvEvent_acks hp _ hout, h.acks, arrivals_self, List.map_append, List.map_singleton]
    · refine ⟨_, .spoil hf hrun hdel, h.snd, hat, rfl, ?_⟩
      rw [rcvEvent_acks hp _ hout, h.acks, arrivals_nil, List.append_nil]
  · by_cases hagain : k % 65536 = a.rcvd
    · obtain rfl : k = a.rcvd := by omega
      rw [Protocol.onData_again hagain] at hstep
      obtain ⟨hat, hout⟩ := hI.step_again hp hk (by omega) hagain t rfl
      refine ⟨_, hstep, h.snd, hat, rfl, ?_⟩
      rw [rcvEvent_acks hp _ hout, h.acks, arrivals_self, List.map_append, List.map_singleton]
    · rw [Protocol.onData_refuse hnext hagain] at hstep
      obtain ⟨hat, hout⟩ := hI.step_refuse hp hnext hagain t rfl
      refine ⟨_, hstep, h.snd, hat, rfl, ?_⟩
      rw [rcvEvent_acks hp _ hout, h.acks, arrivals_nil, List.append_nil]

/-- An acknowledgement that reaches the sender. -/
theorem Sim.ack_step (h : s.Sim a x) (hs : s.protocol.Safe a) (t : Readings) (hp : x.snd.status = .waiting)
    {b : List Byte} {q : List (List Byte)} (hd : net.Deliver x.acks b q) :
    ∃ c, s.protocol.Step net .toSnd a c ∧ s.Sim c (s.sndEvent x (s.hears s.dir.receiver b t) q) := by
  obtain ⟨hrun, hI⟩ := h.snd.running hp
  rw [h.acks] at hd
  obtain ⟨k, q', hdel, rfl, rfl⟩ := Net.deliver_map hd
  have hsent := hs.sent_last
  have hstep : s.protocol.Step net .toSnd a _ := .ack hrun hdel
  by_cases hnext : k % 65536 = a.sent
  · by_cases hlast : a.sent = s.protocol.last
    · have hpos := s.protocol.last_pos
      rw [Protocol.onAck_last (s := { a with acks := q' }) hnext hlast] at hstep
      obtain ⟨hat, hout⟩ := hI.step_done hp (by omega) hlast hnext t rfl
      refine ⟨_, hstep, hat, h.rcv, ?_, rfl⟩
      rw [sndEvent_data hp _ hout, h.data, arrivals_nil, List.append_nil]
    · rw [Protocol.onAck_next (s := { a with acks := q' }) hnext hlast] at hstep
      obtain ⟨hat, hout⟩ := hI.step_next hp hsent hlast hnext t rfl
      refine ⟨_, hstep, hrun ▸ hat, h.rcv, ?_, rfl⟩
      rw [sndEvent_data hp _ hout, h.data, arrivals_self, List.map_append, List.map_singleton]
  · by_cases hagain : k % 65536 + 1 = a.sent
    · rw [Protocol.onAck_again hagain] at hstep
      obtain ⟨hat, hout⟩ := hI.step_again hp hagain t rfl
      refine ⟨_, hstep, hrun ▸ hat, h.rcv, ?_, rfl⟩
      rw [sndEvent_data hp _ hout, h.data, arrivals_nil, List.append_nil]
    · rw [Protocol.onAck_refuse hnext hagain] at hstep
      obtain ⟨hat, hout⟩ := hI.step_refuse hp hnext hagain t rfl
      refine ⟨_, hstep, hat, h.rcv, ?_, rfl⟩
      rw [sndEvent_data hp _ hout, h.data, arrivals_nil, List.append_nil]

theorem Sim.rcvAlarm_step (h : s.Sim a x) (t : Readings) (hp : x.rcv.status = .waiting) :
    ∃ c, s.protocol.Step net .timer a c ∧ s.Sim c (s.rcvEvent x (.alarm t) x.data) := by
  obtain ⟨hrun, hI⟩ := h.rcv.running hp
  rcases hI.step_alarm hp t rfl with ⟨hat, hout⟩ | ⟨hat, again, hagain, hout⟩
  · refine ⟨_, .rcvQuit hrun, h.snd, hat, h.data, ?_⟩
    rw [rcvEvent_acks hp _ hout, h.acks, arrivals_nil, List.append_nil]
  · refine ⟨_, .rcvTimer hrun (hagain.imp_left And.left), h.snd, hrun ▸ hat, h.data, ?_⟩
    rw [rcvEvent_acks hp _ rfl, hout, h.acks, List.map_append]

theorem Sim.sndAlarm_step (h : s.Sim a x) (t : Readings) (hp : x.snd.status = .waiting) :
    ∃ c, s.protocol.Step net .timer a c ∧ s.Sim c (s.sndEvent x (.alarm t) x.acks) := by
  obtain ⟨hrun, hI⟩ := h.snd.running hp
  rcases hI.step_alarm hp t rfl with ⟨hat, hout⟩ | ⟨hat, again, hagain, hout⟩
  · refine ⟨_, .sndQuit hrun, hat, h.rcv, ?_, h.acks⟩
    rw [sndEvent_data hp _ hout, h.data, arrivals_nil, List.append_nil]
  · refine ⟨_, .sndTimer hrun (hagain.imp_left And.left), hrun ▸ hat, h.rcv, ?_, h.acks⟩
    rw [sndEvent_data hp _ rfl, hout, h.data, List.map_append]

/-- **A step of the two programs is a step of the protocol.** -/
theorem Sim.step (h : s.Sim a x) (hs : s.protocol.Safe a) (hst : s.Step net l x y) :
    ∃ c, s.protocol.Step net l a c ∧ s.Sim c y := by
  cases hst with
  | data t hp hd => exact h.data_step hs t hp hd
  | ack t hp hd => exact h.ack_step hs t hp hd
  | rcvAlarm t hp => exact h.rcvAlarm_step t hp
  | sndAlarm t hp => exact h.sndAlarm_step t hp
  | loseData hl =>
    rw [h.data] at hl
    obtain ⟨q', hq, rfl⟩ := Net.lose_map hl
    exact ⟨_, .loseData hq, h.snd, h.rcv, rfl, h.acks⟩
  | loseAcks hl =>
    rw [h.acks] at hl
    obtain ⟨q', hq, rfl⟩ := Net.lose_map hl
    exact ⟨_, .loseAcks hq, h.snd, h.rcv, h.data, rfl⟩

end Steps

/-! ## How a transfer starts -/

section Start

variable {x y : Transfer} {alarms : List Readings} {net : Net}

/-- A process that only times out keeps waiting until it gives up. -/
theorem run_alarms (s : Session) (side : Side) {I : ℕ → Globals → Prop} {n : ℕ} {p : Proc}
    (hwait : ∀ p t, p.status = .waiting → I n p.g →
      At I n ((s.program side).step p (.alarm t)) .gaveUp ∨ At I n ((s.program side).step p (.alarm t)) .running)
    (hp : At I n p .running) (ts : List Readings) : ∃ ph, (ph = .running ∨ ph = .gaveUp) ∧ (ts = [] → ph = .running) ∧
      At I n ((s.program side).run p (ts.map Event.alarm)) ph := by
  induction ts using List.reverseRecOn with
  | nil => exact ⟨.running, .inl rfl, fun _ => rfl, hp⟩
  | append_singleton ts t ih =>
    obtain ⟨ph, hph, -, hat⟩ := ih
    rw [List.map_append, List.map_singleton, Machine.run_concat]
    rcases hph with rfl | rfl
    · rcases hwait _ t hat.1 hat.2 with h | h
      · exact ⟨.gaveUp, .inr rfl, by simp, h⟩
      · exact ⟨.running, .inl rfl, fun _ => rfl, h⟩
    · rw [show (s.program side).step _ _ = _ from step_stopped (by rw [hat.1]; simp) _]
      exact ⟨.gaveUp, .inr rfl, by simp, hat⟩

/-- A read request that was accepted. -/
theorem sim_get (hd : s.dir = .get) {p : Proc} {now now' : Int} {t : Readings} {recvbuff rq : List Byte}
    (hc : s.command now = some p) (hrq : p.g.outbox = [⟨s.listener, rq⟩])
    (hw : (serve s.srvFs recvbuff s.cli rq now' t).status = .waiting) (alarms : List Readings) :
    ∃ ph, (ph = .running ∨ ph = .gaveUp) ∧ (alarms = [] → ph = .running) ∧
      s.Sim ⟨1, 0, [1], [], .running, ph⟩ (s.pair (serve s.srvFs recvbuff s.cli rq now' t)
        ((process .client s.cliFs).run p (alarms.map Event.alarm))) := by
  have hsrc := s.opens_source
  have htgt := s.opens_target
  rw [command, hd] at hc
  rw [hd] at hsrc htgt
  obtain ⟨hask, hnum, hopen⟩ := doGet_some hc
  obtain rfl : request opRrq s.remfname s.mode = rq := by
    have h := hask.asks.symm.trans hrq
    exact congrArg Datagram.buff (List.cons.inj h).1
  obtain ⟨fp, g, hfp, hpeer, hfirst, hout, hmode, hblk, hlocal, hlast, hserve⟩ := serve_rrq hw
  obtain rfl : fp = s.source := Option.some.inj (hfp.symm.trans hsrc)
  have hrcv : At s.Receiving 0 p .running := by
    refine ⟨hask.waits, hnum, hask.modetype, ?_, .inr ⟨rfl, hask.opSent, hd, hask.recvFirst, hask.peer⟩⟩
    rw [Nat.mul_zero, List.take_zero, Option.some.inj (htgt.symm.trans hopen)]
    exact (fileSink s.mode).write_nil _
  have hside : s.program s.dir.receiver = process .client s.cliFs := by rw [hd]; rfl
  obtain ⟨ph, hph, hnil, hat⟩ := run_alarms s s.dir.receiver
    (fun p t hp hI => (Receiving.step_alarm hI hp t rfl).imp And.left And.left) hrcv alarms
  rw [hside] at hat
  have hsnd : s.Sending 1 (sendData 1 (fileRead s.source maxData s.mode).1 g) := by
    have hread := Reading.first hblk hmode hlocal hlast
    refine ⟨⟨hread.nextblknum, hread.modetype, hread.left, hread.lastsend⟩,
      .inl ⟨Nat.one_pos, rfl, Reading.firstPkt s.mode s.source, hfirst, ?_⟩⟩
    show g.peer = _
    rw [hpeer, hd]; rfl
  refine ⟨ph, hph, hnil, ?_⟩
  rw [hserve]
  unfold pair
  rw [hd]
  refine ⟨⟨rfl, hsnd.arm t.start⟩, hat, ?_, rfl⟩
  · simp only [arm_outbox, sendData_outbox, hout, hpeer, Reading.firstPkt]
    exact arrivals_self _ _

/-- A write request that was accepted. -/
theorem sim_put (hd : s.dir = .put) {p : Proc} {now now' : Int} {t : Readings} {recvbuff rq : List Byte}
    (hc : s.command now = some p) (hrq : p.g.outbox = [⟨s.listener, rq⟩])
    (hw : (serve s.srvFs recvbuff s.cli rq now' t).status = .waiting) (alarms : List Readings) :
    ∃ ph, (ph = .running ∨ ph = .gaveUp) ∧ (alarms = [] → ph = .running) ∧
      s.Sim ⟨0, 0, [], [0], ph, .running⟩ (s.pair (serve s.srvFs recvbuff s.cli rq now' t)
        ((process .client s.cliFs).run p (alarms.map Event.alarm))) := by
  have hsrc := s.opens_source
  have htgt := s.opens_target
  rw [command, hd] at hc
  rw [hd] at hsrc htgt
  obtain ⟨hask, hnum, hlast, hopen⟩ := doPut_some hc
  obtain rfl : request opWrq s.remfname s.mode = rq := by
    have h := hask.asks.symm.trans hrq
    exact congrArg Datagram.buff (List.cons.inj h).1
  obtain ⟨fp, g, hfp, hpeer, hfirst, hout, hmode, hblk, hlocal, hserve⟩ := serve_wrq hw
  obtain rfl : fp = s.target := Option.some.inj (hfp.symm.trans htgt)
  have hsnd : At s.Sending 0 p .running := by
    refine ⟨hask.waits, ⟨hnum, hask.modetype, ?_, hlast⟩, .inr ⟨rfl, hask.opSent, hd, hask.recvFirst, hask.peer⟩⟩
    rw [← Option.some.inj (hsrc.symm.trans hopen)]; rfl
  have hside : s.program s.dir.sender = process .client s.cliFs := by rw [hd]; rfl
  obtain ⟨ph, hph, hnil, hat⟩ := run_alarms s s.dir.sender
    (fun p t hp hI => (Sending.step_alarm hI hp t rfl).imp And.left And.left) hsnd alarms
  rw [hside] at hat
  have hrcv : s.Receiving 0 (sendAck 0 g) := by
    refine ⟨hblk, hmode, ?_, .inl ⟨rfl, rfl, hfirst, ?_⟩⟩
    · show fileWrite s.target (s.stream.take 0) s.mode = .ok g.localfp
      rw [hlocal, List.take_zero]
      exact (fileSink s.mode).write_nil _
    · show g.peer = _
      rw [hpeer, hd]; rfl
  refine ⟨ph, hph, hnil, ?_⟩
  rw [hserve]
  unfold pair
  rw [hd]
  refine ⟨hat, ⟨rfl, hrcv.arm t.start⟩, rfl, ?_⟩
  · simp only [arm_outbox, sendAck_outbox, hout, hpeer]
    exact arrivals_self _ _

/-- A transfer starts like a run of the protocol; both ends are running if the client has not timed out. -/
theorem Started.sim (h : s.Started alarms x) : ∃ a, Protocol.Start a ∧ s.Sim a x ∧
    (alarms = [] → a.snd = .running ∧ a.rcv = .running) := by
  obtain ⟨hc, hrq, hw⟩ := h
  cases hd : s.dir with
  | get =>
    obtain ⟨ph, hph, hnil, hsim⟩ := sim_get hd hc hrq hw alarms
    exact ⟨_, .data hph, hsim, fun he => ⟨rfl, hnil he⟩⟩
  | put =>
    obtain ⟨ph, hph, hnil, hsim⟩ := sim_put hd hc hrq hw alarms
    exact ⟨_, .ack hph, hsim, fun he => ⟨hnil he, rfl⟩⟩

/-- **Every run of a transfer is a run of the protocol.** -/
theorem sim_of_reaches (h : s.Started alarms x) (hr : Relation.ReflTransGen (s.Any net) x y) :
    ∃ a b, Protocol.Start a ∧ Relation.ReflTransGen (s.protocol.Any net) a b ∧ s.protocol.Safe b ∧ s.Sim b y := by
  obtain ⟨a, ha, hsim, -⟩ := h.sim
  obtain ⟨b, hab, hb, hsim'⟩ := simulation_of_reaches (s.protocol.Any net)
    (fun a x => s.protocol.Safe a ∧ s.Sim a x)
    (fun a x y hs ⟨l, hst⟩ => by
      obtain ⟨c, hac, hc⟩ := hs.2.step hs.1 hst
      exact ⟨c, ⟨l, hac⟩, hs.1.step hac, hc⟩) hr ⟨ha.safe, hsim⟩
  exact ⟨a, b, ha, hab, hb, hsim'⟩

end Start

end Session

end CodingExercises.Tftp
