import CodingExercises.Tftp.Reading
import CodingExercises.Tftp.Retransmit

/-!
# TFTP: a sender against any packets

The sender of a file, against datagrams of any content from anywhere and any timeouts. A packet makes it send a block only
when it acknowledges the block sent last (`Sender.step_datagram`), and a timeout makes it send that block again
(`Sender.step_alarm`); so no block is sent twice because of packets, and none before its predecessor is acknowledged
(`no_sorcerer`).
-/

namespace CodingExercises.Tftp

open Lib Session

/-- A sender: its program, its file system, the mode of the transfer and the bytes that its file delivers. -/
structure Source where
  side : Side
  fs : FileSys
  mode : Mode
  stream : List Byte

namespace Source

variable (src : Source)

/-- The number of blocks it has to send. -/
def last : ℕ := lastBlock maxData src.stream

/-- The packet of a block. -/
def packet (k : ℕ) : List Byte := blockPacket src.stream k

/-- The process that sends. -/
def program : Machine Proc Event Datagram := process src.side src.fs

/-- How a sender starts: as the server's child for a read request of any form that it accepts, or as a client that
executes `put`. `fp` is the stream that it opens. -/
inductive Starts : Source → Proc → Prop
  | rrq {fs : FileSys} {recvbuff rq : List Byte} {fromAddr : SockAddr} {now : Int} {t : Readings} {fp : LocalFile}
      {p : Proc} : p = serve fs recvbuff fromAddr rq now t → p.status = .waiting → ldshort rq = opRrq →
      fileOpen .server fs (cstr ((rq.take maxBuff).drop 2)) .r initvars.localfp = some fp →
      Starts ⟨.server, fs, p.g.modetype, pending p.g.modetype fp⟩ p
  | wrq {fs : FileSys} {server : SockAddr} {now : Int} {remfname locfname : FileName} {g : Globals} {fp : LocalFile}
      {p : Proc} : doPut fs server now remfname locfname g = some p →
      fileOpen .client fs locfname.chars .r g.localfp = some fp →
      Starts ⟨.client, fs, g.modetype, pending g.modetype fp⟩ p

/-- The variables of a sender that has sent `n` blocks, whoever its peer is. -/
structure Sender (n : ℕ) (g : Globals) : Prop extends Reading src.mode src.stream n g where
  sent : (0 < n ∧ g.opSent = opData ∧ g.sendbuff = src.packet n) ∨
    (n = 0 ∧ g.opSent = opWrq ∧ src.side = .client ∧ ldshort g.sendbuff ≠ opData)

variable {src} {n : ℕ} {p : Proc} {g : Globals}

theorem Sender.arm (h : src.Sender n g) (now : Int) : src.Sender n (Tftp.arm now g) :=
  ⟨⟨h.nextblknum, h.modetype, h.left, h.lastsend⟩, h.sent⟩

/-! ## What an event makes a sender do -/

/-- Besides `recv_ACK` a sender calls only functions that end the loop. -/
theorem Sender.table (h : src.Sender n g) {op : Nat} (hop : op ≤ opMax) :
    fsmPtr src.side g.opSent op = .recvAck ∧ op = opAck ∨
      fsmPtr src.side g.opSent op ∈ [.fsmInvalid, .fsmError, .recvRqerr] := by
  have hall : ∀ side, ∀ op < 6, (fsmPtr side opData op = .recvAck ∧ op = opAck ∨
      fsmPtr side opData op ∈ [.fsmInvalid, .fsmError, .recvRqerr]) ∧
      (fsmPtr .client opWrq op = .recvAck ∧ op = opAck ∨
        fsmPtr .client opWrq op ∈ [.fsmInvalid, .fsmError, .recvRqerr]) := by
    intro side
    cases side <;> decide
  have hop' : op < 6 := Nat.lt_succ_of_le hop
  rcases h.sent with ⟨-, ho, -⟩ | ⟨-, ho, hd, -⟩
  · rw [ho]; exact (hall _ op hop').1
  · rw [ho, hd]; exact (hall .client op hop').2

/-- What a packet may make a sender do: nothing that sends, or the next block, which the packet has asked for. -/
def Reacts (src : Source) (n : ℕ) (buff : List Byte) (p : Proc) : Prop :=
  (p.g.outbox = [] ∧ (p.status = .waiting → src.Sender n p.g)) ∨
    (n < src.last ∧ ldshort buff = opAck ∧ ldshort (buff.drop 2) = n ∧ src.Sender (n + 1) p.g ∧
      ∃ a, p.g.outbox = [⟨a, src.packet (n + 1)⟩])

theorem reacts_exited {buff : List Byte} {why : Exit} (h : g.outbox = []) : src.Reacts n buff ⟨.exited why, g⟩ :=
  .inl ⟨h, fun hw => by cases hw⟩

/-- A sender that has read a packet. -/
theorem Sender.received (h : src.Sender n g) (ho : g.outbox = []) (hle : n ≤ src.last) (t : Readings)
    {buff : List Byte} {nbytes : Nat} (h1 : 4 ≤ nbytes → ldshort g.recvbuff = ldshort buff)
    (h2 : 4 ≤ nbytes → ldshort (g.recvbuff.drop 2) = ldshort (buff.drop 2)) :
    src.Reacts n buff (Tftp.received src.side src.fs t nbytes g) := by
  rcases received_cases src.side src.fs t nbytes g with ⟨why, g', he, ho'⟩ | ⟨h4, hop, he⟩
  · rw [he]
    exact reacts_exited (ho'.trans ho)
  · have hg : src.Sender n (readOp t g) := ⟨⟨h.nextblknum, h.modetype, h.left, h.lastsend⟩, h.sent⟩
    rw [he]
    rcases h.table hop with ⟨hf, hack⟩ | hf
    · rw [hf, callHandler]
      rcases recvAck_cases (g.recvbuff.drop 2) (nbytes - 2) (readOp t g) with ⟨why, hr⟩ | hr | hr | ⟨hnum, hd, hr⟩
      · rw [hr]
        exact reacts_exited ho
      · rw [hr]
        exact .inl ⟨ho, fun h => by cases h⟩
      · rw [hr]
        exact .inl ⟨ho, fun _ => hg.arm t.start⟩
      · have hnl : n ≠ src.last := fun hl => hd ((hg.read_done hle).2 hl)
        have hnext := hg.next
        have hsent : src.Sender (n + 1) (sendData ((readOp t g).nextblknum + 1) _ (readNext (readOp t g))) :=
          ⟨⟨hnext.nextblknum, hnext.modetype, hnext.left, hnext.lastsend⟩, .inl ⟨Nat.succ_pos n, rfl, hg.nextPkt⟩⟩
        rw [hg.nextblknum, h2 h4] at hnum
        rw [hr, proceed_ok, passEnd_of_nonneg t (Int.le_refl 0)]
        refine .inr ⟨by omega, (h1 h4).symm.trans hack, by exact_mod_cast hnum, hsent.arm t.start, g.peer, ?_⟩
        rw [arm_outbox, sendData_outbox, hg.nextPkt]
        exact congrArg (· ++ _) ho
    · simp only [List.mem_cons, List.not_mem_nil, or_false] at hf
      rcases hf with hf | hf | hf <;> rw [hf, callHandler]
      · exact reacts_exited ho
      · exact reacts_exited ho
      · unfold recvRqerr
        dsimp only
        split
        · exact reacts_exited ho
        · exact .inl ⟨ho, fun h => by cases h⟩

/-- **A sender and a packet.** -/
theorem Sender.step_datagram (h : src.Sender n p.g) (hp : p.status = .waiting) (hle : n ≤ src.last)
    (fromAddr : SockAddr) (buff : List Byte) (t : Readings) :
    src.Reacts n buff (src.program.step p (.datagram fromAddr buff t)) := by
  have hstep : src.program.step p (.datagram fromAddr buff t) = _ := Tftp.step_datagram hp fromAddr buff t
  rw [hstep]
  by_cases hpass : Passes src.side fromAddr { p.g with outbox := [] }
  · rw [netRecv_of_passes buff hpass]
    have hg : src.Sender n { recvfrom buff { p.g with outbox := [] } with
        peer := heardPeer src.side fromAddr { p.g with outbox := [] }, recvFirst := false } :=
      ⟨⟨h.nextblknum, h.modetype, h.left, h.lastsend⟩, h.sent⟩
    exact hg.received rfl hle t (fun h4 => (recvfrom_ldshort buff _ h4).1) fun h4 => (recvfrom_ldshort buff _ h4).2
  · obtain ⟨why, he⟩ := netRecv_of_not_passes buff hpass
    rw [he]
    exact reacts_exited rfl

/-- **A sender and a timeout.** It sends nothing new. -/
theorem Sender.step_alarm (h : src.Sender n p.g) (hp : p.status = .waiting) (t : Readings) :
    src.Sender n (src.program.step p (.alarm t)).g ∧ ((src.program.step p (.alarm t)).g.outbox = [] ∨
      ∃ a, (src.program.step p (.alarm t)).g.outbox = [⟨a, p.g.sendbuff⟩]) := by
  obtain ⟨r, hr | hr⟩ := step_alarm_cases src.side src.fs hp t
  · have hstep : src.program.step p (.alarm t) = _ := hr
    rw [hstep]
    exact ⟨⟨⟨h.nextblknum, h.modetype, h.left, h.lastsend⟩, h.sent⟩, .inl rfl⟩
  · have hstep : src.program.step p (.alarm t) = _ := hr
    rw [hstep]
    exact ⟨⟨⟨h.nextblknum, h.modetype, h.left, h.lastsend⟩, h.sent⟩, .inr ⟨p.g.peer, rfl⟩⟩

/-! ## What a sender has sent -/

/-- A transmission: whether a timeout caused it, the sender's `nextblknum` at the time, and the packet. -/
structure Sent where
  onTimeout : Bool
  blknum : Int
  buff : List Byte
deriving DecidableEq, Repr

/-- It is a transmission of a block. -/
def Sent.isData (y : Sent) : Bool := ldshort y.buff = opData

/-- The sender, with its transmissions watched. -/
def watched (src : Source) : Machine Proc Event Sent where
  step := src.program.step
  emit p e := (src.program.emit p e).map fun d => ⟨e.isAlarm, (src.program.step p e).g.nextblknum, d.buff⟩

/-- What a sender that starts as `p` has sent after some events. The request made the server send its first block. -/
def sentLog (src : Source) (p : Proc) (es : List Event) : List Sent :=
  p.g.outbox.map (fun d => ⟨false, p.g.nextblknum, d.buff⟩) ++ src.watched.trace p es

/-- The number of an acknowledgement. -/
def ackNumber : Event → Option ℕ
  | .datagram _ buff _ => if ldshort buff = opAck then some (ldshort (buff.drop 2)) else none
  | .alarm _ => none

/-- The acknowledgements that a sender has received. The server's `recv_RRQ` pretends that a request is an
acknowledgement of block 0. -/
def acked (src : Source) (es : List Event) : List ℕ :=
  (match src.side with
    | .server => [0]
    | .client => []) ++ es.filterMap ackNumber

theorem acked_concat {es : List Event} {k : ℕ} (h : k ∈ src.acked es) (e : Event) : k ∈ src.acked (es ++ [e]) := by
  unfold acked at h ⊢
  rw [List.filterMap_append, ← List.append_assoc]
  exact List.mem_append_left _ h

theorem timeouts_concat (es : List Event) (e : Event) :
    timeouts (es ++ [e]) = timeouts es + if e.isAlarm then 1 else 0 := by
  simp [timeouts, List.countP_append, List.countP_singleton]

/-- What holds of a sender's history `es`, its state and its transmissions once it has sent `n` blocks. -/
structure Logged (src : Source) (n : ℕ) (es : List Event) (p : Proc) (out : List Sent) : Prop where
  le_last : n ≤ src.last
  sender : p.status = .waiting → src.Sender n p.g
  onPacket : (out.filter fun y => y.isData && !y.onTimeout).map Sent.blknum =
    (List.range n).map fun k : ℕ => (k : Int) + 1
  onTimeout : (out.filter fun y => y.isData && y.onTimeout).length ≤ timeouts es
  blocks : ∀ y ∈ out, y.isData → ∃ k < n, y.blknum = k + 1 ∧ y.buff = src.packet (k + 1)
  acks : ∀ k < n, k ∈ src.acked es

section Log

variable {es : List Event} {out : List Sent} {p' : Proc}

/-- A block that is sent because of a packet counts as one. -/
theorem filter_packet (src : Source) (b : Int) (k : ℕ) :
    ([⟨false, b, src.packet k⟩] : List Sent).filter (fun y => y.isData && !y.onTimeout) =
        [⟨false, b, src.packet k⟩] ∧
      ([⟨false, b, src.packet k⟩] : List Sent).filter (fun y => y.isData && y.onTimeout) = [] := by
  have hdata : (⟨false, b, src.packet k⟩ : Sent).isData = true :=
    decide_eq_true (ldshort_blockPacket src.stream k)
  simp [hdata]

/-- An event on which nothing is sent. -/
theorem Logged.silent (h : src.Logged n es p out) (e : Event) (hp : p'.status = .waiting → src.Sender n p'.g) :
    src.Logged n (es ++ [e]) p' (out ++ []) := by
  rw [List.append_nil]
  refine ⟨h.le_last, hp, h.onPacket, ?_, h.blocks, fun k hk => acked_concat (h.acks k hk) e⟩
  rw [timeouts_concat]
  exact Nat.le_add_right_of_le h.onTimeout

/-- A timeout on which the last packet is sent again. -/
theorem Logged.again (h : src.Logged n es p out) (hp : src.Sender n p.g) (t : Readings) (hp' : src.Sender n p'.g) :
    src.Logged n (es ++ [.alarm t]) p' (out ++ [⟨true, n, p.g.sendbuff⟩]) := by
  have htime : timeouts (es ++ [.alarm t]) = timeouts es + 1 := timeouts_concat es (.alarm t)
  refine ⟨h.le_last, fun _ => hp', ?_, ?_, ?_, fun k hk => acked_concat (h.acks k hk) _⟩
  · simpa [List.filter_append] using h.onPacket
  · have hlen := h.onTimeout
    have h1 := List.length_filter_le (fun y : Sent => y.isData && y.onTimeout) [⟨true, n, p.g.sendbuff⟩]
    rw [htime, List.filter_append, List.length_append]
    rw [List.length_singleton] at h1
    omega
  · intro y hy hd
    rcases List.mem_append.1 hy with hy | hy
    · exact h.blocks y hy hd
    · rw [List.mem_singleton.1 hy] at hd ⊢
      rcases hp.sent with ⟨hn, -, hb⟩ | ⟨-, -, -, hb⟩
      · obtain ⟨k, rfl⟩ : ∃ k, n = k + 1 := ⟨n - 1, by omega⟩
        exact ⟨k, Nat.lt_succ_self k, by push_cast; rfl, hb⟩
      · exact absurd (of_decide_eq_true hd) hb

/-- A packet on which the next block is sent. -/
theorem Logged.next (h : src.Logged n es p out) (hlt : n < src.last) {e : Event} (ha : ackNumber e = some n)
    (hp' : src.Sender (n + 1) p'.g) :
    src.Logged (n + 1) (es ++ [e]) p' (out ++ [⟨false, (n + 1 : ℕ), src.packet (n + 1)⟩]) := by
  obtain ⟨hpacket, htimeout⟩ := filter_packet src (n + 1 : ℕ) (n + 1)
  refine ⟨hlt, fun _ => hp', ?_, ?_, ?_, ?_⟩
  · rw [List.filter_append, List.map_append, h.onPacket, hpacket, List.range_succ, List.map_append]
    simp
  · rw [timeouts_concat, List.filter_append, htimeout, List.append_nil]
    exact Nat.le_add_right_of_le h.onTimeout
  · intro y hy hd
    rcases List.mem_append.1 hy with hy | hy
    · obtain ⟨k, hk, hb⟩ := h.blocks y hy hd
      exact ⟨k, by omega, hb⟩
    · rw [List.mem_singleton.1 hy]
      exact ⟨n, by omega, by push_cast; rfl, rfl⟩
  · intro k hk
    rcases Nat.lt_succ_iff_lt_or_eq.1 hk with hk | rfl
    · exact acked_concat (h.acks k hk) e
    · unfold acked
      rw [List.filterMap_append]
      simp [ha]

/-- **What an event adds to the log of a sender.** -/
theorem Logged.step (h : src.Logged n es p out) (e : Event) :
    ∃ m, src.Logged m (es ++ [e]) (src.watched.step p e) (out ++ src.watched.emit p e) := by
  by_cases hp : p.status = .waiting
  · have hs := h.sender hp
    have hemit : src.watched.emit p e = (src.program.step p e).g.outbox.map fun d =>
        ⟨e.isAlarm, (src.program.step p e).g.nextblknum, d.buff⟩ := congrArg (List.map _) (if_pos hp)
    rw [hemit]
    cases e with
    | datagram fromAddr buff t =>
      rcases hs.step_datagram hp h.le_last fromAddr buff t with ⟨ho, hn⟩ | ⟨hlt, hack, hnum, hn, a, ho⟩
      · rw [ho]
        exact ⟨n, h.silent _ hn⟩
      · have ha : ackNumber (.datagram fromAddr buff t) = some n := by
          simp only [ackNumber, if_pos hack, hnum]
        rw [ho, List.map_singleton, hn.nextblknum]
        exact ⟨n + 1, h.next hlt ha hn⟩
    | alarm t =>
      obtain ⟨hn, ho | ⟨a, ho⟩⟩ := hs.step_alarm hp t
      · rw [ho]
        exact ⟨n, h.silent _ fun _ => hn⟩
      · rw [ho, List.map_singleton, hn.nextblknum]
        exact ⟨n, h.again hs t hn⟩
  · have hemit : src.watched.emit p e = [] := congrArg (List.map _) (if_neg hp)
    have hstep : src.watched.step p e = p := step_stopped hp e
    rw [hemit, hstep]
    exact ⟨n, h.silent e h.sender⟩

/-- A sender starts with its first block, or with none. -/
theorem Starts.logged (h : Starts src p) :
    ∃ n, src.Logged n [] p (p.g.outbox.map fun d => ⟨false, p.g.nextblknum, d.buff⟩) := by
  cases h with
  | @rrq fs _ _ _ _ t fp _ he hw hop hopen =>
    obtain ⟨mode, fp', g, hfp, hout, rfl, hblk, hlocal, hlast, hserve⟩ := serve_read (he ▸ hw) hop
    obtain rfl : fp' = fp := Option.some.inj (hfp.symm.trans hopen)
    obtain rfl := he.trans hserve
    have hread := Reading.first hblk rfl hlocal hlast
    have hfirst := Reading.firstPkt g.modetype fp'
    let src : Source := ⟨.server, fs, g.modetype, pending g.modetype fp'⟩
    have hs : src.Sender 1 (sendData 1 (fileRead fp' maxData g.modetype).1 g) :=
      ⟨⟨hread.nextblknum, hread.modetype, hread.left, hread.lastsend⟩, .inl ⟨Nat.one_pos, rfl, hfirst⟩⟩
    obtain ⟨hpacket, htimeout⟩ := filter_packet src 1 1
    have hlog : (sendData 1 (fileRead fp' maxData g.modetype).1 g).outbox.map
        (fun d => (⟨false, g.nextblknum, d.buff⟩ : Sent)) = [⟨false, 1, src.packet 1⟩] := by
      rw [sendData_outbox, hout, hblk, hfirst]; rfl
    refine ⟨1, ?_⟩
    show src.Logged 1 [] _ ((sendData 1 (fileRead fp' maxData g.modetype).1 g).outbox.map
      fun d => ⟨false, g.nextblknum, d.buff⟩)
    rw [hlog]
    refine ⟨Nat.succ_pos _, fun _ => hs.arm t.start, ?_, ?_, ?_, ?_⟩
    · rw [hpacket]; rfl
    · rw [htimeout]; exact Nat.zero_le _
    · intro y hy _
      rw [List.mem_singleton.1 hy]
      exact ⟨0, Nat.one_pos, rfl, rfl⟩
    · intro k hk
      obtain rfl : k = 0 := by omega
      exact List.mem_singleton.2 rfl
  | @wrq _ _ _ remfname _ g fp _ hc hopen =>
    obtain ⟨hask, hnum, hlast, hfp⟩ := doPut_some hc
    obtain rfl : fp = p.g.localfp := Option.some.inj (hopen.symm.trans hfp)
    have hreq : ldshort (request opWrq remfname g.modetype) ≠ opData := by
      rw [request, ldshort_stshort_nat]; decide
    have hnot : ¬ (⟨false, p.g.nextblknum, request opWrq remfname g.modetype⟩ : Sent).isData = true :=
      fun hd => hreq (of_decide_eq_true hd)
    rw [hask.asks, List.map_singleton]
    refine ⟨0, Nat.zero_le _, fun _ => ⟨⟨hnum, hask.modetype, rfl, hlast⟩, .inr ⟨rfl, hask.opSent, rfl, ?_⟩⟩, ?_, ?_, ?_,
      fun k hk => absurd hk (Nat.not_lt_zero k)⟩
    · rw [hask.sendbuff]; exact hreq
    · simp [hnot]
    · simp [hnot]
    · intro y hy hd
      rw [List.mem_singleton.1 hy] at hd
      exact absurd hd hnot

/-- The log of a sender, after any events. -/
theorem Starts.run_logged (h : Starts src p) (es : List Event) :
    ∃ n, src.Logged n es (src.watched.run p es) (src.sentLog p es) := by
  refine Machine.run_induction (M := src.watched)
    (P := fun es q out => ∃ n, src.Logged n es q (p.g.outbox.map (fun d => ⟨false, p.g.nextblknum, d.buff⟩) ++ out))
    ?_ ?_ es
  · simpa using h.logged
  · rintro es e ⟨n, hn⟩
    rw [← List.append_assoc]
    exact hn.step e

/-- **No Sorcerer's Apprentice.** Packets make a sender send every block at most once, all its transmissions of blocks
are at most one for each block and one for each timeout, and it sends a block only once an acknowledgement of the block
before has come. -/
theorem no_sorcerer (h : Starts src p) (es : List Event) :
    (∀ k : Int, ((src.sentLog p es).filter fun y => y.blknum = k && (y.isData && !y.onTimeout)).length ≤ 1) ∧
      ((src.sentLog p es).filter Sent.isData).length ≤ src.last + timeouts es ∧
      ∀ y ∈ src.sentLog p es, y.isData → ∃ k < src.last,
        y.blknum = k + 1 ∧ y.buff = src.packet (k + 1) ∧ k ∈ src.acked es := by
  obtain ⟨n, hn⟩ := h.run_logged es
  refine ⟨?_, ?_, ?_⟩
  · intro k
    have hcount : ((src.sentLog p es).filter fun y => y.blknum = k && (y.isData && !y.onTimeout)).length =
        (((src.sentLog p es).filter fun y => y.isData && !y.onTimeout).map Sent.blknum).count k := by
      rw [← List.filter_filter, ← List.countP_eq_length_filter, List.count, List.countP_map]
      rfl
    have hnodup : ((List.range n).map fun k : ℕ => (k : Int) + 1).Nodup :=
      List.nodup_range.map fun i j hij => by simpa using hij
    rw [hcount, hn.onPacket]
    exact List.nodup_iff_count_le_one.1 hnodup k
  · have hsplit : ((src.sentLog p es).filter Sent.isData).length =
        ((src.sentLog p es).filter fun y => y.isData && y.onTimeout).length +
          ((src.sentLog p es).filter fun y => y.isData && !y.onTimeout).length := by
      rw [List.length_eq_countP_add_countP Sent.onTimeout, List.countP_filter, List.countP_filter,
        List.countP_eq_length_filter, List.countP_eq_length_filter]
      simp [Bool.and_comm]
    have hpacket : ((src.sentLog p es).filter fun y => y.isData && !y.onTimeout).length = n := by
      simpa using congrArg List.length hn.onPacket
    have htimeout := hn.onTimeout
    have hle := hn.le_last
    omega
  · intro y hy hd
    obtain ⟨k, hk, hnum, hb⟩ := hn.blocks y hy hd
    exact ⟨k, lt_of_lt_of_le hk hn.le_last, hnum, hb, hn.acks k hk⟩

end Log

/-! ## A server that times out -/

/-- The server of the small network, with a file of two bytes. -/
def sampleSource : Source := ⟨.server, sampleFs [104, 105], .binary, [104, 105]⟩

theorem no_sorcerer_sample :
    ((sampleSource.sentLog (sampleChild .get [104, 105]) [tick, .datagram ⟨2, 5000⟩ (ackPacket 0) ⟨0, 0⟩, tick]).filter
      Sent.isData).length ≤ 3 := by
  have hw : (sampleChild .get [104, 105]).status = .waiting := by decide +kernel
  have hmode : (sampleChild .get [104, 105]).g.modetype = .binary := by decide +kernel
  have hstart : Starts sampleSource (sampleChild .get [104, 105]) := by
    have h := @Starts.rrq (sampleFs [104, 105]) [] (request opRrq sampleName .binary) ⟨2, 5000⟩ 0 ⟨0, 0⟩
      (opened [104, 105]) (sampleChild .get [104, 105]) rfl hw (by decide) rfl
    rw [hmode] at h
    exact h
  exact (no_sorcerer hstart [tick, .datagram ⟨2, 5000⟩ (ackPacket 0) ⟨0, 0⟩, tick]).2.1

end Source

end CodingExercises.Tftp
