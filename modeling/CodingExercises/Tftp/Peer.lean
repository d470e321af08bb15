import CodingExercises.Tftp.Transfer

/-!
# TFTP: whom a process listens to

`net_recv` is there to make sure that a datagram comes from the other end of the transfer, and compares the ports only.
A process in a transfer remembers its peer (`InTransfer.run_peer`), so it reads a datagram of somebody else exactly when
that one arrives from the peer's port number at another address, or from any port when the peer of a server has port 0
(`heeds_peer_iff`).
-/

namespace CodingExercises.Tftp

open Lib Session

/-- A process, with the senders of the datagrams that `net_recv` returns to `fsm_loop`. -/
def heeded (side : Side) (fs : FileSys) : Machine Proc Event SockAddr where
  step := step side fs
  emit p e :=
    match e with
    | .datagram fromAddr buff _ =>
      if p.status = .waiting ∧ (netRecv side fromAddr buff { p.g with outbox := [] }).isOk then [fromAddr] else []
    | .alarm _ => []

/-- A process that has a peer: a child of the server, whose peer has sent the request, or a client after its first reply,
whose peer has the address that it has connected to and the port of that reply. -/
inductive InTransfer (fs : FileSys) : Side → SockAddr → Proc → Prop
  | child {recvbuff rq : List Byte} {fromAddr : SockAddr} {now : Int} {t : Readings} :
      InTransfer fs .server fromAddr (serve fs recvbuff fromAddr rq now t)
  | client {server fromAddr : SockAddr} {now : Int} {remfname locfname : FileName} {g : Globals} {p : Proc}
      {es : List Event} {reply : Event} :
      doGet fs server now remfname locfname g = some p ∨ doPut fs server now remfname locfname g = some p →
      (heeded .client fs).trace p es = [] →
      fromAddr ∈ (heeded .client fs).emit ((process .client fs).run p es) reply →
      InTransfer fs .client ⟨server.sinAddr, fromAddr.sinPort⟩ (step .client fs ((process .client fs).run p es) reply)

/-- `fromAddr` has the port number of the peer. A server takes port 0 for an unknown one. -/
def HasPort (side : Side) (peer fromAddr : SockAddr) : Prop :=
  fromAddr.sinPort = peer.sinPort ∨ side = .server ∧ peer.sinPort = 0

section Step

variable {side : Side} {fs : FileSys} {p : Proc} {peer fromAddr : SockAddr} {buff : List Byte} {e : Event} {t : Readings}

/-- What `net_recv` returns has passed its check. -/
theorem mem_emit : fromAddr ∈ (heeded side fs).emit p e ↔
    p.status = .waiting ∧ (∃ buff t, e = .datagram fromAddr buff t) ∧ Passes side fromAddr { p.g with outbox := [] } := by
  cases e with
  | alarm t => simp [heeded]
  | datagram a buff t =>
    have hok : (netRecv side a buff { p.g with outbox := [] }).isOk = true ↔
        Passes side a { p.g with outbox := [] } := by
      by_cases hp : Passes side a { p.g with outbox := [] }
      · rw [netRecv_of_passes buff hp]; simp [Except.isOk, Except.toBool, hp]
      · obtain ⟨why, he⟩ := netRecv_of_not_passes buff hp
        rw [he]; simp [Except.isOk, Except.toBool, hp]
    simp only [heeded, hok, List.mem_ite_nil_right, List.mem_singleton, Event.datagram.injEq]
    constructor
    · rintro ⟨⟨hw, hp⟩, rfl⟩
      exact ⟨hw, ⟨buff, t, rfl, rfl, rfl⟩, hp⟩
    · rintro ⟨hw, ⟨_, _, rfl, -, -⟩, hp⟩
      exact ⟨⟨hw, hp⟩, rfl⟩

/-- A process that waits after a datagram has read it, and remembers its sender as `net_recv` says. -/
theorem step_datagram_peer (hp : p.status = .waiting)
    (h : (step side fs p (.datagram fromAddr buff t)).status = .waiting) :
    Passes side fromAddr { p.g with outbox := [] } ∧
      (step side fs p (.datagram fromAddr buff t)).g.peer = heardPeer side fromAddr p.g ∧
      (step side fs p (.datagram fromAddr buff t)).g.recvFirst = false := by
  rw [step_datagram hp] at h ⊢
  cases hn : netRecv side fromAddr buff { p.g with outbox := [] } with
  | error e => rw [hn] at h; cases h
  | ok r =>
    obtain ⟨nbytes, g⟩ := r
    rw [hn] at h
    obtain ⟨hpass, -, rfl⟩ := netRecv_ok hn
    obtain ⟨g', hk, hr⟩ := received_waiting h
    refine ⟨hpass, ?_⟩
    simp only [proceed, hr]
    exact ⟨hk.peer, hk.recvFirst⟩

/-- A timeout does not change the peer. -/
theorem step_alarm_peer (side : Side) (fs : FileSys) (hp : p.status = .waiting) (t : Readings) :
    (step side fs p (.alarm t)).g.peer = p.g.peer ∧ (step side fs p (.alarm t)).g.recvFirst = p.g.recvFirst := by
  obtain ⟨r, hr | hr⟩ := step_alarm_cases side fs hp t <;> rw [hr] <;> exact ⟨rfl, rfl⟩

/-- While a process waits it remembers its peer. -/
def Peered (peer : SockAddr) (p : Proc) : Prop := p.status = .waiting → p.g.recvFirst = false ∧ p.g.peer = peer

/-- **No event makes a process forget its peer.** -/
theorem Peered.step (h : Peered peer p) (e : Event) : Peered peer (Tftp.step side fs p e) := by
  intro hw
  by_cases hp : p.status = .waiting
  · obtain ⟨hf, hpeer⟩ := h hp
    cases e with
    | datagram fromAddr buff t =>
      obtain ⟨-, hpeer', hf'⟩ := step_datagram_peer hp hw
      refine ⟨hf', hpeer'.trans ?_⟩
      simp [heardPeer, hf, hpeer]
    | alarm t =>
      obtain ⟨hpeer', hf'⟩ := step_alarm_peer side fs hp t
      exact ⟨hf'.trans hf, hpeer'.trans hpeer⟩
  · rw [step_stopped hp] at hw
    exact absurd hw hp

/-- The check that `net_recv` makes once the peer is known. -/
theorem Peered.passes_iff (h : Peered peer p) (hp : p.status = .waiting) (fromAddr : SockAddr) :
    Passes side fromAddr { p.g with outbox := [] } ↔ HasPort side peer fromAddr := by
  obtain ⟨hf, hpeer⟩ := h hp
  cases side with
  | server => simp [Passes, HasPort, hf, hpeer, eq_comm, or_comm]
  | client => simp [Passes, HasPort, hf, hpeer, eq_comm]

end Step

/-! ## Whole runs -/

section Runs

variable {side : Side} {fs : FileSys} {p : Proc} {peer fromAddr server : SockAddr} {es : List Event}

theorem heeded_run (p : Proc) (es : List Event) : (heeded side fs).run p es = (process side fs).run p es :=
  Machine.run_congr (by rfl) p es

/-- Before its first reply a client waits for one from a new port of the server it has asked. -/
theorem run_asking (hf : p.g.recvFirst = true) (hpeer : p.g.peer = server)
    (hnone : (heeded .client fs).trace p es = []) (hw : ((process .client fs).run p es).status = .waiting) :
    ((process .client fs).run p es).g.recvFirst = true ∧ ((process .client fs).run p es).g.peer = server := by
  induction es using List.reverseRecOn with
  | nil => exact ⟨hf, hpeer⟩
  | append_singleton es e ih =>
    rw [Machine.trace_concat, List.append_eq_nil_iff] at hnone
    rw [Machine.run_concat] at hw ⊢
    have hp : ((process .client fs).run p es).status = .waiting := by
      by_contra hp
      rw [show (process .client fs).step _ e = _ from step_stopped hp e] at hw
      exact hp hw
    obtain ⟨hf', hpeer'⟩ := ih hnone.1 hp
    cases e with
    | datagram a buff t =>
      have hpass := (step_datagram_peer hp hw).1
      have hmem := (@mem_emit _ fs ..).2 ⟨hp, ⟨buff, t, rfl⟩, hpass⟩
      rw [← heeded_run, hnone.2] at hmem
      cases hmem
    | alarm t =>
      obtain ⟨h1, h2⟩ := step_alarm_peer .client fs hp t
      exact ⟨h2.trans hf', h1.trans hpeer'⟩

/-- A child has the sender of its request for a peer, and a client the sender of its first reply. -/
theorem InTransfer.peered (h : InTransfer fs side peer p) : Peered peer p := by
  intro hw
  cases h with
  | @child recvbuff rq fromAddr now t =>
    unfold serve at hw ⊢
    rw [netRecv_of_passes rq (show Passes .server peer (listening recvbuff) from .inl rfl)] at hw ⊢
    obtain ⟨g', hk, hr⟩ := received_waiting hw
    obtain ⟨r, f, a, hloop⟩ := fsmLoop_eq 0 now { recvfrom rq (listening recvbuff) with
      peer := heardPeer .server peer (listening recvbuff), recvFirst := false }
    rw [hloop] at hk
    simp only [proceed, hr]
    exact ⟨hk.recvFirst, hk.peer⟩
  | @client server fromAddr now remfname locfname g p es reply hstart hnone hmem =>
    have hask : p.g.recvFirst = true ∧ p.g.peer = server := by
      rcases hstart with h | h
      · exact ⟨(doGet_some h).1.recvFirst, (doGet_some h).1.peer⟩
      · exact ⟨(doPut_some h).1.recvFirst, (doPut_some h).1.peer⟩
    obtain ⟨hp, ⟨buff, t, rfl⟩, hpass⟩ := mem_emit.1 hmem
    obtain ⟨hf, hpeer⟩ := run_asking hask.1 hask.2 hnone hp
    obtain ⟨-, hpeer', hf'⟩ := step_datagram_peer hp hw
    refine ⟨hf', hpeer'.trans ?_⟩
    simp [heardPeer, hf, hpeer]

/-- A process in a transfer remembers its peer as long as it runs. -/
theorem InTransfer.run_peer (h : InTransfer fs side peer p) (es : List Event) :
    Peered peer ((process side fs).run p es) :=
  Machine.run_invariant (fun _ e hp => hp.step e) h.peered es

/-- **Whom a process listens to.** All datagrams that `net_recv` returns come from the peer exactly when every datagram that
reaches the waiting process from the peer's port number comes from the peer. -/
theorem heeds_peer_iff (h : InTransfer fs side peer p) (es : List Event) :
    (∀ a ∈ (heeded side fs).trace p es, a = peer) ↔
      ∀ pre a buff t post, es = pre ++ .datagram a buff t :: post →
        ((process side fs).run p pre).status = .waiting → HasPort side peer a → a = peer := by
  constructor
  · intro hall pre a buff t post hes hw hport
    have hpass := ((h.run_peer pre).passes_iff hw a).2 hport
    refine hall a (Machine.mem_trace.2 ⟨pre, _, post, hes, ?_⟩)
    rw [heeded_run]
    exact mem_emit.2 ⟨hw, ⟨buff, t, rfl⟩, hpass⟩
  · intro hall a ha
    obtain ⟨pre, e, post, hes, hmem⟩ := Machine.mem_trace.1 ha
    rw [heeded_run] at hmem
    obtain ⟨hw, ⟨buff, t, rfl⟩, hpass⟩ := mem_emit.1 hmem
    exact hall pre a buff t post hes hw (((h.run_peer pre).passes_iff hw a).1 hpass)

end Runs

/-! ## A third host -/

/-- An acknowledgement of block 1 that comes to the child of the small network. -/
def ackFrom (fromAddr : SockAddr) : Event := .datagram fromAddr (ackPacket 1) ⟨0, 0⟩

theorem heeds_peer_sample :
    ((heeded .server (sampleFs [104, 105])).trace (sampleChild .get [104, 105]) [ackFrom ⟨2, 5000⟩]).all
      (· = ⟨2, 5000⟩) := by
  refine List.all_eq_true.2 fun a ha => decide_eq_true ((heeds_peer_iff .child _).2 ?_ a ha)
  intro pre a buff t post hes _ _
  have hmem : Event.datagram a buff t ∈ [ackFrom ⟨2, 5000⟩] := by rw [hes]; simp
  exact (Event.datagram.inj (List.mem_singleton.1 hmem)).1

/-- A host that uses the client's port number ends the transfer with its acknowledgement. -/
theorem heeds_third_host :
    InTransfer (sampleFs [104, 105]) .server ⟨2, 5000⟩ (sampleChild .get [104, 105]) ∧
      ⟨3, 5000⟩ ∈ (heeded .server (sampleFs [104, 105])).trace (sampleChild .get [104, 105]) [ackFrom ⟨3, 5000⟩] ∧
      ((process .server (sampleFs [104, 105])).run (sampleChild .get [104, 105]) [ackFrom ⟨3, 5000⟩]).status =
        .returned 0 :=
  ⟨.child, by decide +kernel, by decide +kernel⟩

end CodingExercises.Tftp
