import CodingExercises.Tftp.State

/-!
# TFTP: datagrams

`net_send` and `net_recv` of `server/net_udp.c` and `client/netudp_cli.c`, once `recvfrom` has delivered a datagram. The
sockets themselves do not fail; a `recvfrom` that the alarm interrupts is an event of `fsm_loop`.
-/

namespace CodingExercises.Tftp

/-- `net_send`: both programs send to the address they have saved. -/
def netSend (buff : List Byte) (g : Globals) : Globals := { g with outbox := g.outbox ++ [⟨g.peer, buff⟩] }

/-- `recvfrom` into `recvbuff`: at most `MAXBUFF` bytes, in front of what was there. -/
def recvfrom (buff : List Byte) (g : Globals) : Globals :=
  { g with recvbuff := buff.take maxBuff ++ g.recvbuff.drop (buff.take maxBuff).length }

/-- `net_recv`, given the datagram and where it came from: the number of bytes. -/
def netRecv (side : Side) (fromAddr : SockAddr) (buff : List Byte) (g : Globals) : Result (Nat × Globals) :=
  let g := recvfrom buff g
  let nbytes := (buff.take maxBuff).length
  match side with
  | .server =>
    let g := if g.recvFirst then { g with peer := fromAddr, recvFirst := false } else g
    if g.peer.sinPort ≠ 0 ∧ g.peer.sinPort ≠ fromAddr.sinPort then
      .error (.wrongPort fromAddr.sinPort g.peer.sinPort, g)
    else .ok (nbytes, g)
  | .client =>
    if g.recvFirst then
      if g.peer.sinPort = fromAddr.sinPort then .error (.firstPort fromAddr.sinPort, g)
      else .ok (nbytes, { g with peer := { g.peer with sinPort := fromAddr.sinPort }, recvFirst := false })
    else if g.peer.sinPort ≠ fromAddr.sinPort then .error (.wrongPort fromAddr.sinPort g.peer.sinPort, g)
    else .ok (nbytes, g)

/-- The bytes received lie at the start of `recvbuff`. -/
theorem recvfrom_getD (buff : List Byte) (g : Globals) {i : Nat} (hi : i < (buff.take maxBuff).length) :
    (recvfrom buff g).recvbuff.getD i 0 = buff.getD i 0 := by
  have hm : i < maxBuff := by rw [List.length_take] at hi; omega
  simp only [recvfrom, List.getD_eq_getElem?_getD, List.getElem?_append_left hi, List.getElem?_take, hm, if_true]

/-- So the first two shorts of a packet are read as they were sent. -/
theorem recvfrom_ldshort (buff : List Byte) (g : Globals) (h : 4 ≤ (buff.take maxBuff).length) :
    ldshort (recvfrom buff g).recvbuff = ldshort buff ∧
      ldshort ((recvfrom buff g).recvbuff.drop 2) = ldshort (buff.drop 2) := by
  have h0 := recvfrom_getD buff g (i := 0) (by omega)
  have h1 := recvfrom_getD buff g (i := 1) (by omega)
  have h2 := recvfrom_getD buff g (i := 2) (by omega)
  have h3 := recvfrom_getD buff g (i := 3) (by omega)
  simp only [List.getD_eq_getElem?_getD] at h0 h1 h2 h3
  simp only [ldshort, List.getD_eq_getElem?_getD, List.getElem?_drop, h0, h1, h2, h3, and_self]

/-- The peer once a datagram from `fromAddr` has been read. -/
def heardPeer (side : Side) (fromAddr : SockAddr) (g : Globals) : SockAddr :=
  if g.recvFirst then
    match side with
    | .server => fromAddr
    | .client => ⟨g.peer.sinAddr, fromAddr.sinPort⟩
  else g.peer

/-- The check that lets `net_recv` return a datagram: it compares ports only. -/
def Passes (side : Side) (fromAddr : SockAddr) (g : Globals) : Prop :=
  match side with
  | .server => g.recvFirst = true ∨ g.peer.sinPort = 0 ∨ g.peer.sinPort = fromAddr.sinPort
  | .client => if g.recvFirst then g.peer.sinPort ≠ fromAddr.sinPort else g.peer.sinPort = fromAddr.sinPort

/-- What `net_recv` returns with a datagram that passes the check, -/
theorem netRecv_of_passes {side : Side} {fromAddr : SockAddr} {g : Globals} (buff : List Byte)
    (h : Passes side fromAddr g) : netRecv side fromAddr buff g = .ok ((buff.take maxBuff).length,
      { recvfrom buff g with peer := heardPeer side fromAddr g, recvFirst := false }) := by
  cases hf : g.recvFirst with
  | true => cases side <;> simp_all [Passes, netRecv, recvfrom, heardPeer]
  | false =>
    cases side with
    | server =>
      have hn : ¬ (g.peer.sinPort ≠ 0 ∧ g.peer.sinPort ≠ fromAddr.sinPort) := by
        simp only [Passes, hf, Bool.false_eq_true, false_or] at h
        tauto
      simp [netRecv, recvfrom, heardPeer, hf, hn]
    | client => simp_all [Passes, netRecv, recvfrom, heardPeer]

/-- and that any other makes the process exit. -/
theorem netRecv_of_not_passes {side : Side} {fromAddr : SockAddr} {g : Globals} (buff : List Byte)
    (h : ¬ Passes side fromAddr g) : ∃ e, netRecv side fromAddr buff g = .error (e, recvfrom buff g) := by
  cases hf : g.recvFirst with
  | true => cases side <;> simp_all [Passes, netRecv, recvfrom]
  | false => cases side <;> simp_all [Passes, netRecv, recvfrom]

theorem netRecv_ok {side : Side} {fromAddr : SockAddr} {buff : List Byte} {g g' : Globals} {nbytes : Nat}
    (h : netRecv side fromAddr buff g = .ok (nbytes, g')) : Passes side fromAddr g ∧
      nbytes = (buff.take maxBuff).length ∧ g' = { recvfrom buff g with peer := heardPeer side fromAddr g, recvFirst := false } := by
  by_cases hp : Passes side fromAddr g
  · rw [netRecv_of_passes buff hp] at h
    cases h
    exact ⟨hp, rfl, rfl⟩
  · obtain ⟨e, he⟩ := netRecv_of_not_passes buff hp
    rw [he] at h
    cases h

/-- The process reads from `fromAddr` next: that is its peer, or the address from which a client's first datagram may
come. -/
def Expects (side : Side) (fromAddr : SockAddr) (g : Globals) : Prop :=
  g.recvFirst = false ∧ g.peer = fromAddr ∨
    side = .client ∧ g.recvFirst = true ∧ g.peer.sinAddr = fromAddr.sinAddr ∧ g.peer.sinPort ≠ fromAddr.sinPort

/-- A datagram that is expected is read, and its sender is the peer from then on. -/
theorem netRecv_expected {side : Side} {fromAddr : SockAddr} {g : Globals} (buff : List Byte)
    (h : Expects side fromAddr g) : netRecv side fromAddr buff g = .ok ((buff.take maxBuff).length,
      { recvfrom buff g with peer := fromAddr, recvFirst := false }) := by
  have hpeer : Passes side fromAddr g ∧ heardPeer side fromAddr g = fromAddr := by
    rcases h with ⟨hf, rfl⟩ | ⟨rfl, hf, ha, hp⟩
    · cases side <;> simp [Passes, heardPeer, hf]
    · simp [Passes, heardPeer, hf, ha, hp]
  rw [netRecv_of_passes buff hpeer.1, hpeer.2]

end CodingExercises.Tftp
