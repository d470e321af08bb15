import CodingExercises.Tftp.Correctness

/-!
# TFTP: recovery from losses

Over channels that keep the order, an octet transfer of less than 65535 full blocks goes on after any losses and
timeouts: from every state in which both ends wait, once the timer of each has fired and neither has given up, the
transfer completes if nothing more is lost (`retried_completes`).
-/

namespace CodingExercises.Tftp

open Lib Lib.StopWait

namespace Session

variable {s : Session} {x y : Transfer} {alarms : List Readings} {net : Net}

/-- A state of the protocol that is carried on, and the state of the two programs that it describes. -/
def InLive (s : Session) (a : St) (x : Transfer) : Prop := s.protocol.Live a ∧ s.Sim a x

section Live

variable {a : St} (hf : ¬ s.protocol.fallible) (hx : s.protocol.Exact)
include hf hx

theorem InLive.step (h : s.InLive a x) (hst : s.Delivery x y) : ∃ b, s.protocol.Delivery a b ∧ s.InLive b y := by
  obtain ⟨hl, hsim⟩ := h
  rcases hst with hst | hst
  · obtain ⟨b, hab, hb⟩ := hsim.step hl.ordered.safe hst
    exact ⟨b, .inl hab, (hl.step hf hx (.inl hab)).1, hb⟩
  · obtain ⟨b, hab, hb⟩ := hsim.step hl.ordered.safe hst
    exact ⟨b, .inr hab, (hl.step hf hx (.inr hab)).1, hb⟩

theorem InLive.reaches (h : s.InLive a x) (hr : Relation.ReflTransGen s.Delivery x y) : ∃ b, s.InLive b y := by
  obtain ⟨b, -, hb⟩ := simulation_of_reaches s.protocol.Delivery s.InLive (fun _ _ _ h hst => h.step hf hx hst) hr h
  exact ⟨b, hb⟩

theorem InLive.terminates (h : s.InLive a x) : Terminates s.Delivery x :=
  (h.1.terminates hf hx).of_simulation s.InLive (fun _ _ _ h hst => h.step hf hx hst) h

end Live

/-- Where nothing can be delivered any more both ends are finished. -/
theorem InLive.stuck {a : St} (h : s.InLive a x) (hstuck : Stuck s.Delivery x) : a.snd = .finished ∧ a.rcv = .finished := by
  obtain ⟨hl, hsim⟩ := h
  rcases hl.cases with hdone | ⟨hr, hne⟩ | ⟨hs, hne⟩
  · exact hdone
  · obtain ⟨k, q, hq⟩ := List.exists_cons_of_ne_nil hne
    have hd : Net.fifo.Deliver x.data (s.dataPkt k) (q.map s.dataPkt) := by
      rw [hsim.data, hq]
      rfl
    have hrcv := hsim.rcv
    rw [hr] at hrcv
    exact absurd (.inl (.data ⟨0, 0⟩ hrcv.1 hd)) (hstuck _)
  · obtain ⟨k, q, hq⟩ := List.exists_cons_of_ne_nil hne
    have hd : Net.fifo.Deliver x.acks (ackPkt k) (q.map ackPkt) := by
      rw [hsim.acks, hq]
      rfl
    have hsnd := hsim.snd
    rw [hs] at hsnd
    exact absurd (.inr (.ack ⟨0, 0⟩ hsnd.1 hd)) (hstuck _)

theorem InLive.completes {a : St} (hm : s.mode = .binary) (hx : s.protocol.Exact) (h : s.InLive a x) : s.Completes x := by
  have hf := not_fallible hm
  refine ⟨h.terminates hf hx, fun y hr => ?_, fun y hr hstuck => ?_⟩
  · obtain ⟨b, hl, hsim⟩ := h.reaches hf hx hr
    refine hsim.not_exited ?_ hl.rcv_live
    exact hl.carried.elim .inr fun hc => .inl hc.1
  · obtain ⟨b, hb⟩ := h.reaches hf hx hr
    obtain ⟨hsnd, hrcv⟩ := hb.stuck hstuck
    exact hb.2.delivered hb.1.ordered.safe hm hsnd hrcv

/-! ## The timers -/

/-- The timer of the receiver fires, and then the one of the sender. -/
def retried (s : Session) (t t' : Readings) (x : Transfer) : Transfer :=
  s.sndEvent (s.rcvEvent x (.alarm t) x.data) (.alarm t') (s.rcvEvent x (.alarm t) x.data).acks

/-- A receiver that does not give up sends its last acknowledgement again, but for a client that has heard nothing. -/
theorem Sim.rcvAlarm_waiting {a : St} (h : s.Sim a x) (t : Readings) (hp : x.rcv.status = .waiting)
    (hw : (s.rcvEvent x (.alarm t) x.data).rcv.status = .waiting) :
    ∃ again, (again = [] ∧ s.dir = .get ∨ again = [a.rcvd]) ∧
      s.Sim { a with acks := a.acks ++ again } (s.rcvEvent x (.alarm t) x.data) := by
  obtain ⟨hrun, hI⟩ := h.rcv.running hp
  rcases hI.step_alarm hp t rfl with ⟨hat, -⟩ | ⟨hat, again, hagain, hout⟩
  · cases hat.1.symm.trans hw
  · refine ⟨again, hagain, h.snd, hrun ▸ hat, h.data, ?_⟩
    rw [rcvEvent_acks hp _ rfl, hout, h.acks, List.map_append]

/-- A sender that does not give up sends its last block again, but for a client that has heard nothing. -/
theorem Sim.sndAlarm_waiting {a : St} (h : s.Sim a x) (t : Readings) (hp : x.snd.status = .waiting)
    (hw : (s.sndEvent x (.alarm t) x.acks).snd.status = .waiting) :
    ∃ again, (again = [] ∧ s.dir = .put ∧ a.sent = 0 ∨ 0 < a.sent ∧ again = [a.sent]) ∧
      s.Sim { a with data := a.data ++ again } (s.sndEvent x (.alarm t) x.acks) := by
  obtain ⟨hrun, hI⟩ := h.snd.running hp
  rcases hI.step_alarm hp t rfl with ⟨hat, -⟩ | ⟨hat, again, hagain, hout⟩
  · cases hat.1.symm.trans hw
  · refine ⟨again, hagain, hrun ▸ hat, h.rcv, ?_, h.acks⟩
    rw [sndEvent_data hp _ rfl, hout, h.data, List.map_append]

/-- When both have sent their last packet again, the transfer is carried on. -/
theorem Sim.retried {a : St} (h : s.Sim a x) (hx : s.protocol.Exact) (ho : s.protocol.Ordered a) {t t' : Readings}
    (hsnd : x.snd.status = .waiting) (hrcv : x.rcv.status = .waiting)
    (hsnd' : (s.retried t t' x).snd.status = .waiting) (hrcv' : (s.retried t t' x).rcv.status = .waiting) :
    ∃ b, s.InLive b (s.retried t t' x) := by
  have hs : a.snd = .running := (h.snd.running hsnd).1
  have hr : a.rcv = .running := (h.rcv.running hrcv).1
  obtain ⟨acks, hacks, hsim⟩ := h.rcvAlarm_waiting t hrcv hrcv'
  obtain ⟨data, hdata, hsim'⟩ := hsim.sndAlarm_waiting t' hsnd hsnd'
  have hstep : s.protocol.Step .fifo .timer a { a with acks := a.acks ++ acks } := .rcvTimer hr (hacks.imp_left And.left)
  have hstep' : s.protocol.Step .fifo .timer { a with acks := a.acks ++ acks }
      { a with acks := a.acks ++ acks, data := a.data ++ data } := .sndTimer hs (hdata.imp_left And.left)
  refine ⟨_, ⟨(ho.step hx hstep).step hx hstep', .inl hr, .inr ⟨hs, ?_⟩⟩, hsim'⟩
  rcases hdata with ⟨-, hput, hzero⟩ | ⟨-, hdata⟩
  · -- The client of a `put` has heard nothing; the child answers its request again.
    have hrcvd : a.rcvd = a.sent := by
      have hle := ho.safe.rcvd_le
      change a.sent = 0 at hzero
      omega
    rcases hacks with ⟨-, hget⟩ | rfl
    · cases hput.symm.trans hget
    · exact .inr ⟨hrcvd, List.mem_append_right _ (by rw [hrcvd]; exact List.mem_singleton_self _)⟩
  · exact .inl ⟨hr, List.mem_append_right _ (by rw [hdata]; exact List.mem_singleton_self _)⟩

/-- **A transfer recovers from losses.** Whatever has been lost and however often either end has timed out, if both ends
still wait and both timers fire once more, the transfer completes when nothing is lost from then on. -/
theorem retried_completes (hm : s.mode = .binary) (hlen : s.file.length < 65535 * maxData) (h : s.Started alarms x)
    (hr : Relation.ReflTransGen (s.Any .fifo) x y) {t t' : Readings} (hsnd : y.snd.status = .waiting)
    (hrcv : y.rcv.status = .waiting) (hsnd' : (s.retried t t' y).snd.status = .waiting)
    (hrcv' : (s.retried t t' y).rcv.status = .waiting) : s.Completes (s.retried t t' y) := by
  obtain ⟨a, b, ha, hab, -, hsim⟩ := sim_of_reaches h hr
  have hx := (exact_iff_file hm).2 hlen
  have hord := Protocol.ordered_of_reaches hx (ha.ordered (P := s.protocol)) hab
  obtain ⟨c, hc⟩ := hsim.retried hx hord hsnd hrcv hsnd' hrcv'
  exact hc.completes hm hx

/-- A get of two bytes whose only block was lost. -/
theorem retried_completes_sample :
    let s := sample .get [104, 105]
    s.Completes (s.retried ⟨0, 0⟩ ⟨0, 0⟩ { sampleStart .get [104, 105] with data := [] }) := by
  intro s
  have hr : Relation.ReflTransGen (s.Any .fifo) (sampleStart .get [104, 105])
      { sampleStart .get [104, 105] with data := [] } :=
    .single ⟨_, .loseData (List.nil_sublist _)⟩
  exact retried_completes rfl (by decide +kernel) (sample_started (by decide +kernel)) hr (by decide +kernel)
    (by decide +kernel) (by decide +kernel) (by decide +kernel)

end Session

end CodingExercises.Tftp
