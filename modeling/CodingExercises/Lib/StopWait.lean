import CodingExercises.Lib.Channel
import CodingExercises.Lib.Runs

/-!
# The stop-and-wait protocol

A sender transmits the blocks `1 .. last` one at a time; the receiver acknowledges each, and a block is sent once its
predecessor is acknowledged. Block numbers travel as `wire k`, which may be `k` cut to fewer bits; both ends compare
what they read with counters that are never cut. Either end repeats its last packet when its timer fires.

- Over a network that loses, duplicates, delays and reorders, the receiver is never ahead of the sender nor more
  than one block behind, and an end that finishes does so after the last block (`Safe`, `Safe.step`);
- over channels that lose but do not reorder, no packet is refused as long as every number up to `last` survives
  the wire (`Ordered`, `ordered_of_reaches`);
- without losses and timeouts every run ends; it ends with both ends finished if every number survives the wire and
  with a refusal otherwise (`Lockstep`);
- wherever the last block sent or its acknowledgement is in flight, a run without further losses and timeouts ends with
  both ends finished (`Live`).
-/

namespace CodingExercises.Lib.StopWait

/-- Where one end of the protocol is. An end that `aborted` refused a number, one that `failed` could not keep the
data. -/
inductive Phase
  | running
  | finished
  | gaveUp
  | aborted
  | failed
deriving DecidableEq, Repr

/-- The kinds of steps. -/
inductive Label
  | toRcv
  | toSnd
  | timer
  | lose
deriving DecidableEq, Repr

/-- What is fixed during a run: how numbers travel, the last block, and whether the receiver may fail to keep data. -/
structure Protocol where
  wire : ℕ → ℕ
  wire_spec : ∀ k, wire k = k ∨ wire k + 2 ≤ k
  last : ℕ
  last_pos : 1 ≤ last
  fallible : Prop

/-- The last block sent, the last block received, and the block numbers in flight each way. -/
structure St where
  sent : ℕ
  rcvd : ℕ
  data : List ℕ
  acks : List ℕ
  snd : Phase
  rcv : Phase

namespace Protocol

variable (P : Protocol)

/-- The receiver is done with the last block. -/
def after (k : ℕ) : Phase := if k = P.last then .finished else .running

/-- The receiver reads the number of block `k`. -/
def onData (k : ℕ) (s : St) : St :=
  if P.wire k = s.rcvd + 1 then
    { s with rcvd := s.rcvd + 1, acks := s.acks ++ [s.rcvd + 1], rcv := P.after k }
  else if P.wire k = s.rcvd then { s with acks := s.acks ++ [s.rcvd], rcv := P.after k }
  else { s with rcv := .aborted }

/-- The sender reads the number of acknowledgement `a`. -/
def onAck (a : ℕ) (s : St) : St :=
  if P.wire a = s.sent then
    if s.sent = P.last then { s with snd := .finished }
    else { s with sent := s.sent + 1, data := s.data ++ [s.sent + 1] }
  else if P.wire a + 1 = s.sent then s
  else { s with snd := .aborted }

section Events

variable {P} {k a : ℕ} {s : St}

theorem onData_next (h : P.wire k = s.rcvd + 1) : P.onData k s =
    { s with rcvd := s.rcvd + 1, acks := s.acks ++ [s.rcvd + 1], rcv := P.after k } := if_pos h

theorem onData_again (h : P.wire k = s.rcvd) : P.onData k s =
    { s with acks := s.acks ++ [s.rcvd], rcv := P.after k } :=
  (if_neg (by omega)).trans (if_pos h)

theorem onData_refuse (h : P.wire k ≠ s.rcvd + 1) (h' : P.wire k ≠ s.rcvd) : P.onData k s =
    { s with rcv := .aborted } :=
  (if_neg h).trans (if_neg h')

theorem onAck_last (h : P.wire a = s.sent) (hl : s.sent = P.last) : P.onAck a s = { s with snd := .finished } :=
  (if_pos h).trans (if_pos hl)

theorem onAck_next (h : P.wire a = s.sent) (hl : s.sent ≠ P.last) : P.onAck a s =
    { s with sent := s.sent + 1, data := s.data ++ [s.sent + 1] } :=
  (if_pos h).trans (if_neg hl)

theorem onAck_again (h : P.wire a + 1 = s.sent) : P.onAck a s = s :=
  (if_neg (by omega)).trans (if_pos h)

theorem onAck_refuse (h : P.wire a ≠ s.sent) (h' : P.wire a + 1 ≠ s.sent) : P.onAck a s =
    { s with snd := .aborted } :=
  (if_neg h).trans (if_neg h')

end Events

/-- The steps of the protocol over a network. -/
inductive Step (net : Net) : Label → St → St → Prop
  | data {s : St} {k : ℕ} {q : List ℕ} : s.rcv = .running → net.Deliver s.data k q →
      Step net .toRcv s (P.onData k { s with data := q })
  | spoil {s : St} {k : ℕ} {q : List ℕ} : P.fallible → s.rcv = .running → net.Deliver s.data k q →
      Step net .toRcv s { s with data := q, rcv := .failed }
  | ack {s : St} {a : ℕ} {q : List ℕ} : s.snd = .running → net.Deliver s.acks a q →
      Step net .toSnd s (P.onAck a { s with acks := q })
  | sndTimer {s : St} {again : List ℕ} : s.snd = .running → again = [] ∨ 0 < s.sent ∧ again = [s.sent] →
      Step net .timer s { s with data := s.data ++ again }
  | sndQuit {s : St} : s.snd = .running → Step net .timer s { s with snd := .gaveUp }
  | rcvTimer {s : St} {again : List ℕ} : s.rcv = .running → again = [] ∨ again = [s.rcvd] →
      Step net .timer s { s with acks := s.acks ++ again }
  | rcvQuit {s : St} : s.rcv = .running → Step net .timer s { s with rcv := .gaveUp }
  | loseData {s : St} {q : List ℕ} : Net.Lose s.data q → Step net .lose s { s with data := q }
  | loseAcks {s : St} {q : List ℕ} : Net.Lose s.acks q → Step net .lose s { s with acks := q }

/-- Some step of any kind. -/
def Any (net : Net) (s t : St) : Prop := ∃ l, P.Step net l s t

/-! ## Safety over any network -/

/-- What holds whatever the network does. -/
structure Safe (s : St) : Prop where
  rcvd_le : s.rcvd ≤ s.sent
  sent_le : s.sent ≤ s.rcvd + 1
  sent_last : s.sent ≤ P.last
  data_pos : ∀ k ∈ s.data, 1 ≤ k
  data_le : ∀ k ∈ s.data, k ≤ s.sent
  acks_le : ∀ a ∈ s.acks, a ≤ s.rcvd
  rcv_finished : s.rcv = .finished ↔ s.rcvd = P.last
  snd_finished : s.snd = .finished → s.rcvd = P.last
  rcv_failed : s.rcv = .failed → P.fallible
  snd_failed : s.snd ≠ .failed

variable {P} {net : Net} {s t : St} {l : Label}

/-- A number that equals the counter it is compared with, or is one less, is not cut, as long as the block is no
further than one ahead. -/
theorem wire_exact {k n : ℕ} (hk : k ≤ n + 1) (hw : P.wire k = n ∨ P.wire k = n + 1) : P.wire k = k := by
  rcases P.wire_spec k with h | h <;> omega

theorem Safe.data_subset (h : P.Safe s) {q : List ℕ} (hq : ∀ k ∈ q, k ∈ s.data) : P.Safe { s with data := q } :=
  { h with data_pos := fun k hk => h.data_pos k (hq k hk), data_le := fun k hk => h.data_le k (hq k hk) }

theorem Safe.acks_subset (h : P.Safe s) {q : List ℕ} (hq : ∀ a ∈ q, a ∈ s.acks) : P.Safe { s with acks := q } :=
  { h with acks_le := fun a ha => h.acks_le a (hq a ha) }

/-- A receiver that has not received the last block may stop in any phase but `finished`. -/
theorem Safe.rcv_stop (h : P.Safe s) (hr : s.rcv = .running) {ph : Phase} (hp : ph ≠ .finished)
    (hf : ph = .failed → P.fallible) : P.Safe { s with rcv := ph } :=
  { h with
    rcv_finished := by simp only [← h.rcv_finished, hr, hp, reduceCtorEq]
    rcv_failed := hf }

/-- The receiver is finished once `rcvd` is the last block, whatever block told it so. -/
theorem after_eq_finished {k : ℕ} : P.after k = .finished ↔ k = P.last := by
  unfold after; split <;> simp_all

theorem after_ne_failed {k : ℕ} : P.after k ≠ .failed := by
  unfold after; split <;> simp

/-- Reading a block keeps the invariant. -/
theorem Safe.onData (h : P.Safe s) {k : ℕ} (hk : k ≤ s.sent) (hr : s.rcv = .running) :
    P.Safe (P.onData k s) := by
  have hle := h.sent_le
  unfold Protocol.onData
  split
  · rename_i hw
    have he := wire_exact (P := P) (k := k) (n := s.rcvd) (by omega) (.inr hw)
    refine ⟨?_, ?_, h.sent_last, h.data_pos, h.data_le, ?_, ?_, ?_, fun hf => absurd hf after_ne_failed,
      h.snd_failed⟩
    · show s.rcvd + 1 ≤ s.sent; omega
    · show s.sent ≤ s.rcvd + 1 + 1; omega
    · intro a ha
      rcases List.mem_append.1 ha with ha | ha
      · have := h.acks_le a ha; show a ≤ s.rcvd + 1; omega
      · rw [List.mem_singleton.1 ha]
    · show P.after k = .finished ↔ s.rcvd + 1 = P.last
      rw [after_eq_finished]; omega
    · intro hs
      have h2 := h.snd_finished hs
      have h3 := h.rcv_finished.2 h2
      rw [hr] at h3; cases h3
  · split
    · rename_i hw
      have he := wire_exact (P := P) (k := k) (n := s.rcvd) (by omega) (.inl hw)
      refine { h with acks_le := ?_, rcv_finished := ?_, rcv_failed := fun hf => absurd hf after_ne_failed }
      · intro a ha
        rcases List.mem_append.1 ha with ha | ha
        · exact h.acks_le a ha
        · rw [List.mem_singleton.1 ha]
      · show P.after k = .finished ↔ s.rcvd = P.last
        rw [after_eq_finished]; omega
    · exact h.rcv_stop hr (by simp) (by simp)

/-- Reading an acknowledgement keeps the invariant. -/
theorem Safe.onAck (h : P.Safe s) {a : ℕ} (ha : a ≤ s.rcvd) : P.Safe (P.onAck a s) := by
  have hle := h.rcvd_le
  unfold Protocol.onAck
  split
  · rename_i hw
    have he := wire_exact (P := P) (k := a) (n := s.sent) (by omega) (.inl hw)
    split
    · rename_i hlast
      exact { h with snd_finished := fun _ => by show s.rcvd = P.last; omega, snd_failed := by simp }
    · rename_i hlast
      have := h.sent_last
      refine { h with rcvd_le := ?_, sent_le := ?_, sent_last := ?_, data_pos := ?_, data_le := ?_ }
      · show s.rcvd ≤ s.sent + 1; omega
      · show s.sent + 1 ≤ s.rcvd + 1; omega
      · show s.sent + 1 ≤ P.last; omega
      · intro k hk
        rcases List.mem_append.1 hk with hk | hk
        · exact h.data_pos k hk
        · rw [List.mem_singleton.1 hk]; omega
      · intro k hk
        show k ≤ s.sent + 1
        rcases List.mem_append.1 hk with hk | hk
        · have := h.data_le k hk; omega
        · rw [List.mem_singleton.1 hk]
  · split
    · exact h
    · exact { h with snd_finished := by simp, snd_failed := by simp }

/-- Every step keeps the invariant. -/
theorem Safe.step (h : P.Safe s) (hst : P.Step net l s t) : P.Safe t := by
  cases hst with
  | data hr hd =>
    exact (h.data_subset fun _ => hd.subset).onData (h.data_le _ hd.mem) hr
  | spoil hf hr hd => exact (h.data_subset fun _ => hd.subset).rcv_stop hr (by simp) fun _ => hf
  | ack hs hd => exact (h.acks_subset fun _ => hd.subset).onAck (h.acks_le _ hd.mem)
  | sndTimer hs ha =>
    refine { h with data_pos := ?_, data_le := ?_ } <;> intro k hk <;>
      rcases List.mem_append.1 hk with hk | hk
    · exact h.data_pos k hk
    · rcases ha with rfl | ⟨hp, rfl⟩
      · cases hk
      · rw [List.mem_singleton.1 hk]; exact hp
    · exact h.data_le k hk
    · rcases ha with rfl | ⟨hp, rfl⟩
      · cases hk
      · rw [List.mem_singleton.1 hk]
  | sndQuit hs => exact { h with snd_finished := by simp, snd_failed := by simp }
  | rcvTimer hr ha =>
    refine { h with acks_le := ?_ }
    intro a hm
    rcases List.mem_append.1 hm with hm | hm
    · exact h.acks_le a hm
    · rcases ha with rfl | rfl
      · cases hm
      · rw [List.mem_singleton.1 hm]
  | rcvQuit hr => exact h.rcv_stop hr (by simp) (by simp)
  | loseData hl => exact h.data_subset fun _ hk => hl.subset hk
  | loseAcks hl => exact h.acks_subset fun _ ha => hl.subset ha

/-- How a run starts: the first block or the acknowledgement that asks for it is in flight. The end that has asked for
the transfer may have given up. -/
inductive Start : St → Prop
  | data {ph : Phase} : ph = .running ∨ ph = .gaveUp → Start ⟨1, 0, [1], [], .running, ph⟩
  | ack {ph : Phase} : ph = .running ∨ ph = .gaveUp → Start ⟨0, 0, [], [0], ph, .running⟩

theorem Start.safe (h : Start s) : P.Safe s := by
  have hp := P.last_pos
  cases h with
  | data hph =>
    refine ⟨Nat.zero_le 1, Nat.le_refl 1, hp, by simp, by simp, by simp, ?_, by simp, ?_, by simp⟩
    · show _ ↔ 0 = P.last
      rcases hph with rfl | rfl <;> simp <;> omega
    · rcases hph with rfl | rfl <;> simp
  | ack hph =>
    refine ⟨Nat.zero_le 0, Nat.zero_le 1, Nat.zero_le _, by simp, by simp, by simp, ?_, ?_, by simp,
      by rcases hph with rfl | rfl <;> simp⟩
    · show _ ↔ 0 = P.last
      simp; omega
    · rcases hph with rfl | rfl <;> simp

/-! ## Channels that keep the order -/

variable (P)

/-- Every block number survives the wire. -/
def Exact : Prop := ∀ k, k ≤ P.last → P.wire k = k

/-- What holds when the channels keep the order: what is in flight is sorted and no older than the counters allow,
and nothing has been refused. -/
structure Ordered (s : St) : Prop where
  safe : P.Safe s
  data_sorted : s.data.Pairwise (· ≤ ·)
  data_ge : ∀ k ∈ s.data, s.rcvd ≤ k
  acks_sorted : s.acks.Pairwise (· ≤ ·)
  acks_ge : ∀ a ∈ s.acks, s.sent ≤ a + 1
  snd_ok : s.snd ≠ .aborted
  rcv_ok : s.rcv ≠ .aborted

variable {P}

/-- Sorted packets stay sorted when one no older than all of them is sent. -/
theorem sorted_concat {q : List ℕ} {k : ℕ} (hq : q.Pairwise (· ≤ ·)) (hk : ∀ j ∈ q, j ≤ k) :
    (q ++ [k]).Pairwise (· ≤ ·) := by
  refine List.pairwise_append.2 ⟨hq, List.pairwise_singleton _ _, fun j hj b hb => ?_⟩
  rw [List.mem_singleton.1 hb]; exact hk j hj

theorem Ordered.onData (h : P.Ordered s) (hx : P.Exact) {k : ℕ} (h1 : s.rcvd ≤ k) (hk : k ≤ s.sent)
    (hq : ∀ j ∈ s.data, k ≤ j) (hr : s.rcv = .running) : P.Ordered (P.onData k s) := by
  have hle := h.safe.sent_le
  have hw : P.wire k = k := hx k (by have := h.safe.sent_last; omega)
  have hsafe := h.safe.onData (k := k) (by omega) hr
  have hne : P.after k ≠ .aborted := by unfold after; split <;> simp
  unfold Protocol.onData at hsafe ⊢
  split at hsafe
  · rename_i hn
    rw [if_pos hn]
    refine ⟨hsafe, h.data_sorted, ?_, sorted_concat h.acks_sorted ?_, ?_, h.snd_ok, hne⟩
    · intro j hj; have := hq j hj; show s.rcvd + 1 ≤ j; omega
    · intro a ha; have := h.safe.acks_le a ha; omega
    · intro a ha
      rcases List.mem_append.1 ha with ha | ha
      · exact h.acks_ge a ha
      · rw [List.mem_singleton.1 ha]; show s.sent ≤ s.rcvd + 1 + 1; omega
  · rename_i hn
    rw [if_neg hn]
    have he : P.wire k = s.rcvd := by omega
    rw [if_pos he] at hsafe ⊢
    refine ⟨hsafe, h.data_sorted, h.data_ge, sorted_concat h.acks_sorted h.safe.acks_le, ?_, h.snd_ok, hne⟩
    intro a ha
    rcases List.mem_append.1 ha with ha | ha
    · exact h.acks_ge a ha
    · rw [List.mem_singleton.1 ha]; exact hle

theorem Ordered.onAck (h : P.Ordered s) (hx : P.Exact) {a : ℕ} (h1 : s.sent ≤ a + 1) (ha : a ≤ s.rcvd)
    (hq : ∀ j ∈ s.acks, a ≤ j) : P.Ordered (P.onAck a s) := by
  have hle := h.safe.rcvd_le
  have hw : P.wire a = a := hx a (by have := h.safe.sent_last; omega)
  have hsafe := h.safe.onAck ha
  unfold Protocol.onAck at hsafe ⊢
  split at hsafe
  · rename_i hn
    rw [if_pos hn]
    split at hsafe
    · rename_i hl
      rw [if_pos hl]
      exact { h with safe := hsafe, snd_ok := by simp }
    · rename_i hl
      rw [if_neg hl]
      refine ⟨hsafe, sorted_concat h.data_sorted ?_, ?_, h.acks_sorted, ?_, h.snd_ok, h.rcv_ok⟩
      · intro k hk; have := h.safe.data_le k hk; omega
      · intro k hk
        rcases List.mem_append.1 hk with hk | hk
        · exact h.data_ge k hk
        · rw [List.mem_singleton.1 hk]; show s.rcvd ≤ s.sent + 1; omega
      · intro j hj; have := hq j hj; show s.sent + 1 ≤ j + 1; omega
  · rename_i hn
    rw [if_neg hn, if_pos (by omega)]
    exact h

theorem Ordered.data_subset (h : P.Ordered s) {q : List ℕ} (hq : List.Sublist q s.data) :
    P.Ordered { s with data := q } :=
  { h with
    safe := h.safe.data_subset fun _ hk => hq.subset hk
    data_sorted := h.data_sorted.sublist hq
    data_ge := fun k hk => h.data_ge k (hq.subset hk) }

theorem Ordered.acks_subset (h : P.Ordered s) {q : List ℕ} (hq : List.Sublist q s.acks) :
    P.Ordered { s with acks := q } :=
  { h with
    safe := h.safe.acks_subset fun _ ha => hq.subset ha
    acks_sorted := h.acks_sorted.sublist hq
    acks_ge := fun a ha => h.acks_ge a (hq.subset ha) }

theorem Start.ordered (h : Start s) : P.Ordered s := by
  have hsafe : P.Safe s := h.safe
  cases h with
  | data hph => exact ⟨hsafe, by simp, by simp, by simp, by simp, by simp, by rcases hph with rfl | rfl <;> simp⟩
  | ack hph => exact ⟨hsafe, by simp, by simp, by simp, by simp, by rcases hph with rfl | rfl <;> simp, by simp⟩

/-- Every step over channels that keep the order keeps the invariant. -/
theorem Ordered.step (h : P.Ordered s) (hx : P.Exact) (hst : P.Step .fifo l s t) : P.Ordered t := by
  have hsafe := h.safe.step hst
  cases hst with
  | @data _ k q hr hd =>
    have hd : s.data = k :: q := hd
    have hs := h.data_sorted
    rw [hd] at hs
    exact (h.data_subset (q := q) (hd ▸ List.sublist_cons_self k q)).onData hx
      (h.data_ge k (by simp [hd])) (h.safe.data_le k (by simp [hd])) (List.pairwise_cons.1 hs).1 hr
  | @spoil _ k q hf hr hd =>
    have hd : s.data = k :: q := hd
    have := h.data_subset (q := q) (hd ▸ List.sublist_cons_self k q)
    exact { this with safe := hsafe, rcv_ok := by simp }
  | @ack _ a q hs hd =>
    have hd : s.acks = a :: q := hd
    have hp := h.acks_sorted
    rw [hd] at hp
    exact (h.acks_subset (q := q) (hd ▸ List.sublist_cons_self a q)).onAck hx
      (h.acks_ge a (by simp [hd])) (h.safe.acks_le a (by simp [hd])) (List.pairwise_cons.1 hp).1
  | sndTimer hs ha =>
    rcases ha with rfl | ⟨hp, rfl⟩
    · simpa using h
    · refine { h with safe := hsafe, data_sorted := sorted_concat h.data_sorted h.safe.data_le, data_ge := ?_ }
      intro k hk
      rcases List.mem_append.1 hk with hk | hk
      · exact h.data_ge k hk
      · rw [List.mem_singleton.1 hk]; exact h.safe.rcvd_le
  | sndQuit hs => exact { h with safe := hsafe, snd_ok := by simp }
  | rcvTimer hr ha =>
    rcases ha with rfl | rfl
    · simpa using h
    · refine { h with safe := hsafe, acks_sorted := sorted_concat h.acks_sorted h.safe.acks_le, acks_ge := ?_ }
      intro a ha
      rcases List.mem_append.1 ha with ha | ha
      · exact h.acks_ge a ha
      · rw [List.mem_singleton.1 ha]; exact h.safe.sent_le
  | rcvQuit hr => exact { h with safe := hsafe, rcv_ok := by simp }
  | loseData hl => exact h.data_subset hl
  | loseAcks hl => exact h.acks_subset hl

/-- Every state a run over channels that keep the order reaches is ordered. -/
theorem ordered_of_reaches (hx : P.Exact) (h : P.Ordered s) (hr : Relation.ReflTransGen (P.Any .fifo) s t) :
    P.Ordered t :=
  invariant_of_reaches (fun _ _ hs ⟨_, hst⟩ => hs.step hx hst) hr h

/-! ## The lockstep run -/

variable (P)

/-- A step of a run in which no packet is lost and no timer fires. -/
def Delivery (s t : St) : Prop := P.Step .fifo .toRcv s t ∨ P.Step .fifo .toSnd s t

/-- The states of such a run: one packet is in flight until both ends are finished or the receiver has refused the
first number that did not survive the wire. -/
inductive Lockstep : St → Prop
  | data {k : ℕ} : (∀ j, j ≤ k → P.wire j = j) → k < P.last → Lockstep ⟨k + 1, k, [k + 1], [], .running, .running⟩
  | ack {k : ℕ} : (∀ j, j ≤ k → P.wire j = j) → k ≤ P.last → Lockstep ⟨k, k, [], [k], .running, P.after k⟩
  | done : P.Exact → Lockstep ⟨P.last, P.last, [], [], .finished, .finished⟩
  | refused {k : ℕ} : P.wire (k + 1) ≠ k + 1 → k < P.last → Lockstep ⟨k + 1, k, [], [], .running, .aborted⟩

/-- What is left of the lockstep run. -/
def left (s : St) : ℕ := 3 * (P.last - s.rcvd) + 2 * s.acks.length + s.data.length

variable {P}

theorem Lockstep.of_data {k : ℕ} (hw : ∀ j, j ≤ k → P.wire j = j) (hk : k < P.last) :
    P.Lockstep (P.onData (k + 1) ⟨k + 1, k, [], [], .running, .running⟩) := by
  rcases P.wire_spec (k + 1) with he | he
  · have hw' : ∀ j, j ≤ k + 1 → P.wire j = j := by
      intro j hj
      rcases Nat.lt_or_eq_of_le hj with hj | rfl
      · exact hw j (by omega)
      · exact he
    simpa [Protocol.onData, he] using Lockstep.ack (P := P) hw' hk
  · have h1 : P.wire (k + 1) ≠ k + 1 := by omega
    have h2 : P.wire (k + 1) ≠ k := by omega
    simpa [Protocol.onData, h1, h2] using Lockstep.refused h1 hk

theorem Lockstep.of_ack {k : ℕ} (hw : ∀ j, j ≤ k → P.wire j = j) (hk : k ≤ P.last) :
    P.Lockstep (P.onAck k ⟨k, k, [], [], .running, P.after k⟩) := by
  have he := hw k (Nat.le_refl k)
  by_cases hl : k = P.last
  · subst hl
    simpa [Protocol.onAck, he, after] using Lockstep.done (P := P) hw
  · have hlt : k < P.last := by omega
    simpa [Protocol.onAck, he, after, hl] using Lockstep.data hw hlt

/-- A delivery hands the oldest packet of a channel to the end it is for. -/
theorem delivery_cases (hf : ¬ P.fallible) (h : P.Delivery s t) :
    (∃ k q, s.data = k :: q ∧ t = P.onData k { s with data := q }) ∨
      (∃ a q, s.acks = a :: q ∧ t = P.onAck a { s with acks := q }) := by
  rcases h with h | h
  · cases h with
    | data _ hd => exact .inl ⟨_, _, hd, rfl⟩
    | spoil hp => exact absurd hp hf
  · cases h with
    | ack _ hd => exact .inr ⟨_, _, hd, rfl⟩

theorem left_onData_lt {k : ℕ} (hk : k < P.last) :
    P.left (P.onData (k + 1) ⟨k + 1, k, [], [], .running, .running⟩) < 3 * (P.last - k) + 1 := by
  have hne : P.wire (k + 1) ≠ k := by rcases P.wire_spec (k + 1) with h | h <;> omega
  unfold Protocol.onData left
  simp only [hne, if_false]
  split
  · simp; omega
  · simp

theorem left_onAck_lt {k : ℕ} {ph : Phase} (hw : P.wire k = k) :
    P.left (P.onAck k ⟨k, k, [], [], .running, ph⟩) < 3 * (P.last - k) + 2 := by
  unfold Protocol.onAck left
  simp only [hw, if_true]
  split <;> simp

/-- A lockstep run stays in lockstep, and comes nearer to its end with every step. -/
theorem Lockstep.step (hf : ¬ P.fallible) (h : P.Lockstep s) (hst : P.Delivery s t) :
    P.Lockstep t ∧ P.left t < P.left s := by
  rcases delivery_cases hf hst with ⟨k, q, hd, rfl⟩ | ⟨a, q, hd, rfl⟩
  · cases h with
    | data hw hk =>
      simp only [List.cons.injEq] at hd
      obtain ⟨rfl, rfl⟩ := hd
      exact ⟨Lockstep.of_data hw hk, left_onData_lt hk⟩
    | ack => cases hd
    | done => cases hd
    | refused => cases hd
  · cases h with
    | data => cases hd
    | ack hw hk =>
      simp only [List.cons.injEq] at hd
      obtain ⟨rfl, rfl⟩ := hd
      exact ⟨Lockstep.of_ack hw hk, left_onAck_lt (hw _ (Nat.le_refl _))⟩
    | done => cases hd
    | refused => cases hd

/-- A run in which no packet is lost and no timer fires ends. -/
theorem Lockstep.terminates (hf : ¬ P.fallible) (h : P.Lockstep s) : Terminates P.Delivery s :=
  terminates_of_measure P.left (fun _ _ hs hst => Lockstep.step hf hs hst) h

theorem Start.lockstep (h : Start s) (hs : s.snd = .running) (hr : s.rcv = .running) : P.Lockstep s := by
  have hp := P.last_pos
  have h0 : ∀ j, j ≤ 0 → P.wire j = j := by
    intro j hj
    rcases P.wire_spec j with h | h <;> omega
  cases h with
  | data hph =>
    obtain rfl : _ = Phase.running := hr
    exact .data h0 hp
  | ack hph =>
    obtain rfl : _ = Phase.running := hs
    have hafter : P.after 0 = .running := if_neg (by omega)
    have hack := Lockstep.ack (P := P) h0 (Nat.zero_le _)
    rwa [hafter] at hack

/-! ## Recovery -/

variable (P)

/-- What carries the transfer on: the last block sent is on its way, or its acknowledgement. -/
structure Live (s : St) : Prop where
  ordered : P.Ordered s
  rcv_live : s.rcv = .running ∨ s.rcv = .finished
  carried : s.snd = .finished ∨
    s.snd = .running ∧ (s.rcv = .running ∧ s.sent ∈ s.data ∨ s.rcvd = s.sent ∧ s.sent ∈ s.acks)

/-- What is left of a run without losses and timeouts, whatever is in flight. -/
def ahead (s : St) : ℕ := 2 * (P.last - s.sent) + 2 * s.data.length + s.acks.length

variable {P}

theorem after_cases (k : ℕ) : P.after k = .running ∨ P.after k = .finished := by
  unfold after
  split
  · exact .inr rfl
  · exact .inl rfl

theorem ahead_onData (k : ℕ) (s : St) : P.ahead (P.onData k s) ≤ P.ahead s + 1 := by
  unfold Protocol.onData ahead
  split
  · simp; omega
  · split <;> simp; omega

theorem ahead_onAck (a : ℕ) (h : s.sent ≤ P.last) : P.ahead (P.onAck a s) ≤ P.ahead s := by
  unfold Protocol.onAck ahead
  split
  · split
    · simp
    · simp only [List.length_append, List.length_singleton]; omega
  · split <;> simp

theorem Live.onData (h : P.Live s) (hx : P.Exact) {k : ℕ} {q : List ℕ} (hd : s.data = k :: q)
    (hord : P.Ordered (P.onData k { s with data := q })) : P.Live (P.onData k { s with data := q }) := by
  have hk : k ∈ s.data := by simp [hd]
  have h1 := h.ordered.data_ge k hk
  have h2 := h.ordered.safe.data_le k hk
  have h3 := h.ordered.safe.sent_le
  have h4 := h.ordered.safe.sent_last
  have hw : P.wire k = k := hx k (by omega)
  rcases Nat.lt_or_eq_of_le h1 with hlt | heq
  · -- The awaited block is the last one sent.
    have hnext : P.wire k = s.rcvd + 1 := by omega
    have hsent : s.rcvd + 1 = s.sent := by omega
    rw [onData_next (s := { s with data := q }) hnext] at hord ⊢
    refine ⟨hord, after_cases k, ?_⟩
    rcases h.carried with hs | ⟨hs, -⟩
    · exact .inl hs
    · exact .inr ⟨hs, .inr ⟨hsent, by simp [hsent]⟩⟩
  · have hagain : P.wire k = s.rcvd := by omega
    rw [onData_again (s := { s with data := q }) hagain] at hord ⊢
    refine ⟨hord, after_cases k, ?_⟩
    rcases h.carried with hs | ⟨hs, hc⟩
    · exact .inl hs
    · refine .inr ⟨hs, ?_⟩
      rcases hc with ⟨-, hmem⟩ | ⟨hsame, -⟩
      · by_cases hsame : s.rcvd = s.sent
        · exact .inr ⟨hsame, by simp [hsame]⟩
        · -- The last block sent is behind this one.
          rw [hd] at hmem
          have hafter : P.after k = .running := if_neg (by omega)
          exact .inl ⟨hafter, (List.mem_cons.1 hmem).resolve_left (by omega)⟩
      · exact .inr ⟨hsame, by simp [hsame]⟩

theorem Live.onAck (h : P.Live s) (hx : P.Exact) (hs : s.snd = .running) {a : ℕ} {q : List ℕ} (hd : s.acks = a :: q)
    (hord : P.Ordered (P.onAck a { s with acks := q })) : P.Live (P.onAck a { s with acks := q }) := by
  have ha : a ∈ s.acks := by simp [hd]
  have h1 := h.ordered.acks_ge a ha
  have h2 := h.ordered.safe.acks_le a ha
  have h3 := h.ordered.safe.rcvd_le
  have h4 := h.ordered.safe.sent_last
  have hw : P.wire a = a := hx a (by omega)
  by_cases hsame : a = s.sent
  · have hack : P.wire a = s.sent := hw.trans hsame
    by_cases hlast : s.sent = P.last
    · rw [onAck_last (s := { s with acks := q }) hack hlast] at hord ⊢
      exact ⟨hord, h.rcv_live, .inl rfl⟩
    · rw [onAck_next (s := { s with acks := q }) hack hlast] at hord ⊢
      have hrun : s.rcv = .running := by
        rcases h.rcv_live with hr | hr
        · exact hr
        · exact absurd (h.ordered.safe.rcv_finished.1 hr) (by omega)
      exact ⟨hord, h.rcv_live, .inr ⟨hs, .inl ⟨hrun, by simp⟩⟩⟩
  · have hagain : P.wire a + 1 = s.sent := by omega
    rw [onAck_again (s := { s with acks := q }) hagain] at hord ⊢
    refine ⟨hord, h.rcv_live, ?_⟩
    rcases h.carried with hc | ⟨-, hc | ⟨hr, hmem⟩⟩
    · exact .inl hc
    · exact .inr ⟨hs, .inl hc⟩
    · rw [hd] at hmem
      exact .inr ⟨hs, .inr ⟨hr, (List.mem_cons.1 hmem).resolve_left (Ne.symm hsame)⟩⟩

/-- A run without losses and timeouts stays live, and comes nearer to its end with every step. -/
theorem Live.step (hf : ¬ P.fallible) (hx : P.Exact) (h : P.Live s) (hst : P.Delivery s t) :
    P.Live t ∧ P.ahead t < P.ahead s := by
  rcases hst with hst | hst
  · have hord := h.ordered.step hx hst
    cases hst with
    | @data _ k q hr hd =>
      have hd : s.data = k :: q := hd
      have hle := ahead_onData (P := P) k { s with data := q }
      refine ⟨h.onData hx hd hord, ?_⟩
      simp only [ahead, hd, List.length_cons] at hle ⊢
      omega
    | spoil hp => exact absurd hp hf
  · have hord := h.ordered.step hx hst
    cases hst with
    | @ack _ a q hs hd =>
      have hd : s.acks = a :: q := hd
      have hle := ahead_onAck (P := P) (s := { s with acks := q }) a h.ordered.safe.sent_last
      refine ⟨h.onAck hx hs hd hord, ?_⟩
      simp only [ahead, hd, List.length_cons] at hle ⊢
      omega

theorem Live.terminates (hf : ¬ P.fallible) (hx : P.Exact) (h : P.Live s) : Terminates P.Delivery s :=
  terminates_of_measure P.ahead (fun _ _ hs hst => hs.step hf hx hst) h

/-- While the transfer is carried on, a packet is in flight to an end that is running. -/
theorem Live.cases (h : P.Live s) : s.snd = .finished ∧ s.rcv = .finished ∨
    (s.rcv = .running ∧ s.data ≠ []) ∨ s.snd = .running ∧ s.acks ≠ [] := by
  rcases h.carried with hs | ⟨hs, ⟨hr, hmem⟩ | ⟨-, hmem⟩⟩
  · exact .inl ⟨hs, h.ordered.safe.rcv_finished.2 (h.ordered.safe.snd_finished hs)⟩
  · exact .inr (.inl ⟨hr, List.ne_nil_of_mem hmem⟩)
  · exact .inr (.inr ⟨hs, List.ne_nil_of_mem hmem⟩)

end Protocol

end CodingExercises.Lib.StopWait
