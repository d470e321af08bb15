import Mathlib.Data.List.TakeWhile
import Mathlib.Tactic.Ring
import CodingExercises.Tftp.Transfer

/-!
# TFTP: timeouts in one call of the loop

`fsm_loop` calls `rtt_newpack` once, before its first wait, so `rtt_nrexmt` counts the timeouts of the whole call, and
`rtt_start` multiplies the timeout at every pass after the first of them.

- A call gives up at its fifth timeout, whatever it received in between (`run_alarms_status`), so the five come in a row
  exactly when nothing was received after a timeout (`gives_up_in_a_row_iff`);
- the value for `alarm()` is the timeout in force at the first timeout, times a power of two that grows with every later
  pass, in 16 bits (`run_currto`); it is positive as long as that product is, modulo `2 ^ 16` (`alarm_pos_iff`).
-/

namespace CodingExercises.Tftp

open Lib Session

/-! ## Histories -/

/-- The event is a timeout. -/
def Event.isAlarm : Event → Bool
  | .alarm _ => true
  | .datagram .. => false

/-- The number of timeouts of a history. -/
def timeouts (es : List Event) : Nat := es.countP Event.isAlarm

/-- The number of timeouts at its end, with nothing received between them. -/
def inARow (es : List Event) : Nat := (es.reverse.takeWhile Event.isAlarm).length

theorem inARow_alarms (es : List Event) (ts : List Readings) :
    inARow (es ++ ts.map Event.alarm) = inARow es + ts.length := by
  induction ts using List.reverseRecOn with
  | nil => simp
  | append_singleton ts t ih =>
    rw [List.map_append, ← List.append_assoc]
    simp only [inARow, List.map_singleton, List.reverse_append, List.reverse_singleton, List.singleton_append,
      List.takeWhile_cons, Event.isAlarm, if_true, List.length_cons, List.length_append] at ih ⊢
    simp only [List.length_nil]
    omega

theorem inARow_le (es : List Event) : inARow es ≤ timeouts es := by
  have h : ∀ e ∈ es.reverse.takeWhile Event.isAlarm, e.isAlarm = true := fun e he => List.mem_takeWhile_imp he
  rw [inARow, timeouts, ← List.countP_eq_length.2 h, ← List.countP_reverse (l := es)]
  exact (List.takeWhile_sublist _).countP_le

/-! ## The timer through a pass -/

/-- The round-trip timing after a pass. -/
def timerAfter (ptr : RttStruct) : Event → RttStruct
  | .datagram _ _ t => (rttStart t.start (rttStop t.stop ptr)).2
  | .alarm t => (rttStart t.start (rttTimeout t.stop ptr).2).2

section Pass

variable {side : Side} {fs : FileSys} {p : Proc} {e : Event}

/-- A process that waits after a pass has waited before it. -/
theorem waiting_of_step (h : (step side fs p e).status = .waiting) : p.status = .waiting := by
  by_contra hp
  rw [step_stopped hp] at h
  exact hp h

/-- What a pass does to the timer of a process that goes on waiting. -/
theorem step_timer (h : (step side fs p e).status = .waiting) :
    (step side fs p e).g.rttinfo = timerAfter p.g.rttinfo e ∧
      (step side fs p e).g.alarm = (step side fs p e).g.rttinfo.currto := by
  have hp := waiting_of_step h
  cases e with
  | datagram fromAddr buff t =>
    rw [step_datagram hp] at h ⊢
    cases hn : netRecv side fromAddr buff { p.g with outbox := [] } with
    | error e => rw [hn] at h; cases h
    | ok r =>
      obtain ⟨nbytes, g⟩ := r
      rw [hn] at h
      obtain ⟨-, -, rfl⟩ := netRecv_ok hn
      obtain ⟨g', hk, hr⟩ := received_waiting h
      simp only [proceed, hr, arm, hk.rttinfo]
      exact ⟨rfl, rttStart_fst _ _⟩
  | alarm t =>
    rw [step_alarm hp] at h ⊢
    unfold timedOut at h ⊢
    dsimp only at h ⊢
    split at h
    · cases h
    · rename_i hr
      rw [if_neg hr]
      exact ⟨rfl, rttStart_fst _ _⟩

end Pass

/-! ## Counting timeouts -/

/-- A call of `fsm_loop` at its first wait. A server child's first event is the request. -/
def called (opcode : Nat) (now : Int) (g : Globals) : Proc := ⟨.waiting, fsmLoop opcode now g⟩

/-- A process that waits after `n` timeouts. -/
structure Counted (n : Nat) (p : Proc) : Prop where
  waits : p.status = .waiting
  nrexmt : p.g.rttinfo.nrexmt = n
  le : n ≤ 4

theorem called_counted (opcode : Nat) (now : Int) (g : Globals) : Counted 0 (called opcode now g) := by
  refine ⟨rfl, ?_, by decide⟩
  simp [called, fsmLoop, arm, rttNewpack]

section Runs

variable {side : Side} {fs : FileSys} {p : Proc} {e : Event} {es : List Event} {n : Nat}

/-- A timeout is counted; the fifth one ends the loop. -/
theorem Counted.step_alarm (h : Counted n p) (side : Side) (fs : FileSys) (t : Readings) :
    (step side fs p (.alarm t)).status = if n = 4 then .returned (-1) else .waiting := by
  have hr := rttTimeout_fst t.stop p.g.rttinfo h.nrexmt h.le
  rw [Tftp.step_alarm h.waits]
  unfold timedOut
  dsimp only
  rw [hr]
  by_cases hn : n = 4 <;> simp [hn]

/-- A process that goes on waiting has counted its timeouts. -/
theorem Counted.step (h : Counted n p) (hw : (step side fs p e).status = .waiting) :
    Counted (n + if e.isAlarm then 1 else 0) (step side fs p e) := by
  have ht := (step_timer hw).1
  cases e with
  | datagram fromAddr buff t =>
    refine ⟨hw, ?_, h.le⟩
    rw [ht]
    simp [timerAfter, h.nrexmt, Event.isAlarm]
  | alarm t =>
    have hn : n ≠ 4 := by
      intro hn
      rw [h.step_alarm side fs, if_pos hn] at hw
      cases hw
    have hle := h.le
    refine ⟨hw, ?_, by simp only [Event.isAlarm, if_true]; omega⟩
    rw [ht]
    simp only [timerAfter, rttStart_nrexmt, rttTimeout_nrexmt t.stop p.g.rttinfo h.nrexmt h.le]
    simp [Event.isAlarm]

theorem Counted.run (h : Counted n p) (hw : ((process side fs).run p es).status = .waiting) :
    Counted (n + timeouts es) ((process side fs).run p es) := by
  induction es using List.reverseRecOn with
  | nil => exact h
  | append_singleton es e ih =>
    rw [Machine.run_concat] at hw ⊢
    have hs := (ih (waiting_of_step hw)).step hw
    have hc : timeouts (es ++ [e]) = timeouts es + if e.isAlarm then 1 else 0 := by
      simp [timeouts, List.countP_append, List.countP_singleton]
    rw [hc, ← Nat.add_assoc]
    exact hs

/-- A process that does not wait does not change any more. -/
theorem run_stopped (h : p.status ≠ .waiting) (es : List Event) : (process side fs).run p es = p := by
  induction es with
  | nil => rfl
  | cons e es ih => rw [Machine.run, show (process side fs).step p e = p from step_stopped h e, ih]

/-- **The fifth timeout of a call ends it.** -/
theorem run_alarms_status (h : Counted n p) (ts : List Readings) :
    ((process side fs).run p (ts.map Event.alarm)).status = if n + ts.length ≤ 4 then .waiting else .returned (-1) := by
  induction ts generalizing n p with
  | nil => rw [if_pos (by simpa using h.le)]; exact h.waits
  | cons t ts ih =>
    have hs := h.step_alarm side fs t
    rw [List.map_cons, Machine.run]
    by_cases hn : n = 4
    · rw [if_pos hn] at hs
      rw [show (process side fs).step p (.alarm t) = step side fs p (.alarm t) from rfl,
        run_stopped (by rw [hs]; simp), hs, if_neg (by simp; omega)]
    · rw [if_neg hn] at hs
      have hc : Counted (n + 1) (step side fs p (.alarm t)) := h.step hs
      rw [show (process side fs).step p (.alarm t) = step side fs p (.alarm t) from rfl, ih hc]
      simp only [List.length_cons]
      congr 1
      simp only [eq_iff_iff]
      omega

/-- **When the timeouts are per packet.** A call that waits after some history gives up only after five timeouts in a
row, whatever timeouts follow, exactly when all timeouts of the history lie at its end: when no packet was received
after a timeout. -/
theorem gives_up_in_a_row_iff {opcode : Nat} {now : Int} {g : Globals}
    (hw : ((process side fs).run (called opcode now g) es).status = .waiting) :
    (∀ ts : List Readings,
      ((process side fs).run (called opcode now g) (es ++ ts.map Event.alarm)).status = .returned (-1) →
        rttMaxnrexmt + 1 ≤ inARow (es ++ ts.map Event.alarm)) ↔ inARow es = timeouts es := by
  have hc := (called_counted opcode now g).run hw
  rw [Nat.zero_add] at hc
  have hle := hc.le
  have hrow := inARow_le es
  have hmax : rttMaxnrexmt = 4 := rfl
  constructor
  · intro h
    have hgives := h (List.replicate (5 - timeouts es) ⟨0, 0⟩) (by
      rw [Machine.run_append, run_alarms_status hc, List.length_replicate, if_neg (by omega)])
    rw [inARow_alarms, List.length_replicate, hmax] at hgives
    omega
  · intro h ts hg
    rw [Machine.run_append, run_alarms_status hc] at hg
    rw [inARow_alarms, hmax]
    by_cases hlt : timeouts es + ts.length ≤ 4
    · rw [if_pos hlt] at hg; cases hg
    · omega

/-! ## The value for `alarm()` -/

/-- The sum, over the passes after the first timeout, of the number of timeouts so far, which is `n` before the first of
these events. -/
def exponent (n : Nat) : List Event → Nat
  | [] => 0
  | e :: es => (n + if e.isAlarm then 1 else 0) + exponent (n + if e.isAlarm then 1 else 0) es

/-- The events before the first timeout. -/
def quiet (es : List Event) : List Event := es.takeWhile fun e => !e.isAlarm

theorem waiting_of_run (hw : ((process side fs).run p es).status = .waiting) : p.status = .waiting := by
  by_contra hp
  rw [run_stopped hp] at hw
  exact hp hw

/-- A pass after a timeout multiplies the timeout. -/
theorem Counted.step_currto (h : Counted n p) (hw : (Tftp.step side fs p e).status = .waiting)
    (hn : 0 < n + if e.isAlarm then 1 else 0) : (Tftp.step side fs p e).g.rttinfo.currto =
      toShort (p.g.rttinfo.currto * 2 ^ (n + if e.isAlarm then 1 else 0)) := by
  have hc := h.step hw
  have hle := hc.le
  rw [(step_timer hw).1]
  cases e with
  | datagram fromAddr buff t =>
    simp only [Event.isAlarm, Bool.false_eq_true, if_false, Nat.add_zero] at hn ⊢
    simp only [timerAfter]
    rw [← rttStart_fst, rttStart_backoff t.start (rttStop t.stop p.g.rttinfo) (by simpa using h.nrexmt) hn h.le,
      rttStop_currto]
  | alarm t =>
    simp only [Event.isAlarm, if_true] at hn hle ⊢
    simp only [timerAfter]
    rw [← rttStart_fst, rttStart_backoff t.start (rttTimeout t.stop p.g.rttinfo).2
      (rttTimeout_nrexmt t.stop p.g.rttinfo h.nrexmt h.le) hn hle, rttTimeout_currto]

/-- Cutting to 16 bits twice is cutting once. -/
theorem toShort_mul (v w : Int) : toShort (toShort v * w) = toShort (v * w) := Int.bmod_mul_bmod

/-- After a timeout the value is multiplied at every pass. -/
theorem Counted.run_currto (h : Counted n p) (hn : 0 < n) {c : Int} (hcur : p.g.rttinfo.currto = toShort c)
    (hw : ((process side fs).run p es).status = .waiting) :
    ((process side fs).run p es).g.rttinfo.currto = toShort (c * 2 ^ exponent n es) := by
  induction es generalizing n p c with
  | nil => simpa [exponent] using hcur
  | cons e es ih =>
    have hw' : (Tftp.step side fs p e).status = .waiting := @waiting_of_run side fs _ es hw
    have hpos : 0 < n + if e.isAlarm then 1 else 0 := by omega
    have hcur' := h.step_currto hw' hpos
    rw [hcur, toShort_mul] at hcur'
    have hrun := ih (h.step hw') hpos hcur' hw
    rw [Machine.run, show (process side fs).step p e = Tftp.step side fs p e from rfl, hrun, exponent, Int.mul_assoc,
      ← pow_add]

/-- **The value after a timeout.** It is the timeout in force at the first one, times a power of two, in 16 bits. -/
theorem run_currto (h : Counted 0 p) (ht : 0 < timeouts es)
    (hw : ((process side fs).run p es).status = .waiting) :
    ((process side fs).run p es).g.rttinfo.currto =
      toShort (((process side fs).run p (quiet es)).g.rttinfo.currto * 2 ^ exponent 0 es) := by
  induction es generalizing p with
  | nil => cases ht
  | cons e es ih =>
    have hw' : (step side fs p e).status = .waiting := @waiting_of_run side fs _ es hw
    have hc := h.step hw'
    rw [Machine.run, show (process side fs).step p e = step side fs p e from rfl]
    cases e with
    | datagram fromAddr buff t =>
      have ht' : 0 < timeouts es := by simpa [timeouts, Event.isAlarm] using ht
      rw [ih hc ht' hw]
      simp [quiet, Event.isAlarm, exponent, Machine.run, process]
    | alarm t =>
      have hcur := h.step_currto hw' (by simp [Event.isAlarm])
      rw [hc.run_currto (by simp [Event.isAlarm]) hcur hw]
      simp [quiet, Event.isAlarm, exponent, pow_add, Int.mul_assoc]

/-- The value passed to `alarm()` is the timeout that `rtt_start` stores. -/
theorem run_alarm (h : p.g.alarm = p.g.rttinfo.currto) (hw : ((process side fs).run p es).status = .waiting) :
    ((process side fs).run p es).g.alarm = ((process side fs).run p es).g.rttinfo.currto := by
  cases es using List.reverseRecOn with
  | nil => exact h
  | append_singleton es e =>
    rw [Machine.run_concat] at hw ⊢
    exact (step_timer hw).2

theorem called_alarm (opcode : Nat) (now : Int) (g : Globals) :
    (called opcode now g).g.alarm = (called opcode now g).g.rttinfo.currto ∧ 0 < (called opcode now g).g.alarm := by
  unfold called fsmLoop arm
  dsimp only
  exact ⟨rttStart_fst _ _, rttStart_fresh _ _ (by simp [rttNewpack])⟩

/-- Without timeouts the value is positive. -/
theorem run_alarm_quiet (h : Counted 0 p) (hpos : 0 < p.g.alarm) (ht : timeouts es = 0)
    (hw : ((process side fs).run p es).status = .waiting) : 0 < ((process side fs).run p es).g.alarm := by
  cases es using List.reverseRecOn with
  | nil => exact hpos
  | append_singleton es e =>
    rw [Machine.run_concat] at hw ⊢
    have hc : timeouts es = 0 ∧ e.isAlarm = false := by
      simpa [timeouts, List.countP_append, List.countP_singleton] using ht
    have hn := (h.run (waiting_of_step hw)).nrexmt
    rw [Nat.zero_add, hc.1] at hn
    obtain ⟨htimer, halarm⟩ := step_timer hw
    rw [show (process side fs).step _ e = step side fs _ e from rfl, halarm, htimer]
    cases e with
    | datagram fromAddr buff t =>
      simp only [timerAfter, ← rttStart_fst]
      exact rttStart_fresh _ _ (by rw [rttStop_nrexmt, hn]; simp)
    | alarm t => simp [Event.isAlarm] at hc

theorem toShort_pos (v : Int) : 0 < toShort v ↔ 1 ≤ v % 65536 ∧ v % 65536 ≤ 32767 := by
  unfold toShort
  rw [Int.bmod_def]
  split <;> omega

/-- **When the timer is armed.** The value that a waiting call has passed to `alarm()` is positive exactly when there has
been no timeout, or the timeout in force at the first one, times `2 ^ exponent 0 es`, is positive in 16 bits. -/
theorem alarm_pos_iff {opcode : Nat} {now : Int} {g : Globals}
    (hw : ((process side fs).run (called opcode now g) es).status = .waiting) :
    0 < ((process side fs).run (called opcode now g) es).g.alarm ↔ timeouts es = 0 ∨
      1 ≤ ((process side fs).run (called opcode now g) (quiet es)).g.rttinfo.currto * 2 ^ exponent 0 es % 65536 ∧
      ((process side fs).run (called opcode now g) (quiet es)).g.rttinfo.currto * 2 ^ exponent 0 es % 65536
        ≤ 32767 := by
  have hcount := called_counted opcode now g
  obtain ⟨hfirst, hpos⟩ := called_alarm opcode now g
  by_cases ht : timeouts es = 0
  · exact ⟨fun _ => .inl ht, fun _ => run_alarm_quiet hcount hpos ht hw⟩
  · rw [run_alarm hfirst hw, run_currto hcount (by omega) hw, toShort_pos]
    exact ⟨.inr, fun h => h.resolve_left ht⟩

end Runs

/-! ## A client that gets a file -/

/-- The variables of the client of the small network when it calls `fsm_loop`. -/
def sampleCall : Globals := sendRq opRrq sampleName.chars .binary
  (netOpen ⟨1, 69⟩ { initvars with modetype := .binary, localfp := reopened [] initvars.localfp, nextblknum := 1 })

/-- The client of the small network after some events. -/
def sampleRun (es : List Event) : Proc := (process .client (sampleFs [])).run (called opRrq 0 sampleCall) es

/-- A full block for that client. -/
def fullBlock (k : Nat) : Event := .datagram ⟨1, 4000⟩ (dataPacket k (List.replicate 512 0)) ⟨0, 0⟩

/-- A timeout. -/
def tick : Event := .alarm ⟨0, 0⟩

example : sampleClient .get [] = sampleRun [] := rfl

theorem gives_up_in_a_row_sample : rttMaxnrexmt + 1 ≤ inARow [fullBlock 1, tick, tick, tick, tick, tick] := by
  have hw : (sampleRun [fullBlock 1]).status = .waiting := by decide +kernel
  exact (gives_up_in_a_row_iff hw).2 rfl (List.replicate 5 ⟨0, 0⟩) (by decide +kernel)

/-- One timeout before the first block, and the client gives up at the fourth timeout after it. -/
theorem gives_up_after_four :
    (sampleRun [tick, fullBlock 1]).status = .waiting ∧
      (sampleRun [tick, fullBlock 1, tick, tick, tick, tick]).status = .returned (-1) ∧
      inARow [tick, fullBlock 1, tick, tick, tick, tick] = 4 := by
  decide +kernel

theorem alarm_pos_sample : 0 < (sampleRun [fullBlock 1, tick]).g.alarm := by
  have hw : (sampleRun [fullBlock 1, tick]).status = .waiting := by decide +kernel
  have hcur : (sampleRun (quiet [fullBlock 1, tick])).g.rttinfo.currto = 2 := by decide +kernel
  unfold sampleRun at hw hcur ⊢
  rw [alarm_pos_iff hw, hcur]
  decide

/-- Four timeouts and a block, and the value is negative; one more block, and the timer is not armed at all. -/
theorem alarm_wraps :
    (sampleRun [tick, tick, tick, tick, fullBlock 1]).status = .waiting ∧
      (sampleRun [tick, tick, tick, tick, fullBlock 1]).g.alarm = -16384 ∧
      (sampleRun [tick, tick, tick, tick, fullBlock 1, fullBlock 2]).status = .waiting ∧
      (sampleRun [tick, tick, tick, tick, fullBlock 1, fullBlock 2]).g.alarm = 0 := by
  decide +kernel

end CodingExercises.Tftp
