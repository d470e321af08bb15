import CodingExercises.Lib.Runs
import CodingExercises.Tftp.Rtt
import CodingExercises.Tftp.SendRecv

/-!
# TFTP: the finite state machine

`server/fsm.c` and `client/fsm_cli.c`. Between two events a process waits in `net_recv` with the timer armed; an event is
a datagram or the alarm. `step` is one pass of `fsm_loop` from the event to the next wait, and `process` the machine of
such passes, which emits the datagrams it sends.

- `step_alarm` and `step_datagram` unfold a pass;
- the handlers leave the variables of `fsm_loop` and of `net_recv` alone (`callHandler_kept`, `received_waiting`).
-/

namespace CodingExercises.Tftp

open Lib

/-- The functions of the state tables. -/
inductive Handler
  | fsmInvalid
  | fsmError
  | recvRrq
  | recvWrq
  | recvData
  | recvAck
  | recvRqerr
deriving DecidableEq, Repr

/-- The rows of `fsm_ptr`, by the last opcode sent; the columns are the opcode received. -/
def fsmTable : Side → List (List Handler)
  | .server =>
    [[.fsmInvalid, .recvRrq, .recvWrq, .fsmInvalid, .fsmInvalid, .fsmInvalid],
     [.fsmInvalid, .fsmInvalid, .fsmInvalid, .fsmInvalid, .fsmInvalid, .fsmInvalid],
     [.fsmInvalid, .fsmInvalid, .fsmInvalid, .fsmInvalid, .fsmInvalid, .fsmInvalid],
     [.fsmInvalid, .fsmInvalid, .fsmInvalid, .fsmInvalid, .recvAck, .fsmError],
     [.fsmInvalid, .fsmInvalid, .fsmInvalid, .recvData, .fsmInvalid, .fsmError],
     [.fsmInvalid, .fsmInvalid, .fsmInvalid, .fsmInvalid, .fsmInvalid, .fsmError]]
  | .client =>
    [[.fsmInvalid, .fsmInvalid, .fsmInvalid, .fsmInvalid, .fsmInvalid, .fsmInvalid],
     [.fsmInvalid, .fsmInvalid, .fsmInvalid, .recvData, .fsmInvalid, .recvRqerr],
     [.fsmInvalid, .fsmInvalid, .fsmInvalid, .fsmInvalid, .recvAck, .recvRqerr],
     [.fsmInvalid, .fsmInvalid, .fsmInvalid, .fsmInvalid, .recvAck, .fsmError],
     [.fsmInvalid, .fsmInvalid, .fsmInvalid, .recvData, .fsmInvalid, .fsmError],
     [.fsmInvalid, .fsmInvalid, .fsmInvalid, .fsmInvalid, .fsmInvalid, .fsmError]]

/-- `fsm_ptr[op_sent][op_recv]`. -/
def fsmPtr (side : Side) (opSent opRecv : Nat) : Handler := ((fsmTable side).getD opSent []).getD opRecv .fsmInvalid

/-- A receiver waits for data, -/
theorem fsmPtr_data (side : Side) : fsmPtr side opAck opData = .recvData := by cases side <;> rfl

/-- and a sender for acknowledgements. -/
theorem fsmPtr_ack (side : Side) : fsmPtr side opData opAck = .recvAck := by cases side <;> rfl

/-- Call a function of the table. -/
def callHandler (side : Side) (fs : FileSys) (ptr : List Byte) (nbytes : Nat) (g : Globals) :
    Handler → Result (Int × Globals)
  | .fsmInvalid => .error (.fsmInvalid, g)
  | .fsmError => .error (.fsmError, g)
  | .recvRrq => recvRrq fs ptr nbytes g
  | .recvWrq => recvWrq fs ptr nbytes g
  | .recvData => recvData side ptr nbytes g
  | .recvAck => recvAck ptr nbytes g
  | .recvRqerr => recvRqerr ptr nbytes g

/-! ## One pass of the loop -/

/-- What interrupts the wait, with the readings of the clock on the pass. -/
inductive Event
  | datagram (fromAddr : SockAddr) (buff : List Byte) (t : Readings)
  | alarm (t : Readings)
deriving DecidableEq, Repr

/-- The top of the loop: `alarm(rtt_start(&rttinfo))`. -/
def arm (now : Int) (g : Globals) : Globals :=
  { g with rttinfo := (rttStart now g.rttinfo).2, alarm := (rttStart now g.rttinfo).1 }

@[simp] theorem arm_outbox (now : Int) (g : Globals) : (arm now g).outbox = g.outbox := rfl

/-- A function that may exit, as a process. -/
def proceed {α : Type} (r : Result α) (next : α → Proc) : Proc :=
  match r with
  | .error (why, g) => ⟨.exited why, g⟩
  | .ok a => next a

/-- The rest of a pass after `net_recv` has returned `nbytes`. -/
def received (side : Side) (fs : FileSys) (t : Readings) (nbytes : Nat) (g : Globals) : Proc :=
  let g := { g with rttinfo := rttStop t.stop g.rttinfo }
  if nbytes < 4 then ⟨.exited (.recvLength nbytes), g⟩
  else
    let opRecv := ldshort g.recvbuff
    let g := { g with opRecv := opRecv }
    if opRecv < opMin ∨ opMax < opRecv then ⟨.exited (.invalidOpcode opRecv), g⟩
    else
      proceed (callHandler side fs (g.recvbuff.drop 2) (nbytes - 2) g (fsmPtr side g.opSent opRecv)) fun (ret, g) =>
        if ret < 0 then ⟨.returned 0, g⟩ else ⟨.waiting, arm t.start g⟩

/-- The rest of a pass after the alarm: give up, or send the last packet again. -/
def timedOut (t : Readings) (g : Globals) : Proc :=
  let r := rttTimeout t.stop g.rttinfo
  let g := { g with rttinfo := r.2 }
  if r.1 < 0 then ⟨.returned (-1), g⟩ else ⟨.waiting, arm t.start (netSend g.sendbuff g)⟩

/-- One pass of `fsm_loop` for a process that waits; the outbox starts empty. -/
def step (side : Side) (fs : FileSys) (p : Proc) (e : Event) : Proc :=
  match p.status with
  | .waiting =>
    let g := { p.g with outbox := [] }
    match e with
    | .datagram fromAddr buff t =>
      proceed (netRecv side fromAddr buff g) fun (nbytes, g) => received side fs t nbytes g
    | .alarm t => timedOut t g
  | _ => p

/-- `fsm_loop` up to its first wait. -/
def fsmLoop (opcode : Nat) (now : Int) (g : Globals) : Globals :=
  let g := { g with opSent := opcode }
  let g := if g.rttfirst then { g with rttinfo := rttInit g.rttinfo, rttfirst := false } else g
  arm now { g with rttinfo := rttNewpack g.rttinfo }

/-- A process as a machine that reacts to events and emits the datagrams it sends. -/
def process (side : Side) (fs : FileSys) : Machine Proc Event Datagram where
  step := step side fs
  emit p e := if p.status = .waiting then (step side fs p e).g.outbox else []

/-- Entering the loop changes the last opcode and the timer only. -/
theorem fsmLoop_eq (opcode : Nat) (now : Int) (g : Globals) : ∃ r f a,
    fsmLoop opcode now g = { g with opSent := opcode, rttinfo := r, rttfirst := f, alarm := a } := by
  unfold fsmLoop
  dsimp only
  split
  · exact ⟨_, _, _, rfl⟩
  · exact ⟨_, _, _, rfl⟩

/-! ## Unfolding a pass -/

section Pass

variable {side : Side} {fs : FileSys} {p : Proc}

/-- The end of a pass, behind the function that was called: the loop ends, or the timer is armed. -/
def passEnd (t : Readings) (r : Int × Globals) : Proc :=
  if r.1 < 0 then ⟨.returned 0, r.2⟩ else ⟨.waiting, arm t.start r.2⟩

theorem passEnd_of_neg (t : Readings) {ret : Int} (h : ret < 0) (g : Globals) : passEnd t (ret, g) = ⟨.returned 0, g⟩ :=
  if_pos h

theorem passEnd_of_nonneg (t : Readings) {ret : Int} (h : 0 ≤ ret) (g : Globals) :
    passEnd t (ret, g) = ⟨.waiting, arm t.start g⟩ :=
  if_neg (Int.not_lt.2 h)

@[simp] theorem proceed_ok {α : Type} (a : α) (next : α → Proc) : proceed (.ok a) next = next a := rfl

@[simp] theorem proceed_error {α : Type} (why : Exit) (g : Globals) (next : α → Proc) :
    proceed (.error (why, g)) next = ⟨.exited why, g⟩ := rfl

/-- The variables when a packet has been read, up to the call of a function of the table. -/
def readOp (t : Readings) (g : Globals) : Globals :=
  { g with rttinfo := rttStop t.stop g.rttinfo, opRecv := ldshort g.recvbuff }

theorem step_alarm (hp : p.status = .waiting) (t : Readings) :
    step side fs p (.alarm t) = timedOut t { p.g with outbox := [] } := by
  simp only [step, hp]

theorem step_datagram (hp : p.status = .waiting) (fromAddr : SockAddr) (buff : List Byte) (t : Readings) :
    step side fs p (.datagram fromAddr buff t) =
      proceed (netRecv side fromAddr buff { p.g with outbox := [] }) fun r => received side fs t r.1 r.2 := by
  simp only [step, hp]

/-- What may happen to a packet: the process exits, or a function of the table is called. -/
theorem received_cases (side : Side) (fs : FileSys) (t : Readings) (nbytes : Nat) (g : Globals) :
    (∃ why g', received side fs t nbytes g = ⟨.exited why, g'⟩ ∧ g'.outbox = g.outbox) ∨
      4 ≤ nbytes ∧ ldshort g.recvbuff ≤ opMax ∧ received side fs t nbytes g =
        proceed (callHandler side fs (g.recvbuff.drop 2) (nbytes - 2) (readOp t g)
          (fsmPtr side g.opSent (ldshort g.recvbuff))) (passEnd t) := by
  by_cases h4 : nbytes < 4
  · exact .inl ⟨_, _, if_pos h4, rfl⟩
  · by_cases hop : ldshort g.recvbuff < opMin ∨ opMax < ldshort g.recvbuff
    · exact .inl ⟨_, _, (if_neg h4).trans (if_pos hop), rfl⟩
    · exact .inr ⟨by omega, by omega, (if_neg h4).trans (if_neg hop)⟩

/-- A packet with a valid opcode goes to the function that the table names. -/
theorem received_packet {g : Globals} {op : Nat} {ptr : List Byte} {nbytes : Nat} (t : Readings)
    (hg : g.recvbuff = stshort op ++ ptr) (h1 : opMin ≤ op) (h5 : op ≤ opMax) (hn : 2 ≤ nbytes) :
    received side fs t (nbytes + 2) g =
      proceed (callHandler side fs ptr nbytes { g with rttinfo := rttStop t.stop g.rttinfo, opRecv := op }
        (fsmPtr side g.opSent op)) (passEnd t) := by
  have h5' : op ≤ 5 := h5
  have hop : ldshort g.recvbuff = op := by rw [hg, ldshort_stshort_nat]; omega
  have hdrop : g.recvbuff.drop 2 = ptr := by rw [hg]; rfl
  have hlen : ¬ nbytes + 2 < 4 := by omega
  have hok : ¬ (op < opMin ∨ opMax < op) := by omega
  simp only [received, if_neg hlen, hop, if_neg hok, hdrop, Nat.add_sub_cancel]
  rfl

/-- The variables when a function of the table is called. -/
def heard (fromAddr : SockAddr) (recvbuff : List Byte) (op : Nat) (t : Readings) (g : Globals) : Globals :=
  { g with
    outbox := [], recvbuff := recvbuff, peer := fromAddr, recvFirst := false
    rttinfo := rttStop t.stop g.rttinfo, opRecv := op }

/-- A packet with a valid opcode that a process waits for goes to the function that the table names. -/
theorem step_packet (fs : FileSys) (hp : p.status = .waiting) {fromAddr : SockAddr}
    (he : Expects side fromAddr p.g) (op : Nat) (body : List Byte) (h1 : opMin ≤ op) (h5 : op ≤ opMax) (h2 : 2 ≤ body.length) (hb : body.length + 2 ≤ maxBuff)
    (t : Readings) : ∃ rest, step side fs p (.datagram fromAddr (stshort op ++ body) t) =
      proceed (callHandler side fs (body ++ rest) body.length
        (heard fromAddr (stshort op ++ (body ++ rest)) op t p.g) (fsmPtr side p.g.opSent op))
        (passEnd t) := by
  have htake : (stshort op ++ body).take maxBuff = stshort op ++ body :=
    List.take_of_length_le (by simp only [List.length_append, length_stshort]; omega)
  refine ⟨p.g.recvbuff.drop (stshort op ++ body).length, ?_⟩
  rw [step_datagram hp, netRecv_expected _ (g := { p.g with outbox := [] }) he, htake]
  have hlen : (stshort op ++ body).length = body.length + 2 := by
    rw [List.length_append, length_stshort, Nat.add_comm]
  let g := { recvfrom (stshort op ++ body) { p.g with outbox := [] } with peer := fromAddr, recvFirst := false }
  have hbuff : g.recvbuff = stshort op ++ (body ++ p.g.recvbuff.drop (stshort op ++ body).length) := by
    simp only [g, recvfrom, htake, List.append_assoc]
  show received side fs t (stshort op ++ body).length g = _
  rw [hlen, received_packet t hbuff h1 h5 h2]
  simp only [g, heard, recvfrom, htake, List.append_assoc, hlen]

/-- A process that times out gives up or sends its last packet again. -/
theorem step_alarm_cases (side : Side) (fs : FileSys) (hp : p.status = .waiting) (t : Readings) :
    ∃ r, step side fs p (.alarm t) = ⟨.returned (-1), { p.g with outbox := [], rttinfo := r }⟩ ∨
      step side fs p (.alarm t) =
        ⟨.waiting, arm t.start { p.g with outbox := [⟨p.g.peer, p.g.sendbuff⟩], rttinfo := r }⟩ := by
  refine ⟨(rttTimeout t.stop p.g.rttinfo).2, ?_⟩
  rw [step_alarm hp]
  unfold timedOut
  dsimp only
  split
  · exact .inl rfl
  · exact .inr rfl

/-- A process that does not wait stays as it is. -/
theorem step_stopped (hp : p.status ≠ .waiting) (e : Event) : step side fs p e = p := by
  unfold step
  split
  · contradiction
  · rfl

end Pass

/-! ## What the handlers leave alone -/

/-- The variables of `fsm_loop` and of `net_recv` are as they were. -/
structure Kept (g g' : Globals) : Prop where
  rttinfo : g'.rttinfo = g.rttinfo
  peer : g'.peer = g.peer
  recvFirst : g'.recvFirst = g.recvFirst

section Kept

variable {side : Side} {fs : FileSys} {ptr : List Byte} {nbytes : Nat} {g g' g'' : Globals} {ret : Int}

theorem Kept.refl (g : Globals) : Kept g g := ⟨rfl, rfl, rfl⟩

theorem Kept.trans (h : Kept g g') (h' : Kept g' g'') : Kept g g'' :=
  ⟨h'.rttinfo.trans h.rttinfo, h'.peer.trans h.peer, h'.recvFirst.trans h.recvFirst⟩

theorem sendAck_kept (blocknum : Int) (g : Globals) : Kept g (sendAck blocknum g) := ⟨rfl, rfl, rfl⟩

theorem storeData_kept {data : List Byte} (h : storeData side data nbytes g = .ok g') : Kept g g' := by
  unfold storeData at h
  split at h
  · cases h
  · split at h
    · cases h
    · cases h; exact ⟨rfl, rfl, rfl⟩

theorem ackData_kept {recvblknum : Int} (h : ackData recvblknum nbytes g = (ret, g')) : Kept g g' := by
  simp only [ackData, Prod.mk.injEq] at h
  exact h.2 ▸ sendAck_kept recvblknum g

theorem recvData_kept (h : recvData side ptr nbytes g = .ok (ret, g')) : Kept g g' := by
  unfold recvData at h
  dsimp only at h
  split at h
  · cases h
  · split at h
    · split at h
      · cases h
      · rename_i g₁ h₁
        have hs := storeData_kept h₁
        exact Kept.trans ⟨hs.rttinfo, hs.peer, hs.recvFirst⟩ (ackData_kept (Except.ok.inj h))
    · split at h
      · cases h
      · split at h
        · cases h
        · exact ackData_kept (Except.ok.inj h)

theorem recvAck_kept (h : recvAck ptr nbytes g = .ok (ret, g')) : Kept g g' := by
  unfold recvAck at h
  dsimp only at h
  split at h
  · cases h
  · split at h
    · split at h
      · cases h; exact ⟨rfl, rfl, rfl⟩
      · cases h; exact ⟨rfl, rfl, rfl⟩
    · split at h
      · cases h
      · split at h
        · cases h
        · cases h; exact Kept.refl g

theorem rqMode_kept {mode : List Byte} (h : rqMode mode g = .ok g') : Kept g g' := by
  unfold rqMode at h
  split at h
  · cases h; exact ⟨rfl, rfl, rfl⟩
  · split at h
    · cases h; exact ⟨rfl, rfl, rfl⟩
    · cases h

theorem recvXrq_kept {opcode : Nat} (h : recvXrq fs opcode ptr nbytes g = .ok g') : Kept g g' := by
  obtain ⟨⟨filename, mode⟩, -, h⟩ := bind_eq_ok h
  obtain ⟨g₁, h₁, h⟩ := bind_eq_ok h
  obtain ⟨_, -, h⟩ := bind_eq_ok h
  refine (rqMode_kept h₁).trans ?_
  split at h
  · cases h
  · cases h; exact ⟨rfl, rfl, rfl⟩

theorem recvRrq_kept (h : recvRrq fs ptr nbytes g = .ok (ret, g')) : Kept g g' := by
  obtain ⟨g₁, h₁, h⟩ := bind_eq_ok h
  obtain ⟨⟨r, g₂⟩, h₂, h⟩ := bind_eq_ok h
  cases h
  have ha := recvAck_kept h₂
  exact (recvXrq_kept h₁).trans ⟨ha.rttinfo, ha.peer, ha.recvFirst⟩

theorem recvWrq_kept (h : recvWrq fs ptr nbytes g = .ok (ret, g')) : Kept g g' := by
  obtain ⟨g₁, h₁, h⟩ := bind_eq_ok h
  cases h
  exact (recvXrq_kept h₁).trans ⟨rfl, rfl, rfl⟩

theorem recvRqerr_kept (h : recvRqerr ptr nbytes g = .ok (ret, g')) : Kept g g' := by
  unfold recvRqerr at h
  dsimp only at h
  split at h
  · cases h
  · cases h; exact ⟨rfl, rfl, rfl⟩

/-- Whatever the table calls leaves the variables of `fsm_loop` and `net_recv` alone. -/
theorem callHandler_kept {f : Handler} (h : callHandler side fs ptr nbytes g f = .ok (ret, g')) : Kept g g' := by
  cases f with
  | fsmInvalid => cases h
  | fsmError => cases h
  | recvRrq => exact recvRrq_kept h
  | recvWrq => exact recvWrq_kept h
  | recvData => exact recvData_kept h
  | recvAck => exact recvAck_kept h
  | recvRqerr => exact recvRqerr_kept h

/-- A process that waits after it has read a packet has stopped the timer, called a function of the table and armed the
timer. -/
theorem received_waiting {t : Readings} (h : (received side fs t nbytes g).status = .waiting) :
    ∃ g', Kept { g with rttinfo := rttStop t.stop g.rttinfo } g' ∧
      received side fs t nbytes g = ⟨.waiting, arm t.start g'⟩ := by
  rcases received_cases side fs t nbytes g with ⟨why, g', he, -⟩ | ⟨-, -, he⟩
  · rw [he] at h; cases h
  · rw [he] at h ⊢
    cases hr : callHandler side fs (g.recvbuff.drop 2) (nbytes - 2) (readOp t g)
        (fsmPtr side g.opSent (ldshort g.recvbuff)) with
    | error e => rw [hr] at h; cases h
    | ok r =>
      obtain ⟨ret, g'⟩ := r
      have hk := callHandler_kept hr
      rw [hr, proceed_ok] at h
      rcases Int.lt_or_le ret 0 with hret | hret
      · rw [passEnd_of_neg t hret] at h; cases h
      · exact ⟨g', ⟨hk.rttinfo, hk.peer, hk.recvFirst⟩, by rw [proceed_ok, passEnd_of_nonneg t hret]⟩

end Kept

end CodingExercises.Tftp
