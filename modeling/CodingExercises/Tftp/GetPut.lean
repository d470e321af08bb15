import CodingExercises.Tftp.Fsm

/-!
# TFTP: how a transfer starts

`client/cmdgetput.c` on the client, and `net_open` with the first pass of `fsm_loop` on the server. `doGet` and `doPut`
run to the first wait for a reply; `serve` is what the child that the server forks for a request does with it.

- A request that `send_RQ` built is read back as it was meant (`parseRq_request`);
- `serve_read`, `serve_rrq` and `serve_wrq` say in which state a child is that has accepted a request.
-/

namespace CodingExercises.Tftp

/-! ## The client -/

/-- `net_open` of the client: `udp_open` stores the address of the server's well-known port. -/
def netOpen (server : SockAddr) (g : Globals) : Globals := { g with peer := server, recvFirst := true }

/-- `do_get` up to the first wait; none when the local file cannot be opened. -/
def doGet (fs : FileSys) (server : SockAddr) (now : Int) (remfname locfname : FileName) (g : Globals) : Option Proc :=
  match fileOpen .client fs locfname.chars .w g.localfp with
  | none => none
  | some fp =>
    let g := netOpen server { g with localfp := fp, nextblknum := 1, outbox := [] }
    let g := sendRq opRrq remfname.chars g.modetype { g with totnbytes := 0 }
    some ⟨.waiting, fsmLoop opRrq now g⟩

/-- `do_put` up to the first wait. -/
def doPut (fs : FileSys) (server : SockAddr) (now : Int) (remfname locfname : FileName) (g : Globals) : Option Proc :=
  match fileOpen .client fs locfname.chars .r g.localfp with
  | none => none
  | some fp =>
    let g := netOpen server { g with localfp := fp, nextblknum := 0, outbox := [] }
    let g := sendRq opWrq remfname.chars g.modetype { g with totnbytes := 0, lastsend := maxData }
    some ⟨.waiting, fsmLoop opWrq now g⟩

/-! ## The server -/

/-- The server in `net_open`, with what earlier requests have left in `recvbuff`. -/
def listening (recvbuff : List Byte) : Globals := { initvars with recvbuff := recvbuff, recvFirst := true }

/-- `net_open` and the first pass of `fsm_loop` in the child that gets a request. -/
def serve (fs : FileSys) (recvbuff : List Byte) (fromAddr : SockAddr) (request : List Byte) (now : Int)
    (t : Readings) : Proc :=
  proceed (netRecv .server fromAddr request (listening recvbuff)) fun (nbytes, g) =>
    received .server fs t nbytes (fsmLoop 0 now g)

/-! ## Reading a request -/

/-- The packet of a request. -/
def request (opcode : Nat) (name : FileName) (mode : Mode) : List Byte :=
  stshort opcode ++ (name.chars ++ 0 :: (modestr mode ++ [0]))

theorem cstr_append (s rest : List Byte) (h : (0 : Byte) ∉ s) : cstr (s ++ 0 :: rest) = s := by
  induction s with
  | nil => simp [cstr]
  | cons c s ih =>
    simp only [List.mem_cons, not_or] at h
    have hc : c ≠ 0 := fun he => h.1 he.symm
    simpa [cstr, hc] using ih h.2

theorem scanNull_append (missing : Exit) (s rest : List Byte) (h : (0 : Byte) ∉ s) {n : Nat} (hn : s.length < n) :
    scanNull missing (s ++ 0 :: rest) n = .ok s.length := by
  induction s generalizing n with
  | nil =>
    obtain ⟨n, rfl⟩ : ∃ m, n = m + 1 := ⟨n - 1, by simp at hn; omega⟩
    rfl
  | cons c s ih =>
    simp only [List.mem_cons, not_or] at h
    obtain ⟨n, rfl⟩ : ∃ m, n = m + 1 := ⟨n - 1, by simp at hn; omega⟩
    have hc : c ≠ 0 := fun he => h.1 he.symm
    have hs := ih h.2 (n := n) (by simpa using hn)
    simp [scanNull, hc, hs, Except.map]

/-- The words for the two modes are lower-case strings that fit. -/
theorem modestr_spec (mode : Mode) :
    (0 : Byte) ∉ modestr mode ∧ (modestr mode).length < maxFilename ∧ (modestr mode).map tolower = modestr mode := by
  cases mode <;> decide

/-- What `recv_xRQ` reads in a request is what `send_RQ` wrote. -/
theorem parseRq_request (name : FileName) (mode : Mode) (rest : List Byte) :
    parseRq (name.chars ++ 0 :: (modestr mode ++ 0 :: rest)) (name.chars.length + 1 + (modestr mode).length + 1) =
      .ok (name.chars, modestr mode) := by
  obtain ⟨h0, hlen, hlow⟩ := modestr_spec mode
  have hname := scanNull_append .rqFilename name.chars (modestr mode ++ 0 :: rest) name.noNull
    (n := name.chars.length + 1 + (modestr mode).length + 1) (by omega)
  have hmode := scanNull_append .rqMode (modestr mode) rest h0
    (n := name.chars.length + 1 + (modestr mode).length + 1 - name.chars.length) (by omega)
  have hdrop : (name.chars ++ 0 :: (modestr mode ++ 0 :: rest)).drop (name.chars.length + 1) =
      modestr mode ++ 0 :: rest := by simp [List.drop_append]
  simp only [parseRq, hname, hdrop, hmode, strcpy, strlccpy, cstr_append _ _ name.noNull, cstr_append _ _ h0,
    name.fits, hlen, hlow, if_true, bind, Except.bind, pure, Except.pure]

theorem rqMode_modestr (mode : Mode) (g : Globals) : rqMode (modestr mode) g = .ok { g with modetype := mode } := by
  have hne : bytes "octet" ≠ bytes "netascii" := by decide
  cases mode <;> simp [rqMode, modestr, hne]

theorem sendRq_eq (opcode : Nat) (name : FileName) (mode : Mode) (g : Globals) :
    sendRq opcode name.chars mode g =
      netSend (request opcode name mode) { g with sendbuff := request opcode name mode } := by
  simp [sendRq, request]

/-- A client that waits for the answer to its request. -/
structure Requesting (opcode : Nat) (server : SockAddr) (remfname : FileName) (mode : Mode) (p : Proc) : Prop where
  waits : p.status = .waiting
  asks : p.g.outbox = [⟨server, request opcode remfname mode⟩]
  sendbuff : p.g.sendbuff = request opcode remfname mode
  opSent : p.g.opSent = opcode
  modetype : p.g.modetype = mode
  recvFirst : p.g.recvFirst = true
  peer : p.g.peer = server

/-- A client that executes `get` has sent a read request, -/
theorem doGet_some {fs : FileSys} {server : SockAddr} {now : Int} {remfname locfname : FileName} {g : Globals}
    {p : Proc} (h : doGet fs server now remfname locfname g = some p) :
    Requesting opRrq server remfname g.modetype p ∧ p.g.nextblknum = 1 ∧
      fileOpen .client fs locfname.chars .w g.localfp = some p.g.localfp := by
  unfold doGet at h
  split at h
  · cases h
  · rename_i fp hfp
    dsimp only at h
    rw [sendRq_eq] at h
    obtain ⟨r, f, a, he⟩ := fsmLoop_eq opRrq now (netSend (request opRrq remfname g.modetype)
      { netOpen server { g with localfp := fp, nextblknum := 1, outbox := [] } with
        totnbytes := 0, sendbuff := request opRrq remfname g.modetype })
    have hp := Option.some.inj h
    rw [show p = _ from hp.symm.trans (congrArg (Proc.mk .waiting) he)]
    exact ⟨⟨rfl, rfl, rfl, rfl, rfl, rfl, rfl⟩, rfl, hfp⟩

/-- and one that executes `put` a write request. -/
theorem doPut_some {fs : FileSys} {server : SockAddr} {now : Int} {remfname locfname : FileName} {g : Globals}
    {p : Proc} (h : doPut fs server now remfname locfname g = some p) :
    Requesting opWrq server remfname g.modetype p ∧ p.g.nextblknum = 0 ∧ p.g.lastsend = maxData ∧
      fileOpen .client fs locfname.chars .r g.localfp = some p.g.localfp := by
  unfold doPut at h
  split at h
  · cases h
  · rename_i fp hfp
    dsimp only at h
    rw [sendRq_eq] at h
    obtain ⟨r, f, a, he⟩ := fsmLoop_eq opWrq now (netSend (request opWrq remfname g.modetype)
      { netOpen server { g with localfp := fp, nextblknum := 0, outbox := [] } with
        totnbytes := 0, lastsend := maxData, sendbuff := request opWrq remfname g.modetype })
    have hp := Option.some.inj h
    rw [show p = _ from hp.symm.trans (congrArg (Proc.mk .waiting) he)]
    exact ⟨⟨rfl, rfl, rfl, rfl, rfl, rfl, rfl⟩, rfl, rfl, hfp⟩

section Accept

variable {fs : FileSys} {name : FileName} {mode : Mode} {recvbuff rest : List Byte} {fromAddr : SockAddr} {now : Int}
  {t : Readings}

/-- A request that `recv_xRQ` accepts. -/
theorem recvXrq_ok {opcode : Nat} {ptr : List Byte} {nbytes : Nat} {g g' : Globals}
    (h : recvXrq fs opcode ptr nbytes g = .ok g') :
    ∃ filename word mode fp, parseRq ptr nbytes = .ok (filename, word) ∧
      rqMode word g = .ok { g with modetype := mode } ∧
      fileOpen .server fs filename (if opcode = opRrq then .r else .w) g.localfp = some fp ∧
      g' = { g with modetype := mode, localfp := fp, nextblknum := 0 } := by
  obtain ⟨⟨filename, word⟩, hp, h⟩ := bind_eq_ok h
  obtain ⟨g₁, hm, h⟩ := bind_eq_ok h
  obtain ⟨_, -, h⟩ := bind_eq_ok h
  have hparse : parseRq ptr nbytes = .ok (filename, word) := by
    cases hq : parseRq ptr nbytes with
    | error e => rw [hq] at hp; cases hp
    | ok r => rw [hq] at hp; exact congrArg Except.ok (Except.ok.inj hp)
  obtain ⟨mode, rfl⟩ : ∃ mode, g₁ = { g with modetype := mode } := by
    unfold rqMode at hm
    split at hm
    · cases hm; exact ⟨_, rfl⟩
    · split at hm
      · cases hm; exact ⟨_, rfl⟩
      · cases hm
  split at h
  · cases h
  · rename_i fp hfp
    cases h
    exact ⟨filename, word, mode, fp, hparse, hm, hfp, rfl⟩

/-- Such a request as `send_RQ` has built it. -/
theorem recvXrq_request {opcode : Nat} {g g' : Globals}
    (h : recvXrq fs opcode (name.chars ++ 0 :: (modestr mode ++ 0 :: rest))
      (name.chars.length + 1 + (modestr mode).length + 1) g = .ok g') :
    ∃ fp, fileOpen .server fs name.chars (if opcode = opRrq then .r else .w) g.localfp = some fp ∧
      g' = { g with modetype := mode, localfp := fp, nextblknum := 0 } := by
  obtain ⟨filename, word, mode', fp, hp, hm, hfp, rfl⟩ := recvXrq_ok h
  rw [parseRq_request] at hp
  cases hp
  rw [rqMode_modestr] at hm
  obtain rfl : mode = mode' := congrArg Globals.modetype (Except.ok.inj hm)
  exact ⟨fp, hfp, rfl⟩

/-- A read request that was accepted: the first block is sent. -/
theorem recvRrq_ok {ptr : List Byte} {nbytes : Nat} {g : Globals} {r : Int × Globals}
    (h : recvRrq fs ptr nbytes g = .ok r) :
    ∃ g₁, recvXrq fs opRrq ptr nbytes g = .ok g₁ ∧ (g₁.nextblknum = 0 →
      r = (0, sendData 1 (fileRead g₁.localfp maxData g₁.modetype).1 (readNext { g₁ with lastsend := maxData }))) := by
  obtain ⟨g₁, hx, h⟩ := bind_eq_ok h
  obtain ⟨⟨ret, g₂⟩, ha, h⟩ := bind_eq_ok h
  cases h
  refine ⟨g₁, hx, fun h0 => ?_⟩
  rw [show stshort 0 = stshort (0 : Nat) ++ [] from rfl,
    recvAck_next (by exact h0.symm) fun hd => Nat.lt_irrefl _ hd.2] at ha
  cases ha
  show (0, sendData (g₁.nextblknum + 1) _ _) = _
  rw [h0, Int.zero_add]

/-- The child calls the function for the opcode of its request. -/
theorem serve_waiting {rq : List Byte} (h : (serve fs recvbuff fromAddr rq now t).status = .waiting) :
    ∃ g rest, g.localfp = initvars.localfp ∧ g.peer = fromAddr ∧ g.recvFirst = false ∧ g.outbox = [] ∧
      4 ≤ (rq.take maxBuff).length ∧
      serve fs recvbuff fromAddr rq now t =
        proceed (callHandler .server fs ((rq.take maxBuff).drop 2 ++ rest) ((rq.take maxBuff).length - 2) g
          (fsmPtr .server 0 (ldshort rq)))
          (passEnd t) := by
  let g := fsmLoop 0 now { recvfrom rq (listening recvbuff) with peer := fromAddr, recvFirst := false }
  have hserve : serve fs recvbuff fromAddr rq now t = received .server fs t (rq.take maxBuff).length g := by
    have hpass : Passes .server fromAddr (listening recvbuff) := .inl rfl
    unfold serve
    rw [netRecv_of_passes rq hpass]
    rfl
  rw [hserve] at h ⊢
  rcases received_cases .server fs t (rq.take maxBuff).length g with ⟨why, g', he, -⟩ | ⟨h4, -, he⟩
  · rw [he] at h; cases h
  · have hop : ldshort g.recvbuff = ldshort rq := (recvfrom_ldshort rq (listening recvbuff) h4).1
    have hdrop : g.recvbuff.drop 2 = (rq.take maxBuff).drop 2 ++ recvbuff.drop (rq.take maxBuff).length :=
      List.drop_append_of_le_length (by omega)
    refine ⟨readOp t g, recvbuff.drop (rq.take maxBuff).length, rfl, rfl, rfl, rfl, h4, ?_⟩
    rw [he, hop, hdrop]
    rfl

theorem cstr_of_scanNull {missing : Exit} {s : List Byte} {i : Nat} (rest : List Byte)
    (h : scanNull missing (s ++ rest) s.length = .ok i) (more : List Byte) : cstr (s ++ rest) = cstr (s ++ more) := by
  induction s generalizing i with
  | nil => simp [scanNull] at h
  | cons c s ih =>
    by_cases hc : c = 0
    · simp [cstr, hc]
    · simp only [List.cons_append, List.length_cons, scanNull, if_neg hc] at h
      cases hs : scanNull missing (s ++ rest) s.length with
      | error e => rw [hs] at h; cases h
      | ok j => simpa [cstr, hc] using ih hs

/-- The file name that `recv_xRQ` finds lies in the request. -/
theorem parseRq_filename {s rest filename word : List Byte} (h : parseRq (s ++ rest) s.length = .ok (filename, word)) :
    filename = cstr s := by
  obtain ⟨i, hi, h⟩ := bind_eq_ok h
  obtain ⟨f, hf, h⟩ := bind_eq_ok h
  obtain ⟨_, -, h⟩ := bind_eq_ok h
  obtain ⟨m, -, h⟩ := bind_eq_ok h
  cases h
  unfold strcpy at hf
  split at hf
  · cases hf
    rw [cstr_of_scanNull rest hi [], List.append_nil]
  · cases hf

/-- A child that has accepted a read request of whatever form has sent the first block. -/
theorem serve_read {rq : List Byte} (h : (serve fs recvbuff fromAddr rq now t).status = .waiting)
    (hop : ldshort rq = opRrq) :
    ∃ mode fp g, fileOpen .server fs (cstr ((rq.take maxBuff).drop 2)) .r initvars.localfp = some fp ∧
      g.outbox = [] ∧ g.modetype = mode ∧ g.nextblknum = 1 ∧ g.localfp = (fileRead fp maxData mode).2 ∧
      g.lastsend = (fileRead fp maxData mode).1.length ∧
      serve fs recvbuff fromAddr rq now t =
        ⟨.waiting, arm t.start (sendData 1 (fileRead fp maxData mode).1 g)⟩ := by
  obtain ⟨g, rest, hfp, hpeer, hfirst, hout, h4, he⟩ := serve_waiting h
  rw [he, hop] at h ⊢
  simp only [show fsmPtr .server 0 opRrq = .recvRrq from rfl, callHandler] at h ⊢
  cases hr : recvRrq fs ((rq.take maxBuff).drop 2 ++ rest) ((rq.take maxBuff).length - 2) g with
  | error e => rw [hr] at h; cases h
  | ok r =>
    obtain ⟨g₁, hx, hsend⟩ := recvRrq_ok hr
    obtain ⟨filename, word, mode, fp, hp, -, hopen, rfl⟩ := recvXrq_ok hx
    rw [hfp] at hopen
    rw [← List.length_drop] at hp
    rw [parseRq_filename hp] at hopen
    rw [hsend rfl]
    exact ⟨mode, fp, readNext { g with modetype := mode, localfp := fp, nextblknum := 0, lastsend := maxData }, hopen,
      hout, rfl, rfl, rfl, rfl, rfl⟩

/-- The child reads a request that `send_RQ` has built and calls the function for it. -/
theorem serve_request (fs : FileSys) (name : FileName) (mode : Mode) (recvbuff : List Byte) (fromAddr : SockAddr)
    (now : Int) (t : Readings) {opcode : Nat} (h1 : opMin ≤ opcode) (h5 : opcode ≤ opMax)
    (h : (serve fs recvbuff fromAddr (request opcode name mode) now t).status = .waiting) :
    ∃ g rest, g.localfp = initvars.localfp ∧ g.peer = fromAddr ∧ g.recvFirst = false ∧ g.outbox = [] ∧
      serve fs recvbuff fromAddr (request opcode name mode) now t =
        proceed (callHandler .server fs (name.chars ++ 0 :: (modestr mode ++ 0 :: rest))
          (name.chars.length + 1 + (modestr mode).length + 1) g (fsmPtr .server 0 opcode))
          (passEnd t) := by
  have hname := name.fits
  have hmode := (modestr_spec mode).2.1
  unfold maxFilename at hname hmode
  have hlen : (request opcode name mode).length = name.chars.length + 1 + (modestr mode).length + 1 + 2 := by
    simp only [request, List.length_append, length_stshort, List.length_cons, List.length_nil]; omega
  have htake : (request opcode name mode).take maxBuff = request opcode name mode :=
    List.take_of_length_le (by rw [hlen]; unfold maxBuff; omega)
  have hop : ldshort (request opcode name mode) = opcode := by
    unfold opMax at h5
    rw [request, ldshort_stshort_nat]; omega
  obtain ⟨g, rest, hfp, hpeer, hfirst, hout, -, he⟩ := serve_waiting h
  rw [htake, hop, hlen, Nat.add_sub_cancel] at he
  refine ⟨g, rest, hfp, hpeer, hfirst, hout, he.trans ?_⟩
  simp [request]

/-- A child that has accepted a read request of the client has sent the first block. -/
theorem serve_rrq (h : (serve fs recvbuff fromAddr (request opRrq name mode) now t).status = .waiting) :
    ∃ fp g, fileOpen .server fs name.chars .r initvars.localfp = some fp ∧
      g.peer = fromAddr ∧ g.recvFirst = false ∧ g.outbox = [] ∧ g.modetype = mode ∧ g.nextblknum = 1 ∧
      g.localfp = (fileRead fp maxData mode).2 ∧ g.lastsend = (fileRead fp maxData mode).1.length ∧
      serve fs recvbuff fromAddr (request opRrq name mode) now t =
        ⟨.waiting, arm t.start (sendData 1 (fileRead fp maxData mode).1 g)⟩ := by
  obtain ⟨g, rest, hfp, hpeer, hfirst, hout, he⟩ := serve_request fs name mode recvbuff fromAddr now t
    (show opMin ≤ opRrq by decide) (by decide) h
  rw [he] at h ⊢
  simp only [show fsmPtr .server 0 opRrq = .recvRrq from rfl, callHandler] at h ⊢
  cases hr : recvRrq fs (name.chars ++ 0 :: (modestr mode ++ 0 :: rest))
      (name.chars.length + 1 + (modestr mode).length + 1) g with
  | error e => rw [hr] at h; cases h
  | ok r =>
    obtain ⟨g₁, hx, hsend⟩ := recvRrq_ok hr
    obtain ⟨fp, hopen, rfl⟩ := recvXrq_request hx
    rw [hfp] at hopen
    rw [hsend rfl]
    exact ⟨fp, readNext { g with modetype := mode, localfp := fp, nextblknum := 0, lastsend := maxData }, hopen,
      hpeer, hfirst, hout, rfl, rfl, rfl, rfl, rfl⟩

/-- A child that has accepted a write request has acknowledged block 0. -/
theorem serve_wrq (h : (serve fs recvbuff fromAddr (request opWrq name mode) now t).status = .waiting) :
    ∃ fp g, fileOpen .server fs name.chars .w initvars.localfp = some fp ∧
      g.peer = fromAddr ∧ g.recvFirst = false ∧ g.outbox = [] ∧ g.modetype = mode ∧ g.nextblknum = 1 ∧
      g.localfp = fp ∧
      serve fs recvbuff fromAddr (request opWrq name mode) now t = ⟨.waiting, arm t.start (sendAck 0 g)⟩ := by
  obtain ⟨g, rest, hfp, hpeer, hfirst, hout, he⟩ := serve_request fs name mode recvbuff fromAddr now t
    (show opMin ≤ opWrq by decide) (by decide) h
  rw [he] at h ⊢
  simp only [show fsmPtr .server 0 opWrq = .recvWrq from rfl, callHandler] at h ⊢
  cases hr : recvWrq fs (name.chars ++ 0 :: (modestr mode ++ 0 :: rest))
      (name.chars.length + 1 + (modestr mode).length + 1) g with
  | error e => rw [hr] at h; cases h
  | ok r =>
    obtain ⟨g₁, hx, hr'⟩ := bind_eq_ok hr
    cases hr'
    obtain ⟨fp, hopen, rfl⟩ := recvXrq_request hx
    rw [hfp] at hopen
    exact ⟨fp, { g with modetype := mode, localfp := fp, nextblknum := 1 }, hopen, hpeer, hfirst, hout, rfl, rfl, rfl,
      rfl⟩

end Accept

end CodingExercises.Tftp
