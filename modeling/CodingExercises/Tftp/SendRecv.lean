import CodingExercises.Tftp.File
import CodingExercises.Tftp.Net

/-!
# TFTP: sending and receiving packets

`server/sendrecv.c` and `client/sendrecv_cli.c`. A handler is called with the received bytes behind the opcode (`ptr`,
which runs to the end of `recvbuff`) and their number; it returns what the C function returns, with the variables.

- `dataPacket` and `ackPacket` are the packets as they travel;
- `recvData_next`, `recvData_spoil`, `recvData_again` and `recvData_refuse` say what `recv_DATA` does with a block, and
  `recvAck_next`, `recvAck_done`, `recvAck_again` and `recvAck_refuse` what `recv_ACK` does with an acknowledgement.
-/

namespace CodingExercises.Tftp

/-! ## Packets -/

/-- A DATA packet. -/
def dataPacket (blocknum : Int) (data : List Byte) : List Byte := stshort opData ++ stshort blocknum ++ data

/-- An ACK packet. -/
def ackPacket (blocknum : Int) : List Byte := stshort opAck ++ stshort blocknum

/-- `send_ACK`. -/
def sendAck (blocknum : Int) (g : Globals) : Globals :=
  let g := { g with sendbuff := ackPacket blocknum }
  { netSend g.sendbuff g with opSent := opAck }

/-- `send_DATA`; the data has been read into `sendbuff` by the caller. -/
def sendData (blocknum : Int) (data : List Byte) (g : Globals) : Globals :=
  let g := { g with sendbuff := dataPacket blocknum data }
  { netSend g.sendbuff g with opSent := opData }

@[simp] theorem sendAck_outbox (blocknum : Int) (g : Globals) :
    (sendAck blocknum g).outbox = g.outbox ++ [⟨g.peer, ackPacket blocknum⟩] := rfl

@[simp] theorem sendData_outbox (blocknum : Int) (data : List Byte) (g : Globals) :
    (sendData blocknum data g).outbox = g.outbox ++ [⟨g.peer, dataPacket blocknum data⟩] := rfl

/-- `send_ERROR`: an error packet is not sent again, so the process exits. -/
def sendError {α : Type} (ecode : Nat) (errstring : String) (g : Globals) : Result α :=
  let g := { g with sendbuff := stshort opError ++ stshort ecode ++ bytes errstring ++ [0] }
  .error (.sentError ecode errstring, netSend g.sendbuff g)

/-- `modestr` of `send_RQ`. -/
def modestr : Mode → List Byte
  | .ascii => bytes "netascii"
  | .binary => bytes "octet"

/-- `send_RQ`. -/
def sendRq (opcode : Nat) (fname : List Byte) (mode : Mode) (g : Globals) : Globals :=
  let g := { g with sendbuff := stshort opcode ++ fname ++ [0] ++ modestr mode ++ [0] }
  netSend g.sendbuff g

/-! ## Requests -/

/-- The loop `for(; i < nbytes; i++) if(*ptr++ == '\0') goto OK;` with `n` rounds left: how many bytes come before the
null. -/
def scanNull (missing : Exit) : List Byte → Nat → Except Exit Nat
  | _, 0 => .error missing
  | [], _ + 1 => .error .overrun
  | c :: p, n + 1 => if c = 0 then .ok 0 else (scanNull missing p n).map (· + 1)

/-- `tolower`, in the C locale. -/
def tolower (c : Byte) : Byte := if 65 ≤ c ∧ c ≤ 90 then c + 32 else c

/-- `strcpy` into one of the `MAXFILENAME` arrays of `recv_xRQ`. -/
def strcpy (src : List Byte) : Except Exit (List Byte) :=
  if (cstr src).length < maxFilename then .ok (cstr src) else .error .overrun

/-- `strlccpy` into such an array. -/
def strlccpy (src : List Byte) : Except Exit (List Byte) :=
  if (cstr src).length < maxFilename then .ok ((cstr src).map tolower) else .error .overrun

/-- `dirname` of `recv_xRQ`: the name up to its last slash. -/
def dirname (filename : List Byte) : List Byte := (filename.reverse.dropWhile (· ≠ 47)).reverse

/-- The file name and the mode of a request. The second loop goes on with the counter of the first, which has not
counted the null. -/
def parseRq (ptr : List Byte) (nbytes : Nat) : Except Exit (List Byte × List Byte) := do
  let i ← scanNull .rqFilename ptr nbytes
  let filename ← strcpy ptr
  let saveptr := ptr.drop (i + 1)
  let _ ← scanNull .rqMode saveptr (nbytes - i)
  let mode ← strlccpy saveptr
  return (filename, mode)

/-- The mode of a request, in `recv_xRQ`. -/
def rqMode (mode : List Byte) (g : Globals) : Result Globals :=
  if mode = bytes "netascii" then .ok { g with modetype := .ascii }
  else if mode = bytes "octet" then .ok { g with modetype := .binary }
  else sendError errBadop "Mode isn't netascii or octet" g

/-- The file name of a request, in `recv_xRQ`. -/
def rqAccess (fs : FileSys) (opcode : Nat) (filename : List Byte) (g : Globals) : Result Unit :=
  if filename.head? ≠ some 47 then sendError errAccess "filename must begin with '/'" g
  else if opcode = opRrq then
    match fs.stat filename with
    | none => sendError errAccess "filename get stat buffer error" g
    | some stMode =>
      if stMode &&& 4 = 0 then sendError errAccess "File doesn't allow world read permission" g else .ok ()
  else if opcode = opWrq then
    match fs.stat (dirname filename) with
    | none => sendError errAccess "dirname get stat buffer error" g
    | some stMode =>
      if stMode &&& 2 = 0 then sendError errAccess "Directory doesn't allow world write permission" g else .ok ()
  else .error (.rqOpcode, g)

/-- `recv_xRQ`: verify a request and open the file. -/
def recvXrq (fs : FileSys) (opcode : Nat) (ptr : List Byte) (nbytes : Nat) (g : Globals) : Result Globals := do
  let (filename, mode) ← (parseRq ptr nbytes).mapError fun e => (e, g)
  let g ← rqMode mode g
  rqAccess fs opcode filename g
  match fileOpen .server fs filename (if opcode = opRrq then .r else .w) g.localfp with
  | none => sendError errNofile "file open error" g
  | some fp => return { g with localfp := fp, nextblknum := 0 }

/-- `recv_RQERR`: print the error packet and end the loop. The null is stored behind the message, which lies outside
`recvbuff` when the packet fills it. -/
def recvRqerr (ptr : List Byte) (nbytes : Nat) (g : Globals) : Result (Int × Globals) :=
  let ecode := ldshort ptr
  if maxBuff ≤ nbytes + 2 then .error (.overrun, g)
  else
    let g := { g with recvbuff := g.recvbuff.set (nbytes + 2) 0 }
    .ok (-1, { g with stderr := g.stderr ++ [(ecode, cstr (g.recvbuff.drop 4))] })

/-! ## DATA and ACK -/

/-- What `recv_DATA` does with the data of an expected packet: write it, unless there is none; the server also closes
the file behind the last packet. -/
def storeData (side : Side) (data : List Byte) (nbytes : Nat) (g : Globals) : Result Globals :=
  match if 0 < nbytes then fileWrite g.localfp data g.modetype else .ok g.localfp with
  | .error (e, fp) => .error (e, { g with localfp := fp })
  | .ok fp =>
    match if side = .server ∧ nbytes < maxData then fileClose side fp else .ok () with
    | .error e => .error (e, { g with localfp := fp })
    | .ok _ => .ok { g with localfp := fp }

/-- The end of `recv_DATA`: acknowledge the packet; a short one ends the loop. -/
def ackData (recvblknum : Int) (nbytes : Nat) (g : Globals) : Int × Globals :=
  (if nbytes = maxData then 0 else -1, sendAck recvblknum g)

/-- `recv_DATA`; only the server refuses more than `MAXDATA` bytes. -/
def recvData (side : Side) (ptr : List Byte) (nbytes : Nat) (g : Globals) : Result (Int × Globals) :=
  let recvblknum : Int := ldshort ptr
  let nbytes := nbytes - 2
  let data := (ptr.drop 2).take nbytes
  if side = .server ∧ maxData < nbytes then .error (.dataLength nbytes, g)
  else if recvblknum = g.nextblknum then
    match storeData side data nbytes
        { g with nextblknum := g.nextblknum + 1, totnbytes := g.totnbytes + nbytes } with
    | .error e => .error e
    | .ok g => .ok (ackData recvblknum nbytes g)
  else if recvblknum < g.nextblknum - 1 then .error (.dataBehind, g)
  else if g.nextblknum < recvblknum then .error (.dataAhead, g)
  else .ok (ackData recvblknum nbytes g)

/-- `recv_ACK`. -/
def recvAck (ptr : List Byte) (nbytes : Nat) (g : Globals) : Result (Int × Globals) :=
  let recvblknum : Int := ldshort ptr
  if nbytes ≠ 2 then .error (.ackLength (nbytes + 2), g)
  else if recvblknum = g.nextblknum then
    let r := fileRead g.localfp maxData g.modetype
    let nbytes := r.1.length
    let g := { g with localfp := r.2 }
    if nbytes = 0 ∧ g.lastsend < maxData then .ok (-1, g)
    else
      let g := { g with
        lastsend := nbytes, nextblknum := g.nextblknum + 1, totnbytes := g.totnbytes + nbytes }
      .ok (0, sendData g.nextblknum r.1 g)
  else if recvblknum < g.nextblknum - 1 then .error (.ackBehind, g)
  else if g.nextblknum < recvblknum then .error (.ackAhead, g)
  else .ok (0, g)

/-- `recv_RRQ`: once the file is open, pretend an acknowledgement of block 0. -/
def recvRrq (fs : FileSys) (ptr : List Byte) (nbytes : Nat) (g : Globals) : Result (Int × Globals) := do
  let g ← recvXrq fs opRrq ptr nbytes g
  let (_, g) ← recvAck (stshort 0) 2 { g with lastsend := maxData }
  return (0, g)

/-- `recv_WRQ`: once the file is open, acknowledge block 0. -/
def recvWrq (fs : FileSys) (ptr : List Byte) (nbytes : Nat) (g : Globals) : Result (Int × Globals) := do
  let g ← recvXrq fs opWrq ptr nbytes g
  return (0, sendAck 0 { g with nextblknum := 1 })

/-! ## What the handlers do with a packet -/

section Handlers

variable {side : Side} {g : Globals} {data rest : List Byte} {k a : Nat}

theorem recvData_packet (hlen : data.length ≤ maxData) :
    recvData side (stshort k ++ (data ++ rest)) (data.length + 2) g =
      if ((k % 65536 : Nat) : Int) = g.nextblknum then
        match storeData side data data.length
            { g with nextblknum := g.nextblknum + 1, totnbytes := g.totnbytes + data.length } with
        | .error e => .error e
        | .ok g => .ok (ackData (k % 65536 : Nat) data.length g)
      else if ((k % 65536 : Nat) : Int) < g.nextblknum - 1 then .error (.dataBehind, g)
      else if g.nextblknum < ((k % 65536 : Nat) : Int) then .error (.dataAhead, g)
      else .ok (ackData (k % 65536 : Nat) data.length g) := by
  have hd : ((stshort k ++ (data ++ rest)).drop 2).take data.length = data := by
    simp
  have hn : ¬ (side = .server ∧ maxData < data.length) := fun h => by omega
  simp only [recvData, ldshort_stshort_nat, Nat.add_sub_cancel, hd, if_neg hn]

theorem recvAck_packet : recvAck (stshort a ++ rest) 2 g =
    if ((a % 65536 : Nat) : Int) = g.nextblknum then
      if (fileRead g.localfp maxData g.modetype).1.length = 0 ∧ g.lastsend < maxData then
        .ok (-1, { g with localfp := (fileRead g.localfp maxData g.modetype).2 })
      else
        .ok (0, sendData (g.nextblknum + 1) (fileRead g.localfp maxData g.modetype).1 { g with
          localfp := (fileRead g.localfp maxData g.modetype).2
          lastsend := (fileRead g.localfp maxData g.modetype).1.length
          nextblknum := g.nextblknum + 1
          totnbytes := g.totnbytes + (fileRead g.localfp maxData g.modetype).1.length })
    else if ((a % 65536 : Nat) : Int) < g.nextblknum - 1 then .error (.ackBehind, g)
    else if g.nextblknum < ((a % 65536 : Nat) : Int) then .error (.ackAhead, g)
    else .ok (0, g) := by
  simp only [recvAck, ldshort_stshort_nat, ne_eq, not_true_eq_false, if_false]

/-- What `recv_DATA` keeps is what `file_write` makes of it. -/
theorem storeData_ok {g' : Globals} (h : storeData side data data.length g = .ok g') :
    ∃ fp, fileWrite g.localfp data g.modetype = .ok fp ∧ g' = { g with localfp := fp } := by
  have hw : (if 0 < data.length then fileWrite g.localfp data g.modetype else .ok g.localfp) =
      fileWrite g.localfp data g.modetype := by
    split
    · rfl
    · rename_i hz
      rw [List.eq_nil_of_length_eq_zero (by omega : data.length = 0)]
      exact ((fileSink g.modetype).write_nil g.localfp).symm
  unfold storeData at h
  rw [hw] at h
  split at h
  · cases h
  · rename_i fp hfp
    split at h
    · cases h
    · cases h; exact ⟨fp, hfp, rfl⟩

/-- It fails in netascii, or in the server when a half pair is left over. -/
theorem storeData_error {g' : Globals} {e : Exit} (h : storeData side data data.length g = .error (e, g')) :
    e.OfFile ∧ g'.outbox = g.outbox ∧ (g.modetype = .ascii ∨
      side = .server ∧ (g.localfp.lastcr = true ∨ 0 ≤ g.localfp.nextchar)) := by
  unfold storeData at h
  split at h
  · rename_i e' fp hw
    cases h
    split at hw
    · obtain ⟨hm, he⟩ := fileWrite_error hw
      exact ⟨he, rfl, .inl hm⟩
    · cases hw
  · rename_i fp hw
    split at h
    · rename_i e' hc
      cases h
      split at hc
      · rename_i hside
        obtain ⟨he, hleft⟩ := fileClose_error hc
        refine ⟨he, rfl, ?_⟩
        cases hm : g.modetype with
        | ascii => exact .inl rfl
        | binary =>
          have hfp : fp.lastcr = g.localfp.lastcr ∧ fp.nextchar = g.localfp.nextchar := by
            rw [hm] at hw
            split at hw
            · cases hw; exact ⟨rfl, rfl⟩
            · cases hw; exact ⟨rfl, rfl⟩
          rw [hfp.1, hfp.2] at hleft
          exact .inr ⟨hside.1, hleft⟩
      · cases hc
    · cases h

/-- The expected block is written and acknowledged; -/
theorem recvData_next {g' : Globals} (hlen : data.length ≤ maxData) (hk : ((k % 65536 : Nat) : Int) = g.nextblknum)
    (hs : storeData side data data.length
      { g with nextblknum := g.nextblknum + 1, totnbytes := g.totnbytes + data.length } = .ok g') :
    recvData side (stshort k ++ (data ++ rest)) (data.length + 2) g =
      .ok (ackData (k % 65536 : Nat) data.length g') := by
  rw [recvData_packet hlen, if_pos hk, hs]

/-- the process exits when it cannot be written. -/
theorem recvData_spoil {e : Exit × Globals} (hlen : data.length ≤ maxData)
    (hk : ((k % 65536 : Nat) : Int) = g.nextblknum)
    (hs : storeData side data data.length
      { g with nextblknum := g.nextblknum + 1, totnbytes := g.totnbytes + data.length } = .error e) :
    recvData side (stshort k ++ (data ++ rest)) (data.length + 2) g = .error e := by
  rw [recvData_packet hlen, if_pos hk, hs]

/-- The block before it is acknowledged again; -/
theorem recvData_again (hlen : data.length ≤ maxData) (hk : ((k % 65536 : Nat) : Int) + 1 = g.nextblknum) :
    recvData side (stshort k ++ (data ++ rest)) (data.length + 2) g =
      .ok (ackData (k % 65536 : Nat) data.length g) := by
  rw [recvData_packet hlen, if_neg (by omega), if_neg (by omega), if_neg (by omega)]

/-- any other block is refused. -/
theorem recvData_refuse (side : Side) (rest : List Byte) (hlen : data.length ≤ maxData) (h0 : ((k % 65536 : Nat) : Int) ≠ g.nextblknum)
    (h1 : ((k % 65536 : Nat) : Int) + 1 ≠ g.nextblknum) :
    ∃ why, (why = .dataBehind ∨ why = .dataAhead) ∧
      recvData side (stshort k ++ (data ++ rest)) (data.length + 2) g = .error (why, g) := by
  rw [recvData_packet hlen, if_neg h0]
  by_cases hb : ((k % 65536 : Nat) : Int) < g.nextblknum - 1
  · exact ⟨.dataBehind, .inl rfl, by rw [if_pos hb]⟩
  · exact ⟨.dataAhead, .inr rfl, by rw [if_neg hb, if_pos (by omega)]⟩

/-- `lastsend` and `localfp` once the next block has been read. -/
def readNext (g : Globals) : Globals :=
  { g with
    localfp := (fileRead g.localfp maxData g.modetype).2
    lastsend := (fileRead g.localfp maxData g.modetype).1.length
    nextblknum := g.nextblknum + 1
    totnbytes := g.totnbytes + (fileRead g.localfp maxData g.modetype).1.length }

/-- The expected acknowledgement makes the sender send the next block, -/
theorem recvAck_next (ha : ((a % 65536 : Nat) : Int) = g.nextblknum)
    (hd : ¬ ((fileRead g.localfp maxData g.modetype).1.length = 0 ∧ g.lastsend < maxData)) :
    recvAck (stshort a ++ rest) 2 g =
      .ok (0, sendData (g.nextblknum + 1) (fileRead g.localfp maxData g.modetype).1 (readNext g)) := by
  rw [recvAck_packet, if_pos ha, if_neg hd]; rfl

/-- unless the last block is acknowledged. -/
theorem recvAck_done (ha : ((a % 65536 : Nat) : Int) = g.nextblknum)
    (hd : (fileRead g.localfp maxData g.modetype).1.length = 0 ∧ g.lastsend < maxData) :
    recvAck (stshort a ++ rest) 2 g =
      .ok (-1, { g with localfp := (fileRead g.localfp maxData g.modetype).2 }) := by
  rw [recvAck_packet, if_pos ha, if_pos hd]

/-- The acknowledgement before it is ignored; -/
theorem recvAck_again (ha : ((a % 65536 : Nat) : Int) + 1 = g.nextblknum) :
    recvAck (stshort a ++ rest) 2 g = .ok (0, g) := by
  rw [recvAck_packet, if_neg (by omega), if_neg (by omega), if_neg (by omega)]

/-- any other one is refused. -/
theorem recvAck_refuse (rest : List Byte) (h0 : ((a % 65536 : Nat) : Int) ≠ g.nextblknum)
    (h1 : ((a % 65536 : Nat) : Int) + 1 ≠ g.nextblknum) :
    ∃ why, (why = .ackBehind ∨ why = .ackAhead) ∧ recvAck (stshort a ++ rest) 2 g = .error (why, g) := by
  rw [recvAck_packet, if_neg h0]
  by_cases hb : ((a % 65536 : Nat) : Int) < g.nextblknum - 1
  · exact ⟨.ackBehind, .inl rfl, by rw [if_pos hb]⟩
  · exact ⟨.ackAhead, .inr rfl, by rw [if_neg hb, if_pos (by omega)]⟩

/-- What `recv_ACK` may do with any packet: exit, end the loop, ignore the packet, or send the next block because the
number is the expected one. -/
theorem recvAck_cases (ptr : List Byte) (nbytes : Nat) (g : Globals) :
    (∃ why, recvAck ptr nbytes g = .error (why, g)) ∨
    recvAck ptr nbytes g = .ok (-1, { g with localfp := (fileRead g.localfp maxData g.modetype).2 }) ∨
    recvAck ptr nbytes g = .ok (0, g) ∨
    ((ldshort ptr : Int) = g.nextblknum ∧
      ¬ ((fileRead g.localfp maxData g.modetype).1.length = 0 ∧ g.lastsend < maxData) ∧
      recvAck ptr nbytes g =
        .ok (0, sendData (g.nextblknum + 1) (fileRead g.localfp maxData g.modetype).1 (readNext g))) := by
  by_cases hlen : nbytes = 2
  · by_cases hnum : (ldshort ptr : Int) = g.nextblknum
    · by_cases hd : (fileRead g.localfp maxData g.modetype).1.length = 0 ∧ g.lastsend < maxData
      · right; left
        simp only [recvAck, hlen, ne_eq, not_true_eq_false, if_false, if_pos hnum, if_pos hd]
      · right; right; right
        refine ⟨hnum, hd, ?_⟩
        simp only [recvAck, hlen, ne_eq, not_true_eq_false, if_false, if_pos hnum, if_neg hd]
        rfl
    · by_cases hb : (ldshort ptr : Int) < g.nextblknum - 1
      · left
        exact ⟨.ackBehind, by simp only [recvAck, hlen, ne_eq, not_true_eq_false, if_false, if_neg hnum, if_pos hb]⟩
      · by_cases ha : g.nextblknum < (ldshort ptr : Int)
        · left
          exact ⟨.ackAhead, by
            simp only [recvAck, hlen, ne_eq, not_true_eq_false, if_false, if_neg hnum, if_neg hb, if_pos ha]⟩
        · right; right; left
          simp only [recvAck, hlen, ne_eq, not_true_eq_false, if_false, if_neg hnum, if_neg hb, if_neg ha]
  · left
    exact ⟨.ackLength (nbytes + 2), by simp only [recvAck, ne_eq, hlen, not_false_eq_true, if_true]⟩

end Handlers

end CodingExercises.Tftp
