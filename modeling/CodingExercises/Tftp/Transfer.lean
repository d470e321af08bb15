import CodingExercises.Lib.Channel
import CodingExercises.Lib.StopWait
import CodingExercises.Tftp.GetPut

/-!
# TFTP: a transfer

A client process that executes `get` or `put`, the child that the server forks for the request, and the datagrams in
flight between their two sockets. `Step` is one event at one of the two ends, or a loss in the network; what a datagram
from elsewhere does to an end is the subject of `Peer`. Datagrams to the server's well-known port, where the client
sends its request, leave the pair.
-/

namespace CodingExercises.Tftp

open Lib Lib.StopWait

/-- The command that starts a transfer. -/
inductive Dir
  | get
  | put
deriving DecidableEq, Repr

/-- The program that sends the file. -/
def Dir.sender : Dir → Side
  | .get => .server
  | .put => .client

/-- The program that receives it. -/
def Dir.receiver : Dir → Side
  | .get => .client
  | .put => .server

/-- The opcode of the request. -/
def Dir.opcode : Dir → Nat
  | .get => opRrq
  | .put => opWrq

/-- The stream that the sender reads. -/
def openSource (dir : Dir) (srvFs cliFs : FileSys) (remfname locfname : FileName) (g : Globals) : Option LocalFile :=
  match dir with
  | .get => fileOpen .server srvFs remfname.chars .r initvars.localfp
  | .put => fileOpen .client cliFs locfname.chars .r g.localfp

/-- The stream that the receiver writes. -/
def openTarget (dir : Dir) (srvFs cliFs : FileSys) (remfname locfname : FileName) (g : Globals) : Option LocalFile :=
  match dir with
  | .get => fileOpen .client cliFs locfname.chars .w g.localfp
  | .put => fileOpen .server srvFs remfname.chars .w initvars.localfp

/-- What is fixed during a transfer: the command, the addresses of the server's well-known port, of its child's socket
and of the client's socket, the two file systems, the two names of the file, the client's variables when the command
starts, and the streams that the two ends open. -/
structure Session where
  dir : Dir
  listener : SockAddr
  child : SockAddr
  cli : SockAddr
  same_host : child.sinAddr = listener.sinAddr
  fresh_port : child.sinPort ≠ listener.sinPort
  srvFs : FileSys
  cliFs : FileSys
  remfname : FileName
  locfname : FileName
  g : Globals
  source : LocalFile
  target : LocalFile
  opens_source : openSource dir srvFs cliFs remfname locfname g = some source
  opens_target : openTarget dir srvFs cliFs remfname locfname g = some target

/-- The two ends and the datagrams in flight to each of them. -/
structure Transfer where
  snd : Proc
  rcv : Proc
  data : List (List Byte)
  acks : List (List Byte)

/-- What reaches an address of some datagrams. -/
def arrivals (addr : SockAddr) (out : List Datagram) : List (List Byte) :=
  (out.filter fun d => d.dst = addr).map Datagram.buff

namespace Session

variable (s : Session)

/-- The mode of the transfer. -/
def mode : Mode := s.g.modetype

/-- The bytes that the sender delivers. -/
def stream : List Byte := pending s.mode s.source

/-- The address of an end's socket. -/
def addr : Side → SockAddr
  | .server => s.child
  | .client => s.cli

/-- The file system of an end. -/
def fs : Side → FileSys
  | .server => s.srvFs
  | .client => s.cliFs

/-- The process at an end. -/
def program (side : Side) : Machine Proc Event Datagram := process side (s.fs side)

/-- The event of a datagram from the other end. -/
def hears (fromSide : Side) (buff : List Byte) (t : Readings) : Event := .datagram (s.addr fromSide) buff t

/-- The command at the client, up to its first wait. -/
def command (now : Int) : Option Proc :=
  match s.dir with
  | .get => doGet s.cliFs s.listener now s.remfname s.locfname s.g
  | .put => doPut s.cliFs s.listener now s.remfname s.locfname s.g

/-- A server child and a client as the two ends, with the child's first datagram in flight. -/
def pair (srv cli : Proc) : Transfer :=
  match s.dir with
  | .get => ⟨srv, cli, arrivals s.cli srv.g.outbox, []⟩
  | .put => ⟨cli, srv, [], arrivals s.cli srv.g.outbox⟩

/-- How a transfer starts: the client executes the command, and times out some times before the child that the server
forks for the request accepts it. -/
inductive Started (alarms : List Readings) : Transfer → Prop
  | intro {now now' : Int} {t : Readings} {recvbuff rq : List Byte} {p : Proc} :
      s.command now = some p → p.g.outbox = [⟨s.listener, rq⟩] →
      (serve s.srvFs recvbuff s.cli rq now' t).status = .waiting →
      Started alarms (s.pair (serve s.srvFs recvbuff s.cli rq now' t)
        ((process .client s.cliFs).run p (alarms.map Event.alarm)))

/-- The receiver after an event, with the datagrams in flight to it. -/
def rcvEvent (x : Transfer) (e : Event) (q : List (List Byte)) : Transfer :=
  { x with
    data := q
    rcv := (s.program s.dir.receiver).step x.rcv e
    acks := x.acks ++ arrivals (s.addr s.dir.sender) ((s.program s.dir.receiver).emit x.rcv e) }

/-- The sender after an event, with the datagrams in flight to it. -/
def sndEvent (x : Transfer) (e : Event) (q : List (List Byte)) : Transfer :=
  { x with
    acks := q
    snd := (s.program s.dir.sender).step x.snd e
    data := x.data ++ arrivals (s.addr s.dir.receiver) ((s.program s.dir.sender).emit x.snd e) }

/-- The steps of a transfer over a network. -/
inductive Step (net : Net) : Label → Transfer → Transfer → Prop
  | data {x : Transfer} {b : List Byte} {q : List (List Byte)} (t : Readings) : x.rcv.status = .waiting →
      net.Deliver x.data b q → Step net .toRcv x (s.rcvEvent x (s.hears s.dir.sender b t) q)
  | ack {x : Transfer} {b : List Byte} {q : List (List Byte)} (t : Readings) : x.snd.status = .waiting →
      net.Deliver x.acks b q → Step net .toSnd x (s.sndEvent x (s.hears s.dir.receiver b t) q)
  | rcvAlarm {x : Transfer} (t : Readings) : x.rcv.status = .waiting →
      Step net .timer x (s.rcvEvent x (.alarm t) x.data)
  | sndAlarm {x : Transfer} (t : Readings) : x.snd.status = .waiting →
      Step net .timer x (s.sndEvent x (.alarm t) x.acks)
  | loseData {x : Transfer} {q : List (List Byte)} : Net.Lose x.data q → Step net .lose x { x with data := q }
  | loseAcks {x : Transfer} {q : List (List Byte)} : Net.Lose x.acks q → Step net .lose x { x with acks := q }

/-- Some step of any kind. -/
def Any (net : Net) (x y : Transfer) : Prop := ∃ l, s.Step net l x y

/-- A datagram reaches the end it is for, over channels that keep the order. -/
def Delivery (x y : Transfer) : Prop := s.Step .fifo .toRcv x y ∨ s.Step .fifo .toSnd x y

/-! ## A small network -/

/-- A file system that grants everything, with one content for every file. -/
def sampleFs (content : List Byte) : FileSys where
  stat _ := some 6
  fopen _ mode := match mode with
    | .r => some content
    | .w => some []
  stdout := []

/-- The name `/f`. -/
def sampleName : FileName := ⟨[47, 102], by decide, by decide⟩

/-- A client on one host and a server on another, and a file to transfer in octet mode. -/
def sample (dir : Dir) (content : List Byte) : Session where
  dir := dir
  listener := ⟨1, 69⟩
  child := ⟨1, 4000⟩
  cli := ⟨2, 5000⟩
  same_host := rfl
  fresh_port := by decide
  srvFs := sampleFs content
  cliFs := sampleFs content
  remfname := sampleName
  locfname := sampleName
  g := { initvars with modetype := .binary }
  source := match dir with
    | .get => opened content
    | .put => reopened content initvars.localfp
  target := match dir with
    | .get => reopened [] initvars.localfp
    | .put => opened []
  opens_source := by cases dir <;> rfl
  opens_target := by cases dir <;> rfl

/-- The child in that network. -/
def sampleChild (dir : Dir) (content : List Byte) : Proc :=
  serve (sampleFs content) [] ⟨2, 5000⟩ (request dir.opcode sampleName .binary) 0 ⟨0, 0⟩

/-- The client in that network. -/
def sampleClient (dir : Dir) (content : List Byte) : Proc :=
  ((sample dir content).command 0).getD ⟨.returned 0, initvars⟩

/-- The start of the transfer in that network. -/
def sampleStart (dir : Dir) (content : List Byte) : Transfer :=
  (sample dir content).pair (sampleChild dir content) (sampleClient dir content)

theorem sample_started {dir : Dir} {content : List Byte} (h : (sampleChild dir content).status = .waiting) :
    (sample dir content).Started [] (sampleStart dir content) := by
  cases dir with
  | get => exact @Started.intro (sample .get content) [] 0 0 ⟨0, 0⟩ [] _ _ rfl rfl h
  | put => exact @Started.intro (sample .put content) [] 0 0 ⟨0, 0⟩ [] _ _ rfl rfl h

end Session

end CodingExercises.Tftp
