import Unitas.Lib.Fairness
import Unitas.Tftp.Buffers

/-! A `tftp` transfer in octet mode: `sendfile` and `recvfile`, one of them the client's and
the other that of a peer that follows the same rules, and the network between them. -/
namespace Unitas.Tftp

/-- A request for a transfer, or a packet with a block number of sixteen bits. -/
inductive Packet
  | request
  | data (thBlock : UInt16) (thData : List UInt8)
  | ack (thBlock : UInt16)
  deriving DecidableEq

/-- `sendfile` when it waits in `recvfrom`. `file` is what it has not read yet. -/
structure Sender where
  block : ℕ
  size : ℤ
  bufs : Bufs
  file : List UInt8
  ended : Bool

/-- The packet at `dp`. -/
def Sender.packet (s : Sender) : Packet :=
  if s.block = 0 then .request
  else .data (UInt16.ofNat s.block) ((s.bufs.bfs s.bufs.current).buf.take s.size.toNat)

/-- From `send_data` to `recvfrom`. -/
def Sender.sendData (s : Sender) : Sender × List Packet :=
  let (bufs, file) := readAhead s.bufs s.file
  ({ s with bufs, file }, [s.packet])

/-- The loop's body for a block of data. -/
def Sender.nextBlock (s : Sender) : Sender × List Packet :=
  let (bufs, file) := readit s.bufs s.file
  Sender.sendData { s with bufs, file, size := (bufs.bfs bufs.current).counter }

def Sender.recvfrom (s : Sender) : Packet → Sender × List Packet
  | .ack thBlock =>
    if thBlock.toNat = s.block then
      let s := { s with block := s.block + 1 }
      if s.size = (segSize : ℤ) ∨ s.block = 1 then s.nextBlock else ({ s with ended := true }, [])
    else if thBlock.toNat + 1 = s.block then s.sendData
    else (s, [])
  | _ => (s, [])

/-- `recvfile` when it waits in `recvfrom`. `file` is what it has written. -/
structure Receiver where
  block : ℕ
  ackbuf : Packet
  bufs : Bufs
  file : List UInt8
  ended : Bool

/-- From `send_ack` to `recvfrom`. -/
def Receiver.sendAck (r : Receiver) : Receiver × List Packet :=
  let (bufs, file) := writeBehind r.bufs r.file
  ({ r with bufs, file }, [r.ackbuf])

def Receiver.recvfrom (r : Receiver) : Packet → Receiver × List Packet
  | .data thBlock thData =>
    let r := { r with bufs := r.bufs.store thData }
    if thBlock.toNat = r.block then
      let (bufs, file) := writeit r.bufs thData.length r.file
      let r := { r with bufs, file, ackbuf := .ack (UInt16.ofNat r.block) }
      -- The last acknowledgement is sent once: nothing is received after it.
      if thData.length = segSize then Receiver.sendAck { r with block := r.block + 1 }
      else Receiver.sendAck { r with ended := true }
    else if thBlock.toNat + 1 = r.block then r.sendAck
    else (r, [])
  | _ => (r, [])

/-- The file, which side the client is, the size `makerequest` gives `sendfile`, and how long an
alarm and a block may take. -/
structure Config where
  file : List UInt8
  write : Bool
  requestSize : ℤ
  rexmtval : ℕ
  maxtimeout : ℕ

/-- The client's `sendfile`, which asks with its block `0`. -/
def Config.sendfile (c : Config) : Sender × List Packet :=
  Sender.sendData ⟨0, c.requestSize, rwInit true, c.file, false⟩

/-- The peer's, which starts with the data. -/
def Config.answerRead (c : Config) : Sender × List Packet :=
  Sender.nextBlock ⟨1, 0, rwInit true, c.file, false⟩

/-- The client's `recvfile`, whose first packet is the request. -/
def Config.recvfile (_ : Config) : Receiver × List Packet :=
  Receiver.sendAck ⟨1, .request, rwInit false, [], false⟩

/-- The peer's, which acknowledges the request as block `0`. -/
def Config.answerWrite (_ : Config) : Receiver × List Packet :=
  Receiver.sendAck ⟨1, .ack 0, rwInit false, [], false⟩

/-- The two sides, where a peer that has not been asked is `none`, and every packet that
either has sent. -/
structure State where
  sender : Option Sender
  receiver : Option Receiver
  fromSender : List Packet
  fromReceiver : List Packet

def State.sends (s : State) (x : Sender × List Packet) : State :=
  { s with sender := some x.1, fromSender := s.fromSender ++ x.2 }

def State.replies (s : State) (x : Receiver × List Packet) : State :=
  { s with receiver := some x.1, fromReceiver := s.fromReceiver ++ x.2 }

def Config.init (c : Config) : State :=
  if c.write then State.sends ⟨none, none, [], []⟩ c.sendfile
  else State.replies ⟨none, none, [], []⟩ c.recvfile

inductive Label
  /-- The alarm of a side that waits: `timer` goes back to `timeoutbuf`, or gives up. -/
  | sendTimer | recvTimer
  /-- The network delivers a packet that has been sent, whether or not it has done so before. -/
  | toSender (p : Packet) | toReceiver (p : Packet)
  | idle

/-- A packet comes to the sender. A peer that has its request takes no second one. -/
def Config.toSender (c : Config) (s : State) (p : Packet) : State :=
  match s.sender with
  | none => if p = .request then s.sends c.answerRead else s
  | some x => if x.ended then s else s.sends (x.recvfrom p)

def Config.toReceiver (c : Config) (s : State) (p : Packet) : State :=
  match s.receiver with
  | none => if p = .request then s.replies c.answerWrite else s
  | some x => if x.ended then s else s.replies (x.recvfrom p)

/-- What happens between two sides that have not given up. The packets sent and never delivered
are those the network loses and those that `synchnet` discards. -/
def Config.exchange (c : Config) (s : State) : Label → Option State
  | .sendTimer => (s.sender.filter (!·.ended)).map fun x => s.sends x.sendData
  | .recvTimer => (s.receiver.filter (!·.ended)).map fun x => s.replies x.sendAck
  | .toSender p => if p ∈ s.fromReceiver then some (c.toSender s p) else none
  | .toReceiver p => if p ∈ s.fromSender then some (c.toReceiver s p) else none
  | .idle => some s

/-- How long a side has waited for its block, and whether it has given up. -/
structure Clock where
  timeout : ℕ
  gone : Bool

/-- `timer`: the alarms of a block add up. -/
def Config.timer (c : Config) (k : Clock) : Clock :=
  let timeout := k.timeout + c.rexmtval
  { timeout, gone := c.maxtimeout ≤ timeout }

/-- The loop sets `timeout` to 0 for each block. -/
def Clock.goOn (k : Clock) (block block' : Option ℕ) : Clock :=
  if block = block' then k else { k with timeout := 0 }

/-- The two sides, and the clock of each. -/
structure Transfer where
  state : State
  sendClock : Clock
  recvClock : Clock

def Config.start (c : Config) : Transfer := ⟨c.init, ⟨0, false⟩, ⟨0, false⟩⟩

/-- A side that has given up sends nothing, and takes nothing. There is no alarm in `0` seconds. -/
def Config.step (c : Config) (t : Transfer) : Label → Option Transfer
  | .sendTimer =>
    if c.rexmtval = 0 ∨ t.sendClock.gone then none
    else (c.exchange t.state .sendTimer).map fun s =>
      let k := c.timer t.sendClock
      { t with state := if k.gone then t.state else s, sendClock := k }
  | .recvTimer =>
    if c.rexmtval = 0 ∨ t.recvClock.gone then none
    else (c.exchange t.state .recvTimer).map fun s =>
      let k := c.timer t.recvClock
      { t with state := if k.gone then t.state else s, recvClock := k }
  | .toSender p =>
    if p ∉ t.state.fromReceiver then none
    else if t.sendClock.gone then some t
    else
      let s := c.toSender t.state p
      some { t with
        state := s
        sendClock := t.sendClock.goOn (t.state.sender.map Sender.block)
          (s.sender.map Sender.block) }
  | .toReceiver p =>
    if p ∉ t.state.fromSender then none
    else if t.recvClock.gone then some t
    else
      let s := c.toReceiver t.state p
      some { t with
        state := s
        recvClock := t.recvClock.goOn (t.state.receiver.map Receiver.block)
          (s.receiver.map Receiver.block) }
  | .idle => some t

/-- The bytes written by the receiver. -/
def State.written (s : State) : List UInt8 := (s.receiver.map Receiver.file).getD []

def State.SenderEnded (s : State) : Prop := ∃ x, s.sender = some x ∧ x.ended = true

def State.ReceiverEnded (s : State) : Prop := ∃ x, s.receiver = some x ∧ x.ended = true

end Unitas.Tftp
