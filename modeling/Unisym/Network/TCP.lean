/-
# `TCP` — TCP segments and connections

Sequence numbers are words of 32 bits.  The control block has what a connection keeps of its
peer; the object around it sends what it is given through its network.
-/
import Unisym.Network.Transport

namespace Unisym.Network

/-! ## Segments -/

/-- `TCPFlagFIN` and the others -/
def tcpFlagFIN : UInt8 := 0x01
def tcpFlagSYN : UInt8 := 0x02
def tcpFlagPSH : UInt8 := 0x08
def tcpFlagACK : UInt8 := 0x10

/-- `TCPSegmentView`; `header` has the bytes from the header on. -/
structure TCPSegmentView where
  header : Bytes
  sourcePort : Nat
  destinationPort : Nat
  sequence : Nat
  acknowledgment : Nat
  headerLength : Nat
  flags : UInt8
  window : Nat
  checksum : Nat
  urgentPointer : Nat
  payload : Bytes

namespace TCPSegmentView

/-- `segment.flags & flag` -/
def has (segment : TCPSegmentView) (flag : UInt8) : Bool := segment.flags &&& flag ≠ 0

end TCPSegmentView

def parseTCPSegment (ipv4 : IPv4PacketView) : Option (Option TCPSegmentView) :=
  if ipv4.protocol ≠ IPv4Protocol.tcp.toByte then some none
  else if ipv4.payload.length < 20 then some none
  else do
    let dataOffsetReserved ← ipv4.payload[12]?
    let headerLength := (dataOffsetReserved.toNat >>> 4) * 4
    if headerLength < 20 ∨ ipv4.payload.length < headerLength then some none
    else
      let sourcePort ← ethernetRead16 ipv4.payload 0
      let destinationPort ← ethernetRead16 ipv4.payload 2
      let sequence ← read32 ipv4.payload 4
      let acknowledgment ← read32 ipv4.payload 8
      let flags ← ipv4.payload[13]?
      let window ← ethernetRead16 ipv4.payload 14
      let checksum ← ethernetRead16 ipv4.payload 16
      let urgentPointer ← ethernetRead16 ipv4.payload 18
      some (some ⟨ipv4.payload, sourcePort, destinationPort, sequence, acknowledgment, headerLength,
        flags, window, checksum, urgentPointer, ipv4.payload.drop headerLength⟩)

/-- `BuildTCPHeader`, for a header of `TCPMinHeaderLength` and no urgent pointer -/
def buildTCPHeader (sourcePort destinationPort sequence acknowledgment : Nat) (flags : UInt8)
    (window checksum : Nat) : Bytes :=
  ethernetWrite16 sourcePort ++ ethernetWrite16 destinationPort ++ write32 sequence ++
    write32 acknowledgment ++ [UInt8.ofNat ((20 / 4) <<< 4), flags] ++ ethernetWrite16 window ++
    ethernetWrite16 checksum ++ ethernetWrite16 0

def tcpIPv4Checksum (source destination : IPv4Address) (tcpPacket : Bytes) : Nat :=
  let sum := checksumAddBytes 0 source.octets
  let sum := checksumAddBytes sum destination.octets
  let sum := (sum + IPv4Protocol.tcp.toByte.toNat) % 2 ^ 32
  let sum := (sum + tcpPacket.length % 2 ^ 16) % 2 ^ 32
  checksumFold (checksumAddBytes sum tcpPacket)

def validateTCPIPv4Checksum (ipv4 : IPv4PacketView) (segment : TCPSegmentView) : Bool :=
  tcpIPv4Checksum ipv4.source ipv4.destination (segment.header.take ipv4.payload.length) = 0

/-! ## Connections -/

structure TCPEndpoint where
  address : IPv4Address
  port : Nat

inductive TCPConnectionState where
  | synReceived
  | established
  | closeWait
  | lastAck
deriving DecidableEq

/-- `TCPConnectionControlBlock`, with the two ends of its context -/
structure TCPConnectionControlBlock where
  localEnd : TCPEndpoint
  remoteEnd : TCPEndpoint
  localNextSequence : Nat
  remoteNextSequence : Nat
  state : TCPConnectionState

def tcpSequenceLength (segment : TCPSegmentView) : Nat :=
  let length := segment.payload.length % 2 ^ 32
  let length := if segment.has tcpFlagSYN then (length + 1) % 2 ^ 32 else length
  if segment.has tcpFlagFIN then (length + 1) % 2 ^ 32 else length

namespace TCPConnectionControlBlock

/-- `TCPBeginPassiveConnection`; of the connection before it nothing is kept. -/
def beginPassive (localEnd remoteEnd : TCPEndpoint) (segment : TCPSegmentView)
    (initialSequence : Nat) : TCPConnectionControlBlock where
  localEnd := localEnd
  remoteEnd := remoteEnd
  localNextSequence := (initialSequence + 1) % 2 ^ 32
  remoteNextSequence := (segment.sequence + 1) % 2 ^ 32
  state := .synReceived

/-- `TCPAcceptHandshakeAck` -/
def acceptHandshakeAck (connection : TCPConnectionControlBlock) (segment : TCPSegmentView) :
    Bool × TCPConnectionControlBlock :=
  if connection.state ≠ .synReceived then (false, connection)
  else if !segment.has tcpFlagACK then (false, connection)
  else if segment.acknowledgment ≠ connection.localNextSequence then (false, connection)
  else (true, { connection with state := .established })

/-- `TCPIsExpectedSegment` -/
def isExpectedSegment (connection : TCPConnectionControlBlock) (segment : TCPSegmentView) : Bool :=
  segment.sequence = connection.remoteNextSequence

/-- `TCPExpectedAcknowledge` -/
def expectedAcknowledge (connection : TCPConnectionControlBlock) (segment : TCPSegmentView) : Nat :=
  if connection.isExpectedSegment segment then
    (connection.remoteNextSequence + tcpSequenceLength segment) % 2 ^ 32
  else connection.remoteNextSequence

/-- `TCPConsumeExpectedSegment` -/
def consumeExpectedSegment (connection : TCPConnectionControlBlock) (segment : TCPSegmentView) :
    Bool × TCPConnectionControlBlock :=
  if !connection.isExpectedSegment segment then (false, connection)
  else
    let connection := { connection with
      remoteNextSequence := (connection.remoteNextSequence + tcpSequenceLength segment) % 2 ^ 32 }
    if segment.has tcpFlagFIN ∧ connection.state ≠ .lastAck then
      (true, { connection with state := .closeWait })
    else (true, connection)

end TCPConnectionControlBlock

/-! ## The object -/

/-- `TCPObject`, without the queue of `Accept`; no capacity is no packet buffer. -/
structure TCPObject where
  network : Option NetworkInterface
  packetCapacity : Option Nat
  control : TCPConnectionControlBlock
  identification : Nat
  window : Nat
  bound : Bool
  connected : Bool

/-- The end that a payload names, or else the one that the object has. -/
def namedEnd (named : TransportEndpoint) (kept : TCPEndpoint) : Option TCPEndpoint :=
  if named.port ≠ 0 then (networkReadIPv4Address named.address).map fun a => ⟨a, named.port⟩
  else some kept

/-- An end that cannot be sent from or to: no port, or the address that is zero. -/
def TCPEndpoint.isUnset (e : TCPEndpoint) : Bool := e.port = 0 || e.address.isZero

/-- The flags of a segment that is sent: only one with data is pushed. -/
def sendFlags (data : Bytes) : UInt8 := if data.isEmpty then tcpFlagACK else tcpFlagACK ||| tcpFlagPSH

namespace TCPObject

/-- The segment that is written into the packet buffer: first with no checksum, then with it. -/
def writeSegment (o : TCPObject) (localEnd remoteEnd : TCPEndpoint) (flags : UInt8)
    (data : Bytes) : Bytes :=
  let header := buildTCPHeader localEnd.port remoteEnd.port o.control.localNextSequence
    o.control.remoteNextSequence flags o.window
  let checksum := tcpIPv4Checksum localEnd.address remoteEnd.address (header 0 ++ data)
  header checksum ++ data

/-- The packet around it, and the object with its identification used. -/
def packSegment (o : TCPObject) (localEnd remoteEnd : TCPEndpoint) (flags : UInt8)
    (data : Bytes) : NetworkPacketContext × TCPObject :=
  (⟨networkAddressIPv4 localEnd.address, networkAddressIPv4 remoteEnd.address,
      IPv4Protocol.tcp.toByte, o.writeSegment localEnd remoteEnd flags data, o.identification, 64⟩,
    { o with identification := (o.identification + 1) % 2 ^ 16 })

/-- The object that counts what was sent. -/
def advance (o : TCPObject) (length : Nat) : TCPObject :=
  { o with control := { o.control with
      localNextSequence := (o.control.localNextSequence + length) % 2 ^ 32 } }

/-- `Send`: what it returns, the object after it, and the packet that the network got. -/
def send (o : TCPObject) (payload : TransportPayloadContext) :
    Int × TCPObject × Option NetworkPacketContext :=
  match o.network, o.packetCapacity, payload.payload with
  | some network, some capacity, some data =>
      if !o.connected then (-1, o, none)
      else
        match namedEnd payload.localEnd o.control.localEnd,
          namedEnd payload.remoteEnd o.control.remoteEnd with
        | some localEnd, some remoteEnd =>
            if localEnd.isUnset || remoteEnd.isUnset then (-1, o, none)
            else if 20 + data.length > capacity ∨ 20 + data.length > network.payloadMtu then
              (-1, o, none)
            else
              let (packet, o) := o.packSegment localEnd remoteEnd (sendFlags data) data
              let sent := network.sendPacket packet
              if sent ≤ 0 then (sent, o, some packet)
              else (data.length, o.advance (data.length % 2 ^ 32), some packet)
        | _, _ => (-1, o, none)
  | _, _, _ => (-1, o, none)

def close (o : TCPObject) : Int × TCPObject × Option NetworkPacketContext :=
  match o.network, o.packetCapacity with
  | some network, some capacity =>
      if !o.connected then (-1, o, none)
      else if o.control.localEnd.isUnset || o.control.remoteEnd.isUnset then (-1, o, none)
      else if 20 > capacity ∨ 20 > network.payloadMtu then (-1, o, none)
      else
        let (packet, o) := o.packSegment o.control.localEnd o.control.remoteEnd
          (tcpFlagFIN ||| tcpFlagACK) []
        let sent := network.sendPacket packet
        if sent ≤ 0 then (sent, o, some packet)
        else
          let o := o.advance 1
          (1, { o with control := { o.control with state := .lastAck }, connected := false },
            some packet)
  | _, _ => (-1, o, none)

def beginPassiveConnection (o : TCPObject) (localEnd remoteEnd : TCPEndpoint)
    (segment : TCPSegmentView) (initialSequence : Nat) : TCPObject :=
  { o with
    control := .beginPassive localEnd remoteEnd segment initialSequence
    bound := true
    connected := false }

def acceptHandshakeAck (o : TCPObject) (segment : TCPSegmentView) : Bool × TCPObject :=
  let (accepted, control) := o.control.acceptHandshakeAck segment
  (accepted, { o with control := control, connected := accepted || o.connected })

def consumeExpectedSegment (o : TCPObject) (segment : TCPSegmentView) : Bool × TCPObject :=
  let (consumed, control) := o.control.consumeExpectedSegment segment
  (consumed, { o with control := control })

end TCPObject

/-! ## Receiving -/

/-- A receiver: the object, the bytes that were appended, and whether a FIN was consumed. -/
structure Receiver where
  object : TCPObject
  appended : Bytes
  finished : Bool

/-- What happens to a receiver: a packet arrives, or its user calls the object. -/
inductive Event where
  | arrives (packet : IPv4PacketView)
  | sends (payload : TransportPayloadContext)
  | closes
  | setsNetwork (network : Option NetworkInterface)

namespace Receiver

/-- A segment arrives: its payload is appended exactly when it is consumed. -/
def consume (r : Receiver) (segment : TCPSegmentView) : Receiver :=
  let (consumed, object) := r.object.consumeExpectedSegment segment
  if consumed then ⟨object, r.appended ++ segment.payload, r.finished || segment.has tcpFlagFIN⟩
  else { r with object := object }

/-- One event; a packet that is no segment is left alone. -/
def step (r : Receiver) : Event → Option Receiver
  | .arrives packet =>
      (parseTCPSegment packet).map fun segment => segment.elim r r.consume
  | .sends payload => some { r with object := (r.object.send payload).2.1 }
  | .closes => some { r with object := r.object.close.2.1 }
  | .setsNetwork network => some { r with object := { r.object with network := network } }

/-- The events one after the other -/
def run (r : Receiver) : List Event → Option Receiver
  | [] => some r
  | event :: events => (r.step event).bind (run · events)

end Receiver

end Unisym.Network
