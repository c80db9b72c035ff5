/-
# `UDP` — datagrams

A datagram has its length in its header, and a checksum of zero is no checksum.
-/
import Unisym.Network.Transport

namespace Unisym.Network

/-- `UDPDatagramView`; `header` has the bytes from the header on. -/
structure UDPDatagramView where
  header : Bytes
  sourcePort : Nat
  destinationPort : Nat
  length : Nat
  checksum : Nat
  payload : Bytes

def parseUDPDatagram (ipv4 : IPv4PacketView) : Option (Option UDPDatagramView) :=
  if ipv4.protocol ≠ IPv4Protocol.udp.toByte then some none
  else if ipv4.payload.length < 8 then some none
  else do
    let length ← ethernetRead16 ipv4.payload 4
    if length < 8 ∨ ipv4.payload.length < length then some none
    else
      let sourcePort ← ethernetRead16 ipv4.payload 0
      let destinationPort ← ethernetRead16 ipv4.payload 2
      let checksum ← ethernetRead16 ipv4.payload 6
      some (some ⟨ipv4.payload, sourcePort, destinationPort, length, checksum,
        (ipv4.payload.drop 8).take (length - 8)⟩)

def buildUDPHeader (sourcePort destinationPort length checksum : Nat) : Bytes :=
  ethernetWrite16 sourcePort ++ ethernetWrite16 destinationPort ++ ethernetWrite16 length ++
    ethernetWrite16 checksum

def udpChecksumFold (sum : Nat) : Nat :=
  let checksum := checksumFold sum
  if checksum ≠ 0 then checksum else 0xFFFF

def udpIPv4Checksum (source destination : IPv4Address) (udpPacket : Bytes) : Nat :=
  let sum := checksumAddBytes 0 source.octets
  let sum := checksumAddBytes sum destination.octets
  let sum := (sum + IPv4Protocol.udp.toByte.toNat) % 2 ^ 32
  let sum := (sum + udpPacket.length % 2 ^ 16) % 2 ^ 32
  udpChecksumFold (checksumAddBytes sum udpPacket)

def validateUDPIPv4Checksum (ipv4 : IPv4PacketView) (datagram : UDPDatagramView) : Bool :=
  datagram.checksum = 0 ||
    udpIPv4Checksum ipv4.source ipv4.destination (datagram.header.take datagram.length) = 0xFFFF

/-! ## The object -/

/-- `UDPObject`; no capacity is no packet buffer. -/
structure UDPObject where
  network : Option NetworkInterface
  packetCapacity : Option Nat
  localEnd : TransportEndpoint
  remoteEnd : TransportEndpoint
  identification : Nat

namespace UDPObject

/-- The end that a payload names, or else the one that the object has -/
def chosenEnd (named kept : TransportEndpoint) : TransportEndpoint :=
  if named.port ≠ 0 then named else kept

/-- The address to send from; for an address that is zero it is that of the network. -/
def sourceAddress (network : NetworkInterface) (localEnd : TransportEndpoint) : NetworkAddress :=
  if localEnd.address.isZero then network.address else localEnd.address

/-- `BuildPacket`: the length that it returns with the packet, or nothing for -1. -/
def buildPacket (o : UDPObject) (payload : TransportPayloadContext) :
    Option (Nat × NetworkPacketContext) × UDPObject :=
  match o.network, o.packetCapacity, payload.payload with
  | some network, some capacity, some data =>
      let localEnd := chosenEnd payload.localEnd o.localEnd
      let remoteEnd := chosenEnd payload.remoteEnd o.remoteEnd
      if localEnd.port = 0 ∨ remoteEnd.port = 0 ∨ remoteEnd.address.isZero then (none, o)
      else
        let address := sourceAddress network localEnd
        match networkReadIPv4Address address, networkReadIPv4Address remoteEnd.address with
        | some source, some destination =>
            let udpLength := 8 + data.length
            if udpLength > capacity ∨ udpLength > network.payloadMtu then (none, o)
            else
              let header := buildUDPHeader localEnd.port remoteEnd.port (udpLength % 2 ^ 16)
              let checksum := udpIPv4Checksum source destination (header 0 ++ data)
              (some (data.length, ⟨address, remoteEnd.address, IPv4Protocol.udp.toByte,
                  header checksum ++ data, o.identification, 64⟩),
                { o with identification := (o.identification + 1) % 2 ^ 16 })
        | _, _ => (none, o)
  | _, _, _ => (none, o)

end UDPObject

end Unisym.Network
