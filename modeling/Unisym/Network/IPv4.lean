/-
# `IPv4` — frames and packets

An Ethernet frame and the IPv4 packet in it.  A view has the bytes that its pointers reach.
-/
import Unisym.Network.Wire

namespace Unisym.Network

/-! ## Ethernet -/

def ethernetTypeIPv4 : Nat := 0x0800

structure EthernetFrameView where
  destination : MacAddress
  source : MacAddress
  type : Nat
  payload : Bytes

/-- `ParseEthernetFrame`; a null pointer is no frame. -/
def parseEthernetFrame (raw : Option Bytes) : Option (Option EthernetFrameView) :=
  match raw with
  | none => some none
  | some raw =>
      if raw.length < 14 then some none
      else do
        let destination ← ethernetCopyAddress raw 0
        let source ← ethernetCopyAddress raw 6
        let type ← ethernetRead16 raw 12
        some (some ⟨destination, source, type, raw.drop 14⟩)

/-- The `EthernetHeader` that is written before a packet. -/
def ethernetHeader (destination source : MacAddress) (type : Nat) : Bytes :=
  destination.octets ++ source.octets ++ ethernetWrite16 type

/-! ## Checksums -/

/-- `TCPChecksumAddBytes`, `UDPChecksumAddBytes` and the first loop of `NetworkChecksum` -/
def checksumAddBytes (sum : Nat) : Bytes → Nat
  | [] => sum
  | [b] => (sum + b.toNat <<< 8) % 2 ^ 32
  | b0 :: b1 :: rest => checksumAddBytes ((sum + word16 b0 b1) % 2 ^ 32) rest

/-- The loop that adds the carries; every round makes the sum smaller. -/
def foldCarries : (fuel sum : Nat) → Nat
  | 0, sum => sum
  | fuel + 1, sum =>
      if sum >>> 16 ≠ 0 then foldCarries fuel ((sum &&& 0xFFFF) + sum >>> 16) else sum

/-- `TCPChecksumFold`, and what `NetworkChecksum` returns -/
def checksumFold (sum : Nat) : Nat := (2 ^ 32 - 1 - foldCarries sum sum) % 2 ^ 16

def networkChecksum (data : Bytes) : Nat := checksumFold (checksumAddBytes 0 data)

/-! ## IPv4 -/

inductive IPv4Protocol where
  | icmp
  | tcp
  | udp
deriving DecidableEq

/-- `uint8(protocol)` -/
def IPv4Protocol.toByte : IPv4Protocol → UInt8
  | icmp => 1
  | tcp => 6
  | udp => 17

/-- `IPv4PacketView`; `header` has the bytes from the header on. -/
structure IPv4PacketView where
  header : Bytes
  headerLength : Nat
  totalLength : Nat
  protocol : UInt8
  source : IPv4Address
  destination : IPv4Address
  payload : Bytes

def parseIPv4Packet (ethernet : EthernetFrameView) : Option (Option IPv4PacketView) :=
  if ethernet.type ≠ ethernetTypeIPv4 then some none
  else if ethernet.payload.length < 20 then some none
  else do
    let versionIhl ← ethernet.payload[0]?
    let version := versionIhl.toNat >>> 4
    let headerLength := (versionIhl.toNat &&& 0x0F) * 4
    if version ≠ 4 ∨ headerLength < 20 ∨ ethernet.payload.length < headerLength then some none
    else
      let totalLength ← ethernetRead16 ethernet.payload 2
      if totalLength < headerLength ∨ ethernet.payload.length < totalLength then some none
      else if networkChecksum (ethernet.payload.take headerLength) ≠ 0 then some none
      else
        let protocol ← ethernet.payload[9]?
        let source ← ipv4CopyAddress ethernet.payload 12
        let destination ← ipv4CopyAddress ethernet.payload 16
        some (some ⟨ethernet.payload, headerLength, totalLength, protocol, source, destination,
          (ethernet.payload.drop headerLength).take (totalLength - headerLength)⟩)

/-- The `IPv4Header` with some checksum. -/
def ipv4Header (source destination : IPv4Address) (protocol : UInt8)
    (totalLength identification : Nat) (ttl : UInt8) (checksum : Nat) : Bytes :=
  [0x45, 0] ++ ethernetWrite16 totalLength ++ ethernetWrite16 identification ++ [0, 0] ++
    [ttl, protocol] ++ ethernetWrite16 checksum ++ source.octets ++ destination.octets

def buildIPv4Header (source destination : IPv4Address) (protocol : UInt8)
    (totalLength identification : Nat) (ttl : UInt8) : Bytes :=
  ipv4Header source destination protocol totalLength identification ttl
    (networkChecksum (ipv4Header source destination protocol totalLength identification ttl 0))

end Unisym.Network
