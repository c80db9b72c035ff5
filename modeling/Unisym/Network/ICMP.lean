/-
# `ICMP` — echo requests and replies
-/
import Unisym.Network.IPv4

namespace Unisym.Network

/-- `ICMPv4Type::EchoReply` and `ICMPv4Type::EchoRequest` -/
def icmpv4EchoReply : UInt8 := 0
def icmpv4EchoRequest : UInt8 := 8

/-- `ICMPv4EchoView`; `header` has the bytes from the header on. -/
structure ICMPv4EchoView where
  header : Bytes
  payload : Bytes

def parseICMPv4EchoRequest (ipv4 : IPv4PacketView) : Option (Option ICMPv4EchoView) :=
  if ipv4.protocol ≠ IPv4Protocol.icmp.toByte then some none
  else if ipv4.payload.length < 8 then some none
  else do
    let type ← ipv4.payload[0]?
    let code ← ipv4.payload[1]?
    if type ≠ icmpv4EchoRequest ∨ code ≠ 0 then some none
    else if networkChecksum ipv4.payload ≠ 0 then some none
    else some (some ⟨ipv4.payload, ipv4.payload.drop 8⟩)

/-- The reply to the bytes of a request, with some checksum: its type, its code, and the rest of
the request. -/
def icmpv4Reply (payload : Bytes) (checksum : Nat) : Bytes :=
  [icmpv4EchoReply, 0] ++ ethernetWrite16 checksum ++ payload.drop 4

/-- `BuildICMPv4EchoReply`; a buffer without a capacity is a null pointer. -/
def buildICMPv4EchoReply (capacity : Option Nat) (localMac targetMac : MacAddress)
    (localIp : IPv4Address) (request : IPv4PacketView) : Option Bytes :=
  match capacity with
  | none => some []
  | some capacity =>
      let icmpLength := request.payload.length
      let ipv4Length := 20 + icmpLength
      if capacity < 14 + ipv4Length ∨ icmpLength < 8 then some []
      else do
        let identification ← ethernetRead16 request.header 4
        some (ethernetHeader targetMac localMac ethernetTypeIPv4 ++
          buildIPv4Header localIp request.source IPv4Protocol.icmp.toByte (ipv4Length % 2 ^ 16)
            identification 64 ++
          icmpv4Reply request.payload (networkChecksum (icmpv4Reply request.payload 0)))

end Unisym.Network
