/-
# `Transport` — the interface of networks

What a transport gets from its user and hands to the network below it.  A `NetworkAddress` has
a family and as many octets as its length says.
-/
import Unisym.Network.IPv4

namespace Unisym.Network

inductive NetworkAddressFamily where
  | unspec
  | ipv4
  | ipv6
deriving DecidableEq

/-- `NetworkAddress`; `octet` has the first `length` of them. -/
structure NetworkAddress where
  family : NetworkAddressFamily
  octet : Bytes
deriving DecidableEq

namespace NetworkAddress

/-- `NetworkAddress{}` -/
def zero : NetworkAddress := ⟨.unspec, []⟩

def isZero (a : NetworkAddress) : Bool := a.octet.all (· == 0)

end NetworkAddress

def networkAddressIPv4 (address : IPv4Address) : NetworkAddress := ⟨.ipv4, address.octets⟩

def networkReadIPv4Address (input : NetworkAddress) : Option IPv4Address :=
  if input.family ≠ .ipv4 ∨ input.octet.length ≠ 4 then none else ipv4CopyAddress input.octet 0

structure NetworkPacketContext where
  source : NetworkAddress
  destination : NetworkAddress
  protocol : UInt8
  payload : Bytes
  identification : Nat
  ttl : UInt8

/-- `NetworkInterface`; `sendPacket` is what the call returns. -/
structure NetworkInterface where
  address : NetworkAddress
  payloadMtu : Nat
  sendPacket : NetworkPacketContext → Int

structure TransportEndpoint where
  address : NetworkAddress
  port : Nat

/-- `TransportPayloadContext`; a null pointer with a length is no payload. -/
structure TransportPayloadContext where
  localEnd : TransportEndpoint
  remoteEnd : TransportEndpoint
  payload : Option Bytes

theorem networkReadIPv4Address_ipv4 (address : IPv4Address) :
    networkReadIPv4Address (networkAddressIPv4 address) = some address := rfl

/-- Only the address with an IPv4 address's octets is read as it. -/
theorem networkReadIPv4Address_eq_some {input : NetworkAddress} {address : IPv4Address}
    (h : networkReadIPv4Address input = some address) : input = networkAddressIPv4 address := by
  obtain ⟨family, octet⟩ := input
  unfold networkReadIPv4Address at h
  split at h
  case isTrue => cases h
  case isFalse hc =>
    rw [not_or, not_not, not_not] at hc
    obtain ⟨rfl, hlength⟩ := hc
    match octet, hlength with
    | [d0, d1, d2, d3], _ =>
      cases h
      rfl

end Unisym.Network
