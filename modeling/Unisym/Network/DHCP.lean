/-
# `DHCP` — the DHCP client

A message is a list of bytes; its options are the bytes behind the fixed header, and an option
is found there by its place.  A function that reads outside the message gives nothing; what it
returns is under that.
-/
import Unisym.Network.Wire

namespace Unisym.Network

/-- `DHCPMessageType`; any byte may be one. -/
inductive DHCPMessageType where
  | discover
  | offer
  | request
  | decline
  | ack
  | nak
  | release
  | inform
  | other (value : UInt8)
deriving DecidableEq

/-- `DHCPMessageType(value)` -/
def DHCPMessageType.ofByte (value : UInt8) : DHCPMessageType :=
  if value = 1 then discover
  else if value = 2 then offer
  else if value = 3 then request
  else if value = 4 then decline
  else if value = 5 then ack
  else if value = 6 then nak
  else if value = 7 then release
  else if value = 8 then inform
  else other value

inductive DHCPOption where
  | pad
  | subnetMask
  | router
  | domainNameServer
  | requestedAddress
  | leaseTime
  | messageType
  | serverIdentifier
  | last
deriving DecidableEq

/-- `uint8(option)` -/
def DHCPOption.toByte : DHCPOption → UInt8
  | pad => 0
  | subnetMask => 1
  | router => 3
  | domainNameServer => 6
  | requestedAddress => 50
  | leaseTime => 51
  | messageType => 53
  | serverIdentifier => 54
  | last => 255

def dhcpMagicCookie : Nat := 0x63825363

/-- `DHCPOptionView`, with the place of its data in the options -/
structure DHCPOptionView where
  code : UInt8
  data : Nat
  length : Nat

structure DHCPMessageView where
  options : Bytes
  xid : Nat
  clientAddress : IPv4Address
  yourAddress : IPv4Address
  serverAddress : IPv4Address
  relayAddress : IPv4Address
deriving DecidableEq

structure DHCPClientConfig where
  address : IPv4Address
  netmask : IPv4Address
  router : IPv4Address
  server : IPv4Address
  dns : IPv4Address
  /-- The first `dns_count` of `dns_servers`. -/
  dnsServers : List IPv4Address
  leaseTime : Nat
  messageType : DHCPMessageType
  hasAddress : Bool
  hasNetmask : Bool
  hasRouter : Bool
  hasServer : Bool
  hasDns : Bool
  hasLeaseTime : Bool
deriving DecidableEq

/-- `DHCPClientConfig{}` -/
def DHCPClientConfig.zero : DHCPClientConfig where
  address := .zero
  netmask := .zero
  router := .zero
  server := .zero
  dns := .zero
  dnsServers := []
  leaseTime := 0
  messageType := .other 0
  hasAddress := false
  hasNetmask := false
  hasRouter := false
  hasServer := false
  hasDns := false
  hasLeaseTime := false

/-! ## Reading -/

/-- `ParseDHCPMessage`; a null pointer is no payload. -/
def parseDHCPMessage (payload : Option Bytes) : Option (Option DHCPMessageView) :=
  match payload with
  | none => some none
  | some payload =>
      if payload.length < 240 then some none
      else do
        let cookie ← read32 payload 236
        if cookie ≠ dhcpMagicCookie then some none
        else
          let xid ← read32 payload 4
          let ciaddr ← ipv4CopyAddress payload 12
          let yiaddr ← ipv4CopyAddress payload 16
          let siaddr ← ipv4CopyAddress payload 20
          let giaddr ← ipv4CopyAddress payload 24
          some (some ⟨payload.drop 240, xid, ciaddr, yiaddr, siaddr, giaddr⟩)

/-- The loop of `DHCPFindOption`. -/
def dhcpFindOptionFrom (options : Bytes) (option : DHCPOption) :
    (fuel index : Nat) → Option (Option DHCPOptionView)
  | 0, _ => none
  | fuel + 1, index =>
      if index < options.length then do
        let code ← options[index]?
        if code = DHCPOption.pad.toByte then dhcpFindOptionFrom options option fuel (index + 1)
        else if code = DHCPOption.last.toByte then some none
        else if index + 1 ≥ options.length then some none
        else
          let length ← options[index + 1]?
          if index + 2 + length.toNat > options.length then some none
          else if code = option.toByte then some (some ⟨code, index + 2, length.toNat⟩)
          else dhcpFindOptionFrom options option fuel (index + 2 + length.toNat)
      else some none

def dhcpFindOption (message : DHCPMessageView) (option : DHCPOption) :
    Option (Option DHCPOptionView) :=
  dhcpFindOptionFrom message.options option (message.options.length + 1) 0

def dhcpReadMessageType (message : DHCPMessageView) : Option (Option DHCPMessageType) := do
  let view ← dhcpFindOption message .messageType
  match view with
  | none => some none
  | some view =>
      if view.length ≠ 1 then some none
      else
        let value ← message.options[view.data]?
        some (some (.ofByte value))

def dhcpReadIPv4Option (message : DHCPMessageView) (option : DHCPOption) :
    Option (Option IPv4Address) := do
  let view ← dhcpFindOption message option
  match view with
  | none => some none
  | some view =>
      if view.length < 4 then some none
      else
        let address ← ipv4CopyAddress message.options view.data
        some (some address)

def dhcpReadIPv4ListOption (message : DHCPMessageView) (option : DHCPOption) (capacity : Nat) :
    Option (List IPv4Address) :=
  if capacity = 0 then some []
  else do
    let view ← dhcpFindOption message option
    match view with
    | none => some []
    | some view =>
        if view.length < 4 then some []
        else
          let count := view.length / 4
          let count := if count > capacity then capacity else count
          (List.range count).mapM fun i => ipv4CopyAddress message.options (view.data + i * 4)

def dhcpReadU32Option (message : DHCPMessageView) (option : DHCPOption) : Option (Option Nat) := do
  let view ← dhcpFindOption message option
  match view with
  | none => some none
  | some view =>
      if view.length ≠ 4 then some none
      else
        let value ← read32 message.options view.data
        some (some value)

/-- `DHCPReadClientConfig`: what it returns, and the configuration -/
def dhcpReadClientConfig (message : DHCPMessageView) : Option (Bool × DHCPClientConfig) := do
  let config := { DHCPClientConfig.zero with
    address := message.yourAddress, hasAddress := !message.yourAddress.isZero }
  let type ← dhcpReadMessageType message
  match type with
  | none => some (false, config)
  | some type =>
      let netmask ← dhcpReadIPv4Option message .subnetMask
      let router ← dhcpReadIPv4Option message .router
      let server ← dhcpReadIPv4Option message .serverIdentifier
      let servers ← dhcpReadIPv4ListOption message .domainNameServer 4
      let leaseTime ← dhcpReadU32Option message .leaseTime
      some (true, { config with
        messageType := type
        netmask := netmask.getD .zero, hasNetmask := netmask.isSome
        router := router.getD .zero, hasRouter := router.isSome
        server := server.getD .zero, hasServer := server.isSome
        dnsServers := servers, hasDns := !servers.isEmpty, dns := servers.headD .zero
        leaseTime := leaseTime.getD 0, hasLeaseTime := leaseTime.isSome })

/-! ## Writing -/

def dhcpAppendOption (code : DHCPOption) (data : Bytes) : Bytes :=
  code.toByte :: UInt8.ofNat data.length :: data

/-- `BuildDHCPRequest`: the message, in a buffer of so many bytes; a null pointer is no buffer. -/
def buildDHCPRequest (capacity : Option Nat) (mac : MacAddress) (xid : Nat)
    (requested server : IPv4Address) : Option Bytes :=
  match capacity with
  | none => none
  | some capacity =>
      if capacity < 256 ∨ mac.isZero ∨ requested.isZero ∨ server.isZero then none
      else some ([1, 1, 6, 0] ++ write32 xid ++ [0, 0] ++ ethernetWrite16 0x8000 ++
        List.replicate 16 0 ++ mac.octets ++ List.replicate 202 0 ++ write32 dhcpMagicCookie ++
        dhcpAppendOption .messageType [3] ++ dhcpAppendOption .requestedAddress requested.octets ++
        dhcpAppendOption .serverIdentifier server.octets ++ [DHCPOption.last.toByte])

/-! ## The client -/

inductive DHCPClientState where
  | init
  | discovering
  | offered
  | requesting
  | bound
  | nak
deriving DecidableEq

structure DHCPClientObject where
  xid : Nat
  state : DHCPClientState
  offer : DHCPClientConfig
  bound : DHCPClientConfig

namespace DHCPClientObject

/-- `DHCPClientObject()`, as `Reset()` leaves it -/
def new : DHCPClientObject := ⟨0, .init, .zero, .zero⟩

/-- `Begin(xid)`; `begin` is a word of the language. -/
def start (xid : Nat) : DHCPClientObject := ⟨xid, .discovering, .zero, .zero⟩

def hasOffer (c : DHCPClientObject) : Bool :=
  c.state = .offered ∨ c.state = .requesting ∨ c.state = .bound

def isBound (c : DHCPClientObject) : Bool := c.state = .bound

/-- `BuildRequest`: the message, if one is built -/
def buildRequest (c : DHCPClientObject) (capacity : Option Nat) (mac : MacAddress) :
    Option Bytes × DHCPClientObject :=
  if !c.hasOffer ∨ !c.offer.hasAddress ∨ !c.offer.hasServer then (none, c)
  else
    match buildDHCPRequest capacity mac c.xid c.offer.address c.offer.server with
    | none => (none, c)
    | some message => (some message, { c with state := .requesting })

/-- `AcceptMessage`: whether the message is accepted, and the configuration it has -/
def acceptMessage (c : DHCPClientObject) (payload : Option Bytes) :
    Option (Option DHCPClientConfig × DHCPClientObject) := do
  let message ← parseDHCPMessage payload
  match message with
  | none => some (none, c)
  | some message =>
      if c.xid ≠ 0 ∧ message.xid ≠ c.xid then some (none, c)
      else
        let (ok, config) ← dhcpReadClientConfig message
        if ok = false then some (none, c)
        else
          match config.messageType with
          | .offer => some (some config, { c with offer := config, state := .offered })
          | .ack => some (some config, { c with bound := config, state := .bound })
          | .nak => some (some config, { c with state := .nak })
          | _ => some (some config, c)

/-! ## Runs -/

/-- A call on a client. -/
inductive Call where
  | start (xid : Nat)
  | buildRequest (capacity : Option Nat) (mac : MacAddress)
  | acceptMessage (payload : Option Bytes)

/-- What a call has returned. -/
inductive Result where
  | started
  | request (message : Option Bytes)
  | accepted (config : Option DHCPClientConfig)

def step (c : DHCPClientObject) : Call → Option (Result × DHCPClientObject)
  | .start xid => some (.started, start xid)
  | .buildRequest capacity mac =>
      some (.request (c.buildRequest capacity mac).1, (c.buildRequest capacity mac).2)
  | .acceptMessage payload => do
      let (config, c) ← c.acceptMessage payload
      some (.accepted config, c)

/-- A call that was made: the client before it, the call, and what it returned. -/
structure Entry where
  before : DHCPClientObject
  call : Call
  result : Result
  after : DHCPClientObject

/-- Calls one after the other, with the record of them. -/
def run (c : DHCPClientObject) : List Call → Option (List Entry × DHCPClientObject)
  | [] => some ([], c)
  | call :: calls => do
      let (result, c') ← c.step call
      let (log, last) ← run c' calls
      some (⟨c, call, result, c'⟩ :: log, last)

end DHCPClientObject

end Unisym.Network
