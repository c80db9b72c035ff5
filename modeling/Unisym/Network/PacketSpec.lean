/-
# `PacketSpec` — what is built is parsed

A checksum is built over bytes in which its own place is zero, and it makes the sum of the words
come out as all ones.  So a packet that an object sends, put behind an IPv4 header in a frame, is
parsed as what was sent, and so is the reply to an echo request.
-/
import Unisym.Library.OnesSum
import Unisym.Network.TCPSpec
import Unisym.Network.UDP
import Unisym.Network.ICMP

namespace Unisym.Network

open OnesSum Option List

/-! ## Sums -/

theorem checksumAddBytes_eq : (sum : Nat) → (bytes : Bytes) → sum + wordSum bytes < 2 ^ 32 →
    checksumAddBytes sum bytes = sum + wordSum bytes
  | _, [], _ => rfl
  | sum, [b], h => by
    have hlast : sum + b.toNat <<< 8 = sum + wordSum [b] := by rw [Nat.shiftLeft_eq, wordSum]
    rw [checksumAddBytes, hlast]
    exact Nat.mod_eq_of_lt h
  | sum, b0 :: b1 :: rest, h => by
    rw [wordSum] at h
    rw [← Nat.add_assoc] at h
    have hhead : (sum + word16 b0 b1) % 2 ^ 32 = sum + (b0.toNat * 256 + b1.toNat) := by
      rw [word16_eq]
      exact Nat.mod_eq_of_lt (Nat.lt_of_le_of_lt (Nat.le_add_right _ _) h)
    rw [checksumAddBytes, hhead, checksumAddBytes_eq _ rest h, wordSum, Nat.add_assoc]

theorem foldCarries_eq : (fuel sum : Nat) → sum ≤ fuel → foldCarries fuel sum = endAround 65535 sum
  | 0, sum, h => by
    rw [Nat.le_zero.mp h]
    rfl
  | fuel + 1, sum, h => by
    have hhigh : sum >>> 16 = sum / 65536 := Nat.shiftRight_eq_div_pow sum 16
    have hlow : sum &&& 0xFFFF = sum % 65536 := Nat.and_two_pow_sub_one_eq_mod sum 16
    rw [foldCarries, hhigh, hlow]
    split
    case isTrue hc =>
      have hsplit : sum = 65535 * (sum / 65536) + (sum % 65536 + sum / 65536) := by omega
      rw [foldCarries_eq fuel _ (by omega)]
      exact (endAround_carry (by omega) _).symm.trans (congrArg _ hsplit.symm)
    case isFalse hc => exact (endAround_of_le (by omega)).symm

theorem checksumFold_eq (sum : Nat) : checksumFold sum = 65535 - endAround 65535 sum := by
  have hle := endAround_le (m := 65535) (s := sum) (by decide)
  rw [checksumFold, foldCarries_eq sum sum (Nat.le_refl sum)]
  omega

theorem checksumFold_lt (sum : Nat) : checksumFold sum < 2 ^ 16 := by
  rw [checksumFold_eq]
  omega

theorem checksumFold_complement (sum : Nat) : checksumFold (sum + checksumFold sum) = 0 := by
  rw [checksumFold_eq, checksumFold_eq, endAround_complement (by decide)]

/-- The checksum of a datagram, which is never zero, brings it to all ones. -/
theorem udpChecksumFold_complement (sum : Nat) :
    udpChecksumFold (sum + udpChecksumFold sum) = 0xFFFF := by
  rw [udpChecksumFold, udpChecksumFold]
  by_cases h : checksumFold sum = 0
  · have hfull : endAround 65535 sum = 65535 := by
      have hle := endAround_le (m := 65535) (s := sum) (by decide)
      rw [checksumFold_eq] at h
      omega
    have hdone : checksumFold (sum + 0xFFFF) = 0 := by
      rw [checksumFold_eq, endAround_complement_zero (by decide) hfull]
    simp only [h, ne_eq, not_true_eq_false, if_false, hdone]
  · simp only [ne_eq, h, not_false_eq_true, if_true, checksumFold_complement, not_true_eq_false,
      if_false]

/-! ## A checksum in its place -/

variable {pre post data : Bytes} {packet : NetworkPacketContext}

theorem wordSum_checksum (hpre : pre.length % 2 = 0) (c : Nat) :
    wordSum (pre ++ ethernetWrite16 c ++ post) =
      wordSum (pre ++ ethernetWrite16 0 ++ post) + c % 2 ^ 16 := by
  have hword : (UInt8.ofNat (c >>> 8)).toNat * 256 + (UInt8.ofNat c).toNat = c % 2 ^ 16 := by
    rw [← word16_eq, word16_write]
  rw [append_assoc, append_assoc, wordSum_append _ _ hpre, wordSum_append _ _ hpre]
  show wordSum pre + ((UInt8.ofNat (c >>> 8)).toNat * 256 + (UInt8.ofNat c).toNat + wordSum post) =
    wordSum pre + (0 * 256 + 0 + wordSum post) + c % 2 ^ 16
  omega

theorem length_checksum (pre post : Bytes) (c : Nat) :
    (pre ++ ethernetWrite16 c ++ post).length = (pre ++ ethernetWrite16 0 ++ post).length := by
  simp only [length_append, ethernetWrite16, length_cons, length_nil]

theorem networkChecksum_eq (h : data.length ≤ 65535) :
    networkChecksum data = checksumFold (wordSum data) := by
  have hle := wordSum_le data
  rw [networkChecksum, checksumAddBytes_eq 0 data (by omega), Nat.zero_add]

/-- With its checksum in place of the zero the data have the checksum zero. -/
theorem networkChecksum_complete (hpre : pre.length % 2 = 0)
    (h : (pre ++ ethernetWrite16 0 ++ post).length ≤ 65535) :
    networkChecksum (pre ++ ethernetWrite16 (networkChecksum (pre ++ ethernetWrite16 0 ++ post)) ++
      post) = 0 := by
  rw [networkChecksum_eq (by rw [length_checksum]; exact h), networkChecksum_eq h,
    wordSum_checksum hpre, Nat.mod_eq_of_lt (checksumFold_lt _), checksumFold_complement]

/-- What the pseudo header adds to the sum -/
def pseudoSum (source destination : IPv4Address) (protocol : UInt8) (length : Nat) : Nat :=
  wordSum source.octets + wordSum destination.octets + protocol.toNat + length % 2 ^ 16

section

variable (source destination : IPv4Address)
include source destination

theorem pseudoSum_lt (protocol : UInt8) (length : Nat) : pseudoSum source destination protocol length < 2 ^ 20 := by
  have hs : 2 * wordSum source.octets ≤ 65535 * 5 := wordSum_le source.octets
  have hd : 2 * wordSum destination.octets ≤ 65535 * 5 := wordSum_le destination.octets
  have hp := protocol.toNat_lt
  unfold pseudoSum
  omega

/-- The sum over the pseudo header and the packet, as TCP and UDP make it -/
theorem checksumAddBytes_pseudo (protocol : UInt8) {packet : Bytes} (h : packet.length ≤ 65535) :
    checksumAddBytes ((((checksumAddBytes (checksumAddBytes 0 source.octets) destination.octets) +
        protocol.toNat) % 2 ^ 32 + packet.length % 2 ^ 16) % 2 ^ 32) packet =
      pseudoSum source destination protocol packet.length + wordSum packet := by
  have hs : 2 * wordSum source.octets ≤ 65535 * 5 := wordSum_le source.octets
  have hd : 2 * wordSum destination.octets ≤ 65535 * 5 := wordSum_le destination.octets
  have hp := protocol.toNat_lt
  have hw := wordSum_le packet
  have hlt := pseudoSum_lt source destination protocol packet.length
  rw [checksumAddBytes_eq 0 _ (by omega), checksumAddBytes_eq _ destination.octets (by omega)]
  have hsum : ((0 + wordSum source.octets + wordSum destination.octets + protocol.toNat) % 2 ^ 32 +
      packet.length % 2 ^ 16) % 2 ^ 32 = pseudoSum source destination protocol packet.length := by
    unfold pseudoSum
    omega
  rw [hsum, checksumAddBytes_eq _ packet (by omega)]

theorem tcpIPv4Checksum_eq {packet : Bytes} (h : packet.length ≤ 65535) :
    tcpIPv4Checksum source destination packet =
      checksumFold (pseudoSum source destination IPv4Protocol.tcp.toByte packet.length +
        wordSum packet) :=
  congrArg checksumFold (checksumAddBytes_pseudo source destination _ h)

theorem udpIPv4Checksum_eq {packet : Bytes} (h : packet.length ≤ 65535) :
    udpIPv4Checksum source destination packet =
      udpChecksumFold (pseudoSum source destination IPv4Protocol.udp.toByte packet.length +
        wordSum packet) :=
  congrArg udpChecksumFold (checksumAddBytes_pseudo source destination _ h)

theorem tcpIPv4Checksum_complete (hpre : pre.length % 2 = 0)
    (h : (pre ++ ethernetWrite16 0 ++ post).length ≤ 65535) :
    tcpIPv4Checksum source destination (pre ++ ethernetWrite16 (tcpIPv4Checksum source destination
      (pre ++ ethernetWrite16 0 ++ post)) ++ post) = 0 := by
  rw [tcpIPv4Checksum_eq _ _ h, tcpIPv4Checksum_eq _ _ (by rw [length_checksum]; exact h),
    length_checksum, wordSum_checksum hpre (checksumFold _), Nat.mod_eq_of_lt (checksumFold_lt _),
    ← Nat.add_assoc, checksumFold_complement]

end

theorem udpChecksumFold_lt (sum : Nat) : udpChecksumFold sum < 2 ^ 16 := by
  have hlt := checksumFold_lt sum
  unfold udpChecksumFold
  dsimp only
  split <;> omega

theorem udpIPv4Checksum_complete (source destination : IPv4Address)
    (hpre : pre.length % 2 = 0) (h : (pre ++ ethernetWrite16 0 ++ post).length ≤ 65535) :
    udpIPv4Checksum source destination (pre ++ ethernetWrite16 (udpIPv4Checksum source destination
      (pre ++ ethernetWrite16 0 ++ post)) ++ post) = 0xFFFF := by
  rw [udpIPv4Checksum_eq _ _ h, udpIPv4Checksum_eq _ _ (by rw [length_checksum]; exact h),
    length_checksum, wordSum_checksum hpre (udpChecksumFold _), Nat.mod_eq_of_lt (udpChecksumFold_lt _),
    ← Nat.add_assoc, udpChecksumFold_complement]

/-! ## Frames -/

/-- A payload behind an IPv4 header in a frame, with whatever the link adds at the end -/
def wrapIPv4 (target source : MacAddress) (sender receiver : IPv4Address) (protocol : UInt8)
    (identification : Nat) (ttl : UInt8) (payload padding : Bytes) : Bytes :=
  ethernetHeader target source ethernetTypeIPv4 ++
    (buildIPv4Header sender receiver protocol ((20 + payload.length) % 2 ^ 16) identification ttl ++
      (payload ++ padding))

variable {target source : MacAddress} {sender receiver : IPv4Address} {protocol ttl : UInt8}
  {identification : Nat} {payload padding : Bytes}

theorem parseEthernetFrame_wrap :
    parseEthernetFrame (some (wrapIPv4 target source sender receiver protocol identification ttl payload
        padding)) =
      some (some ⟨target, source, ethernetTypeIPv4,
        buildIPv4Header sender receiver protocol ((20 + payload.length) % 2 ^ 16) identification ttl ++
          (payload ++ padding)⟩) := by
  have hlong : ¬(wrapIPv4 target source sender receiver protocol identification ttl payload
      padding).length < 14 := by
    show ¬(_ + 14 < 14)
    omega
  unfold parseEthernetFrame
  dsimp only
  rw [if_neg hlong]
  rfl

theorem networkChecksum_buildIPv4Header (length : Nat) :
    networkChecksum (buildIPv4Header sender receiver protocol length identification ttl) = 0 := by
  have hsplit (c : Nat) : ipv4Header sender receiver protocol length identification ttl c =
      [0x45, 0] ++ ethernetWrite16 length ++ ethernetWrite16 identification ++ [0, 0] ++
        [ttl, protocol] ++ ethernetWrite16 c ++ (sender.octets ++ receiver.octets) := rfl
  rw [buildIPv4Header, hsplit, hsplit]
  exact networkChecksum_complete (show 10 % 2 = 0 from rfl) (show 20 ≤ 65535 by decide)

/-- A header with a right checksum, and at least as many bytes as it counts -/
theorem parseIPv4Packet_header {total checksum : Nat}
    (hsum : networkChecksum (ipv4Header sender receiver protocol total identification ttl checksum) = 0)
    (htotal : total < 2 ^ 16) (hmin : 20 ≤ total) (hmax : total ≤ 20 + data.length) :
    parseIPv4Packet ⟨target, source, ethernetTypeIPv4,
        ipv4Header sender receiver protocol total identification ttl checksum ++ data⟩ =
      some (some ⟨ipv4Header sender receiver protocol total identification ttl checksum ++ data, 20, total,
        protocol, sender, receiver, data.take (total - 20)⟩) := by
  have hlength : (ipv4Header sender receiver protocol total identification ttl checksum ++ data).length =
      data.length + 20 := rfl
  have hversion : (ipv4Header sender receiver protocol total identification ttl checksum ++ data)[0]? =
      some 0x45 := rfl
  have hread : ethernetRead16
      (ipv4Header sender receiver protocol total identification ttl checksum ++ data) 2 = some total := by
    have hword := word16_write total
    rw [Nat.mod_eq_of_lt htotal] at hword
    exact congrArg some hword
  have hprotocol : (ipv4Header sender receiver protocol total identification ttl checksum ++ data)[9]? =
      some protocol := rfl
  have hfrom : ipv4CopyAddress
      (ipv4Header sender receiver protocol total identification ttl checksum ++ data) 12 = some sender := rfl
  have hto : ipv4CopyAddress
      (ipv4Header sender receiver protocol total identification ttl checksum ++ data) 16 = some receiver := rfl
  have htake : (ipv4Header sender receiver protocol total identification ttl checksum ++ data).take 20 =
      ipv4Header sender receiver protocol total identification ttl checksum := rfl
  have hdrop : (ipv4Header sender receiver protocol total identification ttl checksum ++ data).drop 20 =
      data := rfl
  generalize ipv4Header sender receiver protocol total identification ttl checksum = header at *
  have hfour : (0x45 : UInt8).toNat >>> 4 = 4 := rfl
  have hwords : ((0x45 : UInt8).toNat &&& 0x0F) * 4 = 20 := rfl
  unfold parseIPv4Packet
  dsimp only
  rw [if_neg (not_not_intro rfl), if_neg (by omega)]
  simp only [hversion, hfour, hwords, bind_eq_bind, bind_some]
  rw [if_neg (by omega)]
  simp only [hread, bind_some]
  rw [if_neg (by omega), htake, if_neg (not_not_intro hsum)]
  simp only [hprotocol, hfrom, hto, hdrop, bind_some]

theorem parseIPv4Packet_wrap (h : payload.length ≤ 65515) :
    parseIPv4Packet ⟨target, source, ethernetTypeIPv4,
        buildIPv4Header sender receiver protocol ((20 + payload.length) % 2 ^ 16) identification ttl ++
          (payload ++ padding)⟩ =
      some (some ⟨buildIPv4Header sender receiver protocol ((20 + payload.length) % 2 ^ 16)
          identification ttl ++ (payload ++ padding), 20, 20 + payload.length, protocol, sender, receiver,
        payload⟩) := by
  have hlt : 20 + payload.length < 2 ^ 16 := by omega
  have hmax : 20 + payload.length ≤ 20 + (payload ++ padding).length := by
    rw [length_append]
    omega
  have htake : (payload ++ padding).take (20 + payload.length - 20) = payload := by
    rw [Nat.add_sub_cancel_left, take_left]
  rw [Nat.mod_eq_of_lt hlt]
  refine (parseIPv4Packet_header (networkChecksum_buildIPv4Header _) hlt (by omega) hmax).trans ?_
  rw [htake]
  rfl

/-- What a network does with a packet: the addresses are read, and it is put behind a header in a
frame. -/
def wrapPacket (target source : MacAddress) (packet : NetworkPacketContext) (padding : Bytes) :
    Option Bytes := do
  let sender ← networkReadIPv4Address packet.source
  let receiver ← networkReadIPv4Address packet.destination
  some (wrapIPv4 target source sender receiver packet.protocol packet.identification packet.ttl
    packet.payload padding)

/-- A packet in a frame, and what is parsed of both -/
structure Carries (target source : MacAddress) (frame : Bytes) (packet : NetworkPacketContext)
    (ethernet : EthernetFrameView) (ipv4 : IPv4PacketView) : Prop where
  parsedFrame : parseEthernetFrame (some frame) = some (some ethernet)
  targetMac : ethernet.destination = target
  sourceMac : ethernet.source = source
  parsedPacket : parseIPv4Packet ethernet = some (some ipv4)
  sourceAddress : networkAddressIPv4 ipv4.source = packet.source
  destinationAddress : networkAddressIPv4 ipv4.destination = packet.destination
  protocolByte : ipv4.protocol = packet.protocol
  data : ipv4.payload = packet.payload

theorem wrapPacket_carries (target source : MacAddress) (padding : Bytes) (hsource : packet.source = networkAddressIPv4 sender)
    (hdestination : packet.destination = networkAddressIPv4 receiver)
    (h : packet.payload.length ≤ 65515) :
    ∃ frame ethernet ipv4, wrapPacket target source packet padding = some frame ∧
      Carries target source frame packet ethernet ipv4 ∧ ipv4.source = sender ∧
      ipv4.destination = receiver := by
  have hwrap : wrapPacket target source packet padding = some (wrapIPv4 target source sender receiver
      packet.protocol packet.identification packet.ttl packet.payload padding) := by
    rw [wrapPacket, hsource, hdestination, networkReadIPv4Address_ipv4, networkReadIPv4Address_ipv4]
    rfl
  exact ⟨_, _, _, hwrap, ⟨parseEthernetFrame_wrap, rfl, rfl, parseIPv4Packet_wrap h, hsource.symm,
    hdestination.symm, rfl, rfl⟩, rfl, rfl⟩

/-! ## Segments -/

/-- The ranges of the types of the fields -/
structure TCPObject.InRange (o : TCPObject) : Prop where
  localNext : o.control.localNextSequence < 2 ^ 32
  remoteNext : o.control.remoteNextSequence < 2 ^ 32
  window : o.window < 2 ^ 16
  localPort : o.control.localEnd.port < 2 ^ 16
  remotePort : o.control.remoteEnd.port < 2 ^ 16

structure TransportPayloadContext.InRange (payload : TransportPayloadContext) : Prop where
  localPort : payload.localEnd.port < 2 ^ 16
  remotePort : payload.remoteEnd.port < 2 ^ 16

theorem namedEnd_port_lt {named : TransportEndpoint} {kept e : TCPEndpoint}
    (h : namedEnd named kept = some e) (hnamed : named.port < 2 ^ 16) (hkept : kept.port < 2 ^ 16) :
    e.port < 2 ^ 16 := by
  unfold namedEnd at h
  split at h
  · obtain ⟨a, -, rfl⟩ := map_eq_some_iff.mp h
    exact hnamed
  · cases h
    exact hkept

/-- The segment that an object writes, as it is on the wire. -/
def TCPObject.written (o : TCPObject) (localEnd remoteEnd : TCPEndpoint) (flags : UInt8)
    (data : Bytes) (checksum : Nat) : WrittenSegment where
  sourcePort := localEnd.port
  destinationPort := remoteEnd.port
  sequence := o.control.localNextSequence
  acknowledgment := o.control.remoteNextSequence
  offset := UInt8.ofNat ((20 / 4) <<< 4)
  flags := flags
  window := o.window
  checksum := checksum
  urgentPointer := 0
  options := []
  payload := data
  offset_eq := by decide

/-- Its checksum is that of the same bytes with a zero in its place. -/
theorem TCPObject.writeSegment_eq (o : TCPObject) (localEnd remoteEnd : TCPEndpoint)
    (flags : UInt8) (data : Bytes) :
    o.writeSegment localEnd remoteEnd flags data =
      (o.written localEnd remoteEnd flags data (tcpIPv4Checksum localEnd.address remoteEnd.address
        (o.written localEnd remoteEnd flags data 0).bytes)).bytes := rfl

theorem TCPObject.writeSegment_checksum (o : TCPObject) (localEnd remoteEnd : TCPEndpoint)
    (flags : UInt8) (h : data.length ≤ 65515) :
    tcpIPv4Checksum localEnd.address remoteEnd.address (o.writeSegment localEnd remoteEnd flags data)
      = 0 := by
  have hsplit (checksum : Nat) : (o.written localEnd remoteEnd flags data checksum).bytes =
      ethernetWrite16 localEnd.port ++ ethernetWrite16 remoteEnd.port ++
        write32 o.control.localNextSequence ++ write32 o.control.remoteNextSequence ++
        [UInt8.ofNat ((20 / 4) <<< 4), flags] ++ ethernetWrite16 o.window ++
        ethernetWrite16 checksum ++ (ethernetWrite16 0 ++ data) := rfl
  have hlength := (o.written localEnd remoteEnd flags data 0).length_bytes
  rw [hsplit] at hlength
  rw [TCPObject.writeSegment_eq, hsplit, hsplit]
  refine tcpIPv4Checksum_complete _ _ (show 16 % 2 = 0 from rfl) ?_
  rw [hlength]
  show 20 + (0 + data.length) ≤ 65535
  omega

/-- A packet of `Send` is a segment from one end to the other, no longer than the network takes. -/
theorem TCPObject.send_packet {o : TCPObject} {payload : TransportPayloadContext} (h : (o.send payload).2.2 = some packet) :
    ∃ network data localEnd remoteEnd, o.network = some network ∧ payload.payload = some data ∧
      namedEnd payload.localEnd o.control.localEnd = some localEnd ∧
      namedEnd payload.remoteEnd o.control.remoteEnd = some remoteEnd ∧
      20 + data.length ≤ network.payloadMtu ∧
      packet = (o.packSegment localEnd remoteEnd (sendFlags data) data).1 := by
  revert h
  unfold TCPObject.send
  split
  case h_2 => nofun
  case h_1 network capacity data hnetwork hcapacity hdata =>
    split
    case isTrue => nofun
    case isFalse =>
      split
      case h_2 => nofun
      case h_1 localEnd remoteEnd hlocal hremote =>
        split
        case isTrue => nofun
        case isFalse =>
          split
          case isTrue => nofun
          case isFalse hfits =>
            rw [not_or] at hfits
            intro h
            refine ⟨network, data, localEnd, remoteEnd, hnetwork, hdata, hlocal, hremote, by omega, ?_⟩
            dsimp only [TCPObject.packSegment] at h
            split at h
            · exact (Option.some.inj h).symm
            · exact (Option.some.inj h).symm

/-- A packet of `Send`, in a frame, is parsed as a segment between the two ends, with the numbers of
the connection, the data and a checksum that is right. -/
def SegmentAccepted (o : TCPObject) (payload : TransportPayloadContext)
    (packet : NetworkPacketContext) (target source : MacAddress) (padding : Bytes) : Prop :=
  ∃ localEnd remoteEnd data frame ethernet ipv4 segment,
    namedEnd payload.localEnd o.control.localEnd = some localEnd ∧
    namedEnd payload.remoteEnd o.control.remoteEnd = some remoteEnd ∧
    payload.payload = some data ∧
    wrapPacket target source packet padding = some frame ∧
    Carries target source frame packet ethernet ipv4 ∧
    ipv4.source = localEnd.address ∧ ipv4.destination = remoteEnd.address ∧
    parseTCPSegment ipv4 = some (some segment) ∧
    segment.sourcePort = localEnd.port ∧ segment.destinationPort = remoteEnd.port ∧
    segment.sequence = o.control.localNextSequence ∧
    segment.acknowledgment = o.control.remoteNextSequence ∧
    segment.flags = sendFlags data ∧ segment.window = o.window ∧ segment.payload = data ∧
    validateTCPIPv4Checksum ipv4 segment = true

theorem segment_accepted {o : TCPObject} {payload : TransportPayloadContext} (hobject : o.InRange) (hpayload : payload.InRange)
    (hmtu : ∀ network, o.network = some network → network.payloadMtu ≤ 65515)
    (hsend : (o.send payload).2.2 = some packet) (target source : MacAddress) (padding : Bytes) :
    SegmentAccepted o payload packet target source padding := by
  obtain ⟨network, data, localEnd, remoteEnd, hnetwork, hdata, hlocal, hremote, hfits, rfl⟩ :=
    TCPObject.send_packet hsend
  have hlong := hmtu network hnetwork
  have hbytes := o.writeSegment_eq localEnd remoteEnd (sendFlags data) data
  generalize hw : o.written localEnd remoteEnd (sendFlags data) data (tcpIPv4Checksum
    localEnd.address remoteEnd.address (o.written localEnd remoteEnd (sendFlags data) data 0).bytes)
      = w at hbytes
  have hlength : (o.packSegment localEnd remoteEnd (sendFlags data) data).1.payload.length ≤
      65515 := by
    show (o.writeSegment localEnd remoteEnd (sendFlags data) data).length ≤ 65515
    rw [hbytes, w.length_bytes, ← hw]
    show 20 + (0 + data.length) ≤ 65515
    omega
  obtain ⟨frame, ethernet, ipv4, hframe, hcarries, hsource, hdestination⟩ :=
    wrapPacket_carries target source padding rfl rfl hlength
  have hparsed := w.parse_bytes hcarries.protocolByte (hcarries.data.trans hbytes)
  refine ⟨localEnd, remoteEnd, data, frame, ethernet, ipv4, w.view, hlocal, hremote, hdata, hframe,
    hcarries, hsource, hdestination, hparsed, ?_⟩
  rw [← hw]
  refine ⟨Nat.mod_eq_of_lt (namedEnd_port_lt hlocal hpayload.localPort hobject.localPort),
    Nat.mod_eq_of_lt (namedEnd_port_lt hremote hpayload.remotePort hobject.remotePort),
    Nat.mod_eq_of_lt hobject.localNext, Nat.mod_eq_of_lt hobject.remoteNext, rfl,
    Nat.mod_eq_of_lt hobject.window, rfl, ?_⟩
  have hzero := o.writeSegment_checksum localEnd remoteEnd (sendFlags data)
    (show data.length ≤ 65515 by omega)
  have hheader : w.view.header.take ipv4.payload.length = w.bytes := by
    rw [hcarries.data]
    show w.bytes.take (o.writeSegment localEnd remoteEnd (sendFlags data) data).length = w.bytes
    rw [hbytes, take_length]
  rw [hw]
  unfold validateTCPIPv4Checksum
  rw [hheader, hsource, hdestination, ← hbytes, hzero]
  rfl

/-! ## Datagrams -/

/-- A packet with the bytes of a datagram is parsed as it. -/
theorem parseUDPDatagram_header {ipv4 : IPv4PacketView} {sourcePort destinationPort checksum : Nat} (hprotocol : ipv4.protocol = IPv4Protocol.udp.toByte)
    (hpayload : ipv4.payload =
      buildUDPHeader sourcePort destinationPort (8 + data.length) checksum ++ data)
    (hlength : 8 + data.length < 2 ^ 16) :
    parseUDPDatagram ipv4 = some (some ⟨ipv4.payload, sourcePort % 2 ^ 16,
      destinationPort % 2 ^ 16, 8 + data.length, checksum % 2 ^ 16, data⟩) := by
  have htotal : ipv4.payload.length = data.length + 8 := by
    rw [hpayload]
    rfl
  have hsource : ethernetRead16 ipv4.payload 0 = some (sourcePort % 2 ^ 16) := by
    rw [hpayload]
    exact congrArg some (word16_write _)
  have hdestination : ethernetRead16 ipv4.payload 2 = some (destinationPort % 2 ^ 16) := by
    rw [hpayload]
    exact congrArg some (word16_write _)
  have hread : ethernetRead16 ipv4.payload 4 = some (8 + data.length) := by
    rw [hpayload]
    exact congrArg some ((word16_write _).trans (Nat.mod_eq_of_lt hlength))
  have hchecksum : ethernetRead16 ipv4.payload 6 = some (checksum % 2 ^ 16) := by
    rw [hpayload]
    exact congrArg some (word16_write _)
  have hdata : (ipv4.payload.drop 8).take (8 + data.length - 8) = data := by
    have hdrop : ipv4.payload.drop 8 = data := by
      rw [hpayload]
      rfl
    rw [hdrop, Nat.add_sub_cancel_left, take_length]
  unfold parseUDPDatagram
  rw [if_neg (not_not_intro hprotocol), if_neg (by omega)]
  simp only [hread, bind_eq_bind, bind_some]
  rw [if_neg (by omega)]
  simp only [hsource, hdestination, hchecksum, hdata, bind_some]

/-- The ranges of the types of the fields -/
structure UDPObject.InRange (o : UDPObject) : Prop where
  localPort : o.localEnd.port < 2 ^ 16
  remotePort : o.remoteEnd.port < 2 ^ 16

theorem UDPObject.chosenEnd_port_lt {named kept : TransportEndpoint} (hnamed : named.port < 2 ^ 16)
    (hkept : kept.port < 2 ^ 16) : (UDPObject.chosenEnd named kept).port < 2 ^ 16 := by
  unfold UDPObject.chosenEnd
  split
  · exact hnamed
  · exact hkept

theorem UDPObject.buildPacket_packet {o : UDPObject} {payload : TransportPayloadContext} {length : Nat}
    (h : (o.buildPacket payload).1 = some (length, packet)) :
    ∃ network data sender receiver, o.network = some network ∧ payload.payload = some data ∧
      8 + data.length ≤ network.payloadMtu ∧
      packet.source = networkAddressIPv4 sender ∧
      packet.source = sourceAddress network (chosenEnd payload.localEnd o.localEnd) ∧
      packet.destination = networkAddressIPv4 receiver ∧
      packet.destination = (chosenEnd payload.remoteEnd o.remoteEnd).address ∧
      packet.protocol = IPv4Protocol.udp.toByte ∧
      packet.payload = buildUDPHeader (chosenEnd payload.localEnd o.localEnd).port
        (chosenEnd payload.remoteEnd o.remoteEnd).port ((8 + data.length) % 2 ^ 16)
        (udpIPv4Checksum sender receiver (buildUDPHeader (chosenEnd payload.localEnd o.localEnd).port
          (chosenEnd payload.remoteEnd o.remoteEnd).port ((8 + data.length) % 2 ^ 16) 0 ++ data)) ++
        data := by
  revert h
  unfold UDPObject.buildPacket
  split
  case h_2 => nofun
  case h_1 network capacity data hnetwork hcapacity hdata =>
    dsimp only
    split
    case isTrue => nofun
    case isFalse =>
      split
      case h_2 => nofun
      case h_1 sender receiver hsender hreceiver =>
        split
        case isTrue => nofun
        case isFalse hfits =>
          rw [not_or] at hfits
          intro h
          cases h
          exact ⟨network, data, sender, receiver, hnetwork, hdata, by omega,
            networkReadIPv4Address_eq_some hsender, rfl, networkReadIPv4Address_eq_some hreceiver,
            rfl, rfl, rfl⟩

/-- A packet of `BuildPacket`, in a frame, is parsed as a datagram between the two ends, with the
data and a checksum that is right. -/
def DatagramAccepted (o : UDPObject) (payload : TransportPayloadContext)
    (packet : NetworkPacketContext) (target source : MacAddress) (padding : Bytes) : Prop :=
  ∃ network data frame ethernet ipv4 datagram,
    o.network = some network ∧ payload.payload = some data ∧
    packet.source =
      UDPObject.sourceAddress network (UDPObject.chosenEnd payload.localEnd o.localEnd) ∧
    packet.destination = (UDPObject.chosenEnd payload.remoteEnd o.remoteEnd).address ∧
    wrapPacket target source packet padding = some frame ∧
    Carries target source frame packet ethernet ipv4 ∧
    parseUDPDatagram ipv4 = some (some datagram) ∧
    datagram.sourcePort = (UDPObject.chosenEnd payload.localEnd o.localEnd).port ∧
    datagram.destinationPort = (UDPObject.chosenEnd payload.remoteEnd o.remoteEnd).port ∧
    datagram.payload = data ∧ validateUDPIPv4Checksum ipv4 datagram = true

theorem datagram_accepted {o : UDPObject} {payload : TransportPayloadContext} {length : Nat} (hobject : o.InRange) (hpayload : payload.InRange)
    (hmtu : ∀ network, o.network = some network → network.payloadMtu ≤ 65515)
    (hbuild : (o.buildPacket payload).1 = some (length, packet)) (target source : MacAddress)
    (padding : Bytes) : DatagramAccepted o payload packet target source padding := by
  obtain ⟨network, data, sender, receiver, hnetwork, hdata, hfits, hsender, hlocal, hreceiver,
    hremote, hprotocol, hbytes⟩ := UDPObject.buildPacket_packet hbuild
  have hlong := hmtu network hnetwork
  have hlt : 8 + data.length < 2 ^ 16 := by omega
  rw [Nat.mod_eq_of_lt hlt] at hbytes
  generalize hl : (UDPObject.chosenEnd payload.localEnd o.localEnd).port = localPort at hbytes ⊢
  generalize hr : (UDPObject.chosenEnd payload.remoteEnd o.remoteEnd).port = remotePort at hbytes ⊢
  have hl' := UDPObject.chosenEnd_port_lt hpayload.localPort hobject.localPort
  have hr' := UDPObject.chosenEnd_port_lt hpayload.remotePort hobject.remotePort
  rw [hl] at hl'
  rw [hr] at hr'
  have hsplit (checksum : Nat) : buildUDPHeader localPort remotePort (8 + data.length) checksum ++
      data = ethernetWrite16 localPort ++ ethernetWrite16 remotePort ++
        ethernetWrite16 (8 + data.length) ++ ethernetWrite16 checksum ++ data := rfl
  have hlength : packet.payload.length = data.length + 8 := by
    rw [hbytes]
    rfl
  have hsum : udpIPv4Checksum sender receiver packet.payload = 0xFFFF := by
    rw [hbytes, hsplit, hsplit]
    refine udpIPv4Checksum_complete _ _ (show 6 % 2 = 0 from rfl) ?_
    show data.length + 8 ≤ 65535
    omega
  obtain ⟨frame, ethernet, ipv4, hframe, hcarries, hsource, hdestination⟩ :=
    wrapPacket_carries target source padding hsender hreceiver (by omega)
  have hparsed := parseUDPDatagram_header (hcarries.protocolByte.trans hprotocol)
    (hcarries.data.trans hbytes) hlt
  refine ⟨network, data, frame, ethernet, ipv4, _, hnetwork, hdata, hlocal, hremote, hframe,
    hcarries, hparsed, (Nat.mod_eq_of_lt hl').trans hl.symm,
    (Nat.mod_eq_of_lt hr').trans hr.symm, rfl, ?_⟩
  have hheader : ipv4.payload.take (8 + data.length) = packet.payload := by
    rw [hcarries.data, ← Nat.add_comm data.length, ← hlength, take_length]
  unfold validateUDPIPv4Checksum
  dsimp only
  rw [hheader, hsource, hdestination, hsum]
  exact Bool.or_true _

/-! ## Echo replies -/

theorem ethernetRead16_lt {i n : Nat} (h : ethernetRead16 data i = some n) :
    n < 2 ^ 16 := by
  obtain ⟨d0, -, h⟩ := bind_eq_some_iff.mp h
  obtain ⟨d1, -, h⟩ := bind_eq_some_iff.mp h
  cases h
  exact word16_lt d0 d1

/-- A packet that is parsed has a whole header, and its payload fits behind another one. -/
theorem parseIPv4Packet_bounds {ethernet : EthernetFrameView} {packet : IPv4PacketView}
    (h : parseIPv4Packet ethernet = some (some packet)) :
    20 ≤ packet.header.length ∧ packet.payload.length ≤ 65515 := by
  unfold parseIPv4Packet at h
  split at h
  case isTrue => cases h
  case isFalse =>
    split at h
    case isTrue => cases h
    case isFalse hlong =>
      obtain ⟨versionIhl, -, h⟩ := bind_eq_some_iff.mp h
      dsimp only at h
      split at h
      case isTrue => cases h
      case isFalse hheader =>
        obtain ⟨total, htotal, h⟩ := bind_eq_some_iff.mp h
        have hlt := ethernetRead16_lt htotal
        split at h
        case isTrue => cases h
        case isFalse hfits =>
          split at h
          case isTrue => cases h
          case isFalse =>
            obtain ⟨protocol, -, h⟩ := bind_eq_some_iff.mp h
            obtain ⟨source, -, h⟩ := bind_eq_some_iff.mp h
            obtain ⟨destination, -, h⟩ := bind_eq_some_iff.mp h
            cases h
            dsimp only
            rw [length_take]
            omega

theorem parseICMPv4EchoRequest_code {request : IPv4PacketView} {echo : ICMPv4EchoView}
    (h : parseICMPv4EchoRequest request = some (some echo)) :
    8 ≤ request.payload.length ∧ request.payload[1]? = some 0 := by
  unfold parseICMPv4EchoRequest at h
  split at h
  case isTrue => cases h
  case isFalse =>
    split at h
    case isTrue => cases h
    case isFalse hlong =>
      obtain ⟨type, -, h⟩ := bind_eq_some_iff.mp h
      obtain ⟨code, hcode, h⟩ := bind_eq_some_iff.mp h
      split at h
      case isTrue => cases h
      case isFalse hecho =>
        rw [not_or, not_not, not_not] at hecho
        rw [hcode, hecho.2]
        exact ⟨by omega, rfl⟩

theorem length_icmpv4Reply {request : Bytes} (h : 4 ≤ request.length) (checksum : Nat) :
    (icmpv4Reply request checksum).length = request.length := by
  show (request.drop 4).length + 4 = request.length
  rw [length_drop]
  omega

/-- Behind its first four bytes, and at the code, the reply has the bytes of the request. -/
theorem icmpv4Reply_getElem? {request : Bytes} (hcode : request[1]? = some 0) (checksum : Nat) :
    (i : Nat) → i ≠ 0 → i ≠ 2 → i ≠ 3 → (icmpv4Reply request checksum)[i]? = request[i]?
  | 0, h, _, _ => absurd rfl h
  | 1, _, _, _ => hcode.symm
  | 2, _, h, _ => absurd rfl h
  | 3, _, _, h => absurd rfl h
  | i + 4, _, _, _ => by
    show (request.drop 4)[i]? = request[i + 4]?
    rw [getElem?_drop, Nat.add_comm]

/-- The reply to an echo request, as a frame, is parsed as a packet back to where the request came
from, with the bytes of the request but its type and its checksum, which is right. -/
def EchoAccepted (request : IPv4PacketView) (capacity : Nat) (targetMac localMac : MacAddress)
    (localIp : IPv4Address) : Prop :=
  ∃ frame ethernet reply,
    buildICMPv4EchoReply (some capacity) localMac targetMac localIp request = some frame ∧
    parseEthernetFrame (some frame) = some (some ethernet) ∧
    ethernet.destination = targetMac ∧ ethernet.source = localMac ∧
    parseIPv4Packet ethernet = some (some reply) ∧
    reply.source = localIp ∧ reply.destination = request.source ∧
    reply.protocol = IPv4Protocol.icmp.toByte ∧
    reply.payload.length = request.payload.length ∧ reply.payload[0]? = some icmpv4EchoReply ∧
    (∀ i, i ≠ 0 → i ≠ 2 → i ≠ 3 → reply.payload[i]? = request.payload[i]?) ∧
    networkChecksum reply.payload = 0

theorem echo_accepted {ethernet : EthernetFrameView} {request : IPv4PacketView}
    {echo : ICMPv4EchoView} (hpacket : parseIPv4Packet ethernet = some (some request))
    (hecho : parseICMPv4EchoRequest request = some (some echo)) {capacity : Nat}
    (hcapacity : 14 + (20 + request.payload.length) ≤ capacity) (targetMac localMac : MacAddress)
    (localIp : IPv4Address) : EchoAccepted request capacity targetMac localMac localIp := by
  obtain ⟨hheader, hlength⟩ := parseIPv4Packet_bounds hpacket
  obtain ⟨hlong, hcode⟩ := parseICMPv4EchoRequest_code hecho
  obtain ⟨b4, h4⟩ := getElem?_of_lt (show 4 < request.header.length by omega)
  obtain ⟨b5, h5⟩ := getElem?_of_lt (show 5 < request.header.length by omega)
  have hid : ethernetRead16 request.header 4 = some (word16 b4 b5) := by
    simp only [ethernetRead16, h4, h5, bind_eq_bind, bind_some]
  have hsize (checksum : Nat) := length_icmpv4Reply (show 4 ≤ request.payload.length by omega) checksum
  generalize hc : networkChecksum (icmpv4Reply request.payload 0) = checksum
  have hbuilt : buildICMPv4EchoReply (some capacity) localMac targetMac localIp request =
      some (wrapIPv4 targetMac localMac localIp request.source IPv4Protocol.icmp.toByte
        (word16 b4 b5) 64 (icmpv4Reply request.payload checksum) []) := by
    unfold buildICMPv4EchoReply
    dsimp only
    rw [if_neg (by omega), hid, hc]
    simp only [bind_eq_bind, bind_some, wrapIPv4, hsize, append_nil,
      append_assoc]
  have hsum : networkChecksum (icmpv4Reply request.payload checksum) = 0 := by
    rw [← hc]
    have hfits : (icmpv4Reply request.payload 0).length ≤ 65535 := by
      rw [hsize]
      omega
    exact @networkChecksum_complete [icmpv4EchoReply, 0] (request.payload.drop 4) rfl hfits
  exact ⟨_, _, _, hbuilt, parseEthernetFrame_wrap, rfl, rfl,
    parseIPv4Packet_wrap (Nat.le_trans (Nat.le_of_eq (hsize _)) hlength), rfl, rfl, rfl, hsize _, rfl,
    icmpv4Reply_getElem? hcode _, hsum⟩

/-! ## Both sides -/

/-- What the builders build is what the parsers accept: segments, datagrams and echo replies. -/
theorem packets_accepted (target source : MacAddress) (padding : Bytes) :
    (∀ (o : TCPObject) (payload : TransportPayloadContext) (packet : NetworkPacketContext),
      o.InRange → payload.InRange →
      (∀ network, o.network = some network → network.payloadMtu ≤ 65515) →
      (o.send payload).2.2 = some packet →
      SegmentAccepted o payload packet target source padding) ∧
    (∀ (o : UDPObject) (payload : TransportPayloadContext) (packet : NetworkPacketContext)
      (length : Nat), o.InRange → payload.InRange →
      (∀ network, o.network = some network → network.payloadMtu ≤ 65515) →
      (o.buildPacket payload).1 = some (length, packet) →
      DatagramAccepted o payload packet target source padding) ∧
    ∀ (ethernet : EthernetFrameView) (request : IPv4PacketView) (echo : ICMPv4EchoView)
      (capacity : Nat) (localIp : IPv4Address),
      parseIPv4Packet ethernet = some (some request) →
      parseICMPv4EchoRequest request = some (some echo) →
      14 + (20 + request.payload.length) ≤ capacity →
      EchoAccepted request capacity target source localIp :=
  ⟨fun _ _ _ hobject hpayload hmtu hsend =>
      segment_accepted hobject hpayload hmtu hsend target source padding,
    fun _ _ _ _ hobject hpayload hmtu hbuild =>
      datagram_accepted hobject hpayload hmtu hbuild target source padding,
    fun _ _ _ _ localIp hpacket hecho hcapacity =>
      echo_accepted hpacket hecho hcapacity target source localIp⟩

/-! Three bytes sent both ways, and an echo request without data -/

private def homeMac : MacAddress := ⟨2, 0, 0, 0, 0, 1⟩

private def homeNetwork : NetworkInterface := ⟨networkAddressIPv4 ⟨10, 0, 0, 1⟩, 1480, fun _ => 1⟩

private def homePayload : TransportPayloadContext :=
  ⟨⟨.zero, 0⟩, ⟨networkAddressIPv4 ⟨10, 0, 0, 2⟩, 80⟩, some [1, 2, 3]⟩

private def homeSegments : TCPObject :=
  ⟨some homeNetwork, some 1480, ⟨⟨⟨10, 0, 0, 1⟩, 1000⟩, ⟨⟨10, 0, 0, 3⟩, 81⟩, 2 ^ 32 - 1, 7,
    .established⟩, 1, 512, true, true⟩

private def homeDatagrams : UDPObject :=
  ⟨some homeNetwork, some 1480, ⟨.zero, 1000⟩, ⟨.zero, 0⟩, 1⟩

private def homeRequest : Bytes := [8, 0, 0xF7, 0xFF, 0, 0, 0, 0]

private def homeRequestView : IPv4PacketView :=
  ⟨buildIPv4Header ⟨10, 0, 0, 2⟩ ⟨10, 0, 0, 1⟩ 1 ((20 + homeRequest.length) % 2 ^ 16) 5 64 ++
      (homeRequest ++ []), 20, 20 + homeRequest.length, 1, ⟨10, 0, 0, 2⟩, ⟨10, 0, 0, 1⟩, homeRequest⟩

theorem packets_accepted_home :
    (∃ packet, SegmentAccepted homeSegments homePayload packet homeMac homeMac []) ∧
      (∃ packet, DatagramAccepted homeDatagrams homePayload packet homeMac homeMac []) ∧
      EchoAccepted homeRequestView 42 homeMac homeMac ⟨10, 0, 0, 1⟩ := by
  obtain ⟨hsegment, hdatagram, hecho⟩ := packets_accepted homeMac homeMac []
  have hpayload : homePayload.InRange := ⟨by decide, by decide⟩
  have hmtu : ∀ network, some homeNetwork = some network → network.payloadMtu ≤ 65515 := by
    intro network h
    cases h
    decide
  refine ⟨?_, ?_, ?_⟩
  · obtain ⟨packet, hsend⟩ := isSome_iff_exists.mp
      (show (homeSegments.send homePayload).2.2.isSome = true from rfl)
    exact ⟨packet, hsegment homeSegments homePayload packet
      ⟨by decide, by decide, by decide, by decide, by decide⟩ hpayload hmtu hsend⟩
  · obtain ⟨built, hbuild⟩ := isSome_iff_exists.mp
      (show (homeDatagrams.buildPacket homePayload).1.isSome = true from rfl)
    exact ⟨built.2, hdatagram homeDatagrams homePayload built.2 built.1 ⟨by decide, by decide⟩
      hpayload hmtu hbuild⟩
  · have hpacket : parseIPv4Packet ⟨homeMac, homeMac, ethernetTypeIPv4, homeRequestView.header⟩ =
        some (some homeRequestView) :=
      parseIPv4Packet_wrap (show homeRequest.length ≤ 65515 by decide)
    have hsum : networkChecksum homeRequestView.payload = 0 := by decide
    have hparsed : parseICMPv4EchoRequest homeRequestView =
        some (some ⟨homeRequest, []⟩) := by
      unfold parseICMPv4EchoRequest
      rw [if_neg (by decide), if_neg (by decide)]
      have htype : homeRequestView.payload[0]? = some icmpv4EchoRequest := rfl
      have hcode : homeRequestView.payload[1]? = some 0 := rfl
      simp only [htype, hcode, bind_eq_bind, bind_some]
      rw [if_neg (by decide), if_neg (not_not_intro hsum)]
      rfl
    exact hecho _ homeRequestView _ 42 ⟨10, 0, 0, 1⟩ hpacket hparsed (by decide)

/-! ## Altered words -/

/-- A sum that checks does not once a word in it is another, but for the two zeros. -/
theorem checksumFold_altered (hpre : pre.length % 2 = 0) {sum c c' : Nat}
    (hc : c % 2 ^ 16 % 65535 ≠ c' % 2 ^ 16 % 65535)
    (h : checksumFold (sum + wordSum (pre ++ ethernetWrite16 c ++ post)) = 0) :
    checksumFold (sum + wordSum (pre ++ ethernetWrite16 c' ++ post)) ≠ 0 := by
  rw [wordSum_checksum hpre c, checksumFold_eq] at h
  rw [wordSum_checksum hpre c', checksumFold_eq]
  unfold endAround at *
  split at h <;> split <;> omega

/-- Of two segments that differ in one word, one at most is valid, but for the two zeros. -/
theorem altered_segment_refused {c c' : Nat} (hpre : pre.length % 2 = 0)
    (hc : c % 2 ^ 16 % 65535 ≠ c' % 2 ^ 16 % 65535) {p : IPv4PacketView} {s s' : TCPSegmentView}
    (hp : p.payload.length ≤ 65535) (hs : s.header.take p.payload.length = pre ++ ethernetWrite16 c ++ post)
    (hs' : s'.header.take p.payload.length = pre ++ ethernetWrite16 c' ++ post)
    (h : validateTCPIPv4Checksum p s = true) : validateTCPIPv4Checksum p s' = false := by
  have hlen : (pre ++ ethernetWrite16 c ++ post).length ≤ 65535 := by
    rw [← hs, length_take]
    omega
  have hlen' : (pre ++ ethernetWrite16 c' ++ post).length ≤ 65535 := by
    rw [← hs', length_take]
    omega
  unfold validateTCPIPv4Checksum at *
  rw [hs, tcpIPv4Checksum_eq _ _ hlen, decide_eq_true_iff] at h
  rw [hs', tcpIPv4Checksum_eq _ _ hlen', length_checksum, ← length_checksum pre post c]
  exact decide_eq_false (checksumFold_altered hpre hc h)

/-- A window of 513 in place of 512. -/
theorem altered_segment_refused_window :
    validateTCPIPv4Checksum ⟨[], 20, 40, 6, ⟨10, 0, 0, 1⟩, ⟨10, 0, 0, 2⟩, buildTCPHeader 1000 80 1 2 16 512 38295⟩
      ⟨buildTCPHeader 1000 80 1 2 16 513 38295, 1000, 80, 1, 2, 20, 16, 513, 38295, 0, []⟩ = false :=
  @altered_segment_refused ((buildTCPHeader 1000 80 1 2 16 0 0).take 14) (ethernetWrite16 38295 ++ ethernetWrite16 0)
    512 513 rfl (by decide) _ ⟨buildTCPHeader 1000 80 1 2 16 512 38295, 1000, 80, 1, 2, 20, 16, 512, 38295, 0, []⟩ _
      (by decide) rfl rfl (by decide)

end Unisym.Network
