/-
# `TCPSpec` — a receiver has a prefix of its peer's stream

A peer has an initial number and a stream shorter than half of the numbers.  What it sends, in
whatever order and how often it arrives, is its opening, a piece of the stream with a FIN only
at the end of it, or nothing behind the FIN.
-/
import Unisym.Network.TCP

namespace Unisym.Network

open List

/-! ## Segments as they are written -/

/-- A segment on the wire.  The first four bits of `offset` count the words of the header. -/
structure WrittenSegment where
  sourcePort : Nat
  destinationPort : Nat
  sequence : Nat
  acknowledgment : Nat
  offset : UInt8
  flags : UInt8
  window : Nat
  checksum : Nat
  urgentPointer : Nat
  options : Bytes
  payload : Bytes
  offset_eq : (offset.toNat >>> 4) * 4 = 20 + options.length

namespace WrittenSegment

def bytes (w : WrittenSegment) : Bytes :=
  ethernetWrite16 w.sourcePort ++ ethernetWrite16 w.destinationPort ++ write32 w.sequence ++
    write32 w.acknowledgment ++ [w.offset, w.flags] ++ ethernetWrite16 w.window ++
    ethernetWrite16 w.checksum ++ ethernetWrite16 w.urgentPointer ++ (w.options ++ w.payload)

/-- What the segment is parsed as. -/
def view (w : WrittenSegment) : TCPSegmentView where
  header := w.bytes
  sourcePort := w.sourcePort % 2 ^ 16
  destinationPort := w.destinationPort % 2 ^ 16
  sequence := w.sequence % 2 ^ 32
  acknowledgment := w.acknowledgment % 2 ^ 32
  headerLength := 20 + w.options.length
  flags := w.flags
  window := w.window % 2 ^ 16
  checksum := w.checksum % 2 ^ 16
  urgentPointer := w.urgentPointer % 2 ^ 16
  payload := w.payload

section

variable (w : WrittenSegment)
include w

theorem length_bytes : w.bytes.length = 20 + (w.options.length + w.payload.length) := by
  simp only [bytes, length_append, ethernetWrite16, write32, length_cons, length_nil]

theorem drop_bytes : w.bytes.drop (20 + w.options.length) = w.payload := by
  have hdrop : w.bytes.drop 20 = w.options ++ w.payload := rfl
  rw [← drop_drop, hdrop, drop_left]

theorem read16_bytes : ethernetRead16 w.bytes 0 = some (w.sourcePort % 2 ^ 16) ∧
      ethernetRead16 w.bytes 2 = some (w.destinationPort % 2 ^ 16) ∧
      ethernetRead16 w.bytes 14 = some (w.window % 2 ^ 16) ∧
      ethernetRead16 w.bytes 16 = some (w.checksum % 2 ^ 16) ∧
      ethernetRead16 w.bytes 18 = some (w.urgentPointer % 2 ^ 16) :=
  ⟨congrArg some (word16_write _), congrArg some (word16_write _), congrArg some (word16_write _),
    congrArg some (word16_write _), congrArg some (word16_write _)⟩

theorem read32_bytes : read32 w.bytes 4 = some (w.sequence % 2 ^ 32) ∧
      read32 w.bytes 8 = some (w.acknowledgment % 2 ^ 32) :=
  ⟨congrArg some (word32_write _), congrArg some (word32_write _)⟩

/-- A packet with the bytes of a segment is parsed as it. -/
theorem parse_bytes {packet : IPv4PacketView} (hprotocol : packet.protocol = IPv4Protocol.tcp.toByte)
    (hpayload : packet.payload = w.bytes) : parseTCPSegment packet = some (some w.view) := by
  have hlength := w.length_bytes
  have hoffset : w.bytes[12]? = some w.offset := rfl
  have hflags : w.bytes[13]? = some w.flags := rfl
  obtain ⟨h0, h2, h14, h16, h18⟩ := w.read16_bytes
  obtain ⟨h4, h8⟩ := w.read32_bytes
  unfold parseTCPSegment
  rw [hpayload, if_neg (not_not_intro hprotocol), if_neg (by omega)]
  simp only [hoffset, Option.bind_eq_bind, Option.bind_some]
  rw [w.offset_eq, if_neg (by omega)]
  simp only [h0, h2, h4, h8, h14, h16, h18, hflags, Option.bind_some, drop_bytes]
  rfl

end

end WrittenSegment

/-! ## The peer -/

/-- A peer: its initial number and its stream. -/
structure Peer where
  initial : Nat
  stream : Bytes
  initial_lt : initial < 2 ^ 32
  short : stream.length < 2 ^ 31

namespace Peer

/-- What a peer sends: its opening, a piece of the stream, or nothing behind the FIN. -/
inductive Sends (peer : Peer) : TCPSegmentView → Prop
  | opening {segment : TCPSegmentView} (hsequence : segment.sequence = peer.initial) :
      Sends peer segment
  | piece {segment : TCPSegmentView} (start length : Nat)
      (hinside : start + length ≤ peer.stream.length)
      (hsequence : segment.sequence = (peer.initial + 1 + start) % 2 ^ 32)
      (hpayload : segment.payload = (peer.stream.drop start).take length)
      (hsyn : segment.has tcpFlagSYN = false)
      (hfin : segment.has tcpFlagFIN = true → start + length = peer.stream.length) :
      Sends peer segment
  | behind {segment : TCPSegmentView}
      (hsequence : segment.sequence = (peer.initial + 1 + peer.stream.length + 1) % 2 ^ 32)
      (hpayload : segment.payload = []) (hsyn : segment.has tcpFlagSYN = false)
      (hfin : segment.has tcpFlagFIN = false) :
      Sends peer segment

end Peer

/-- The packets that arrive are the peer's, each with a segment that it sends. -/
def Event.From (peer : Peer) : Event → Prop
  | .arrives packet => packet.protocol = IPv4Protocol.tcp.toByte ∧
      ∃ w : WrittenSegment, packet.payload = w.bytes ∧ peer.Sends w.view
  | _ => True

/-- The receiver has a prefix of the stream and expects the number behind it. -/
structure Receiver.Follows (r : Receiver) (peer : Peer) : Prop where
  delivered : r.appended <+: peer.stream
  next : r.object.control.remoteNextSequence =
    (peer.initial + 1 + r.appended.length + r.finished.toNat) % 2 ^ 32
  whole : r.finished = true → r.appended = peer.stream
  closing : r.object.control.state = .closeWait → r.finished = true

/-! ## One segment -/

variable {peer : Peer} {r : Receiver} {segment : TCPSegmentView}

theorem tcpSequenceLength_of_no_syn (hsyn : segment.has tcpFlagSYN = false) :
    tcpSequenceLength segment =
      (segment.payload.length + (segment.has tcpFlagFIN).toNat) % 2 ^ 32 := by
  simp only [tcpSequenceLength, hsyn]
  cases segment.has tcpFlagFIN
  · simp only [Bool.false_eq_true, if_false, Bool.toNat_false, Nat.add_zero]
  · simp only [Bool.false_eq_true, if_false, if_true, Bool.toNat_true]
    omega

theorem consume_of_unexpected
    (h : segment.sequence ≠ r.object.control.remoteNextSequence) : r.consume segment = r := by
  simp only [Receiver.consume, TCPObject.consumeExpectedSegment,
    TCPConnectionControlBlock.consumeExpectedSegment,
    TCPConnectionControlBlock.isExpectedSegment, decide_eq_false h, Bool.not_false, if_true,
    Bool.false_eq_true, if_false]

/-- What is expected is appended and counted; only a FIN changes the state. -/
theorem consume_of_expected
    (h : segment.sequence = r.object.control.remoteNextSequence) :
    (r.consume segment).appended = r.appended ++ segment.payload ∧
      (r.consume segment).finished = (r.finished || segment.has tcpFlagFIN) ∧
      (r.consume segment).object.control.remoteNextSequence =
        (r.object.control.remoteNextSequence + tcpSequenceLength segment) % 2 ^ 32 ∧
      ((r.consume segment).object.control.state = r.object.control.state ∨
        segment.has tcpFlagFIN = true) := by
  by_cases hfin : segment.has tcpFlagFIN = true ∧ r.object.control.state ≠ .lastAck
  · simp only [Receiver.consume, TCPObject.consumeExpectedSegment,
      TCPConnectionControlBlock.consumeExpectedSegment,
      TCPConnectionControlBlock.isExpectedSegment, decide_eq_true h, Bool.not_true, if_true,
      Bool.false_eq_true, if_false, if_pos hfin]
    exact ⟨trivial, trivial, trivial, .inr hfin.1⟩
  · simp only [Receiver.consume, TCPObject.consumeExpectedSegment,
      TCPConnectionControlBlock.consumeExpectedSegment,
      TCPConnectionControlBlock.isExpectedSegment, decide_eq_true h, Bool.not_true, if_true,
      Bool.false_eq_true, if_false, if_neg hfin]
    exact ⟨trivial, trivial, trivial, .inl trivial⟩

/-- A piece that starts where the prefix ends makes the prefix longer. -/
theorem take_append_piece {stream : Bytes} {start length : Nat} :
    stream.take start ++ (stream.drop start).take length = stream.take (start + length) := by
  rw [take_add]

namespace Receiver.Follows

theorem appended_length_le (h : r.Follows peer) : r.appended.length ≤ peer.stream.length :=
  h.delivered.length_le

theorem consume (h : r.Follows peer) (hs : peer.Sends segment) : (r.consume segment).Follows peer := by
  by_cases hexpected : segment.sequence = r.object.control.remoteNextSequence
  case neg =>
    rw [consume_of_unexpected hexpected]
    exact h
  case pos =>
    have hle := h.appended_length_le
    have hshort := peer.short
    have hinitial := peer.initial_lt
    have hbit : r.finished.toNat ≤ 1 := Bool.toNat_le r.finished
    have hnext := h.next
    obtain ⟨happended, hfinished, hremote, hstate⟩ := consume_of_expected hexpected
    rw [hnext] at hexpected
    cases hs with
    | opening hsequence =>
      -- the number of the opening is not reached again by so short a stream
      omega
    | piece start length hinside hsequence hpayload hsyn hfin =>
      have hstart : start = r.appended.length + r.finished.toNat := by omega
      have hopen : r.finished = false := by
        cases hf : r.finished with
        | false => rfl
        | true =>
          rw [h.whole hf, hf, Bool.toNat_true] at hstart
          omega
      rw [hopen, Bool.toNat_false, Nat.add_zero] at hstart
      have hgrown : (r.consume segment).appended = peer.stream.take (start + length) := by
        rw [happended, hpayload, prefix_iff_eq_take.mp h.delivered, ← hstart,
          take_append_piece]
      have hlength : (r.consume segment).appended.length = start + length := by
        rw [hgrown, length_take, Nat.min_eq_left hinside]
      have hsegment : segment.payload.length = length := by
        rw [hpayload, length_take, length_drop]
        omega
      rw [hopen, Bool.false_or] at hfinished
      refine ⟨?_, ?_, ?_, ?_⟩
      · rw [hgrown]
        exact take_prefix _ _
      · rw [hremote, hnext, tcpSequenceLength_of_no_syn hsyn, hlength, hfinished, hsegment, hopen,
          Bool.toNat_false, hstart]
        omega
      · intro hf
        rw [hfinished] at hf
        rw [hgrown, hfin hf, take_length]
      · intro hclosing
        rw [hfinished]
        rcases hstate with hkept | hfin'
        · rw [hkept] at hclosing
          rw [h.closing hclosing] at hopen
          cases hopen
        · exact hfin'
    | behind hsequence hpayload hsyn hfin =>
      rw [hpayload, append_nil] at happended
      rw [hfin, Bool.or_false] at hfinished
      rw [tcpSequenceLength_of_no_syn hsyn, hpayload, hfin] at hremote
      refine ⟨?_, ?_, ?_, ?_⟩
      · rw [happended]
        exact h.delivered
      · rw [hremote, hnext, happended, hfinished]
        simp only [length_nil, Bool.toNat_false]
        omega
      · rw [hfinished, happended]
        exact h.whole
      · rw [hfinished]
        rcases hstate with hkept | hfin'
        · rw [hkept]
          exact h.closing
        · rw [hfin] at hfin'
          cases hfin'

end Receiver.Follows

/-! ## What the user calls -/

/-- `Send` counts what it sent and leaves what is expected. -/
theorem TCPObject.send_control (o : TCPObject) (payload : TransportPayloadContext) :
    (o.send payload).2.1.control.remoteNextSequence = o.control.remoteNextSequence ∧
      (o.send payload).2.1.control.state = o.control.state := by
  unfold TCPObject.send
  dsimp only [TCPObject.packSegment]
  repeat' split
  all_goals exact ⟨rfl, rfl⟩

/-- `Close` leaves what is expected; the state is kept or waits for the last acknowledgment. -/
theorem TCPObject.close_control (o : TCPObject) :
    o.close.2.1.control.remoteNextSequence = o.control.remoteNextSequence ∧
      (o.close.2.1.control.state = o.control.state ∨ o.close.2.1.control.state = .lastAck) := by
  unfold TCPObject.close
  dsimp only [TCPObject.packSegment]
  repeat' split
  all_goals first
    | exact ⟨rfl, .inl rfl⟩
    | exact ⟨rfl, .inr rfl⟩

/-- An object that expects the same in no new state of closing follows as before. -/
theorem Receiver.Follows.of_control (h : r.Follows peer) {o : TCPObject}
    (hnext : o.control.remoteNextSequence = r.object.control.remoteNextSequence)
    (hstate : o.control.state = r.object.control.state ∨ o.control.state = .lastAck) :
    Receiver.Follows { r with object := o } peer where
  delivered := h.delivered
  next := hnext.trans h.next
  whole := h.whole
  closing := by
    intro hclosing
    rcases hstate with hkept | hlast
    · exact h.closing (hkept.symm.trans hclosing)
    · cases hlast.symm.trans hclosing

/-! ## Runs -/

theorem Receiver.Follows.step (h : r.Follows peer) {event : Event} (he : event.From peer) :
    ∃ r', r.step event = some r' ∧ r'.Follows peer := by
  cases event with
  | arrives packet =>
    obtain ⟨hprotocol, w, hpayload, hsends⟩ := he
    refine ⟨r.consume w.view, ?_, h.consume hsends⟩
    show (parseTCPSegment packet).map _ = _
    rw [w.parse_bytes hprotocol hpayload]
    rfl
  | sends payload =>
    obtain ⟨hnext, hstate⟩ := r.object.send_control payload
    exact ⟨_, rfl, h.of_control hnext (.inl hstate)⟩
  | closes =>
    obtain ⟨hnext, hstate⟩ := r.object.close_control
    exact ⟨_, rfl, h.of_control hnext hstate⟩
  | setsNetwork network => exact ⟨_, rfl, h.of_control rfl (.inl rfl)⟩

/-- The events one after the other, from any receiver that follows -/
theorem Receiver.Follows.run (h : r.Follows peer) {events : List Event}
    (he : ∀ event ∈ events, event.From peer) :
    ∃ r', r.run events = some r' ∧ r'.Follows peer := by
  induction events generalizing r with
  | nil => exact ⟨r, rfl, h⟩
  | cons event events ih =>
    obtain ⟨r', hstep, h'⟩ := h.step (he event mem_cons_self)
    obtain ⟨r'', hrun, h''⟩ := ih h' fun e hmem => he e (mem_cons_of_mem _ hmem)
    refine ⟨r'', ?_, h''⟩
    simp only [Receiver.run, hstep, Option.bind_some]
    exact hrun

/-- The acknowledgment of a segment is what is expected after it. -/
theorem expectedAcknowledge_eq (r : Receiver) (segment : TCPSegmentView)
    (hlt : r.object.control.remoteNextSequence < 2 ^ 32) :
    r.object.control.expectedAcknowledge segment =
      (r.consume segment).object.control.remoteNextSequence % 2 ^ 32 := by
  by_cases h : segment.sequence = r.object.control.remoteNextSequence
  · rw [(consume_of_expected h).2.2.1, Nat.mod_mod]
    exact if_pos (decide_eq_true h)
  · rw [consume_of_unexpected h, Nat.mod_eq_of_lt hlt]
    exact if_neg (fun hd => h (of_decide_eq_true hd))

/-- A receiver after the handshake: nothing has been appended. -/
def Receiver.opened (o : TCPObject) : Receiver := ⟨o, [], false⟩

theorem accepted_eq {c : TCPConnectionControlBlock} {ack : TCPSegmentView}
    (h : (c.acceptHandshakeAck ack).1 = true) :
    (c.acceptHandshakeAck ack).2 = { c with state := .established } := by
  revert h
  fun_cases TCPConnectionControlBlock.acceptHandshakeAck c ack with
  | case1 | case2 | case3 => nofun
  | case4 => exact fun _ => rfl

theorem opened_follows {o : TCPObject} {localEnd remoteEnd : TCPEndpoint}
    {syn ack : TCPSegmentView} {initialSequence : Nat}
    (hsyn : syn.sequence = peer.initial)
    (hack : ((o.beginPassiveConnection localEnd remoteEnd syn initialSequence).acceptHandshakeAck
      ack).1 = true) :
    (Receiver.opened ((o.beginPassiveConnection localEnd remoteEnd syn
      initialSequence).acceptHandshakeAck ack).2).Follows peer := by
  have haccepted : ((o.beginPassiveConnection localEnd remoteEnd syn initialSequence).acceptHandshakeAck
      ack).2.control = { TCPConnectionControlBlock.beginPassive localEnd remoteEnd syn initialSequence
        with state := .established } :=
    @accepted_eq (.beginPassive localEnd remoteEnd syn initialSequence) ack hack
  refine ⟨List.nil_prefix, ?_, nofun, ?_⟩
  · rw [Receiver.opened, haccepted, ← hsyn]
    rfl
  · rw [Receiver.opened, haccepted]
    nofun

/-- After the handshake, whatever the user does and however the peer's segments arrive: the
appended bytes are a prefix of its stream, what is expected is the number behind them, the
state is to close only with the whole stream, and an acknowledgment covers what is appended. -/
theorem prefix_delivered (peer : Peer) (o : TCPObject) (localEnd remoteEnd : TCPEndpoint)
    (syn ack : TCPSegmentView) (initialSequence : Nat) (events : List Event)
    (hsyn : syn.sequence = peer.initial)
    (hack : ((o.beginPassiveConnection localEnd remoteEnd syn initialSequence).acceptHandshakeAck
      ack).1 = true)
    (he : ∀ event ∈ events, event.From peer) :
    ∃ r, (Receiver.opened ((o.beginPassiveConnection localEnd remoteEnd syn
        initialSequence).acceptHandshakeAck ack).2).run events = some r ∧
      r.appended <+: peer.stream ∧
      r.object.control.remoteNextSequence =
        (peer.initial + 1 + r.appended.length + r.finished.toNat) % 2 ^ 32 ∧
      (r.finished = true → r.appended = peer.stream) ∧
      (r.object.control.state = .closeWait → r.finished = true ∧ r.appended = peer.stream) ∧
      ∀ segment, peer.Sends segment →
        (r.consume segment).appended <+: peer.stream ∧
        r.object.control.expectedAcknowledge segment =
          (peer.initial + 1 + (r.consume segment).appended.length +
            (r.consume segment).finished.toNat) % 2 ^ 32 := by
  obtain ⟨r, hrun, h⟩ := (opened_follows hsyn hack).run he
  refine ⟨r, hrun, h.delivered, h.next, h.whole,
    fun hclosing => ⟨h.closing hclosing, h.whole (h.closing hclosing)⟩, ?_⟩
  intro segment hs
  have hconsumed := h.consume hs
  have hlt : r.object.control.remoteNextSequence < 2 ^ 32 := by
    rw [h.next]
    exact Nat.mod_lt _ (by decide)
  refine ⟨hconsumed.delivered, ?_⟩
  rw [expectedAcknowledge_eq r segment hlt, hconsumed.next, Nat.mod_mod]

/-! A peer whose numbers wrap after its opening, and its two bytes: first only the second
arrives, then both with the FIN. -/

private def wrapPeer : Peer := ⟨2 ^ 32 - 1, [104, 105], by decide, by decide⟩

private def wrapSegment (sequence : Nat) (flags : UInt8) (payload : Bytes) : WrittenSegment :=
  ⟨1000, 80, sequence, 8, 0x50, flags, 512, 0, 0, [], payload, by decide⟩

private def segmentView (w : WrittenSegment) : IPv4PacketView :=
  ⟨[], 20, 20 + w.bytes.length, 6, .zero, .zero, w.bytes⟩

private def wrapObject : TCPObject :=
  ⟨none, none, ⟨⟨.zero, 0⟩, ⟨.zero, 0⟩, 0, 0, .synReceived⟩, 1, 0, false, false⟩

theorem prefix_delivered_wrap :
    ∃ r, (Receiver.opened ((wrapObject.beginPassiveConnection ⟨.zero, 80⟩ ⟨.zero, 1000⟩
        (wrapSegment (2 ^ 32 - 1) tcpFlagSYN []).view 7).acceptHandshakeAck
          (wrapSegment 0 tcpFlagACK []).view).2).run
        [.arrives (segmentView (wrapSegment 1 tcpFlagACK [105])),
          .arrives (segmentView (wrapSegment 0 (tcpFlagACK ||| tcpFlagFIN) [104, 105]))] = some r ∧
      r.appended <+: [104, 105] := by
  obtain ⟨r, hrun, hprefix, -⟩ := prefix_delivered wrapPeer wrapObject ⟨.zero, 80⟩ ⟨.zero, 1000⟩
    (wrapSegment (2 ^ 32 - 1) tcpFlagSYN []).view (wrapSegment 0 tcpFlagACK []).view 7
    [.arrives (segmentView (wrapSegment 1 tcpFlagACK [105])),
      .arrives (segmentView (wrapSegment 0 (tcpFlagACK ||| tcpFlagFIN) [104, 105]))]
    rfl rfl
    (forall_mem_cons.mpr ⟨⟨rfl, _, rfl, .piece 1 1 (by decide) rfl rfl rfl nofun⟩,
      forall_mem_cons.mpr ⟨⟨rfl, _, rfl, .piece 0 2 (by decide) rfl rfl rfl fun _ => rfl⟩,
        nofun⟩⟩)
  exact ⟨r, hrun, hprefix⟩

end Unisym.Network
