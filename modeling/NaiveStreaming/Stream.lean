import NaiveStreaming.Receiver
import NaiveStreaming.UdpTransmit

/-!
# A stream from sender to receiver

The two ends of a stream on one host: what the receiver makes of the datagrams that a
run of `transmit` offers to the socket, when the channel keeps all of them and their
order.
-/

namespace NaiveStreaming
open ByteOrder Mealy

/-- A datagram offered to the socket, as the receive that it completes reports it. -/
def arrive (bytes : List UInt8) : Completion := .datagram (.ofWire bytes)

/-- What is left of a packet: data that fits the receive buffer, and no flags. -/
def arrivedPacket (packet : VideoPacket) : VideoPacket :=
  { nalData := packet.nalData.take 1581
    nalMeta := { packet.nalMeta with flags := 0 } }

theorem ofWire_packetDatagram (host : Endian) (sequenceNum : UInt16) (packet : VideoPacket) :
    (Datagram.ofWire (packetDatagram host sequenceNum packet)).bytes =
      rtpHeaderBytes host (transmitHeader sequenceNum packet) ++
        (payloadHeaderBytes host (transmitPayloadHeader packet) ++
          packet.nalData.take 1581) := by
  have hsize : receiveBufferSize = (rtpHeaderBytes host (transmitHeader sequenceNum packet)).length
      + ((payloadHeaderBytes host (transmitPayloadHeader packet)).length + 1581) := by
    rw [length_rtpHeaderBytes, length_payloadHeaderBytes]
  rw [Datagram.bytes_ofWire, packetDatagram, List.append_assoc, hsize, List.take_length_add_append,
    List.take_length_add_append]

/-- **One packet crosses.**  The parser recovers the sequence number and the packet. -/
theorem parse_arrive (host : Endian) (sequenceNum : UInt16) (packet : VideoPacket) :
    (arrive (packetDatagram host sequenceNum packet)).parse host
      = some (sequenceNum, arrivedPacket packet) := by
  have hheader := transmitHeader_accepted sequenceNum packet
  rw [arrive, Completion.parse, ofWire_packetDatagram]
  generalize hd : packet.nalData.take 1581 = nalData
  generalize hp : payloadHeaderBytes host (transmitPayloadHeader packet) ++ nalData = payload
  generalize hb : rtpHeaderBytes host (transmitHeader sequenceNum packet) ++ payload = bytes
  have hlen : ¬ bytes.length < 19 := by
    rw [← hb, ← hp, List.length_append, List.length_append, length_rtpHeaderBytes,
      length_payloadHeaderBytes]
    omega
  have hread : deserializeRtpHeaderFrom host bytes = .ok (transmitHeader sequenceNum packet) := by
    rw [← hb, deserializeRtpHeaderFrom_self host hheader]
  have hpayload : bytes.drop 12 = payload := by
    rw [← hb, List.drop_left' (length_rtpHeaderBytes ..)]
  have hphread : deserializePayloadHeader host payload = .ok
      { transmitPayloadHeader packet with flags := (transmitPayloadHeader packet).lastMb } := by
    rw [← hp, deserializePayloadHeader_self]
  have hdata : bytes.drop 19 = nalData := by
    rw [← List.drop_drop (i := 7) (j := 12), hpayload, ← hp,
      List.drop_left' (length_payloadHeaderBytes ..)]
  rw [parseDatagram, if_neg hlen, hread, hpayload, hphread, hdata, ← hd]
  rfl

theorem defined_arrive (host : Endian) (sequenceNum : UInt16) (packet : VideoPacket) :
    (arrive (packetDatagram host sequenceNum packet)).Defined := by
  rintro d hd hrunt
  have hparse := parse_arrive host sequenceNum packet
  rw [hd] at hparse
  exact absurd hrunt.short (Nat.not_lt.mpr (supported_of_parseDatagram hparse).1)

/-- The handler's step on a packet that arrives: two spans, a report if one is due, and
the delivery. -/
theorem step_arrive (host : Endian) (s : UDPReceiveImpl) (sequenceNum : UInt16)
    (packet : VideoPacket) : ∃ s' last,
      (receiver host).step s (arrive (packetDatagram host sequenceNum packet)) =
        (some s', .span 12 19 :: .span 19 last ::
          (checkSeqNum s.prevSeqNum sequenceNum ++ [.onPacketReceived (arrivedPacket packet)])) ∧
      s'.prevSeqNum = sequenceNum.toNat :=
  ⟨_, _, step_accepted host s (parse_arrive host sequenceNum packet), rfl⟩

/-- **Every packet is delivered once**, as much of it as arrives, whatever the two ends did
before. -/
theorem deliveries_stream (host : Endian) (counter : UDPTransmitImpl) (packets : List VideoPacket)
    (s : UDPReceiveImpl) :
    (∃ s', (receiver host).final s ((datagrams host counter packets).map arrive) = some s') ∧
    deliveries ((receiver host).outputs s ((datagrams host counter packets).map arrive))
      = packets.map arrivedPacket := by
  induction packets generalizing counter s with
  | nil => exact ⟨⟨s, rfl⟩, rfl⟩
  | cons packet packets ih =>
      obtain ⟨s', last, hstep, -⟩ := step_arrive host s counter.sequenceNum.toUInt16 packet
      obtain ⟨hfinal, hdeliveries⟩ := ih ⟨counter.sequenceNum + 1⟩ s'
      have hs' := congrArg Prod.fst hstep
      rw [datagrams_cons, List.map_cons, Machine.final_cons hs', Machine.outputs_cons hstep,
        deliveries_append, hdeliveries, List.map_cons]
      refine ⟨hfinal, ?_⟩
      have hevents : ∀ events, deliveries (.span 12 19 :: .span 19 last :: events)
          = deliveries events := fun _ => rfl
      rw [hevents, deliveries_append, deliveries_checkSeqNum]
      rfl

/-- The fields of a packet that the wire carries agree. -/
structure SameMedia (sent received : VideoPacket) : Prop where
  nalData : received.nalData = sent.nalData
  nalType : received.nalMeta.nalType = sent.nalMeta.nalType
  firstMacroblock : received.nalMeta.firstMacroblock = sent.nalMeta.firstMacroblock
  lastMacroblock : received.nalMeta.lastMacroblock = sent.nalMeta.lastMacroblock
  timestamp : received.nalMeta.timestamp = sent.nalMeta.timestamp

theorem sameMedia_arrivedPacket {packet : VideoPacket} (h : packet.nalData.length ≤ 1581) :
    SameMedia packet (arrivedPacket packet) :=
  ⟨List.take_of_length_le h, rfl, rfl, rfl, rfl⟩

/-- **The stream round trip.**  Packets whose data fits the receive buffer are delivered
once each, in order, with the media they were sent with. -/
theorem stream_round_trip (host : Endian) (counter : UDPTransmitImpl) (s : UDPReceiveImpl)
    (packets : List VideoPacket) (h : ∀ packet ∈ packets, packet.nalData.length ≤ 1581) :
    (∃ s', (receiver host).final s ((datagrams host counter packets).map arrive) = some s') ∧
    List.Forall₂ SameMedia packets
      (deliveries ((receiver host).outputs s ((datagrams host counter packets).map arrive))) := by
  obtain ⟨hfinal, hdeliveries⟩ := deliveries_stream host counter packets s
  refine ⟨hfinal, ?_⟩
  rw [hdeliveries, List.forall₂_map_right_iff, List.forall₂_same]
  intro packet hpacket
  exact sameMedia_arrivedPacket (h packet hpacket)

/-- An empty packet and one of one byte, on either side of the wrap. -/
theorem stream_round_trip_two :
    let packets : List VideoPacket :=
      [⟨[], { timestamp := 0 }⟩, ⟨[7], { timestamp := 90000, nalType := ⟨5⟩ }⟩]
    let s : UDPReceiveImpl := .started ⟨List.replicate 1600 0xFF, List.length_replicate ..⟩
    (∃ s', (receiver .little).final s ((datagrams .little ⟨65535⟩ packets).map arrive) = some s') ∧
    List.Forall₂ SameMedia packets
      (deliveries
        ((receiver .little).outputs s ((datagrams .little ⟨65535⟩ packets).map arrive))) :=
  stream_round_trip .little ⟨65535⟩ _ _ (by decide)

end NaiveStreaming
