import NaiveStreaming.Lib.Mealy
import NaiveStreaming.Rtp

/-!
# The sender

`UDP_TransmitImpl::transmit` draws a sequence number, builds the two headers and offers
one datagram to the socket.  What `send_to` then reports is only logged.  The socket's
destination is the loopback address, so one host order serves both ends of a stream.
-/

namespace NaiveStreaming
open ByteOrder Mealy

/-- The state of `UDP_TransmitImpl` that `transmit` uses: the `std::atomic<unsigned>`
`m_sequence_num`. -/
structure UDPTransmitImpl where
  sequenceNum : UInt32 := 0
  deriving DecidableEq, Repr

/-- What one call of `transmit` comes to. -/
inductive TransmitEvent
  /-- The early return on a failed `serialize_rtp_header_to`. -/
  | headerFailed (ec : Errc)
  /-- The early return on a failed `serialize_payload_header`. -/
  | payloadHeaderFailed (ec : Errc)
  | sendTo (datagram : List UInt8)
  deriving DecidableEq, Repr

/-- The RTP header that `transmit` fills in. -/
def transmitHeader (sequenceNum : UInt16) (packet : VideoPacket) : RTPPacketHeader :=
  { version := 2
    paddingBit := true
    extensionBit := false
    markerBit := false
    payloadType := 78
    sequenceNum := sequenceNum
    timestamp := packet.nalMeta.timestamp }

/-- The payload header that `transmit` fills in; the flags keep their default. -/
def transmitPayloadHeader (packet : VideoPacket) : RTPPayloadHeader :=
  { nalType := packet.nalMeta.nalType
    firstMb := packet.nalMeta.firstMacroblock
    lastMb := packet.nalMeta.lastMacroblock }

/-- `UDP_TransmitImpl::transmit`.  The header buffers are uninitialised arrays that the
serializers overwrite whole; zeros stand for their contents. -/
def transmit (host : Endian) (s : UDPTransmitImpl) (packet : VideoPacket) :
    UDPTransmitImpl × TransmitEvent :=
  let header := transmitHeader s.sequenceNum.toUInt16 packet
  let s := { s with sequenceNum := s.sequenceNum + 1 }
  match serializeRtpHeaderTo host header (List.replicate RTPPacketHeader.size 0) with
  | (some ec, _) => (s, .headerFailed ec)
  | (none, headerBuff) =>
    let payloadHeader := transmitPayloadHeader packet
    match serializePayloadHeader host payloadHeader
        (List.replicate RTPPayloadHeader.size 0) with
    | (some ec, _) => (s, .payloadHeaderFailed ec)
    | (none, payloadHeaderBuff) => (s, .sendTo (headerBuff ++ payloadHeaderBuff ++ packet.nalData))

def transmitter (host : Endian) : Machine UDPTransmitImpl VideoPacket TransmitEvent where
  step s packet := (some (transmit host s packet).1, [(transmit host s packet).2])

/-- The datagram of an event, if it has one. -/
def TransmitEvent.datagram? : TransmitEvent → Option (List UInt8)
  | sendTo datagram => some datagram
  | _ => none

/-- The datagrams that a run of calls offers to the socket, in order. -/
def datagrams (host : Endian) (s : UDPTransmitImpl) (packets : List VideoPacket) :
    List (List UInt8) :=
  ((transmitter host).outputs s packets).filterMap TransmitEvent.datagram?

/-- The datagram of a packet that goes out under a given sequence number. -/
def packetDatagram (host : Endian) (sequenceNum : UInt16) (packet : VideoPacket) : List UInt8 :=
  rtpHeaderBytes host (transmitHeader sequenceNum packet) ++
    payloadHeaderBytes host (transmitPayloadHeader packet) ++ packet.nalData

theorem transmitHeader_accepted (sequenceNum : UInt16) (packet : VideoPacket) :
    (transmitHeader sequenceNum packet).Accepted :=
  ⟨show (2 : UInt32) ≤ 3 by decide, show (78 : UInt32) ≤ 127 by decide, rfl⟩

@[simp] theorem length_packetDatagram (host : Endian) (sequenceNum : UInt16)
    (packet : VideoPacket) :
    (packetDatagram host sequenceNum packet).length = 19 + packet.nalData.length := by
  simp only [packetDatagram, List.length_append, length_rtpHeaderBytes,
    length_payloadHeaderBytes]

/-- **Neither serializer fails**, so every call sends one datagram. -/
theorem transmit_eq (host : Endian) (s : UDPTransmitImpl) (packet : VideoPacket) :
    transmit host s packet = (⟨s.sequenceNum + 1⟩,
      .sendTo (packetDatagram host s.sequenceNum.toUInt16 packet)) := by
  have hbuff : 12 ≤ (List.replicate 12 (0 : UInt8)).length := by simp
  have hpbuff : 7 ≤ (List.replicate 7 (0 : UInt8)).length := by simp
  have hheader := transmitHeader_accepted s.sequenceNum.toUInt16 packet
  simp only [transmit, serializeRtpHeaderTo_eq host hheader hbuff,
    serializePayloadHeader_eq host (transmitPayloadHeader packet) hpbuff]
  simp [packetDatagram]

@[simp] theorem datagrams_nil (host : Endian) (s : UDPTransmitImpl) :
    datagrams host s [] = [] := rfl

@[simp] theorem datagrams_cons (host : Endian) (s : UDPTransmitImpl) (packet : VideoPacket)
    (packets : List VideoPacket) :
    datagrams host s (packet :: packets) =
      packetDatagram host s.sequenceNum.toUInt16 packet ::
        datagrams host ⟨s.sequenceNum + 1⟩ packets := by
  simp [datagrams, Machine.outputs, Machine.trace, transmitter, transmit_eq,
    TransmitEvent.datagram?]

@[simp] theorem length_datagrams (host : Endian) (s : UDPTransmitImpl)
    (packets : List VideoPacket) :
    (datagrams host s packets).length = packets.length := by
  induction packets generalizing s with
  | nil => rfl
  | cons packet packets ih => simp [ih]

/-- The `i`-th datagram of a run carries the `i`-th packet and the counter's start value
plus `i`, modulo `2 ^ 16`. -/
theorem getElem?_datagrams (host : Endian) (s : UDPTransmitImpl) (packets : List VideoPacket)
    (i : ℕ) : (datagrams host s packets)[i]? =
      packets[i]?.map (packetDatagram host (s.sequenceNum + UInt32.ofNat i).toUInt16) := by
  induction packets generalizing s i with
  | nil => simp
  | cons packet packets ih =>
      cases i with
      | zero => simp
      | succ i =>
          rw [datagrams_cons, List.getElem?_cons_succ, List.getElem?_cons_succ, ih]
          have hnum : s.sequenceNum + 1 + UInt32.ofNat i
              = s.sequenceNum + UInt32.ofNat (i + 1) := by
            rw [UInt32.ofNat_add, UInt32.add_assoc, UInt32.add_comm 1]
            rfl
          rw [hnum]

end NaiveStreaming
