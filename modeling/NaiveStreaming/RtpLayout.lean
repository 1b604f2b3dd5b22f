import NaiveStreaming.Lib.Rfc3550
import NaiveStreaming.Stream

/-!
# Datagrams against the layout of RTP

The sender's datagrams and the receiver's reading of datagrams, compared with a parser of
the layout that `rtp.hpp` cites.  The sender sets the padding bit and adds no padding, so
the last octet of the video data is read as a padding count.  The receiver takes the
payload from byte 12 to the end, whatever the CSRC count and the padding bit say.
-/

namespace NaiveStreaming
open ByteOrder ByteWord Mealy Rfc3550

/-- `transmit` hands over a well-formed packet, the payload of which is the payload header
and all data, and which has no padding. -/
def CarriesPayload (host : Endian) (allowZero : Bool) (s : UDPTransmitImpl)
    (packet : VideoPacket) : Prop :=
  ∃ datagram parts, (transmit host s packet).2 = .sendTo datagram ∧
    parse allowZero datagram = some parts ∧
    parts.payload = payloadHeaderBytes host (transmitPayloadHeader packet) ++ packet.nalData ∧
    parts.padding = []

/-- Version 2, padding, no extension, no CSRC list. -/
theorem headD_packetDatagram (host : Endian) (sequenceNum : UInt16) (packet : VideoPacket) :
    (packetDatagram host sequenceNum packet).headD 0 = 0xA0 := by
  have hfirst : (transmitHeader sequenceNum packet).firstByte = 0xA0 := by
    simp only [RTPPacketHeader.firstByte, transmitHeader, if_true, Bool.false_eq_true, if_false]
    decide
  rw [← hfirst]
  rfl

/-- The last octet is that of the data or, without any, that of the flags. -/
theorem getLastD_packetDatagram (host : Endian) (sequenceNum : UInt16) (packet : VideoPacket) :
    (packetDatagram host sequenceNum packet).getLastD 0 = packet.nalData.getLastD 0 := by
  have hzero : toBytes (hton host (0 : UInt16)) = [0, 0] := by
    cases host <;> decide
  have hflags : (payloadHeaderBytes host (transmitPayloadHeader packet)).getLast? = some 0 := by
    rw [payloadHeaderBytes, transmitPayloadHeader, hzero, ← List.cons_append,
      List.getLast?_append]
    rfl
  simp [packetDatagram, hflags]

/-- The header that is sent promises padding, from byte 12 on. -/
theorem layout_packetDatagram (host : Endian) (sequenceNum : UInt16) (packet : VideoPacket) :
    version (packetDatagram host sequenceNum packet) = 2 ∧
    Rfc3550.padding (packetDatagram host sequenceNum packet) = true ∧
    payloadStart (packetDatagram host sequenceNum packet) = 12 := by
  have hext : extension (packetDatagram host sequenceNum packet) = false := by
    rw [extension, headD_packetDatagram]
    decide
  have hstart : payloadStart (packetDatagram host sequenceNum packet)
      = 12 + 4 * csrcCount (packetDatagram host sequenceNum packet) := by
    simp [payloadStart, hext]
  rw [hstart, version, Rfc3550.padding, csrcCount, headD_packetDatagram]
  decide

theorem drop_packetDatagram (host : Endian) (sequenceNum : UInt16) (packet : VideoPacket) :
    (packetDatagram host sequenceNum packet).drop 12
      = payloadHeaderBytes host (transmitPayloadHeader packet) ++ packet.nalData := by
  rw [packetDatagram, List.append_assoc, List.drop_left' (length_rtpHeaderBytes ..)]

/-- A datagram that is sent carries its packet as soon as it has no padding octets. -/
theorem carriesPayload_iff_paddingOctets (host : Endian) (allowZero : Bool) (s : UDPTransmitImpl)
    (packet : VideoPacket) : CarriesPayload host allowZero s packet ↔
      paddingOctets allowZero (packetDatagram host s.sequenceNum.toUInt16 packet) = some 0 := by
  obtain ⟨hversion, -, hstart⟩ := layout_packetDatagram host s.sequenceNum.toUInt16 packet
  have hlen : 12 ≤ (packetDatagram host s.sequenceNum.toUInt16 packet).length := by
    rw [length_packetDatagram]
    omega
  have hparts := exists_parse_padding_nil_iff allowZero
    (packetDatagram host s.sequenceNum.toUInt16 packet)
  constructor
  · rintro ⟨datagram, parts, hsend, hparse, -, hnone⟩
    rw [transmit_eq, TransmitEvent.sendTo.injEq] at hsend
    rw [← hsend] at hparse
    exact (hparts.mp ⟨parts, hparse, hnone⟩).2.2.1
  · intro hcount
    obtain ⟨parts, hparse, hnone⟩ := hparts.mpr ⟨hlen, hversion, hcount, hstart ▸ hlen⟩
    have hpayload := payload_append_padding hparse
    rw [hnone, List.append_nil, hstart, drop_packetDatagram] at hpayload
    exact ⟨_, parts, by rw [transmit_eq], hparse, hpayload, hnone⟩

/-- The count is the last octet of the data, whatever it was meant to be. -/
theorem paddingOctets_packetDatagram (host : Endian) (allowZero : Bool) (sequenceNum : UInt16)
    (packet : VideoPacket) :
    paddingOctets allowZero (packetDatagram host sequenceNum packet) = some 0 ↔
      allowZero = true ∧ packet.nalData.getLastD 0 = 0 := by
  obtain ⟨-, hpadding, -⟩ := layout_packetDatagram host sequenceNum packet
  rw [paddingOctets_eq_zero_iff, hpadding, getLastD_packetDatagram]
  simp only [Bool.true_eq_false, false_or]

/-- **When a datagram that is sent carries its packet.**  The padding count is the last
octet of the data, so it must be zero, and zero must be allowed. -/
theorem carriesPayload_iff (host : Endian) (allowZero : Bool) (s : UDPTransmitImpl)
    (packet : VideoPacket) : CarriesPayload host allowZero s packet ↔
      allowZero = true ∧ packet.nalData.getLastD 0 = 0 := by
  rw [carriesPayload_iff_paddingOctets, paddingOctets_packetDatagram]

/-- One byte of video, taken for padding by either rule. -/
theorem data_read_as_padding :
    ¬ ∃ allowZero, CarriesPayload .little allowZero {} ⟨[1], { timestamp := 0 }⟩ := by
  rintro ⟨allowZero, hcarries⟩
  rw [carriesPayload_iff_paddingOctets, paddingOctets_packetDatagram] at hcarries
  exact absurd hcarries.2 (by decide)

/-! ## What is received -/

/-- The packet has the media fields and the data that a payload holds. -/
def ReadsPayload (host : Endian) (payload : List UInt8) (packet : VideoPacket) : Prop :=
  ∃ ph, deserializePayloadHeader host payload = .ok ph ∧
    packet.nalMeta.nalType = ph.nalType ∧ packet.nalMeta.firstMacroblock = ph.firstMb ∧
    packet.nalMeta.lastMacroblock = ph.lastMb ∧ packet.nalData = payload.drop 7

/-- A packet delivered on this datagram is the one that its payload holds; in particular
there is such a payload. -/
def ExtractsPayload (host : Endian) (allowZero : Bool) (s : UDPReceiveImpl)
    (datagram : List UInt8) : Prop :=
  ∀ packet, .onPacketReceived packet ∈ ((receiver host).step s (arrive datagram)).2 →
    ∃ parts, parse allowZero datagram = some parts ∧ ReadsPayload host parts.payload packet

theorem ntoh_join16_inj (host : Endian) {a b c d : UInt8} :
    ntoh host (join16 a b) = ntoh host (join16 c d) ↔ a = c ∧ b = d := by
  constructor
  · intro h
    have hjoin := congrArg host.toNetwork h
    rw [ntoh, ntoh, Endian.toNetwork_toNetwork, Endian.toNetwork_toNetwork] at hjoin
    have hbytes := congrArg toBytes hjoin
    rw [toBytes_join16, toBytes_join16] at hbytes
    simpa using hbytes
  · rintro ⟨rfl, rfl⟩
    rfl

/-- Two payloads hold the same packet when they agree but for the flags. -/
theorem readsPayload_iff (host : Endian) (rtpHeader : RTPPacketHeader)
    {payloadHeader : RTPPayloadHeader} {payload received : List UInt8}
    (h : deserializePayloadHeader host received = .ok payloadHeader) :
    ReadsPayload host payload (receivedPacket rtpHeader payloadHeader (received.drop 7)) ↔
      7 ≤ payload.length ∧ payload.take 5 = received.take 5 ∧
        payload.drop 7 = received.drop 7 := by
  have hlen : 7 ≤ received.length := by
    by_contra hlt
    rw [deserializePayloadHeader_short host (Nat.not_le.mp hlt)] at h
    cases h
  match received, hlen with
  | y₀ :: y₁ :: y₂ :: y₃ :: y₄ :: y₅ :: y₆ :: ys, _ =>
    rw [deserializePayloadHeader_cons, Except.ok.injEq] at h
    subst h
    by_cases hshort : payload.length < 7
    · simp [ReadsPayload, deserializePayloadHeader_short host hshort, Nat.not_le.mpr hshort]
    · match payload, Nat.not_lt.mp hshort with
      | x₀ :: x₁ :: x₂ :: x₃ :: x₄ :: x₅ :: x₆ :: xs, hlong =>
        simp only [ReadsPayload, deserializePayloadHeader_cons, receivedPacket]
        simp [ntoh_join16_inj, and_assoc, eq_comm]

/-- What the handler delivers on a datagram with room for both headers: the payload header
from byte 12 of the buffer on, and all that was received after it. -/
theorem delivered_iff (host : Endian) (s : UDPReceiveImpl) {datagram : List UInt8}
    (h : 19 ≤ datagram.length) (hversion : version datagram = 2)
    (hext : extension datagram = false) : ∃ rtpHeader payloadHeader,
      deserializePayloadHeader host ((datagram.take 1600).drop 12) = .ok payloadHeader ∧
      ∀ packet, .onPacketReceived packet ∈ ((receiver host).step s (arrive datagram)).2 ↔
        packet = receivedPacket rtpHeader payloadHeader
          (((datagram.take 1600).drop 12).drop 7) := by
  have hhead : (datagram.take 1600).headD 0 = datagram.headD 0 := by
    cases datagram with
    | nil => rfl
    | cons x xs => rfl
  have hsupported : (Datagram.ofWire datagram).Supported := by
    rw [Datagram.Supported, Datagram.bytes_ofWire, hhead]
    exact ⟨hversion, by simpa [extension] using hext⟩
  have hlen : 19 ≤ (Datagram.ofWire datagram).bytes.length := by
    have hsize : receiveBufferSize = 1600 := rfl
    rw [Datagram.bytes_ofWire, List.length_take]
    omega
  obtain ⟨rtpHeader, payloadHeader, -, hread, hparse⟩ :=
    parseDatagram_supported host hlen hsupported
  refine ⟨rtpHeader, payloadHeader, hread, fun packet => ?_⟩
  rw [arrive, step_accepted host s hparse, List.drop_drop]
  simp [mem_checkSeqNum, Datagram.bytes_ofWire]

theorem window_take_drop (datagram : List UInt8) {first last : ℕ} (h : first + 5 ≤ last) :
    ((datagram.take last).drop first).take 5 = (datagram.drop first).take 5 ∧
    ((datagram.take last).drop first).drop 7
      = (datagram.drop (first + 7)).take (last - (first + 7)) := by
  constructor
  · rw [List.drop_take, List.take_take, Nat.min_eq_left (by omega)]
  · rw [List.drop_drop, List.drop_take]

/-- The data of the payload, when the layout leaves out as many bytes as the buffer cuts
off: none of a datagram that fits. -/
theorem take_payload_data {datagram : List UInt8} {c n : ℕ} (h : 19 ≤ datagram.length)
    (hcut : 4 * c + n = datagram.length - 1600) :
    (datagram.drop (12 + 4 * c + 7)).take (datagram.length - n - (12 + 4 * c + 7))
      = (datagram.drop (19 + 4 * c)).take 1581 := by
  have hdrop : 12 + 4 * c + 7 = 19 + 4 * c := by omega
  rw [hdrop]
  by_cases hlong : 1600 < datagram.length
  · have hrest : datagram.length - n - (19 + 4 * c) = 1581 := by omega
    rw [hrest]
  · rw [List.take_of_length_le (by rw [List.length_drop]; omega),
      List.take_of_length_le (by rw [List.length_drop]; omega)]

/-- The packet delivered is that of the payload when the layout leaves out as many bytes as
the buffer cuts off, and the payload agrees, but for the flags, with what is read. -/
theorem extractsPayload_iff_agrees (host : Endian) (allowZero : Bool) (s : UDPReceiveImpl)
    {datagram : List UInt8} (h : 19 ≤ datagram.length) (hversion : version datagram = 2)
    (hext : extension datagram = false) : ExtractsPayload host allowZero s datagram ↔
      ∃ n, paddingOctets allowZero datagram = some n ∧
        4 * csrcCount datagram + n = datagram.length - 1600 ∧
        (datagram.drop (12 + 4 * csrcCount datagram)).take 5 = (datagram.drop 12).take 5 ∧
        (datagram.drop (19 + 4 * csrcCount datagram)).take 1581
          = (datagram.drop 19).take 1581 := by
  obtain ⟨rtpHeader, payloadHeader, hread, hdelivered⟩ :=
    delivered_iff host s h hversion hext
  have hstart : payloadStart datagram = 12 + 4 * csrcCount datagram := by
    simp [payloadStart, hext]
  have hbuffer : 12 + 5 ≤ 1600 := by decide
  obtain ⟨hfields₁₂, hdata₁₂⟩ := window_take_drop datagram hbuffer
  simp only [ExtractsPayload, hdelivered, forall_eq, readsPayload_iff host rtpHeader hread]
  simp only [hfields₁₂, hdata₁₂]
  constructor
  · rintro ⟨parts, hparse, hlong, hfields, hdata⟩
    obtain ⟨-, -, n, hn, hfit, hpayload, -⟩ := parse_eq_some_iff.mp hparse
    rw [hstart] at hfit hpayload
    -- The lengths alone say how many bytes the layout leaves out.
    have hlen := congrArg List.length hdata
    have hsize := congrArg List.length hpayload
    simp only [List.length_drop, List.length_take] at hlen hsize
    have hcut : 4 * csrcCount datagram + n = datagram.length - 1600 := by omega
    have hwindow : 12 + 4 * csrcCount datagram + 5 ≤ datagram.length - n := by omega
    obtain ⟨hfieldsP, hdataP⟩ := window_take_drop datagram hwindow
    rw [hpayload, hfieldsP] at hfields
    rw [hpayload, hdataP, take_payload_data h hcut] at hdata
    exact ⟨n, hn, hcut, hfields, hdata⟩
  · rintro ⟨n, hn, hcut, hfields, hdata⟩
    have hwindow : 12 + 4 * csrcCount datagram + 5 ≤ datagram.length - n := by omega
    obtain ⟨hfieldsP, hdataP⟩ := window_take_drop datagram hwindow
    have hfit : payloadStart datagram + n ≤ datagram.length := by omega
    refine ⟨⟨_, _⟩, parse_eq_some_iff.mpr ⟨by omega, hversion, n, hn, hfit, rfl, rfl⟩, ?_⟩
    rw [hstart, hfieldsP, hdataP, take_payload_data h hcut]
    refine ⟨?_, hfields, hdata⟩
    rw [List.length_drop, List.length_take]
    omega

/-- **When the receiver extracts the payload.**  Of the datagrams that fit the buffer, those
with no CSRC list and no padding octets; of the longer ones, those with as many octets of
CSRC list and padding as the buffer cuts off, when the shifted payload reads the same. -/
theorem extractsPayload_iff (host : Endian) (allowZero : Bool) (s : UDPReceiveImpl)
    {datagram : List UInt8} (h : 19 ≤ datagram.length) (hversion : version datagram = 2)
    (hext : extension datagram = false) : ExtractsPayload host allowZero s datagram ↔
      (datagram.length ≤ 1600 ∧ csrcCount datagram = 0 ∧
        (padding datagram = false ∨ allowZero = true ∧ datagram.getLastD 0 = 0)) ∨
      (1600 < datagram.length ∧ ∃ n, paddingOctets allowZero datagram = some n ∧
        datagram.length = 1600 + 4 * csrcCount datagram + n ∧
        (datagram.drop (12 + 4 * csrcCount datagram)).take 5 = (datagram.drop 12).take 5 ∧
        (datagram.drop (19 + 4 * csrcCount datagram)).take 1581
          = (datagram.drop 19).take 1581) := by
  rw [extractsPayload_iff_agrees host allowZero s h hversion hext, ← paddingOctets_eq_zero_iff]
  constructor
  · rintro ⟨n, hn, hcut, hfields, hdata⟩
    by_cases hlong : 1600 < datagram.length
    · exact .inr ⟨hlong, n, hn, by omega, hfields, hdata⟩
    · have hnone : n = 0 := by omega
      exact .inl ⟨Nat.not_lt.mp hlong, by omega, hnone ▸ hn⟩
  · rintro (⟨hfits, hcc, hn⟩ | ⟨hlong, n, hn, hlen, hfields, hdata⟩)
    · exact ⟨0, hn, by omega, by rw [hcc], by rw [hcc]⟩
    · exact ⟨n, hn, by omega, hfields, hdata⟩

/-- A datagram with neither. -/
theorem extractsPayload_of_plain_header :
    ExtractsPayload .little false (.started ⟨List.replicate 1600 0, List.length_replicate ..⟩)
      (0x80 :: List.replicate 20 7) :=
  (extractsPayload_iff .little false _ (by decide) (by decide) (by decide)).mpr
    (.inl (by decide))

/-- One octet of padding, delivered as data. -/
theorem padding_delivered_as_data :
    ¬ ExtractsPayload .little false
      (.started ⟨List.replicate 1600 0, List.length_replicate ..⟩)
      (0xA0 :: List.replicate 18 0 ++ [1]) := by
  rw [extractsPayload_iff_agrees .little false _ (by decide) (by decide) (by decide)]
  rintro ⟨n, hn, hcut, -, -⟩
  have hone : paddingOctets false (0xA0 :: List.replicate 18 0 ++ [1]) = some 1 := by decide
  rw [hone, Option.some_inj] at hn
  rw [← hn] at hcut
  revert hcut
  decide

end NaiveStreaming
