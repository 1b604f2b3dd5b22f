import NaiveStreaming.Lib.Mealy
import NaiveStreaming.Rtp

/-!
# The receiver

`UDP_ReceiveImpl` has one receive armed at a time.  Its completion finds the datagram at
the start of `m_buffer`, the rest of which still holds earlier ones; the handler parses
the buffer, compares sequence numbers, calls the listener and arms the next receive.

A span over two iterators is defined only when they are in order and within the vector.
The handler builds two and checks neither, so a step of the model may end without a
state: the end of defined behaviour.  Which completions end there is settled by
`step_rejected`, `step_runt` and `step_accepted`, which together cover all of them
(`Completion.cases`) and are all that the rest of the development knows of the handler.
-/

namespace NaiveStreaming
open ByteOrder Mealy

/-- The size `initialize` gives to `m_buffer`. -/
abbrev receiveBufferSize : ℕ := 1600

/-- `m_buffer` after `initialize`, which nothing resizes. -/
structure ReceiveBuffer where
  bytes : List UInt8
  size_eq : bytes.length = receiveBufferSize

/-- A datagram as a completion reports it: no longer than the buffer it was received in. -/
structure Datagram where
  bytes : List UInt8
  fits : bytes.length ≤ receiveBufferSize
  deriving DecidableEq

/-- A datagram received in the buffer: one that is too long is cut to the buffer's size. -/
def Datagram.ofWire (bytes : List UInt8) : Datagram :=
  ⟨bytes.take receiveBufferSize, List.length_take_le ..⟩

theorem Datagram.bytes_ofWire (bytes : List UInt8) :
    (ofWire bytes).bytes = bytes.take receiveBufferSize := rfl

/-- The buffer after a datagram is written over its start. -/
def ReceiveBuffer.fill (buffer : ReceiveBuffer) (d : Datagram) : ReceiveBuffer :=
  ⟨d.bytes ++ buffer.bytes.drop d.bytes.length, by
    have hd := d.fits
    rw [List.length_append, List.length_drop, buffer.size_eq]
    omega⟩

/-- The arguments of a completion handler: an error code, or the bytes received. -/
inductive Completion
  /-- A non-zero `std::error_code`. -/
  | error (ec : ℕ)
  /-- Success, with the datagram at the start of `m_buffer`. -/
  | datagram (d : Datagram)
  deriving DecidableEq

/-! ## The handler -/

/-- The state of `UDP_ReceiveImpl`, once started: `m_buffer`, `m_prev_seq_num` and the
number of outstanding `async_receive_from` operations. -/
structure UDPReceiveImpl where
  buffer : ReceiveBuffer
  prevSeqNum : ℤ := -1
  armed : ℕ := 1

/-- What the handler does that can be seen from outside, in order. -/
inductive ReceiveEvent
  | receiveFailed (ec : ℕ)
  | tooSmall
  | notRtpHeader (ec : Errc)
  /-- A version other than 2. -/
  | wrongVersion (version : UInt32)
  | extensionBitSet
  /-- The span from `m_buffer.begin() + first` to `m_buffer.begin() + last` is built. -/
  | span (first last : ℕ)
  | notPayloadHeader (ec : Errc)
  /-- The branch that reports the number of a missed packet. -/
  | missedPacket (seqNum : ℤ)
  /-- The listener is called. -/
  | onPacketReceived (packet : VideoPacket)
  deriving DecidableEq

def UDPReceiveImpl.receiveNext (s : UDPReceiveImpl) : UDPReceiveImpl :=
  { s with armed := s.armed + 1 }

/-- The bytes of a span built from two iterators, when it is defined. -/
def spanOf (bytes : List UInt8) (first last : ℕ) : Option (List UInt8) :=
  if first ≤ last ∧ last ≤ bytes.length then some ((bytes.take last).drop first) else none

/-- The sequence check: `m_prev_seq_num` is an `int`, and so is its successor. -/
def checkSeqNum (prevSeqNum : ℤ) (sequenceNum : UInt16) : List ReceiveEvent :=
  if prevSeqNum = -1 then []
  else if prevSeqNum + 1 ≠ sequenceNum.toNat then [.missedPacket (prevSeqNum + 1)]
  else []

/-- The packet the handler builds; its flags keep their default. -/
def receivedPacket (rtpHeader : RTPPacketHeader) (payloadHeader : RTPPayloadHeader)
    (payloadData : List UInt8) : VideoPacket :=
  { nalData := payloadData
    nalMeta :=
      { nalType := payloadHeader.nalType
        firstMacroblock := payloadHeader.firstMb
        lastMacroblock := payloadHeader.lastMb
        timestamp := rtpHeader.timestamp } }

/-- The completion handler of `receive_next`. -/
def onReceive (host : Endian) (s : UDPReceiveImpl) (ec : Option ℕ) (bytesReceived : ℕ) :
    Option UDPReceiveImpl × List ReceiveEvent :=
  match ec with
  | some ec => (some s.receiveNext, [.receiveFailed ec])
  | none =>
    if bytesReceived < 12 then (some s.receiveNext, [.tooSmall]) else
    match deserializeRtpHeaderFrom host s.buffer.bytes with
    | .error ec => (some s.receiveNext, [.notRtpHeader ec])
    | .ok rtpHeader =>
      if rtpHeader.version ≠ 2 then (some s.receiveNext, [.wrongVersion rtpHeader.version]) else
      if rtpHeader.extensionBit then (some s.receiveNext, [.extensionBitSet]) else
      match spanOf s.buffer.bytes 12 19 with
      | none => (none, [.span 12 19])
      | some payloadHeaderData =>
        match deserializePayloadHeader host payloadHeaderData with
        | .error ec => (some s.receiveNext, [.span 12 19, .notPayloadHeader ec])
        | .ok payloadHeader =>
          -- `bytes_received` is only known to be at least 12 here.
          match spanOf s.buffer.bytes 19 bytesReceived with
          | none => (none, [.span 12 19, .span 19 bytesReceived])
          | some payloadData =>
            let packet := receivedPacket rtpHeader payloadHeader payloadData
            let report := checkSeqNum s.prevSeqNum rtpHeader.sequenceNum
            let s := { s with prevSeqNum := rtpHeader.sequenceNum.toNat }
            (some s.receiveNext,
              .span 12 19 :: .span 19 bytesReceived :: (report ++ [.onPacketReceived packet]))

/-- Successive completions.  Each uses up the receive that was armed. -/
def receiver (host : Endian) : Machine UDPReceiveImpl Completion ReceiveEvent where
  step s completion :=
    match completion with
    | .error ec => onReceive host { s with armed := s.armed - 1 } (some ec) 0
    | .datagram d => onReceive host
        { s with buffer := s.buffer.fill d, armed := s.armed - 1 } none d.bytes.length

/-- The state after `start`, whatever `m_buffer` holds. -/
def UDPReceiveImpl.started (buffer : ReceiveBuffer) : UDPReceiveImpl := { buffer := buffer }

/-- The first byte of the datagram has version 2 and a clear extension bit. -/
def Datagram.Supported (d : Datagram) : Prop :=
  d.bytes.headD 0 >>> 6 = 2 ∧ d.bytes.headD 0 &&& 0x10 = 0

instance (d : Datagram) : Decidable d.Supported := inferInstanceAs (Decidable (_ ∧ _))

/-- The completions that a check of the handler turns away. -/
def Completion.Rejected : Completion → Prop
  | error _ => True
  | datagram d => d.bytes.length < 12 ∨ ¬ d.Supported

instance : DecidablePred Completion.Rejected
  | .error _ => inferInstanceAs (Decidable True)
  | .datagram _ => inferInstanceAs (Decidable (_ ∨ _))

/-- A datagram that passes every check and has no room for the payload header. -/
structure Datagram.Runt (d : Datagram) : Prop where
  long : 12 ≤ d.bytes.length
  short : d.bytes.length < 19
  supported : d.Supported

instance (d : Datagram) : Decidable d.Runt :=
  decidable_of_iff (12 ≤ d.bytes.length ∧ d.bytes.length < 19 ∧ d.Supported)
    ⟨fun h => ⟨h.1, h.2.1, h.2.2⟩, fun h => ⟨h.long, h.short, h.supported⟩⟩

/-- A parser of one datagram alone: its sequence number and its packet. -/
def parseDatagram (host : Endian) (bytes : List UInt8) : Option (UInt16 × VideoPacket) :=
  if bytes.length < 19 then none else
  match deserializeRtpHeaderFrom host bytes with
  | .error _ => none
  | .ok rtpHeader =>
    if rtpHeader.version ≠ 2 ∨ rtpHeader.extensionBit then none else
    match deserializePayloadHeader host (bytes.drop 12) with
    | .error _ => none
    | .ok payloadHeader =>
      some (rtpHeader.sequenceNum, receivedPacket rtpHeader payloadHeader (bytes.drop 19))

/-- The parser on what a completion brings. -/
def Completion.parse (host : Endian) : Completion → Option (UInt16 × VideoPacket)
  | error _ => none
  | datagram d => parseDatagram host d.bytes

/-- Every completion is turned away, or a runt, or a datagram with room for both headers. -/
theorem Completion.cases (c : Completion) : c.Rejected ∨ (∃ d, c = .datagram d ∧ d.Runt) ∨
    ∃ d, c = .datagram d ∧ 19 ≤ d.bytes.length ∧ d.Supported := by
  cases c with
  | error ec => exact .inl trivial
  | datagram d =>
      by_cases hs : d.Supported
      · by_cases h12 : d.bytes.length < 12
        · exact .inl (.inl h12)
        · by_cases h19 : d.bytes.length < 19
          · exact .inr (.inl ⟨d, rfl, Nat.not_lt.mp h12, h19, hs⟩)
          · exact .inr (.inr ⟨d, rfl, Nat.not_lt.mp h19, hs⟩)
      · exact .inl (.inr hs)

/-! ## What the handler reads -/

private theorem version_eq_two : ∀ b : UInt8, (b >>> 6).toUInt32 = 2 ↔ b >>> 6 = 2 := by
  decide +kernel

private theorem extensionBit_ne : ∀ b : UInt8,
    ((b &&& 0x10) >>> 4 != 0) = false ↔ b &&& 0x10 = 0 := by
  decide +kernel

/-- Any twelve bytes are read as a header, whose first byte decides the two checks. -/
theorem deserializeRtpHeaderFrom_supported (host : Endian) {data : List UInt8}
    (h : 12 ≤ data.length) : ∃ rtpHeader, deserializeRtpHeaderFrom host data = .ok rtpHeader ∧
      (rtpHeader.version = 2 ↔ data.headD 0 >>> 6 = 2) ∧
      (rtpHeader.extensionBit = false ↔ data.headD 0 &&& 0x10 = 0) := by
  match data, h with
  | x₀ :: x₁ :: x₂ :: x₃ :: x₄ :: x₅ :: x₆ :: x₇ :: x₈ :: x₉ :: x₁₀ :: x₁₁ :: rest, _ =>
    exact ⟨_, deserializeRtpHeaderFrom_cons host .., version_eq_two x₀, extensionBit_ne x₀⟩

theorem deserializeRtpHeaderFrom_fill (host : Endian) (buffer : ReceiveBuffer) {d : Datagram}
    (h : 12 ≤ d.bytes.length) :
    deserializeRtpHeaderFrom host (buffer.fill d).bytes
      = deserializeRtpHeaderFrom host d.bytes :=
  deserializeRtpHeaderFrom_append host h _

/-- The span of the payload header lies within the buffer, if not within the datagram. -/
theorem spanOf_payloadHeader (buffer : ReceiveBuffer) :
    spanOf buffer.bytes 12 19 = some ((buffer.bytes.take 19).drop 12) := by
  rw [spanOf, if_pos (by rw [buffer.size_eq]; decide)]

theorem spanOf_fill (buffer : ReceiveBuffer) (d : Datagram) {first last : ℕ}
    (h : first ≤ last) (hl : last ≤ d.bytes.length) :
    spanOf (buffer.fill d).bytes first last = some ((d.bytes.take last).drop first) := by
  have hsize := (buffer.fill d).size_eq
  have hfits := d.fits
  rw [spanOf, if_pos (by omega), ReceiveBuffer.fill, List.take_append_of_le_length hl]

theorem deserializePayloadHeader_ok (host : Endian) {data : List UInt8}
    (h : 7 ≤ data.length) : ∃ ph, deserializePayloadHeader host data = .ok ph := by
  obtain ⟨ph, hread, -⟩ := payloadHeaderBytes_deserializePayloadHeader host h
  exact ⟨ph, hread⟩

theorem deserializePayloadHeader_drop (host : Endian) {bytes : List UInt8}
    (h : 19 ≤ bytes.length) :
    deserializePayloadHeader host ((bytes.take 19).drop 12)
      = deserializePayloadHeader host (bytes.drop 12) := by
  have hlen : 7 ≤ ((bytes.take 19).drop 12).length := by
    rw [List.length_drop, List.length_take]
    omega
  have hsplit : bytes.drop 12 = (bytes.take 19).drop 12 ++ bytes.drop 19 := by
    conv_lhs => rw [← List.take_append_drop 19 bytes]
    rw [List.drop_append_of_le_length (by rw [List.length_take]; omega)]
  rw [hsplit, deserializePayloadHeader_append host hlen]

/-- The parser accepts a datagram with room for both headers that the checks let through. -/
theorem parseDatagram_supported (host : Endian) {d : Datagram} (h : 19 ≤ d.bytes.length)
    (hs : d.Supported) : ∃ rtpHeader payloadHeader,
      deserializeRtpHeaderFrom host d.bytes = .ok rtpHeader ∧
      deserializePayloadHeader host (d.bytes.drop 12) = .ok payloadHeader ∧
      parseDatagram host d.bytes = some (rtpHeader.sequenceNum,
        receivedPacket rtpHeader payloadHeader (d.bytes.drop 19)) := by
  have h12 : 12 ≤ d.bytes.length := by omega
  obtain ⟨rtpHeader, hread, hversion, hext⟩ := deserializeRtpHeaderFrom_supported host h12
  have hdrop : 7 ≤ (d.bytes.drop 12).length := by
    rw [List.length_drop]
    omega
  obtain ⟨payloadHeader, hpayload⟩ := deserializePayloadHeader_ok host hdrop
  refine ⟨rtpHeader, payloadHeader, hread, hpayload, ?_⟩
  simp [parseDatagram, hread, hpayload, hversion.mpr hs.1, hext.mpr hs.2, Nat.not_lt.mpr h]

theorem Completion.parse_eq_none {c : Completion} (host : Endian) (h : c.Rejected) :
    c.parse host = none := by
  cases c with
  | error ec => rfl
  | datagram d =>
      by_cases h19 : d.bytes.length < 19
      · simp [parse, parseDatagram, h19]
      · have h12 : 12 ≤ d.bytes.length := by omega
        obtain ⟨rtpHeader, hread, hversion, hext⟩ := deserializeRtpHeaderFrom_supported host h12
        rcases h with h12 | hs
        · omega
        · have hcheck : rtpHeader.version ≠ 2 ∨ rtpHeader.extensionBit := by
            by_contra hnot
            simp only [ne_eq, not_or, not_not, Bool.not_eq_true] at hnot
            exact hs ⟨hversion.mp hnot.1, hext.mp hnot.2⟩
          simp [parse, parseDatagram, hread, hcheck, h19]

/-- What the parser accepts has room for both headers and passed the checks. -/
theorem supported_of_parseDatagram {host : Endian} {d : Datagram} {delivery : UInt16 × VideoPacket}
    (h : parseDatagram host d.bytes = some delivery) : 19 ≤ d.bytes.length ∧ d.Supported := by
  constructor
  · by_contra hlt
    simp [parseDatagram, Nat.not_le.mp hlt] at h
  · by_contra hs
    have hnone := (Completion.datagram d).parse_eq_none host (.inr hs)
    rw [Completion.parse, h] at hnone
    cases hnone

theorem mem_checkSeqNum {event : ReceiveEvent} {prevSeqNum : ℤ} {sequenceNum : UInt16} :
    event ∈ checkSeqNum prevSeqNum sequenceNum ↔ prevSeqNum ≠ -1 ∧
      prevSeqNum + 1 ≠ sequenceNum.toNat ∧ event = .missedPacket (prevSeqNum + 1) := by
  unfold checkSeqNum
  split_ifs with h₁ h₂ <;> simp_all

/-- The events of the checks that turn a completion away. -/
def ReceiveEvent.Diagnostic : ReceiveEvent → Prop
  | receiveFailed _ | tooSmall | notRtpHeader _ | wrongVersion _ | extensionBitSet => True
  | span .. | notPayloadHeader _ | missedPacket _ | onPacketReceived _ => False

/-- The buffer that the handler finds. -/
def UDPReceiveImpl.filled (s : UDPReceiveImpl) : Completion → ReceiveBuffer
  | .error _ => s.buffer
  | .datagram d => s.buffer.fill d

/-- **A rejected completion** changes nothing but the buffer and is answered by one
diagnostic. -/
theorem step_rejected (host : Endian) (s : UDPReceiveImpl) {c : Completion} (h : c.Rejected) :
    ∃ event : ReceiveEvent, event.Diagnostic ∧ (receiver host).step s c =
      (some { s with buffer := s.filled c, armed := s.armed - 1 + 1 }, [event]) := by
  cases c with
  | error ec => exact ⟨.receiveFailed ec, trivial, rfl⟩
  | datagram d =>
      by_cases h12 : d.bytes.length < 12
      · exact ⟨.tooSmall, trivial, if_pos h12⟩
      · have hlen : 12 ≤ d.bytes.length := Nat.not_lt.mp h12
        obtain ⟨rtpHeader, hread, hversion, hext⟩ :=
          deserializeRtpHeaderFrom_supported host hlen
        rw [← deserializeRtpHeaderFrom_fill host s.buffer hlen] at hread
        by_cases hv : rtpHeader.version = 2
        · have hx : rtpHeader.extensionBit = true := by
            by_contra hx
            rcases h with hlt | hs
            · omega
            · exact hs ⟨hversion.mp hv, hext.mp (Bool.eq_false_iff.mpr hx)⟩
          refine ⟨.extensionBitSet, trivial, ?_⟩
          simp [receiver, onReceive, hread, hv, hx, h12,
            UDPReceiveImpl.receiveNext, UDPReceiveImpl.filled]
        · refine ⟨.wrongVersion rtpHeader.version, trivial, ?_⟩
          simp [receiver, onReceive, hread, hv, h12,
            UDPReceiveImpl.receiveNext, UDPReceiveImpl.filled]

/-- **A runt leaves defined behaviour**: its payload header is read from what earlier
datagrams left, and the payload would end before it begins. -/
theorem step_runt (host : Endian) (s : UDPReceiveImpl) {d : Datagram} (h : d.Runt) :
    (receiver host).step s (.datagram d) =
      (none, [.span 12 19, .span 19 d.bytes.length]) := by
  obtain ⟨rtpHeader, hread, hversion, hext⟩ := deserializeRtpHeaderFrom_supported host h.long
  rw [← deserializeRtpHeaderFrom_fill host s.buffer h.long] at hread
  have hslice : 7 ≤ (((s.buffer.fill d).bytes.take 19).drop 12).length := by
    rw [List.length_drop, List.length_take, (s.buffer.fill d).size_eq]
    decide
  obtain ⟨payloadHeader, hpayload⟩ := deserializePayloadHeader_ok host hslice
  have hspan : spanOf (s.buffer.fill d).bytes 19 d.bytes.length = none :=
    if_neg fun hle => absurd hle.1 (Nat.not_le.mpr h.short)
  simp [receiver, onReceive, hread, hpayload, hspan, spanOf_payloadHeader,
    hversion.mpr h.supported.1, hext.mpr h.supported.2, Nat.not_lt.mpr h.long]

/-- **An accepted datagram** is delivered as the parser reads it, after the sequence
check, and its sequence number is kept. -/
theorem step_accepted (host : Endian) (s : UDPReceiveImpl) {d : Datagram}
    {sequenceNum : UInt16} {packet : VideoPacket}
    (h : parseDatagram host d.bytes = some (sequenceNum, packet)) :
    (receiver host).step s (.datagram d) =
      (some { buffer := s.buffer.fill d, prevSeqNum := sequenceNum.toNat,
              armed := s.armed - 1 + 1 },
        .span 12 19 :: .span 19 d.bytes.length ::
          (checkSeqNum s.prevSeqNum sequenceNum ++ [.onPacketReceived packet])) := by
  obtain ⟨hlen, hs⟩ := supported_of_parseDatagram h
  obtain ⟨rtpHeader, payloadHeader, hread, hpayload, hparse⟩ := parseDatagram_supported host hlen hs
  have h12 : 12 ≤ d.bytes.length := by omega
  obtain ⟨rtpHeader', hread', hversion, hext⟩ := deserializeRtpHeaderFrom_supported host h12
  rw [hread] at hread'
  cases hread'
  rw [h] at hparse
  cases hparse
  -- The handler reads the buffer, of which the datagram is only a prefix.
  rw [← deserializeRtpHeaderFrom_fill host s.buffer h12] at hread
  rw [← deserializePayloadHeader_drop host hlen] at hpayload
  simp [receiver, onReceive, hread, hpayload, spanOf_fill s.buffer d, hlen,
    hversion.mpr hs.1, hext.mpr hs.2, Nat.not_lt.mpr h12,
    UDPReceiveImpl.receiveNext]

end NaiveStreaming
