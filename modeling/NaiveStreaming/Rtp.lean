import Mathlib.Data.FinEnum
import NaiveStreaming.Lib.ByteOrder
import NaiveStreaming.Types

/-!
# RTP and payload headers

The two header codecs of `rtp.cpp`, statement by statement: every write to the
caller's buffer in its source order, so that what a rejected call leaves behind is
part of the model.  A codec takes the byte order of the host it runs on, since `hton`
and `ntoh` depend on it.

Reads and writes are at constant offsets after a size check.  The reads are Lean
`data[i]`, which do not elaborate out of bounds.
-/

namespace NaiveStreaming
open ByteOrder ByteWord

/-- The `std::errc` values the codecs return. -/
inductive Errc
  | invalidArgument
  | protocolNotSupported
  deriving DecidableEq, Repr

/-- `RTP_PacketHeader`. -/
structure RTPPacketHeader where
  version : UInt32 := 0
  paddingBit : Bool := false
  extensionBit : Bool := false
  markerBit : Bool := false
  payloadType : UInt32 := 0
  sequenceNum : UInt16 := 0
  timestamp : UInt32 := 0
  ssrc : UInt32 := 0
  csrc : List UInt32 := []
  deriving DecidableEq, Repr

/-- `RTP_PayloadHeader`. -/
structure RTPPayloadHeader where
  nalType : NALType := NALType.unknown
  firstMb : UInt16 := 0
  lastMb : UInt16 := 0
  flags : UInt16 := 0
  deriving DecidableEq, Repr

abbrev RTPPacketHeader.size : ℕ := 12

abbrev RTPPayloadHeader.size : ℕ := 7

/-- `make_tie` of an RTP header. -/
def RTPPacketHeader.makeTie (p : RTPPacketHeader) :
    UInt32 × Bool × Bool × Bool × UInt32 × UInt16 × UInt32 × UInt32 × List UInt32 :=
  (p.version, p.paddingBit, p.extensionBit, p.markerBit, p.payloadType, p.sequenceNum,
    p.timestamp, p.ssrc, p.csrc)

/-- `make_tie` of a payload header, which has not all of its fields. -/
def RTPPayloadHeader.makeTie (p : RTPPayloadHeader) : NALType × UInt16 × UInt16 :=
  (p.nalType, p.firstMb, p.lastMb)

/-- `operator==` of RTP headers. -/
def RTPPacketHeader.operatorEq (lhs rhs : RTPPacketHeader) : Bool := lhs.makeTie == rhs.makeTie

/-- `operator==` of payload headers. -/
def RTPPayloadHeader.operatorEq (lhs rhs : RTPPayloadHeader) : Bool := lhs.makeTie == rhs.makeTie

theorem RTPPacketHeader.operatorEq_iff (a b : RTPPacketHeader) :
    a.operatorEq b = true ↔ a = b := by
  cases a
  cases b
  simp [operatorEq, makeTie]

/-- The equality of payload headers compares all fields but the flags. -/
theorem RTPPayloadHeader.operatorEq_iff (a b : RTPPayloadHeader) :
    a.operatorEq b = true ↔
      a.nalType = b.nalType ∧ a.firstMb = b.firstMb ∧ a.lastMb = b.lastMb := by
  simp [operatorEq, makeTie]

/-- `hton`, both overloads. -/
def hton {α : Type} {n : ℕ} [ByteWord α n] (host : Endian) (v : α) : α := host.toNetwork v

/-- `ntoh`, both overloads. -/
def ntoh {α : Type} {n : ℕ} [ByteWord α n] (host : Endian) (v : α) : α := host.toNetwork v

/-- The block that writes a `uint16_t` field at `buffer[i]`. -/
def putUInt16 (host : Endian) (buffer : List UInt8) (i : ℕ) (v : UInt16) : List UInt8 :=
  let n := hton host v
  (buffer.set i (n &&& 0x00FF).toUInt8).set (i + 1) (n >>> 8).toUInt8

/-- The block that writes a `uint32_t` field at `buffer[i]`. -/
def putUInt32 (host : Endian) (buffer : List UInt8) (i : ℕ) (v : UInt32) : List UInt8 :=
  let n := hton host v
  let buffer := buffer.set i (n &&& 0x000000FF).toUInt8
  let buffer := buffer.set (i + 1) ((n &&& 0x0000FFFF) >>> 8).toUInt8
  let buffer := buffer.set (i + 2) ((n &&& 0x00FFFFFF) >>> 16).toUInt8
  buffer.set (i + 3) (n >>> 24).toUInt8

/-- `serialize_rtp_header_to`: the error, if any, and the buffer afterwards.  The
checks stand between the writes as in the source. -/
def serializeRtpHeaderTo (host : Endian) (ph : RTPPacketHeader) (buffer : List UInt8) :
    Option Errc × List UInt8 :=
  if buffer.length < 12 then (some .invalidArgument, buffer) else
  if ph.version > 3 then (some .invalidArgument, buffer) else
  let buffer := buffer.set 0 0
  let buffer := buffer.modify 0 (· ||| ph.version.toUInt8 <<< 6)
  let buffer := if ph.paddingBit then buffer.modify 0 (· ||| (1 : UInt8) <<< 5) else buffer
  let buffer := if ph.extensionBit then buffer.modify 0 (· ||| (1 : UInt8) <<< 4) else buffer
  if ph.csrc.length > 15 then (some .invalidArgument, buffer) else
  let buffer := buffer.modify 0 (· ||| UInt8.ofNat ph.csrc.length)
  let buffer := buffer.set 1 0
  let buffer := if ph.markerBit then buffer.modify 1 (· ||| (1 : UInt8) <<< 7) else buffer
  if ph.payloadType > 127 then (some .invalidArgument, buffer) else
  let buffer := buffer.modify 1 (· ||| ph.payloadType.toUInt8)
  let buffer := putUInt16 host buffer 2 ph.sequenceNum
  let buffer := putUInt32 host buffer 4 ph.timestamp
  let buffer := putUInt32 host buffer 8 ph.ssrc
  if ph.csrc.length ≠ 0 then (some .protocolNotSupported, buffer) else
  (none, buffer)

/-- `deserialize_rtp_header_from`.  The CSRC count and list are skipped. -/
def deserializeRtpHeaderFrom (host : Endian) (data : List UInt8) : Except Errc RTPPacketHeader :=
  if _ : data.length < 12 then .error .invalidArgument
  else .ok
    { version := (data[0] >>> 6).toUInt32
      paddingBit := (data[0] &&& 0x20) >>> 5 != 0
      extensionBit := (data[0] &&& 0x10) >>> 4 != 0
      markerBit := data[1] >>> 7 != 0
      payloadType := (data[1] &&& 0x7F).toUInt32
      sequenceNum := ntoh host (join16 data[2] data[3])
      timestamp := ntoh host (join32 data[4] data[5] data[6] data[7])
      ssrc := ntoh host (join32 data[8] data[9] data[10] data[11]) }

/-- `serialize_payload_header`: the error, if any, and the buffer afterwards. -/
def serializePayloadHeader (host : Endian) (ph : RTPPayloadHeader) (buffer : List UInt8) :
    Option Errc × List UInt8 :=
  if buffer.length < 7 then (some .invalidArgument, buffer) else
  let buffer := buffer.set 0 ph.nalType.toUInt8
  let buffer := putUInt16 host buffer 1 ph.firstMb
  let buffer := putUInt16 host buffer 3 ph.lastMb
  let buffer := putUInt16 host buffer 5 ph.flags
  (none, buffer)

/-- `deserialize_payload_header`.  The flags are read from `data[3]` and `data[4]`, as
the source does: those are the bytes of `last_mb`. -/
def deserializePayloadHeader (host : Endian) (data : List UInt8) : Except Errc RTPPayloadHeader :=
  if _ : data.length < 7 then .error .invalidArgument
  else .ok
    { nalType := ⟨data[0]⟩
      firstMb := ntoh host (join16 data[1] data[2])
      lastMb := ntoh host (join16 data[3] data[4])
      flags := ntoh host (join16 data[3] data[4]) }

/-! ## What the serializers write -/

/-- The masks of the two-byte block cut off only what the cast cuts off. -/
private theorem putUInt16_eq (host : Endian) (buffer : List UInt8) (i : ℕ) (v : UInt16) :
    putUInt16 host buffer i v =
      (buffer.set i (hton host v).toUInt8).set (i + 1) (hton host v >>> 8).toUInt8 := by
  rw [putUInt16, toUInt8_and_low]

/-- The masks of the four-byte block cut off only what the casts cut off. -/
private theorem putUInt32_eq (host : Endian) (buffer : List UInt8) (i : ℕ) (v : UInt32) :
    putUInt32 host buffer i v =
      (((buffer.set i (hton host v).toUInt8).set (i + 1) (hton host v >>> 8).toUInt8).set
        (i + 2) (hton host v >>> 16).toUInt8).set (i + 3) (hton host v >>> 24).toUInt8 := by
  have h₀ := toUInt8_and_shiftRight (hton host v) 0x000000FF 0 (by decide) (by decide)
  have h₁ := toUInt8_and_shiftRight (hton host v) 0x0000FFFF 8 (by decide) (by decide)
  have h₂ := toUInt8_and_shiftRight (hton host v) 0x00FFFFFF 16 (by decide) (by decide)
  simp only [UInt32.shiftRight_zero] at h₀
  rw [putUInt32, h₀, h₁, h₂]

/-- A conditional or-assignment to a byte. -/
private theorem ite_modify_or (c : Bool) (l : List UInt8) (i : ℕ) (k : UInt8) :
    (if c then l.modify i (· ||| k) else l) = l.modify i (· ||| if c then k else 0) := by
  cases c with
  | true => rfl
  | false =>
      simp only [Bool.false_eq_true, if_false, UInt8.or_zero]
      exact (List.modify_id i l).symm

/-- The headers that `serialize_rtp_header_to` can put on the wire. -/
structure RTPPacketHeader.Accepted (ph : RTPPacketHeader) : Prop where
  version : ph.version ≤ 3
  payloadType : ph.payloadType ≤ 127
  csrc : ph.csrc = []

/-- The first byte of an accepted header: version, padding, extension, no CSRC. -/
def RTPPacketHeader.firstByte (ph : RTPPacketHeader) : UInt8 :=
  ph.version.toUInt8 <<< 6 ||| (if ph.paddingBit then (1 : UInt8) <<< 5 else 0) |||
    if ph.extensionBit then (1 : UInt8) <<< 4 else 0

/-- The second byte of the header: marker and payload type. -/
def RTPPacketHeader.secondByte (ph : RTPPacketHeader) : UInt8 :=
  (if ph.markerBit then (1 : UInt8) <<< 7 else 0) ||| ph.payloadType.toUInt8

/-- The twelve bytes of an accepted header. -/
def rtpHeaderBytes (host : Endian) (ph : RTPPacketHeader) : List UInt8 :=
  ph.firstByte :: ph.secondByte :: (toBytes (hton host ph.sequenceNum)
    ++ toBytes (hton host ph.timestamp) ++ toBytes (hton host ph.ssrc))

/-- The seven bytes of a payload header. -/
def payloadHeaderBytes (host : Endian) (ph : RTPPayloadHeader) : List UInt8 :=
  ph.nalType.toUInt8 :: (toBytes (hton host ph.firstMb) ++ toBytes (hton host ph.lastMb)
    ++ toBytes (hton host ph.flags))

@[simp] theorem length_rtpHeaderBytes (host : Endian) (ph : RTPPacketHeader) :
    (rtpHeaderBytes host ph).length = 12 := by simp [rtpHeaderBytes]

@[simp] theorem length_payloadHeaderBytes (host : Endian) (ph : RTPPayloadHeader) :
    (payloadHeaderBytes host ph).length = 7 := by simp [payloadHeaderBytes]

theorem serializeRtpHeaderTo_fst (host : Endian) (ph : RTPPacketHeader) (buffer : List UInt8) :
    (serializeRtpHeaderTo host ph buffer).1 =
      if buffer.length < 12 then some .invalidArgument else
      if ph.version > 3 then some .invalidArgument else
      if ph.csrc.length > 15 then some .invalidArgument else
      if ph.payloadType > 127 then some .invalidArgument else
      if ph.csrc.length ≠ 0 then some .protocolNotSupported else none := by
  simp only [serializeRtpHeaderTo, apply_ite Prod.fst]

/-- The bytes that stand at the begin of the buffer when a header of a version that fits is
accepted or rejected: those of the fields before the check that fails. -/
def writtenBytes (host : Endian) (ph : RTPPacketHeader) : List UInt8 :=
  if ph.csrc.length > 15 then [ph.firstByte]
  else if ph.payloadType > 127 then
    [ph.firstByte ||| UInt8.ofNat ph.csrc.length, if ph.markerBit then (1 : UInt8) <<< 7 else 0]
  else
    (ph.firstByte ||| UInt8.ofNat ph.csrc.length) :: ph.secondByte ::
      (toBytes (hton host ph.sequenceNum) ++ toBytes (hton host ph.timestamp)
        ++ toBytes (hton host ph.ssrc))

/-- **Accepted or rejected, a header is written as far as its checks pass**, and no further. -/
theorem serializeRtpHeaderTo_snd (host : Endian) {ph : RTPPacketHeader} (hv : ph.version ≤ 3)
    {buffer : List UInt8} (hb : 12 ≤ buffer.length) :
    (serializeRtpHeaderTo host ph buffer).2
      = writtenBytes host ph ++ buffer.drop (writtenBytes host ph).length := by
  match buffer, hb with
  | x₀ :: x₁ :: x₂ :: x₃ :: x₄ :: x₅ :: x₆ :: x₇ :: x₈ :: x₉ :: x₁₀ :: x₁₁ :: rest, hb =>
    have hv : ¬ ph.version > 3 := UInt32.not_lt.mpr hv
    simp only [serializeRtpHeaderTo, hv, ite_modify_or, Nat.not_lt.mpr hb, if_false]
    by_cases hc : ph.csrc.length > 15
    · simp [writtenBytes, hc, RTPPacketHeader.firstByte]
    · by_cases hp : ph.payloadType > 127
      · simp [writtenBytes, hc, hp, RTPPacketHeader.firstByte]
      · simp only [writtenBytes, hc, hp, if_false, apply_ite Prod.snd, ite_self]
        simp [RTPPacketHeader.firstByte, RTPPacketHeader.secondByte, putUInt16_eq, putUInt32_eq,
          toBytes_uint16, toBytes_uint32]

theorem writtenBytes_of_accepted (host : Endian) {ph : RTPPacketHeader} (h : ph.Accepted) :
    writtenBytes host ph = rtpHeaderBytes host ph := by
  have hp : ¬ ph.payloadType > 127 := UInt32.not_lt.mpr h.payloadType
  simp [writtenBytes, rtpHeaderBytes, h.csrc, hp]

/-- **An accepted header is written over the first twelve bytes**, and over no other. -/
theorem serializeRtpHeaderTo_eq (host : Endian) {ph : RTPPacketHeader} (h : ph.Accepted)
    {buffer : List UInt8} (hb : 12 ≤ buffer.length) :
    serializeRtpHeaderTo host ph buffer = (none, rtpHeaderBytes host ph ++ buffer.drop 12) := by
  have hv : ¬ ph.version > 3 := UInt32.not_lt.mpr h.version
  have hp : ¬ ph.payloadType > 127 := UInt32.not_lt.mpr h.payloadType
  have hfst : (serializeRtpHeaderTo host ph buffer).1 = none := by
    rw [serializeRtpHeaderTo_fst, if_neg (Nat.not_lt.mpr hb), if_neg hv]
    simp [hp, h.csrc]
  have hsnd := serializeRtpHeaderTo_snd host h.version hb
  rw [writtenBytes_of_accepted host h, length_rtpHeaderBytes] at hsnd
  exact Prod.ext hfst hsnd

theorem serializePayloadHeader_eq (host : Endian) (ph : RTPPayloadHeader) {buffer : List UInt8}
    (hb : 7 ≤ buffer.length) :
    serializePayloadHeader host ph buffer
      = (none, payloadHeaderBytes host ph ++ buffer.drop 7) := by
  match buffer, hb with
  | x₀ :: x₁ :: x₂ :: x₃ :: x₄ :: x₅ :: x₆ :: rest, hb =>
    simp only [serializePayloadHeader, Nat.not_lt.mpr hb]
    simp [payloadHeaderBytes, putUInt16_eq, toBytes_uint16]

/-- A buffer that is too small is not written to. -/
theorem serializePayloadHeader_short (host : Endian) (ph : RTPPayloadHeader)
    {buffer : List UInt8} (hb : buffer.length < 7) :
    serializePayloadHeader host ph buffer = (some .invalidArgument, buffer) := by
  simp [serializePayloadHeader, hb]

/-- **Acceptance.**  The size of the buffer and the field checks decide the result. -/
theorem serializeRtpHeaderTo_fst_eq_none_iff (host : Endian) (ph : RTPPacketHeader)
    (buffer : List UInt8) :
    (serializeRtpHeaderTo host ph buffer).1 = none ↔ 12 ≤ buffer.length ∧ ph.Accepted := by
  constructor
  · intro h
    rw [serializeRtpHeaderTo_fst] at h
    split_ifs at h with hb hv hc hp hn
    exact ⟨Nat.le_of_not_lt hb, UInt32.not_lt.mp hv, UInt32.not_lt.mp hp,
      List.length_eq_zero_iff.mp (not_not.mp hn)⟩
  · rintro ⟨hb, ha⟩
    rw [serializeRtpHeaderTo_eq host ha hb]

/-! ## What the deserializers read -/

theorem deserializePayloadHeader_short (host : Endian) {data : List UInt8}
    (h : data.length < 7) : deserializePayloadHeader host data = .error .invalidArgument := by
  simp [deserializePayloadHeader, h]

theorem deserializeRtpHeaderFrom_cons (host : Endian)
    (x₀ x₁ x₂ x₃ x₄ x₅ x₆ x₇ x₈ x₉ x₁₀ x₁₁ : UInt8) (rest : List UInt8) :
    deserializeRtpHeaderFrom host
        (x₀ :: x₁ :: x₂ :: x₃ :: x₄ :: x₅ :: x₆ :: x₇ :: x₈ :: x₉ :: x₁₀ :: x₁₁ :: rest)
      = .ok
        { version := (x₀ >>> 6).toUInt32
          paddingBit := (x₀ &&& 0x20) >>> 5 != 0
          extensionBit := (x₀ &&& 0x10) >>> 4 != 0
          markerBit := x₁ >>> 7 != 0
          payloadType := (x₁ &&& 0x7F).toUInt32
          sequenceNum := ntoh host (join16 x₂ x₃)
          timestamp := ntoh host (join32 x₄ x₅ x₆ x₇)
          ssrc := ntoh host (join32 x₈ x₉ x₁₀ x₁₁) } :=
  dif_neg (by simp only [List.length_cons]; omega)

theorem deserializePayloadHeader_cons (host : Endian) (x₀ x₁ x₂ x₃ x₄ x₅ x₆ : UInt8)
    (rest : List UInt8) :
    deserializePayloadHeader host (x₀ :: x₁ :: x₂ :: x₃ :: x₄ :: x₅ :: x₆ :: rest)
      = .ok
        { nalType := ⟨x₀⟩
          firstMb := ntoh host (join16 x₁ x₂)
          lastMb := ntoh host (join16 x₃ x₄)
          flags := ntoh host (join16 x₃ x₄) } :=
  dif_neg (by simp only [List.length_cons]; omega)

/-- Twelve bytes decide what is read: the rest of the span plays no part. -/
theorem deserializeRtpHeaderFrom_append (host : Endian) {data : List UInt8}
    (h : 12 ≤ data.length) (rest : List UInt8) :
    deserializeRtpHeaderFrom host (data ++ rest) = deserializeRtpHeaderFrom host data := by
  match data, h with
  | x₀ :: x₁ :: x₂ :: x₃ :: x₄ :: x₅ :: x₆ :: x₇ :: x₈ :: x₉ :: x₁₀ :: x₁₁ :: tail, _ =>
    simp only [List.cons_append, deserializeRtpHeaderFrom_cons]

theorem deserializePayloadHeader_append (host : Endian) {data : List UInt8}
    (h : 7 ≤ data.length) (rest : List UInt8) :
    deserializePayloadHeader host (data ++ rest) = deserializePayloadHeader host data := by
  match data, h with
  | x₀ :: x₁ :: x₂ :: x₃ :: x₄ :: x₅ :: x₆ :: tail, _ =>
    simp only [List.cons_append, deserializePayloadHeader_cons]

/-! ## Reading back what was written -/

private theorem firstByte_fields : ∀ v : UInt8, v ≤ 3 → ∀ p e : Bool,
    let b := v <<< 6 ||| (if p then (1 : UInt8) <<< 5 else 0) |||
      if e then (1 : UInt8) <<< 4 else 0
    b >>> 6 = v ∧ ((b &&& 0x20) >>> 5 != 0) = p ∧ ((b &&& 0x10) >>> 4 != 0) = e := by
  decide +kernel

private theorem secondByte_fields : ∀ t : UInt8, t ≤ 127 → ∀ m : Bool,
    let b := (if m then (1 : UInt8) <<< 7 else 0) ||| t
    (b >>> 7 != 0) = m ∧ b &&& 0x7F = t := by
  decide +kernel

/-- A small value survives the cast to a byte and back. -/
private theorem toUInt32_toUInt8 {v : UInt32} {n : UInt8} (h : v ≤ n.toUInt32) :
    v.toUInt8 ≤ n ∧ v.toUInt8.toUInt32 = v := by
  have hn := n.toNat_lt
  have hv : v.toNat ≤ n.toNat := by simpa using UInt32.le_iff_toNat_le.mp h
  constructor
  · rw [UInt8.le_iff_toNat_le, UInt32.toNat_toUInt8]
    omega
  · rw [← UInt32.toNat_inj, UInt8.toNat_toUInt32, UInt32.toNat_toUInt8]
    omega

/-- An accepted header as a host of any order reads it: the single-byte fields are
recovered, the wider ones go through both conversions. -/
theorem deserializeRtpHeaderFrom_rtpHeaderBytes (writer reader : Endian) {ph : RTPPacketHeader}
    (h : ph.Accepted) (rest : List UInt8) :
    deserializeRtpHeaderFrom reader (rtpHeaderBytes writer ph ++ rest) = .ok
      { ph with
        sequenceNum := ntoh reader (hton writer ph.sequenceNum)
        timestamp := ntoh reader (hton writer ph.timestamp)
        ssrc := ntoh reader (hton writer ph.ssrc) } := by
  obtain ⟨hv₁, hv₂⟩ := toUInt32_toUInt8 (n := 3) h.version
  obtain ⟨ht₁, ht₂⟩ := toUInt32_toUInt8 (n := 127) h.payloadType
  obtain ⟨hver, hpad, hext⟩ := firstByte_fields _ hv₁ ph.paddingBit ph.extensionBit
  obtain ⟨hmark, htype⟩ := secondByte_fields _ ht₁ ph.markerBit
  simp only [rtpHeaderBytes, toBytes_uint16, toBytes_uint32, List.cons_append, List.nil_append,
    deserializeRtpHeaderFrom_cons, RTPPacketHeader.firstByte, RTPPacketHeader.secondByte,
    hver, hpad, hext, hmark, htype, hv₂, ht₂, join16_toUInt8, join32_toUInt8]
  rw [← h.csrc]

/-- **Reading an accepted header back** on the same host yields every field of it. -/
theorem deserializeRtpHeaderFrom_self (host : Endian) {ph : RTPPacketHeader} (h : ph.Accepted)
    (rest : List UInt8) :
    deserializeRtpHeaderFrom host (rtpHeaderBytes host ph ++ rest) = .ok ph := by
  rw [deserializeRtpHeaderFrom_rtpHeaderBytes host host h]
  simp [ntoh, hton]

/-- A payload header as a host of any order reads it.  The flags written are lost: those
read are the last macroblock again. -/
theorem deserializePayloadHeader_payloadHeaderBytes (writer reader : Endian)
    (ph : RTPPayloadHeader) (rest : List UInt8) :
    deserializePayloadHeader reader (payloadHeaderBytes writer ph ++ rest) = .ok
      { nalType := ph.nalType
        firstMb := ntoh reader (hton writer ph.firstMb)
        lastMb := ntoh reader (hton writer ph.lastMb)
        flags := ntoh reader (hton writer ph.lastMb) } := by
  simp only [payloadHeaderBytes, toBytes_uint16, List.cons_append, List.nil_append,
    deserializePayloadHeader_cons, join16_toUInt8]

theorem deserializePayloadHeader_self (host : Endian) (ph : RTPPayloadHeader)
    (rest : List UInt8) :
    deserializePayloadHeader host (payloadHeaderBytes host ph ++ rest)
      = .ok { ph with flags := ph.lastMb } := by
  rw [deserializePayloadHeader_payloadHeaderBytes]
  simp [ntoh, hton]

private theorem firstByte_of_fields : ∀ b : UInt8,
    (b >>> 6 ≤ 3) ∧ (b >>> 6) <<< 6 |||
      (if (b &&& 0x20) >>> 5 != 0 then (1 : UInt8) <<< 5 else 0) |||
      (if (b &&& 0x10) >>> 4 != 0 then (1 : UInt8) <<< 4 else 0) = b &&& 0xF0 := by
  decide +kernel

private theorem secondByte_of_fields : ∀ b : UInt8,
    b &&& 0x7F ≤ 127 ∧
      (if b >>> 7 != 0 then (1 : UInt8) <<< 7 else 0) ||| b &&& 0x7F = b := by
  decide +kernel

/-- **Every header that is read can be written**, and the bytes written are the bytes
read with the CSRC count cleared. -/
theorem rtpHeaderBytes_deserializeRtpHeaderFrom (host : Endian) {data : List UInt8}
    (h : 12 ≤ data.length) : ∃ ph, deserializeRtpHeaderFrom host data = .ok ph ∧
      ph.Accepted ∧ rtpHeaderBytes host ph = (data.take 12).modify 0 (· &&& 0xF0) := by
  match data, h with
  | x₀ :: x₁ :: x₂ :: x₃ :: x₄ :: x₅ :: x₆ :: x₇ :: x₈ :: x₉ :: x₁₀ :: x₁₁ :: rest, _ =>
    obtain ⟨hv, hb₀⟩ := firstByte_of_fields x₀
    obtain ⟨ht, hb₁⟩ := secondByte_of_fields x₁
    refine ⟨_, deserializeRtpHeaderFrom_cons host .., ⟨?_, ?_, rfl⟩, ?_⟩
    · simpa [UInt32.le_iff_toNat_le, UInt8.le_iff_toNat_le] using hv
    · simpa [UInt32.le_iff_toNat_le, UInt8.le_iff_toNat_le] using ht
    · simp only [rtpHeaderBytes, RTPPacketHeader.firstByte, RTPPacketHeader.secondByte,
        UInt8.toUInt8_toUInt32, hb₀, hb₁, hton, ntoh, Endian.toNetwork_toNetwork,
        toBytes_join16, toBytes_join32]
      rfl

/-- The bytes written for a payload header that was read: the last two repeat the two
before them. -/
theorem payloadHeaderBytes_deserializePayloadHeader (host : Endian) {data : List UInt8}
    (h : 7 ≤ data.length) : ∃ ph, deserializePayloadHeader host data = .ok ph ∧
      payloadHeaderBytes host ph = data.take 5 ++ (data.drop 3).take 2 := by
  match data, h with
  | x₀ :: x₁ :: x₂ :: x₃ :: x₄ :: x₅ :: x₆ :: rest, _ =>
    refine ⟨_, deserializePayloadHeader_cons host .., ?_⟩
    simp [payloadHeaderBytes, hton, ntoh]

end NaiveStreaming
