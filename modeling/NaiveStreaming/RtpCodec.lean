import NaiveStreaming.Rtp

/-!
# The header codecs as a whole

What the two codecs of `rtp.cpp` guarantee together.  The RTP header codec is exact:
acceptance, round trip and canonical bytes hold for every header, buffer and host.  The
payload header codec is not, because the deserializer reads the flags from the bytes of
the last macroblock, and its two round trips hold exactly where that makes no
difference.  Neither codec is independent of the host: the bytes are those of network
order on little-endian hosts only.
-/

namespace NaiveStreaming
open ByteOrder ByteWord

/-- **The RTP header codec is exact.**  The checks accept a header exactly when it has
a representation; an accepted one is written within twelve bytes and read back in every
field; and any twelve bytes are read as a header that is written back as the same
bytes, the CSRC count apart. -/
theorem rtpHeader_codec_exact (host : Endian) :
    (∀ ph buffer, (serializeRtpHeaderTo host ph buffer).1 = none ↔
      12 ≤ buffer.length ∧ ph.version ≤ 3 ∧ ph.payloadType ≤ 127 ∧ ph.csrc = []) ∧
    (∀ ph buffer, (serializeRtpHeaderTo host ph buffer).1 = none →
      (serializeRtpHeaderTo host ph buffer).2.length = buffer.length ∧
      (serializeRtpHeaderTo host ph buffer).2.drop 12 = buffer.drop 12 ∧
      deserializeRtpHeaderFrom host (serializeRtpHeaderTo host ph buffer).2 = .ok ph) ∧
    (∀ data, 12 ≤ data.length → ∃ ph, deserializeRtpHeaderFrom host data = .ok ph ∧
      ∀ buffer, 12 ≤ buffer.length → (serializeRtpHeaderTo host ph buffer).1 = none ∧
        (serializeRtpHeaderTo host ph buffer).2.take 12
          = (data.take 12).modify 0 (· &&& 0xF0)) := by
  refine ⟨?_, ?_, ?_⟩
  · intro ph buffer
    rw [serializeRtpHeaderTo_fst_eq_none_iff]
    exact and_congr_right fun _ => ⟨fun h => ⟨h.1, h.2, h.3⟩, fun h => ⟨h.1, h.2.1, h.2.2⟩⟩
  · intro ph buffer h
    obtain ⟨hb, ha⟩ := (serializeRtpHeaderTo_fst_eq_none_iff host ph buffer).mp h
    rw [serializeRtpHeaderTo_eq host ha hb]
    refine ⟨?_, ?_, ?_⟩
    · simp only [List.length_append, length_rtpHeaderBytes, List.length_drop]
      omega
    · exact List.drop_left' (length_rtpHeaderBytes host ph)
    · exact deserializeRtpHeaderFrom_self host ha _
  · intro data h
    obtain ⟨ph, hread, ha, hbytes⟩ := rtpHeaderBytes_deserializeRtpHeaderFrom host h
    refine ⟨ph, hread, ?_⟩
    intro buffer hb
    rw [serializeRtpHeaderTo_eq host ha hb, ← hbytes]
    exact ⟨rfl, List.take_left' (length_rtpHeaderBytes host ph)⟩

/-- A call that returns an error leaves the buffer as it was. -/
def FailsAtomically (host : Endian) (ph : RTPPacketHeader) (buffer : List UInt8) : Prop :=
  (serializeRtpHeaderTo host ph buffer).1 ≠ none → (serializeRtpHeaderTo host ph buffer).2 = buffer

/-- A buffer that is too small is not written to, and neither is any for a version that does not
fit. -/
theorem serializeRtpHeaderTo_early (host : Endian) {ph : RTPPacketHeader} {buffer : List UInt8}
    (h : buffer.length < 12 ∨ 3 < ph.version) :
    serializeRtpHeaderTo host ph buffer = (some .invalidArgument, buffer) := by
  by_cases hshort : buffer.length < 12
  · simp [serializeRtpHeaderTo, hshort]
  · have hv : ph.version > 3 := h.resolve_left hshort
    simp [serializeRtpHeaderTo, hshort, hv]

/-- **When a failed call leaves the buffer alone.**  The other checks stand behind writes: a
header that they reject leaves its first bytes behind, and the buffer is as it was only when
they stood there before. -/
theorem failsAtomically_iff (host : Endian) (ph : RTPPacketHeader) (buffer : List UInt8) :
    FailsAtomically host ph buffer ↔
      buffer.length < 12 ∨ 3 < ph.version ∨ ph.Accepted ∨ writtenBytes host ph <+: buffer := by
  by_cases hearly : buffer.length < 12 ∨ 3 < ph.version
  · have hatomic : FailsAtomically host ph buffer := fun _ => by
      rw [serializeRtpHeaderTo_early host hearly]
    rw [← or_assoc]
    exact ⟨fun _ => .inl hearly, fun _ => hatomic⟩
  · obtain ⟨hshort, hversion⟩ := not_or.mp hearly
    have hb : 12 ≤ buffer.length := Nat.not_lt.mp hshort
    have hv : ph.version ≤ 3 := UInt32.not_lt.mp hversion
    rw [or_iff_right hshort, or_iff_right hversion, FailsAtomically, ne_eq,
      serializeRtpHeaderTo_fst_eq_none_iff, serializeRtpHeaderTo_snd host hv hb,
      and_iff_right hb, List.prefix_iff_eq_append, imp_iff_not_or, not_not]

/-- A payload type of eight bits: the version is in the buffer when the call fails. -/
theorem rejected_header_left_behind :
    ¬ FailsAtomically .little { version := 2, payloadType := 128 } (List.replicate 12 0) := by
  intro h
  exact absurd (h (by decide)) (by decide)

/-! ## The payload header codec -/

/-- The codec carries the header `ph` through the buffer `buffer`: a short buffer is
refused and left alone, any other takes the header in its first seven bytes and yields
all four fields of it again. -/
def PayloadHeaderRoundTrips (host : Endian) (ph : RTPPayloadHeader) (buffer : List UInt8) :
    Prop :=
  (buffer.length < 7 →
    serializePayloadHeader host ph buffer = (some .invalidArgument, buffer)) ∧
  (7 ≤ buffer.length →
    (serializePayloadHeader host ph buffer).1 = none ∧
    (serializePayloadHeader host ph buffer).2.length = buffer.length ∧
    (serializePayloadHeader host ph buffer).2.drop 7 = buffer.drop 7 ∧
    ∃ ph', deserializePayloadHeader host (serializePayloadHeader host ph buffer).2 = .ok ph' ∧
      ph'.nalType = ph.nalType ∧ ph'.firstMb = ph.firstMb ∧ ph'.lastMb = ph.lastMb ∧
      ph'.flags = ph.flags)

/-- The codec carries the bytes `data` through a header: a short string is refused, any
other is read as a header that is written as its first seven bytes. -/
def PayloadBytesRoundTrip (host : Endian) (data : List UInt8) : Prop :=
  (data.length < 7 → deserializePayloadHeader host data = .error .invalidArgument) ∧
  (7 ≤ data.length → ∃ ph, deserializePayloadHeader host data = .ok ph ∧
    ∀ buffer, 7 ≤ buffer.length →
      (serializePayloadHeader host ph buffer).1 = none ∧
      (serializePayloadHeader host ph buffer).2.take 7 = data.take 7)

theorem payloadHeaderRoundTrips_iff (host : Endian) (ph : RTPPayloadHeader)
    (buffer : List UInt8) :
    PayloadHeaderRoundTrips host ph buffer ↔ buffer.length < 7 ∨ ph.flags = ph.lastMb := by
  by_cases hshort : buffer.length < 7
  · simp [PayloadHeaderRoundTrips, hshort, serializePayloadHeader_short host ph hshort]
  · have hb : 7 ≤ buffer.length := Nat.not_lt.mp hshort
    have hlen : (payloadHeaderBytes host ph ++ buffer.drop 7).length = buffer.length := by
      simp only [List.length_append, length_payloadHeaderBytes, List.length_drop]
      omega
    have hdrop : (payloadHeaderBytes host ph ++ buffer.drop 7).drop 7 = buffer.drop 7 :=
      List.drop_left' (length_payloadHeaderBytes host ph)
    have hread := deserializePayloadHeader_self host ph (buffer.drop 7)
    simp only [PayloadHeaderRoundTrips, serializePayloadHeader_eq host ph hb, hread, hlen,
      hdrop, Nat.not_lt.mpr hb, hb]
    simp [eq_comm]

theorem payloadBytesRoundTrip_iff (host : Endian) (data : List UInt8) :
    PayloadBytesRoundTrip host data ↔
      data.length < 7 ∨ (data.drop 5).take 2 = (data.drop 3).take 2 := by
  by_cases hshort : data.length < 7
  · simp [PayloadBytesRoundTrip, hshort, deserializePayloadHeader_short host hshort]
  · have hd : 7 ≤ data.length := Nat.not_lt.mp hshort
    obtain ⟨ph, hread, hbytes⟩ := payloadHeaderBytes_deserializePayloadHeader host hd
    have hsplit : data.take 7 = data.take 5 ++ (data.drop 5).take 2 := by
      rw [← List.take_add]
    have htake : ∀ buffer, 7 ≤ buffer.length →
        (serializePayloadHeader host ph buffer).1 = none ∧
        (serializePayloadHeader host ph buffer).2.take 7
          = data.take 5 ++ (data.drop 3).take 2 := by
      intro buffer hb
      rw [serializePayloadHeader_eq host ph hb, ← hbytes]
      exact ⟨rfl, List.take_left' (length_payloadHeaderBytes host ph)⟩
    constructor
    · rintro ⟨-, h⟩
      obtain ⟨ph', hread', hwrite⟩ := h hd
      rw [hread] at hread'
      cases hread'
      have hw := (hwrite (List.replicate 7 0) (by simp)).2
      rw [(htake (List.replicate 7 0) (by simp)).2, hsplit] at hw
      exact .inr (List.append_cancel_left hw).symm
    · rintro (hlt | heq)
      · omega
      · refine ⟨fun hlt => by omega, fun _ => ⟨ph, hread, fun buffer hb => ?_⟩⟩
        rw [hsplit, heq]
        exact htake buffer hb

/-- **When the payload header codec is a bijection.**  A header survives exactly when
its flags equal its last macroblock, and seven bytes survive exactly when bytes 5 and 6
repeat bytes 3 and 4. -/
theorem payloadHeader_codec_iff (host : Endian) (ph : RTPPayloadHeader)
    (buffer data : List UInt8) :
    (PayloadHeaderRoundTrips host ph buffer ↔ buffer.length < 7 ∨ ph.flags = ph.lastMb) ∧
    (PayloadBytesRoundTrip host data ↔
      data.length < 7 ∨ (data.drop 5).take 2 = (data.drop 3).take 2) :=
  ⟨payloadHeaderRoundTrips_iff host ph buffer, payloadBytesRoundTrip_iff host data⟩

/-- A header whose only flag is set comes back without it. -/
theorem payloadHeader_codec_loses_flags :
    ¬ PayloadHeaderRoundTrips .little { flags := 1 } (List.replicate 7 0) := by
  rw [payloadHeaderRoundTrips_iff]
  decide

/-! ## Equality and encoding -/

theorem payloadHeaderBytes_injective (host : Endian) :
    Function.Injective (payloadHeaderBytes host) := by
  intro a b h
  have hread : ∀ v w : UInt16, toBytes (hton host v) = toBytes (hton host w) → v = w := by
    intro v w hvw
    have hswap := congrArg host.toNetwork (toBytes_injective hvw)
    simpa [hton] using hswap
  obtain ⟨htype, hrest⟩ := List.cons.inj h
  obtain ⟨hrange, hflags⟩ := List.append_inj hrest (by simp)
  obtain ⟨hfirst, hlast⟩ := List.append_inj hrange (by simp)
  cases a
  cases b
  simp only [RTPPayloadHeader.mk.injEq]
  exact ⟨congrArg NALType.mk htype, hread _ _ hfirst, hread _ _ hlast, hread _ _ hflags⟩

/-- `operator==` holds of two headers exactly when the same seven bytes are written for them. -/
def EqualityAgrees (host : Endian) (a b : RTPPayloadHeader) (buffer : List UInt8) : Prop :=
  a.operatorEq b = true ↔
    (serializePayloadHeader host a buffer).2.take 7 =
      (serializePayloadHeader host b buffer).2.take 7

/-- **When equality agrees with the encoding**: for headers of the same flags, and for those that
differ in another field. -/
theorem equalityAgrees_iff (host : Endian) (a b : RTPPayloadHeader) {buffer : List UInt8}
    (hb : 7 ≤ buffer.length) :
    EqualityAgrees host a b buffer ↔
      a.flags = b.flags ∨ a.nalType ≠ b.nalType ∨ a.firstMb ≠ b.firstMb ∨ a.lastMb ≠ b.lastMb := by
  have hwritten : ∀ ph, (serializePayloadHeader host ph buffer).2.take 7
      = payloadHeaderBytes host ph := by
    intro ph
    rw [serializePayloadHeader_eq host ph hb]
    exact List.take_left' (length_payloadHeaderBytes host ph)
  have hsame : a = b ↔ (a.nalType = b.nalType ∧ a.firstMb = b.firstMb ∧ a.lastMb = b.lastMb) ∧
      a.flags = b.flags := by
    cases a
    cases b
    simp only [RTPPayloadHeader.mk.injEq, and_assoc]
  rw [EqualityAgrees, hwritten, hwritten, (payloadHeaderBytes_injective host).eq_iff, hsame,
    RTPPayloadHeader.operatorEq_iff]
  tauto

/-- Two headers without flags. -/
theorem equalityAgrees_iff_unflagged :
    EqualityAgrees .little { firstMb := 1 } { firstMb := 2 } (List.replicate 7 0) ↔
      (0 : UInt16) = 0 ∨ NALType.unknown ≠ NALType.unknown ∨ (1 : UInt16) ≠ 2 ∨ (0 : UInt16) ≠ 0 :=
  equalityAgrees_iff .little { firstMb := 1 } { firstMb := 2 } (by decide)

/-- Headers that differ in a flag are equal and have different bytes. -/
theorem equality_ignores_flags :
    ¬ ∀ (host : Endian) (a b : RTPPayloadHeader) (buffer : List UInt8), 7 ≤ buffer.length →
      EqualityAgrees host a b buffer := by
  intro h
  have hflag := h .little {} { flags := 1 } (List.replicate 7 0) (by decide)
  rw [EqualityAgrees] at hflag
  exact absurd hflag (by decide)

/-! ## Network order -/

/-- The multi-byte fields of the RTP header are their own byte swaps. -/
def RTPPacketHeader.Palindromic (ph : RTPPacketHeader) : Prop :=
  byteSwap ph.sequenceNum = ph.sequenceNum ∧ byteSwap ph.timestamp = ph.timestamp ∧
    byteSwap ph.ssrc = ph.ssrc

/-- The macroblock range of the payload header is its own byte swap. -/
def RTPPayloadHeader.Palindromic (pl : RTPPayloadHeader) : Prop :=
  byteSwap pl.firstMb = pl.firstMb ∧ byteSwap pl.lastMb = pl.lastMb

/-- Bytes 2–3, 4–7 and 8–11 of the RTP header are big-endian. -/
def RTPPacketHeader.NetworkOrder (writer : Endian) (ph : RTPPacketHeader) : Prop :=
  ∀ buffer, 12 ≤ buffer.length →
    ((serializeRtpHeaderTo writer ph buffer).2.drop 2).take 2 = bigEndian ph.sequenceNum ∧
    ((serializeRtpHeaderTo writer ph buffer).2.drop 4).take 4 = bigEndian ph.timestamp ∧
    ((serializeRtpHeaderTo writer ph buffer).2.drop 8).take 4 = bigEndian ph.ssrc

/-- Bytes 1–2, 3–4 and 5–6 of the payload header are big-endian. -/
def RTPPayloadHeader.NetworkOrder (writer : Endian) (pl : RTPPayloadHeader) : Prop :=
  ∀ buffer, 7 ≤ buffer.length →
    ((serializePayloadHeader writer pl buffer).2.drop 1).take 2 = bigEndian pl.firstMb ∧
    ((serializePayloadHeader writer pl buffer).2.drop 3).take 2 = bigEndian pl.lastMb ∧
    ((serializePayloadHeader writer pl buffer).2.drop 5).take 2 = bigEndian pl.flags

/-- The multi-byte fields of the RTP header that `writer` wrote are what `reader` reads. -/
def RTPPacketHeader.Recovered (writer reader : Endian) (ph : RTPPacketHeader) : Prop :=
  ∀ buffer, 12 ≤ buffer.length → ∃ ph',
    deserializeRtpHeaderFrom reader (serializeRtpHeaderTo writer ph buffer).2 = .ok ph' ∧
    ph'.sequenceNum = ph.sequenceNum ∧ ph'.timestamp = ph.timestamp ∧ ph'.ssrc = ph.ssrc

/-- The macroblock range that `writer` wrote is what `reader` reads. -/
def RTPPayloadHeader.Recovered (writer reader : Endian) (pl : RTPPayloadHeader) : Prop :=
  ∀ buffer, 7 ≤ buffer.length → ∃ pl',
    deserializePayloadHeader reader (serializePayloadHeader writer pl buffer).2 = .ok pl' ∧
    pl'.firstMb = pl.firstMb ∧ pl'.lastMb = pl.lastMb

/-- The headers written on `writer` have network order on the wire, and `reader` recovers
the multi-byte fields from them. -/
structure HostIndependent (writer reader : Endian) (ph : RTPPacketHeader)
    (pl : RTPPayloadHeader) : Prop where
  rtp_bytes : ph.NetworkOrder writer
  payload_bytes : pl.NetworkOrder writer
  rtp_read : ph.Recovered writer reader
  payload_read : pl.Recovered writer reader

/-- Extracting the bytes of a converted field yields network order on a little-endian
host. -/
private theorem toBytes_hton_iff (writer : Endian) {α : Type} {n : ℕ} [ByteWord α n] (v : α) :
    toBytes (hton writer v) = bigEndian v ↔ writer = .little ∨ byteSwap v = v :=
  Endian.toBytes_toNetwork_eq_iff writer v

/-- A field survives two conversions on hosts of one order. -/
private theorem ntoh_hton_iff (writer reader : Endian) {α : Type} {n : ℕ} [ByteWord α n]
    (v : α) : ntoh reader (hton writer v) = v ↔ writer = reader ∨ byteSwap v = v :=
  Endian.toNetwork_cross_iff writer reader v

theorem RTPPacketHeader.networkOrder_iff (writer : Endian) {ph : RTPPacketHeader}
    (h : ph.Accepted) : ph.NetworkOrder writer ↔ writer = .little ∨ ph.Palindromic := by
  have hfields : ∀ buffer : List UInt8, 12 ≤ buffer.length →
      ((serializeRtpHeaderTo writer ph buffer).2.drop 2).take 2
        = toBytes (hton writer ph.sequenceNum) ∧
      ((serializeRtpHeaderTo writer ph buffer).2.drop 4).take 4
        = toBytes (hton writer ph.timestamp) ∧
      ((serializeRtpHeaderTo writer ph buffer).2.drop 8).take 4
        = toBytes (hton writer ph.ssrc) := by
    intro buffer hb
    rw [serializeRtpHeaderTo_eq writer h hb]
    simp [rtpHeaderBytes, toBytes_uint16, toBytes_uint32]
  rw [Palindromic, or_and_left, or_and_left, ← toBytes_hton_iff, ← toBytes_hton_iff,
    ← toBytes_hton_iff]
  constructor
  · intro hn
    have hb : 12 ≤ (List.replicate 12 (0 : UInt8)).length := by simp
    obtain ⟨h₁, h₂, h₃⟩ := hfields _ hb
    rw [← h₁, ← h₂, ← h₃]
    exact hn _ hb
  · intro hw buffer hb
    obtain ⟨h₁, h₂, h₃⟩ := hfields buffer hb
    rw [h₁, h₂, h₃]
    exact hw

theorem RTPPayloadHeader.networkOrder_iff (writer : Endian) (pl : RTPPayloadHeader) :
    pl.NetworkOrder writer ↔
      writer = .little ∨ pl.Palindromic ∧ byteSwap pl.flags = pl.flags := by
  have hfields : ∀ buffer : List UInt8, 7 ≤ buffer.length →
      ((serializePayloadHeader writer pl buffer).2.drop 1).take 2
        = toBytes (hton writer pl.firstMb) ∧
      ((serializePayloadHeader writer pl buffer).2.drop 3).take 2
        = toBytes (hton writer pl.lastMb) ∧
      ((serializePayloadHeader writer pl buffer).2.drop 5).take 2
        = toBytes (hton writer pl.flags) := by
    intro buffer hb
    rw [serializePayloadHeader_eq writer pl hb]
    simp [payloadHeaderBytes, toBytes_uint16]
  rw [Palindromic, and_assoc, or_and_left, or_and_left, ← toBytes_hton_iff,
    ← toBytes_hton_iff, ← toBytes_hton_iff]
  constructor
  · intro hn
    have hb : 7 ≤ (List.replicate 7 (0 : UInt8)).length := by simp
    obtain ⟨h₁, h₂, h₃⟩ := hfields _ hb
    rw [← h₁, ← h₂, ← h₃]
    exact hn _ hb
  · intro hw buffer hb
    obtain ⟨h₁, h₂, h₃⟩ := hfields buffer hb
    rw [h₁, h₂, h₃]
    exact hw

theorem RTPPacketHeader.recovered_iff (writer reader : Endian) {ph : RTPPacketHeader}
    (h : ph.Accepted) : ph.Recovered writer reader ↔ writer = reader ∨ ph.Palindromic := by
  have hread : ∀ buffer : List UInt8, 12 ≤ buffer.length →
      deserializeRtpHeaderFrom reader (serializeRtpHeaderTo writer ph buffer).2 = .ok
        { ph with
          sequenceNum := ntoh reader (hton writer ph.sequenceNum)
          timestamp := ntoh reader (hton writer ph.timestamp)
          ssrc := ntoh reader (hton writer ph.ssrc) } := by
    intro buffer hb
    rw [serializeRtpHeaderTo_eq writer h hb]
    exact deserializeRtpHeaderFrom_rtpHeaderBytes writer reader h _
  rw [Palindromic, or_and_left, or_and_left, ← ntoh_hton_iff, ← ntoh_hton_iff,
    ← ntoh_hton_iff]
  constructor
  · intro hr
    obtain ⟨ph', hph', hfields⟩ := hr (List.replicate 12 0) (by simp)
    rw [hread _ (by simp)] at hph'
    cases hph'
    exact hfields
  · intro hw buffer hb
    exact ⟨_, hread buffer hb, hw⟩

theorem RTPPayloadHeader.recovered_iff (writer reader : Endian) (pl : RTPPayloadHeader) :
    pl.Recovered writer reader ↔ writer = reader ∨ pl.Palindromic := by
  have hread : ∀ buffer : List UInt8, 7 ≤ buffer.length →
      deserializePayloadHeader reader (serializePayloadHeader writer pl buffer).2 = .ok
        { nalType := pl.nalType
          firstMb := ntoh reader (hton writer pl.firstMb)
          lastMb := ntoh reader (hton writer pl.lastMb)
          flags := ntoh reader (hton writer pl.lastMb) } := by
    intro buffer hb
    rw [serializePayloadHeader_eq writer pl hb]
    exact deserializePayloadHeader_payloadHeaderBytes writer reader pl _
  rw [Palindromic, or_and_left, ← ntoh_hton_iff, ← ntoh_hton_iff]
  constructor
  · intro hr
    obtain ⟨pl', hpl', hfields⟩ := hr (List.replicate 7 0) (by simp)
    rw [hread _ (by simp)] at hpl'
    cases hpl'
    exact hfields
  · intro hw buffer hb
    exact ⟨_, hread buffer hb, hw⟩

/-- **When the wire format does not depend on the host.**  The bytes written are those
of network order exactly on a little-endian host, and they are recovered exactly on a
host of the same order; fields that are their own byte swaps are the only others. -/
theorem hostIndependent_iff (writer reader : Endian) {ph : RTPPacketHeader} (h : ph.Accepted)
    (pl : RTPPayloadHeader) :
    HostIndependent writer reader ph pl ↔
      (writer = .little ∨
        ph.Palindromic ∧ pl.Palindromic ∧ byteSwap pl.flags = pl.flags) ∧
      (writer = reader ∨ ph.Palindromic ∧ pl.Palindromic) := by
  rw [or_and_left (b := ph.Palindromic), or_and_left (b := ph.Palindromic),
    ← ph.networkOrder_iff writer h, ← pl.networkOrder_iff writer,
    ← ph.recovered_iff writer reader h, ← pl.recovered_iff writer reader]
  exact ⟨fun hi => ⟨⟨hi.rtp_bytes, hi.payload_bytes⟩, hi.rtp_read, hi.payload_read⟩,
    fun ⟨⟨hrb, hpb⟩, hrr, hpr⟩ => ⟨hrb, hpb, hrr, hpr⟩⟩

/-- Two little-endian hosts, and a header whose fields differ from their byte swaps. -/
theorem hostIndependent_little :
    HostIndependent .little .little
      { version := 2, payloadType := 78, sequenceNum := 12927, timestamp := 1662400414 }
      { firstMb := 1, lastMb := 80, flags := 1 } :=
  (hostIndependent_iff .little .little (by constructor <;> decide) _).mpr
    ⟨.inl rfl, .inl rfl⟩

/-- A big-endian host writes sequence number 1 as the bytes of 256. -/
theorem hostIndependent_fails_on_big_endian :
    ¬ HostIndependent .big .little { version := 2, sequenceNum := 1 } {} := by
  intro h
  have := h.rtp_bytes (List.replicate 12 0) (by simp)
  revert this
  decide

end NaiveStreaming
