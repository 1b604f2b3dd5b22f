import NaiveStreaming.Network
import NaiveStreaming.RtpLayout

/-!
# What the receiver reads of a datagram

Of a datagram that it accepts, the receiver uses the sequence number, the timestamp, the NAL type,
the two macroblocks and the data, and nothing else: it looks at no other bit of the first two bytes
but the version and the extension bit, nor at the source and the flags.  Two datagrams that agree
there cannot be told apart by anything that the receiver does later, and any others can.
-/

namespace NaiveStreaming
open ByteOrder ByteWord Mealy

/-- The datagram has room for both headers and passes the checks. -/
def Datagram.Accepted (d : Datagram) : Prop := 19 ≤ d.bytes.length ∧ d.Supported

instance : DecidablePred Datagram.Accepted := fun _ => inferInstanceAs (Decidable (_ ∧ _))

/-- Bytes 2 to 7, 12 to 16, and from 19 on. -/
def usedBytes (bytes : List UInt8) : List UInt8 :=
  (bytes.take 8).drop 2 ++ (bytes.take 17).drop 12 ++ bytes.drop 19

/-- The bytes that the receiver uses; none if it turns the datagram away. -/
def Datagram.read (d : Datagram) : Option (List UInt8) :=
  if d.Accepted then some (usedBytes d.bytes) else none

theorem ntoh_join32_inj (host : Endian) {a b c d a' b' c' d' : UInt8} :
    ntoh host (join32 a b c d) = ntoh host (join32 a' b' c' d') ↔
      a = a' ∧ b = b' ∧ c = c' ∧ d = d' := by
  constructor
  · intro h
    have hjoin := congrArg host.toNetwork h
    rw [ntoh, ntoh, Endian.toNetwork_toNetwork, Endian.toNetwork_toNetwork] at hjoin
    have hbytes := congrArg toBytes hjoin
    rw [toBytes_join32, toBytes_join32] at hbytes
    simpa using hbytes
  · rintro ⟨rfl, rfl, rfl, rfl⟩
    rfl

theorem parseDatagram_eq_none_iff (host : Endian) (d : Datagram) :
    parseDatagram host d.bytes = none ↔ ¬ d.Accepted := by
  constructor
  · rintro hnone ⟨hlen, hs⟩
    obtain ⟨rtpHeader, payloadHeader, -, -, hparse⟩ := parseDatagram_supported host hlen hs
    rw [hnone] at hparse
    cases hparse
  · intro hd
    by_contra hsome
    obtain ⟨delivery, hparse⟩ := Option.ne_none_iff_exists'.mp hsome
    exact hd (supported_of_parseDatagram hparse)

/-- The fields that the receiver uses are those of the bytes that it uses. -/
theorem fields_eq_iff (host : Endian) {bytes bytes' : List UInt8} (h : 19 ≤ bytes.length)
    (h' : 19 ≤ bytes'.length) {rtp rtp' : RTPPacketHeader} {payload payload' : RTPPayloadHeader}
    (hrtp : deserializeRtpHeaderFrom host bytes = .ok rtp)
    (hrtp' : deserializeRtpHeaderFrom host bytes' = .ok rtp')
    (hpayload : deserializePayloadHeader host (bytes.drop 12) = .ok payload)
    (hpayload' : deserializePayloadHeader host (bytes'.drop 12) = .ok payload') :
    (rtp.sequenceNum = rtp'.sequenceNum ∧
      receivedPacket rtp payload (bytes.drop 19) = receivedPacket rtp' payload' (bytes'.drop 19)) ↔
      usedBytes bytes = usedBytes bytes' := by
  match bytes, h, bytes', h' with
  | x₀ :: x₁ :: x₂ :: x₃ :: x₄ :: x₅ :: x₆ :: x₇ :: x₈ :: x₉ :: x₁₀ :: x₁₁ ::
      x₁₂ :: x₁₃ :: x₁₄ :: x₁₅ :: x₁₆ :: x₁₇ :: x₁₈ :: xs, _,
    y₀ :: y₁ :: y₂ :: y₃ :: y₄ :: y₅ :: y₆ :: y₇ :: y₈ :: y₉ :: y₁₀ :: y₁₁ ::
      y₁₂ :: y₁₃ :: y₁₄ :: y₁₅ :: y₁₆ :: y₁₇ :: y₁₈ :: ys, _ =>
    rw [deserializeRtpHeaderFrom_cons, Except.ok.injEq] at hrtp hrtp'
    simp only [List.drop_succ_cons, List.drop_zero] at hpayload hpayload'
    rw [deserializePayloadHeader_cons, Except.ok.injEq] at hpayload hpayload'
    subst hrtp hrtp' hpayload hpayload'
    simp only [receivedPacket, usedBytes, VideoPacket.mk.injEq, NALMetadata.mk.injEq,
      NALType.mk.injEq, ntoh_join16_inj, ntoh_join32_inj, List.take_succ_cons, List.take_zero,
      List.drop_succ_cons, List.drop_zero, List.cons_append, List.nil_append, List.cons.injEq]
    tauto

/-- **What the parser makes of two datagrams** is the same exactly when the bytes that are used
are. -/
theorem parseDatagram_eq_iff (host : Endian) (d d' : Datagram) :
    parseDatagram host d.bytes = parseDatagram host d'.bytes ↔ d.read = d'.read := by
  by_cases h : d.Accepted
  · by_cases h' : d'.Accepted
    · obtain ⟨rtp, payload, hrtp, hpayload, hparse⟩ := parseDatagram_supported host h.1 h.2
      obtain ⟨rtp', payload', hrtp', hpayload', hparse'⟩ :=
        parseDatagram_supported host h'.1 h'.2
      rw [hparse, hparse', Datagram.read, Datagram.read, if_pos h, if_pos h', Option.some.injEq,
        Option.some.injEq, Prod.mk.injEq]
      exact fields_eq_iff host h.1 h'.1 hrtp hrtp' hpayload hpayload'
    · rw [(parseDatagram_eq_none_iff host d').mpr h', parseDatagram_eq_none_iff, Datagram.read,
        Datagram.read, if_pos h, if_neg h']
      simp [h]
  · rw [(parseDatagram_eq_none_iff host d).mpr h, eq_comm, parseDatagram_eq_none_iff,
      Datagram.read, Datagram.read, if_neg h]
    by_cases h' : d'.Accepted <;> simp [h']

/-! ## What a run can tell apart -/

/-- No run without runts can tell the two datagrams apart: the listener and the log of missed
packets see the same, whatever comes before and after. -/
def Indistinguishable (host : Endian) (d d' : Datagram) : Prop :=
  ∀ buffer pre post, (∀ c ∈ pre ++ post, c.Defined) →
    reports ((receiver host).outputs (.started buffer) (pre ++ .datagram d :: post)) =
      reports ((receiver host).outputs (.started buffer) (pre ++ .datagram d' :: post))

/-- What a run without runts reports is what its specification does. -/
theorem reports_receiver (host : Endian) (buffer : ReceiveBuffer) {pre post : List Completion}
    (h : ∀ c ∈ pre ++ post, c.Defined) {d : Datagram} (hd : ¬ d.Runt) :
    reports ((receiver host).outputs (.started buffer) (pre ++ .datagram d :: post)) =
      (parserMachine host).outputs none (pre ++ .datagram d :: post) := by
  have hdefined : ∀ c ∈ pre ++ .datagram d :: post, c.Defined := by
    intro c hc
    rcases List.mem_append.mp hc with hpre | hpost
    · exact h c (List.mem_append_left _ hpre)
    · rcases List.mem_cons.mp hpost with rfl | hrest
      · rintro d' hd'
        cases hd'
        exact hd
      · exact h c (List.mem_append_right _ hrest)
  obtain ⟨s, -, -, hreports⟩ := receiver_run host buffer hdefined
  exact hreports

/-- Datagrams that are parsed alike are treated alike. -/
theorem alike_of_parse {host : Endian} {c c' : Completion} (h : c.parse host = c'.parse host) :
    (parserMachine host).Alike c c' := by
  intro last
  simp only [parserMachine, h]

/-- A datagram with the number 0, which follows no other. -/
def probe (host : Endian) : Completion := arrive (packetDatagram host 0 ⟨[], { timestamp := 0 }⟩)

/-- What the probe brings to light of the datagram before it: after its delivery, the number that
was expected next. -/
def probed : Option (UInt16 × VideoPacket) → List ReceiveEvent
  | none => []
  | some (sequenceNum, packet) =>
    [.onPacketReceived packet, .missedPacket (sequenceNum.toNat + 1)]

theorem probed_injective : Function.Injective probed := by
  intro delivery delivery' h
  cases delivery with
  | none =>
      cases delivery' with
      | none => rfl
      | some delivery' => cases h
  | some delivery =>
      cases delivery' with
      | none => cases h
      | some delivery' =>
          simp only [probed, List.cons.injEq, ReceiveEvent.onPacketReceived.injEq,
            ReceiveEvent.missedPacket.injEq, and_true] at h
          have hnum : delivery.1 = delivery'.1 := UInt16.toNat_inj.mp (by omega)
          exact congrArg some (Prod.ext hnum h.1)

theorem outputs_probe (host : Endian) (c : Completion) :
    (parserMachine host).outputs none [c, probe host] =
      probed (c.parse host) ++ [.onPacketReceived ⟨[], { timestamp := 0 }⟩] := by
  have hprobe : (probe host).parse host = some (0, ⟨[], { timestamp := 0 }⟩) := parse_arrive ..
  cases hparse : c.parse host with
  | none =>
      simp [Machine.outputs, Machine.trace, parserMachine, hparse, hprobe, gapReport, probed]
  | some delivery =>
      simp [Machine.outputs, Machine.trace, parserMachine, hparse, hprobe, gapReport, probed]

/-- **What the receiver can tell apart.**  Two datagrams, neither of them a runt, are
indistinguishable exactly when the bytes that are used are the same, or both are turned away. -/
theorem indistinguishable_iff (host : Endian) {d d' : Datagram} (h : ¬ d.Runt) (h' : ¬ d'.Runt) :
    Indistinguishable host d d' ↔ d.read = d'.read := by
  rw [← parseDatagram_eq_iff host]
  constructor
  · intro hsame
    have hdefined : ∀ c ∈ ([] : List Completion) ++ [probe host], c.Defined := by
      intro c hc
      obtain rfl : c = probe host := by simpa using hc
      exact defined_arrive host 0 _
    have hrun := hsame ⟨List.replicate 1600 0, List.length_replicate ..⟩ [] [probe host] hdefined
    rw [reports_receiver host _ hdefined h, reports_receiver host _ hdefined h'] at hrun
    simp only [List.nil_append, outputs_probe, List.append_left_inj] at hrun
    exact probed_injective hrun
  · intro hparse buffer pre post hdefined
    rw [reports_receiver host buffer hdefined h, reports_receiver host buffer hdefined h']
    have halike : (parserMachine host).Alike (.datagram d) (.datagram d') := alike_of_parse hparse
    exact halike.outputs_replace pre post none

/-- A datagram with padding, and one with two sources, a marker, another payload type, another
source and other flags. -/
theorem indistinguishable_iff_header :
    let d : Datagram := ⟨[0xA0, 0x4E, 0, 7, 0, 0, 0, 9, 0, 0, 0, 0, 1, 0, 0, 0, 5, 0, 0, 0xAB],
      by decide⟩
    let d' : Datagram := ⟨[0x82, 0xE0, 0, 7, 0, 0, 0, 9, 1, 2, 3, 4, 1, 0, 0, 0, 5, 6, 7, 0xAB],
      by decide⟩
    Indistinguishable .little d d' := by
  intro d d'
  exact (indistinguishable_iff .little (by decide) (by decide)).mpr (by decide)

example : usedBytes [0xA0, 0x4E, 0, 7, 0, 0, 0, 9, 0, 0, 0, 0, 1, 0, 0, 0, 5, 0, 0, 0xAB] =
    [0, 7, 0, 0, 0, 9, 1, 0, 0, 0, 5, 0xAB] := by decide

end NaiveStreaming
