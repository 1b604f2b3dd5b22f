import NaiveStreaming.Stream

/-!
# What a NAL loses on the way

Two things about a packet do not survive the trip.  The receive buffer holds 1600 bytes,
of which the headers take 19, and neither end checks that a NAL fits the rest.  The flags
of a packet's metadata have a place in the payload header, but neither end copies them.
-/

namespace NaiveStreaming
open ByteOrder Mealy

/-- What the listener receives when one packet is passed to `transmit` and its datagram to
the receive handler. -/
def delivered (host : Endian) (counter : UDPTransmitImpl) (s : UDPReceiveImpl)
    (packet : VideoPacket) : List VideoPacket :=
  deliveries ((receiver host).outputs s ((datagrams host counter [packet]).map arrive))

/-- The listener receives what is left of the packet, once. -/
theorem delivered_eq (host : Endian) (counter : UDPTransmitImpl) (s : UDPReceiveImpl)
    (packet : VideoPacket) : delivered host counter s packet = [arrivedPacket packet] :=
  (deliveries_stream host counter [packet] s).2

/-- The listener never receives a proper prefix of the data that was sent. -/
def WholeOrNotAtAll (host : Endian) (counter : UDPTransmitImpl) (s : UDPReceiveImpl)
    (packet : VideoPacket) : Prop :=
  ∀ received ∈ delivered host counter s packet,
    ¬ (received.nalData <+: packet.nalData ∧ received.nalData ≠ packet.nalData)

/-- **A NAL is delivered whole exactly when it fits the receive buffer**: a longer one is
delivered all the same, cut short. -/
theorem wholeOrNotAtAll_iff (host : Endian) (counter : UDPTransmitImpl) (s : UDPReceiveImpl)
    (packet : VideoPacket) :
    WholeOrNotAtAll host counter s packet ↔ packet.nalData.length ≤ 1581 := by
  rw [WholeOrNotAtAll, delivered_eq]
  constructor
  · intro h
    by_contra hlong
    refine h (arrivedPacket packet) (List.mem_singleton.mpr rfl) ⟨List.take_prefix .., ?_⟩
    intro heq
    have hlen : (packet.nalData.take 1581).length = packet.nalData.length :=
      congrArg List.length heq
    rw [List.length_take] at hlen
    omega
  · intro h received hreceived hcut
    rw [List.mem_singleton.mp hreceived] at hcut
    exact hcut.2 (List.take_of_length_le h)

/-- **Every oversized NAL arrives cut short.**  A NAL of more than 1581 bytes that fits a UDP
datagram reaches the listener as a proper prefix of itself. -/
theorem oversized_nal_cut (host : Endian) (counter : UDPTransmitImpl) (s : UDPReceiveImpl)
    (packet : VideoPacket) (hlong : 1581 < packet.nalData.length)
    (_hfits : packet.nalData.length ≤ 65488) : ¬ WholeOrNotAtAll host counter s packet := by
  rw [wholeOrNotAtAll_iff]
  omega

/-- One byte too many. -/
theorem oversized_nal_cut_one :
    ¬ WholeOrNotAtAll .little {} (.started ⟨List.replicate 1600 0, List.length_replicate ..⟩)
      ⟨List.replicate 1582 7, { timestamp := 0 }⟩ :=
  oversized_nal_cut .little {} _ _ (by rw [List.length_replicate]; decide)
    (by rw [List.length_replicate]; decide)

/-- A slice of 1600 bytes, from a fresh sender to a fresh receiver. -/
theorem slice_cut_in_transit :
    ¬ ∀ (host : Endian) (counter : UDPTransmitImpl) (s : UDPReceiveImpl) (packet : VideoPacket),
      1581 < packet.nalData.length → packet.nalData.length ≤ 65488 →
        WholeOrNotAtAll host counter s packet := by
  intro h
  have hslice := h .little {} (.started ⟨List.replicate 1600 0, List.length_replicate ..⟩)
    ⟨List.replicate 1600 0x65, { timestamp := 40, nalType := ⟨1⟩ }⟩
    (by rw [List.length_replicate]; decide) (by rw [List.length_replicate]; decide)
  rw [wholeOrNotAtAll_iff, List.length_replicate] at hslice
  exact absurd hslice (by decide)

/-- The listener receives one packet, with the flags that were sent. -/
def FlagsSurvive (host : Endian) (counter : UDPTransmitImpl) (s : UDPReceiveImpl)
    (packet : VideoPacket) : Prop :=
  (delivered host counter s packet).map (·.nalMeta.flags) = [packet.nalMeta.flags]

/-- **Only zero flags survive**: whatever the sender sets, the listener reads zero. -/
theorem flagsSurvive_iff (host : Endian) (counter : UDPTransmitImpl) (s : UDPReceiveImpl)
    (packet : VideoPacket) :
    FlagsSurvive host counter s packet ↔ packet.nalMeta.flags = 0 := by
  rw [FlagsSurvive, delivered_eq, List.map_singleton, List.singleton_inj, eq_comm]
  rfl

/-- `NAL_MetadataFlags::last_frame` on a NAL of one byte. -/
theorem last_frame_flag_lost :
    ¬ ∀ (host : Endian) (counter : UDPTransmitImpl) (s : UDPReceiveImpl) (packet : VideoPacket),
      packet.nalData.length ≤ 1581 → FlagsSurvive host counter s packet := by
  intro h
  have hflag := h .little {} (.started ⟨List.replicate 1600 0, List.length_replicate ..⟩)
    ⟨[7], { timestamp := 0, flags := 1 }⟩ (by decide)
  rw [FlagsSurvive, delivered_eq] at hflag
  exact absurd hflag (by decide)

end NaiveStreaming
