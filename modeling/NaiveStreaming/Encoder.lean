import Mathlib.Algebra.BigOperators.Group.Finset.Basic
import NaiveStreaming.NalFidelity

/-!
# The encoder

`EncoderImpl` hands a captured frame to x264, which calls back once for every NAL.  The
callback stamps the NAL with the capture time of the frame, in milliseconds cut to 32
bits; the application packs it and passes it to `transmit`.

x264 is a parameter: what it makes of a picture, and the user data it passes along with
every NAL.
-/

namespace NaiveStreaming
open ByteOrder Mealy

/-- `x264_nal_t`: the payload is `i_payload` bytes from `p_payload`. -/
structure X264Nal where
  iType : ℤ
  payload : List UInt8
  iFirstMb : ℤ
  iLastMb : ℤ
  deriving DecidableEq, Repr

/-- `FrameUserData`, without the pointer to the encoder. -/
structure FrameUserData where
  capturedMeta : CapturedFrameMeta
  deriving DecidableEq, Repr

/-- The fields of `x264_picture_t` that `process_frame` sets. -/
structure X264Picture where
  iPlane : ℤ
  plane : List UInt8
  iStride : ℤ
  iPts : ℤ
  opaque_ : FrameUserData
  deriving DecidableEq, Repr

/-- x264, with encoder handles of type `σ`. -/
structure X264 (σ : Type) where
  /-- `x264_nal_encode`: the bytes it leaves in the buffer, which become the NAL's payload. -/
  nalEncode : X264Nal → List UInt8
  /-- `x264_encoder_encode`: the NALs passed to `nalu_process`, each with its `opaque`, and
  the frame size returned. -/
  encoderEncode : σ → X264Picture → σ × List (X264Nal × FrameUserData) × ℤ

/-- With the preset `zerolatency` no frame is delayed: the NALs of a call belong to the
picture of that call, and come with its `opaque`. -/
def X264.ZeroLatency {σ : Type} (x264 : X264 σ) : Prop :=
  ∀ h picture, ∀ call ∈ (x264.encoderEncode h picture).2.1, call.2 = picture.opaque_

/-! ## The callback -/

def mapX264NalTypeToInternal (unit : ℤ) : NALType :=
  if unit = 1 then .slice
  else if unit = 2 then .sliceDpa
  else if unit = 3 then .sliceDpb
  else if unit = 4 then .sliceDpc
  else if unit = 5 then .sliceIdr
  else if unit = 6 then .sei
  else if unit = 7 then .sps
  else if unit = 8 then .pps
  else if unit = 9 then .aud
  else if unit = 12 then .filler
  else .unknown

/-- The timestamp of a NAL: whole milliseconds, by the truncating `duration_cast`, cast to
`uint32_t`. -/
def nalTimestamp (capturedMeta : CapturedFrameMeta) : UInt32 :=
  UInt32.ofInt (capturedMeta.timestamp.tdiv 1000000)

abbrev nalEncodingBuffSize : ℕ := 1920 * 1080 * 10

/-- The notifications of `EncoderClient`. -/
inductive EncoderEvent
  | onFrameStarted
  | onNalEncoded (data : List UInt8) (nalMeta : NALMetadata)
  | onFrameEnded
  deriving DecidableEq, Repr

/-- `param.nalu_process`; nothing when its assertion fails. -/
def naluProcess {σ : Type} (x264 : X264 σ) (nal : X264Nal) (userData : FrameUserData) :
    Option EncoderEvent :=
  if nal.payload.length * 3 / 2 + 5 + 64 < nalEncodingBuffSize then
    let nal := { nal with payload := x264.nalEncode nal }
    some (.onNalEncoded nal.payload
      { timestamp := nalTimestamp userData.capturedMeta
        nalType := mapX264NalTypeToInternal nal.iType
        firstMacroblock := UInt16.ofInt nal.iFirstMb
        lastMacroblock := UInt16.ofInt nal.iLastMb
        flags := 0 })
  else none

/-- The callbacks of one call of `x264_encoder_encode`: whether all of them returned, and the
notifications up to a failed assertion. -/
def naluProcessAll {σ : Type} (x264 : X264 σ) :
    List (X264Nal × FrameUserData) → Bool × List EncoderEvent
  | [] => (true, [])
  | (nal, userData) :: calls =>
    match naluProcess x264 nal userData with
    | none => (false, [])
    | some event =>
      let (returned, events) := naluProcessAll x264 calls
      (returned, event :: events)

/-- `EncoderImpl`: the handle and the number of the frame. -/
structure EncoderImpl (σ : Type) where
  h : σ
  frame : Int32 := 0
  deriving DecidableEq, Repr

/-- The arguments of `process_frame`. -/
structure CapturedFrame where
  data : List UInt8
  capturedMeta : CapturedFrameMeta
  deriving DecidableEq, Repr

/-- The picture that `process_frame` passes to x264. -/
def EncoderImpl.picture {σ : Type} (s : EncoderImpl σ) (frame : CapturedFrame) : X264Picture :=
  { iPlane := 2
    plane := frame.data
    iStride := 1280 * 2
    iPts := s.frame.toInt
    opaque_ := ⟨frame.capturedMeta⟩ }

/-- `EncoderImpl::process_frame`.  A negative frame size is an error, and a frame size of zero
means that nothing was produced. -/
def processFrame {σ : Type} (x264 : X264 σ) (s : EncoderImpl σ) (frame : CapturedFrame) :
    Option (EncoderImpl σ) × List EncoderEvent :=
  let (h, calls, frameSize) := x264.encoderEncode s.h (s.picture frame)
  let (returned, events) := naluProcessAll x264 calls
  if ¬ returned then (none, .onFrameStarted :: events)
  else if frameSize < 0 then (some { s with h := h }, .onFrameStarted :: events)
  else if frameSize ≠ 0 then
    (some { h := h, frame := s.frame + 1 }, .onFrameStarted :: events ++ [.onFrameEnded])
  else (some { h := h, frame := s.frame + 1 }, .onFrameStarted :: events)

def encoder {σ : Type} (x264 : X264 σ) : Machine (EncoderImpl σ) CapturedFrame EncoderEvent where
  step := processFrame x264

/-- `StreamTransmitApp::on_nal_encoded`: the packet passed to `transmit`. -/
def EncoderEvent.packet? : EncoderEvent → Option VideoPacket
  | onNalEncoded data nalMeta => some ⟨data, nalMeta⟩
  | _ => none

/-- A notification that carries a NAL stamped with the capture time `capturedMeta`. -/
def EncoderEvent.StampedWith (capturedMeta : CapturedFrameMeta) (event : EncoderEvent) : Prop :=
  ∀ packet, event.packet? = some packet →
    packet.nalMeta.timestamp = nalTimestamp capturedMeta

theorem stampedWith_naluProcess {σ : Type} {x264 : X264 σ} {nal : X264Nal}
    {userData : FrameUserData} {event : EncoderEvent}
    (h : naluProcess x264 nal userData = some event) :
    event.StampedWith userData.capturedMeta := by
  simp only [naluProcess, Option.ite_none_right_eq_some, Option.some.injEq] at h
  intro packet hpacket
  rw [← h.2] at hpacket
  cases hpacket
  rfl

/-- The callback stamps every NAL with the user data that came with it. -/
theorem stampedWith_naluProcessAll {σ : Type} {x264 : X264 σ} {userData : FrameUserData}
    {calls : List (X264Nal × FrameUserData)} (h : ∀ call ∈ calls, call.2 = userData) :
    ∀ event ∈ (naluProcessAll x264 calls).2, event.StampedWith userData.capturedMeta := by
  induction calls with
  | nil => intro event hevent; exact absurd hevent List.not_mem_nil
  | cons call calls ih =>
      obtain ⟨nal, userData'⟩ := call
      obtain ⟨rfl, hrest⟩ := List.forall_mem_cons.mp h
      cases hproc : naluProcess x264 nal userData' with
      | none => simp [naluProcessAll, hproc]
      | some event =>
          simp only [naluProcessAll, hproc, List.forall_mem_cons]
          exact ⟨stampedWith_naluProcess hproc, ih hrest⟩

/-- What a call of `process_frame` notifies of: its begin and end, and what the callbacks do. -/
theorem mem_processFrame {σ : Type} {x264 : X264 σ} {s : EncoderImpl σ} {frame : CapturedFrame}
    {event : EncoderEvent} (h : event ∈ (processFrame x264 s frame).2) :
    event = .onFrameStarted ∨ event = .onFrameEnded ∨
      event ∈ (naluProcessAll x264 (x264.encoderEncode s.h (s.picture frame)).2.1).2 := by
  simp only [processFrame] at h
  split_ifs at h <;> simp at h <;> tauto

/-- **The NALs of one call** carry the timestamp of the frame it was given. -/
theorem timestamp_of_call {σ : Type} {x264 : X264 σ} (hx : x264.ZeroLatency)
    (s : EncoderImpl σ) (frame : CapturedFrame) :
    ∀ event ∈ (processFrame x264 s frame).2, event.StampedWith frame.capturedMeta := by
  intro event hevent
  rcases mem_processFrame hevent with hstarted | hended | hcall
  · intro packet hpacket
    rw [hstarted] at hpacket
    cases hpacket
  · intro packet hpacket
    rw [hended] at hpacket
    cases hpacket
  · exact stampedWith_naluProcessAll (hx s.h (s.picture frame)) event hcall

/-! ## The timestamps of a run -/

/-- The `i`-th call of a run stamps its NALs with the time of the `i`-th frame. -/
theorem timestamp_of_run {σ : Type} {x264 : X264 σ} (hx : x264.ZeroLatency)
    (frames : List CapturedFrame) : ∀ (s : EncoderImpl σ) (i : ℕ) (frame : CapturedFrame)
      (events : List EncoderEvent), frames[i]? = some frame →
        ((encoder x264).trace s frames)[i]? = some events →
          ∀ event ∈ events, event.StampedWith frame.capturedMeta := by
  induction frames with
  | nil => intro s i frame events hframe; simp at hframe
  | cons first rest ih =>
      intro s i frame events hframe hevents
      cases i with
      | zero =>
          simp only [List.getElem?_cons_zero, Option.some.injEq] at hframe
          simp only [Machine.trace, List.getElem?_cons_zero, Option.some.injEq] at hevents
          rw [← hframe, ← hevents]
          exact timestamp_of_call hx s first
      | succ i =>
          rw [List.getElem?_cons_succ] at hframe
          simp only [Machine.trace, List.getElem?_cons_succ] at hevents
          cases hstep : ((encoder x264).step s first).1 with
          | none => simp [hstep] at hevents
          | some s' =>
              rw [hstep] at hevents
              exact ih s' i frame events hframe hevents

/-- The difference of two readings cut to 32 bits is the difference of the readings, when
that fits. -/
theorem toNat_ofInt_sub {a b : ℤ} (hle : a ≤ b) (hlt : b - a < 2 ^ 32) :
    ((UInt32.ofInt b - UInt32.ofInt a).toNat : ℤ) = b - a := by
  have hadd : UInt32.ofInt b = UInt32.ofInt (b - a) + UInt32.ofInt a := by
    rw [← UInt32.ofInt_add, Int.sub_add_cancel]
  have hsub : UInt32.ofInt b - UInt32.ofInt a = UInt32.ofInt (b - a) := by
    rw [hadd]
    simp
  rw [hsub, UInt32.ofInt, Int.emod_eq_of_lt (by omega) hlt, UInt32.toNat_ofNat']
  omega

/-- Whole milliseconds of a time since the epoch. -/
def CapturedFrame.milliseconds (frame : CapturedFrame) : ℤ :=
  frame.capturedMeta.timestamp / 1000000

theorem nalTimestamp_eq {frame : CapturedFrame} (h : 0 ≤ frame.capturedMeta.timestamp) :
    nalTimestamp frame.capturedMeta = UInt32.ofInt frame.milliseconds := by
  rw [nalTimestamp, Int.tdiv_eq_ediv_of_nonneg h, CapturedFrame.milliseconds]

/-- A packet is delivered once, and its timestamp crosses the wire unchanged. -/
theorem timestamp_delivered (host : Endian) (counter : UDPTransmitImpl) (r : UDPReceiveImpl)
    (packet : VideoPacket) :
    (delivered host counter r packet).map (·.nalMeta.timestamp) = [packet.nalMeta.timestamp] := by
  rw [delivered_eq]
  rfl

/-- **Timestamp differences survive truncation.**  Take frames with non-decreasing times, the
whole milliseconds of successive ones less than `2 ^ 32` apart.  Every NAL of the `i`-th call
reaches the receiver once, with the timestamp `ts i` of the `i`-th frame; the 32-bit differences of
these are the differences in milliseconds, and add up to the milliseconds from the first frame to
the last. -/
theorem timestamp_differences {σ : Type} (x264 : X264 σ) (hx : x264.ZeroLatency)
    (s : EncoderImpl σ) (frame : ℕ → CapturedFrame) (n : ℕ)
    (hepoch : 0 ≤ (frame 0).capturedMeta.timestamp)
    (hmono : ∀ i < n, (frame i).capturedMeta.timestamp ≤ (frame (i + 1)).capturedMeta.timestamp)
    (hgap : ∀ i < n, (frame (i + 1)).milliseconds - (frame i).milliseconds < 2 ^ 32) :
    let ts : ℕ → UInt32 := fun i => nalTimestamp (frame i).capturedMeta
    (∀ i events, ((encoder x264).trace s ((List.range (n + 1)).map frame))[i]? = some events →
      ∀ event ∈ events, ∀ packet, event.packet? = some packet →
        packet.nalMeta.timestamp = ts i ∧
        ∀ host counter r, (delivered host counter r packet).map (·.nalMeta.timestamp) = [ts i]) ∧
    (∀ i < n, ((ts (i + 1) - ts i).toNat : ℤ)
      = (frame (i + 1)).milliseconds - (frame i).milliseconds) ∧
    ∑ i ∈ Finset.range n, ((ts (i + 1) - ts i).toNat : ℤ)
      = (frame n).milliseconds - (frame 0).milliseconds := by
  intro ts
  have hnonneg : ∀ i ≤ n, 0 ≤ (frame i).capturedMeta.timestamp := by
    intro i hi
    induction i with
    | zero => exact hepoch
    | succ i ih => exact (ih (by omega)).trans (hmono i hi)
  have hts : ∀ i ≤ n, ts i = UInt32.ofInt (frame i).milliseconds :=
    fun i hi => nalTimestamp_eq (hnonneg i hi)
  have hdiff : ∀ i < n, ((ts (i + 1) - ts i).toNat : ℤ)
      = (frame (i + 1)).milliseconds - (frame i).milliseconds := by
    intro i hi
    rw [hts (i + 1) hi, hts i (Nat.le_of_lt hi)]
    exact toNat_ofInt_sub (Int.ediv_le_ediv (by decide) (hmono i hi)) (hgap i hi)
  refine ⟨?_, hdiff, ?_⟩
  · intro i events hevents event hevent packet hpacket
    have hi : i < n + 1 := by
      have hlen := (List.getElem?_eq_some_iff.mp hevents).1
      have hle := (encoder x264).length_trace_le s ((List.range (n + 1)).map frame)
      rw [List.length_map, List.length_range] at hle
      omega
    have hframe : ((List.range (n + 1)).map frame)[i]? = some (frame i) := by
      rw [List.getElem?_map, List.getElem?_range hi]
      rfl
    have hstamp := timestamp_of_run hx _ s i _ events hframe hevents event hevent packet hpacket
    refine ⟨hstamp, ?_⟩
    intro host counter r
    rw [timestamp_delivered, hstamp]
  · rw [← Finset.sum_range_sub (fun i => (frame i).milliseconds) n]
    exact Finset.sum_congr rfl fun i hi => hdiff i (Finset.mem_range.mp hi)

/-- An x264 that makes one slice of every picture. -/
def oneSliceX264 : X264 Unit where
  nalEncode nal := [0, 0, 0, 1] ++ nal.payload
  encoderEncode _ picture :=
    ((), [(⟨1, [0x41, 0x9A], 0, 3599⟩, picture.opaque_)], 6)

/-- Two frames, 40 milliseconds apart, on either side of the wrap of the timestamp. -/
theorem timestamp_differences_two :
    let frame : ℕ → CapturedFrame := fun i => ⟨[], ⟨4294967290000000 + 40000000 * i⟩⟩
    let ts : ℕ → UInt32 := fun i => nalTimestamp (frame i).capturedMeta
    (∀ i events,
      ((encoder oneSliceX264).trace ⟨(), 0⟩ ((List.range 2).map frame))[i]? = some events →
      ∀ event ∈ events, ∀ packet, event.packet? = some packet →
        packet.nalMeta.timestamp = ts i ∧
        ∀ host counter r, (delivered host counter r packet).map (·.nalMeta.timestamp) = [ts i]) ∧
    (∀ i < 1, ((ts (i + 1) - ts i).toNat : ℤ)
      = (frame (i + 1)).milliseconds - (frame i).milliseconds) ∧
    ∑ i ∈ Finset.range 1, ((ts (i + 1) - ts i).toNat : ℤ)
      = (frame 1).milliseconds - (frame 0).milliseconds := by
  refine timestamp_differences oneSliceX264 ?_ ⟨(), 0⟩ _ 1 (by decide) (by decide) (by decide)
  intro h picture call hcall
  rw [List.mem_singleton.mp hcall]

end NaiveStreaming
