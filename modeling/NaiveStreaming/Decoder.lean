import Mathlib.Data.List.Basic
import NaiveStreaming.Types

/-!
# The decoder

`DecoderImpl` passes the bytes of a packet to the parser of libavcodec, which takes some of
them and now and then emits a packet of its own; that one goes to the codec, and the frames
the codec has ready go to the listener.

libavcodec is a parameter: a parser and a codec with the contracts of its documentation.
-/

namespace NaiveStreaming

/-- `AVPixelFormat`, an enumeration over `int`. -/
structure AVPixelFormat where
  toInt : ℤ
  deriving DecidableEq, Repr

def AVPixelFormat.none : AVPixelFormat := ⟨-1⟩

def AVPixelFormat.yuv422p : AVPixelFormat := ⟨4⟩

/-- `AVFrame`: the geometry of a decoded picture, and its planes. -/
structure AVFrame where
  format : AVPixelFormat
  width : ℕ
  height : ℕ
  linesize0 : ℕ
  linesize1 : ℕ
  linesize2 : ℕ
  data0 : Option (List UInt8)
  data1 : Option (List UInt8)
  data2 : Option (List UInt8)
  data3 : Option (List UInt8)
  deriving DecidableEq, Repr

/-- What `av_parser_parse2` makes of `data`: it consumes a prefix, and emits a packet, an
empty one when it has none. -/
structure Parsed (π : Type) (data : List UInt8) where
  ret : ℕ
  ret_le : ret ≤ data.length
  state : π
  packet : List UInt8

/-- libavcodec, with parser contexts of type `π` and codec contexts of type `κ`. -/
structure AVCodec (π κ : Type) where
  /-- `av_parser_parse2` -/
  parse : π → (data : List UInt8) → Parsed π data
  /-- `avcodec_send_packet`: the context, if the packet was taken. -/
  sendPacket : κ → List UInt8 → Option κ
  /-- `avcodec_receive_frame`, called until it fails: the frames it returned. -/
  receiveFrames : κ → κ × List AVFrame

/-! ## Decoding -/

/-- `DecoderImpl`: the parser context and the codec context. -/
structure DecoderImpl (π κ : Type) where
  parserCtx : π
  codecCtx : κ
  deriving DecidableEq, Repr

inductive DecoderEvent
  /-- The bytes that `av_parser_parse2` consumed. -/
  | consumed (bytes : List UInt8)
  /-- `DecoderListener::on_frame` -/
  | onFrame (frame : VideoFrame)
  deriving DecidableEq, Repr

/-- The assertions on a received frame. -/
def AVFrame.Asserted (frame : AVFrame) : Prop :=
  frame.format = .yuv422p ∧ frame.data0.isSome ∧ frame.data1.isSome ∧ frame.data2.isSome ∧
    frame.data3.isNone

instance : DecidablePred AVFrame.Asserted := fun frame => by
  unfold AVFrame.Asserted
  infer_instance

/-- The `VideoFrame` that `decode_packet_impl` builds. -/
def AVFrame.toVideoFrame (frame : AVFrame) : VideoFrame :=
  { pixelFormat := .yuv422Planar
    width := 1280
    height := 720
    plane0 := frame.data0
    plane1 := frame.data1
    plane2 := frame.data2 }

/-- The turns of the receive loop that return a frame: whether the assertions held in all of
them, and the frames handed over. -/
def handOver : List AVFrame → Bool × List DecoderEvent
  | [] => (true, [])
  | frame :: frames =>
    if frame.Asserted then
      let (held, events) := handOver frames
      (held, .onFrame frame.toVideoFrame :: events)
    else (false, [])

/-- `DecoderImpl::decode_packet_impl`: the state and the result, if no assertion failed.  The
parser's `ret` is logged and not used again.  The padding appended to the data is behind
the `data_size` bytes that the parser is given. -/
def decodePacketImpl {π κ : Type} (lib : AVCodec π κ) (s : DecoderImpl π κ) (p : VideoPacket) :
    Option (DecoderImpl π κ × Bool) × List DecoderEvent :=
  let parsed := lib.parse s.parserCtx p.nalData
  let fed : DecoderEvent := .consumed (p.nalData.take parsed.ret)
  if parsed.packet.length = 0 then (some (⟨parsed.state, s.codecCtx⟩, false), [fed])
  else
    match lib.sendPacket s.codecCtx parsed.packet with
    | none => (some (⟨parsed.state, s.codecCtx⟩, false), [fed])
    | some codecCtx =>
      let (codecCtx, frames) := lib.receiveFrames codecCtx
      let (held, events) := handOver frames
      if held then (some (⟨parsed.state, codecCtx⟩, true), fed :: events)
      else (none, fed :: events)

/-- `DecoderImpl::decode_packet`, which drops the result. -/
def decodePacket {π κ : Type} (lib : AVCodec π κ) (s : DecoderImpl π κ) (p : VideoPacket) :
    Option (DecoderImpl π κ) × List DecoderEvent :=
  let (s?, events) := decodePacketImpl lib s p
  (s?.map Prod.fst, events)

/-- The bytes that the parser consumed, in order. -/
def consumed (events : List DecoderEvent) : List UInt8 :=
  events.flatMap fun
    | .consumed bytes => bytes
    | .onFrame _ => []

@[simp] theorem consumed_append (xs ys : List DecoderEvent) :
    consumed (xs ++ ys) = consumed xs ++ consumed ys := List.flatMap_append

theorem consumed_handOver (frames : List AVFrame) : consumed (handOver frames).2 = [] := by
  induction frames with
  | nil => rfl
  | cons frame frames ih =>
      by_cases h : frame.Asserted
      · simpa [handOver, h, consumed] using ih
      · simp [handOver, h, consumed]

/-- A call feeds the parser first; the frames it hands over feed it nothing more. -/
theorem decodePacketImpl_cases {π κ : Type} (lib : AVCodec π κ) (s : DecoderImpl π κ)
    (p : VideoPacket) : ∃ result? frames,
      decodePacketImpl lib s p = (result?, .consumed
        (p.nalData.take (lib.parse s.parserCtx p.nalData).ret) :: (handOver frames).2) ∧
      ∀ result, result? = some result →
        result.1.parserCtx = (lib.parse s.parserCtx p.nalData).state := by
  simp only [decodePacketImpl]
  by_cases hempty : (lib.parse s.parserCtx p.nalData).packet.length = 0
  · rw [if_pos hempty]
    exact ⟨_, [], rfl, by simp⟩
  · rw [if_neg hempty]
    cases lib.sendPacket s.codecCtx (lib.parse s.parserCtx p.nalData).packet with
    | none => exact ⟨_, [], rfl, by simp⟩
    | some codecCtx =>
        by_cases hheld : (handOver (lib.receiveFrames codecCtx).2).1 = true
        · exact ⟨_, (lib.receiveFrames codecCtx).2, by simp only [hheld, if_true]; rfl, by simp⟩
        · exact ⟨_, (lib.receiveFrames codecCtx).2, by simp only [hheld]; rfl, by simp⟩

/-- **What a call feeds**: the prefix that the parser takes of the packet's data. -/
theorem consumed_decodePacket {π κ : Type} (lib : AVCodec π κ) (s : DecoderImpl π κ)
    (p : VideoPacket) : consumed (decodePacket lib s p).2
      = p.nalData.take (lib.parse s.parserCtx p.nalData).ret := by
  obtain ⟨result?, frames, hcall, -⟩ := decodePacketImpl_cases lib s p
  have hframes : consumed (handOver frames).2 = [] := consumed_handOver frames
  simp only [decodePacket, hcall]
  simpa [consumed] using hframes

theorem parserCtx_decodePacket {π κ : Type} {lib : AVCodec π κ} {s s' : DecoderImpl π κ}
    {p : VideoPacket} (h : (decodePacket lib s p).1 = some s') :
    s'.parserCtx = (lib.parse s.parserCtx p.nalData).state := by
  obtain ⟨result?, frames, hcall, hstate⟩ := decodePacketImpl_cases lib s p
  simp only [decodePacket, hcall, Option.map_eq_some_iff] at h
  obtain ⟨result, hresult, heq⟩ := h
  rw [← heq, hstate result hresult]

/-! ## Negotiating the pixel format -/

/-- The loop of the `get_format` callback over the formats that can be read from `f` on: what
it returns, if it returns, and how many elements it reads.  The loop ends when the pointer is
null, which incrementing it never makes it; past the end of the array no read is defined. -/
def searchFormat : List AVPixelFormat → Option AVPixelFormat × ℕ
  | [] => (none, 1)
  | f :: rest =>
    if f = .yuv422p then (some f, 1)
    else ((searchFormat rest).1, (searchFormat rest).2 + 1)

/-- The `get_format` callback.  A null pointer has no formats. -/
def getFormat : Option (List AVPixelFormat) → Option AVPixelFormat × ℕ
  | none => (some .none, 0)
  | some fmt => searchFormat fmt

/-- The formats of a list as libavcodec passes it, before the `AV_PIX_FMT_NONE` that ends it. -/
structure FormatList where
  formats : List AVPixelFormat
  none_not_mem : .none ∉ formats

/-- The callback stays inside the list, which `AV_PIX_FMT_NONE` ends and `tail` follows in memory,
and returns the format the decoder draws when the list has it. -/
def StaysInList (fmts : FormatList) (tail : List AVPixelFormat) : Prop :=
  (getFormat (some (fmts.formats ++ .none :: tail))).2 ≤ fmts.formats.length + 1 ∧
  (getFormat (some (fmts.formats ++ .none :: tail))).1 =
    some (if .yuv422p ∈ fmts.formats then .yuv422p else .none)

/-- A search of a list that has the format ends inside it. -/
theorem searchFormat_found {fmts : List AVPixelFormat} (h : .yuv422p ∈ fmts)
    (rest : List AVPixelFormat) : (searchFormat (fmts ++ rest)).1 = some .yuv422p ∧
      (searchFormat (fmts ++ rest)).2 ≤ fmts.length := by
  induction fmts with
  | nil => exact absurd h List.not_mem_nil
  | cons f fmts ih =>
      by_cases hf : f = .yuv422p
      · simp [searchFormat, hf]
      · have hmem : .yuv422p ∈ fmts := (List.mem_cons.mp h).resolve_left (Ne.symm hf)
        have hrest := ih hmem
        simp only [List.cons_append, searchFormat, hf, if_false, List.length_cons]
        exact ⟨hrest.1, Nat.succ_le_succ hrest.2⟩

/-- A search of a list that has not reads all of it, and goes on behind it. -/
theorem searchFormat_missed {fmts : List AVPixelFormat} (h : .yuv422p ∉ fmts)
    (rest : List AVPixelFormat) : fmts.length < (searchFormat (fmts ++ rest)).2 := by
  induction fmts with
  | nil =>
      cases rest with
      | nil => simp [searchFormat]
      | cons f rest => by_cases hf : f = .yuv422p <;> simp [searchFormat, hf]
  | cons f fmts ih =>
      have hf : f ≠ .yuv422p := fun heq => h (heq ▸ List.mem_cons_self ..)
      have hrest := ih fun hmem => h (List.mem_cons_of_mem _ hmem)
      simp only [List.cons_append, searchFormat, hf, if_false, List.length_cons]
      exact Nat.succ_lt_succ hrest

/-- **The callback stays inside exactly the lists that have the format.**  In any other it
passes the terminator. -/
theorem staysInList_iff (fmts : FormatList) (tail : List AVPixelFormat) :
    StaysInList fmts tail ↔ .yuv422p ∈ fmts.formats := by
  constructor
  · intro h
    by_contra hmem
    have hterm : (.yuv422p : AVPixelFormat) ∉ fmts.formats ++ [.none] := by
      simpa [AVPixelFormat.yuv422p, AVPixelFormat.none] using hmem
    have hreads := searchFormat_missed hterm tail
    rw [List.length_append, List.append_assoc] at hreads
    exact absurd h.1 (Nat.not_le.mpr hreads)
  · intro hmem
    have hfound := searchFormat_found hmem (.none :: tail)
    refine ⟨Nat.le_succ_of_le hfound.2, ?_⟩
    rw [if_pos hmem]
    exact hfound.1

/-- A stream whose only format is `AV_PIX_FMT_YUV420P`: the element behind the terminator is
read, and here it is outside the array. -/
theorem terminator_passed : ¬ StaysInList ⟨[⟨0⟩], by decide⟩ [] := by
  intro h
  exact absurd h.1 (by decide)

end NaiveStreaming
