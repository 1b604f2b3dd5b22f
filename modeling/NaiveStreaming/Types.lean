import Mathlib.Data.Int.Notation

/-!
# Packets and their metadata

The types of `types.hpp` that travel between the encoder, the network and the decoder.
-/

namespace NaiveStreaming

/-- `NAL_Type`, an `enum class` over `uint8_t`: any byte is a value of it. -/
structure NALType where
  toUInt8 : UInt8
  deriving DecidableEq, Repr

namespace NALType

/-- `NAL_Type::unknown`, the default. -/
def unknown : NALType := ⟨0⟩

def slice : NALType := ⟨1⟩
def sliceDpa : NALType := ⟨2⟩
def sliceDpb : NALType := ⟨3⟩
def sliceDpc : NALType := ⟨4⟩
def sliceIdr : NALType := ⟨5⟩
def sei : NALType := ⟨6⟩
def sps : NALType := ⟨7⟩
def pps : NALType := ⟨8⟩
def aud : NALType := ⟨9⟩
def filler : NALType := ⟨12⟩

end NALType

/-- `CapturedFrameMeta`.  The `time_point` of the capture, in nanoseconds since the epoch of
the clock. -/
structure CapturedFrameMeta where
  timestamp : ℤ
  deriving DecidableEq, Repr

/-- `NAL_Metadata`.  The timestamp has no default. -/
structure NALMetadata where
  timestamp : UInt32
  nalType : NALType := NALType.unknown
  firstMacroblock : UInt16 := 0
  lastMacroblock : UInt16 := 0
  flags : UInt16 := 0
  deriving DecidableEq, Repr

inductive PixelFormat
  | yuv422Packed
  | yuv422Planar
  deriving DecidableEq, Repr

/-- `VideoFrame`: a view of a decoded frame.  A plane is the bytes that can be read from its
pointer on, or nothing when the pointer is null. -/
structure VideoFrame where
  pixelFormat : PixelFormat
  width : ℤ := 0
  height : ℤ := 0
  plane0 : Option (List UInt8)
  plane1 : Option (List UInt8)
  plane2 : Option (List UInt8)
  deriving DecidableEq, Repr

/-- `VideoPacket`: one NAL of the encoded stream. -/
structure VideoPacket where
  nalData : List UInt8
  nalMeta : NALMetadata
  deriving DecidableEq, Repr

end NaiveStreaming
