import NaiveStreaming.Lib.ByteOrder
import NaiveStreaming.Lib.Cascade
import NaiveStreaming.Lib.Mealy
import NaiveStreaming.Lib.Rfc3550
import NaiveStreaming.Lib.Scope
import NaiveStreaming.Lib.SerialNumber
import NaiveStreaming.Types
import NaiveStreaming.Rtp
import NaiveStreaming.RtpCodec
import NaiveStreaming.UdpTransmit
import NaiveStreaming.UdpReceive
import NaiveStreaming.Receiver
import NaiveStreaming.Stream
import NaiveStreaming.LossDetector
import NaiveStreaming.RtpLayout
import NaiveStreaming.ConcurrentTransmit
import NaiveStreaming.Encoder
import NaiveStreaming.Decoder
import NaiveStreaming.MainWindow
import NaiveStreaming.FrameDisplay
import NaiveStreaming.FormatEnumeration
import NaiveStreaming.VideoCapture
import NaiveStreaming.CaptureStop
import NaiveStreaming.FpsCounter
import NaiveStreaming.FrameAddressing
import NaiveStreaming.DecodedPicture
import NaiveStreaming.CaptureLoop
import NaiveStreaming.ColourConversion
import NaiveStreaming.ReceiveApp
import NaiveStreaming.TransmitApp
import NaiveStreaming.ConcurrentStream
import NaiveStreaming.FramePainting
import NaiveStreaming.CaptureThread
import NaiveStreaming.CaptureOwnership
import NaiveStreaming.StopReturns
import NaiveStreaming.FramesAfterStop
import NaiveStreaming.LiveStream
import NaiveStreaming.Indistinguishable
import NaiveStreaming.DecodeLoop
import NaiveStreaming.Startup
import NaiveStreaming.CaptureTeardown
import NaiveStreaming.ReceiveMain
import NaiveStreaming.TransmitMain
import NaiveStreaming.PaintingProgress
import NaiveStreaming.Screen
