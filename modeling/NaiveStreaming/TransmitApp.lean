import NaiveStreaming.Encoder
import NaiveStreaming.FpsCounter
import NaiveStreaming.ReceiveApp

/-!
# The transmitting application

`StreamTransmitApp` is the client of the encoder.  The callback of the capture counts the frame and
passes it to `process_frame`; the NALs that this produces are packed and passed to `transmit`, and
the end of a frame is counted by a second counter.
-/

namespace NaiveStreaming
open ByteOrder Mealy

section
variable {σ : Type}

/-- `StreamTransmitApp`, once streaming. -/
structure StreamTransmitApp (σ : Type) where
  encoder : EncoderImpl σ
  udpTransmit : UDPTransmitImpl := {}
  captureFps : FPSCounter := { tag := "Capture" }
  encodeFps : FPSCounter := { tag := "Encoder" }
  deriving DecidableEq, Repr

/-- A call of the lambda passed to `make_video_capture`: the data, and what the clock reads in
`m_capture_fps.take_sample`, for the timestamp and in `m_encode_fps.take_sample`. -/
structure CaptureCall where
  data : List UInt8
  sampled : ℤ
  ts : ℤ
  ended : ℤ
  deriving DecidableEq, Repr

/-- The frame passed to `process_frame`. -/
def CaptureCall.frame (call : CaptureCall) : CapturedFrame := ⟨call.data, ⟨call.ts⟩⟩

inductive TransmitAppEvent
  /-- A line of one of the FPS counters. -/
  | fps (report : FPSReport)
  | transmitted (event : TransmitEvent)
  deriving DecidableEq, Repr

/-- `on_frame_started`, `on_nal_encoded` and `on_frame_ended`; the clock reads `now`. -/
def onEvent (host : Endian) (now : ℤ) (s : StreamTransmitApp σ) :
    EncoderEvent → StreamTransmitApp σ × List TransmitAppEvent
  | .onFrameStarted => (s, [])
  | .onNalEncoded data nalMeta =>
    let (udpTransmit, event) := transmit host s.udpTransmit ⟨data, nalMeta⟩
    ({ s with udpTransmit := udpTransmit }, [.transmitted event])
  | .onFrameEnded =>
    let (encodeFps, reports) := takeSample s.encodeFps now
    ({ s with encodeFps := encodeFps }, reports.map .fps)

/-- The notifications of one call of `process_frame`, in order. -/
def onEvents (host : Endian) (now : ℤ) (s : StreamTransmitApp σ) :
    List EncoderEvent → StreamTransmitApp σ × List TransmitAppEvent
  | [] => (s, [])
  | event :: events =>
    let (s, out) := onEvent host now s event
    let (s, rest) := onEvents host now s events
    (s, out ++ rest)

/-- The lambda passed to `make_video_capture`. -/
def captureCallback (host : Endian) (x264 : X264 σ) (s : StreamTransmitApp σ)
    (call : CaptureCall) : Option (StreamTransmitApp σ) × List TransmitAppEvent :=
  let (captureFps, reports) := takeSample s.captureFps call.sampled
  let (encoder?, events) := processFrame x264 s.encoder call.frame
  let (s, out) := onEvents host call.ended { s with captureFps := captureFps } events
  (encoder?.map fun encoder => { s with encoder := encoder }, reports.map .fps ++ out)

def transmitApp (host : Endian) (x264 : X264 σ) :
    Machine (StreamTransmitApp σ) CaptureCall TransmitAppEvent where
  step := captureCallback host x264

/-- The datagram handed to the socket, if the event has one. -/
def TransmitAppEvent.datagram? : TransmitAppEvent → Option (List UInt8)
  | transmitted event => event.datagram?
  | fps _ => none

/-- The line of the log, if the event is one. -/
def TransmitAppEvent.report? : TransmitAppEvent → Option FPSReport
  | fps report => some report
  | transmitted _ => none

/-- The datagrams of a run. -/
def sentDatagrams (events : List TransmitAppEvent) : List (List UInt8) :=
  events.filterMap TransmitAppEvent.datagram?

/-- The lines of the counter with a given tag. -/
def fpsReports (tag : String) (events : List TransmitAppEvent) : List FPSReport :=
  (events.filterMap TransmitAppEvent.report?).filter (·.tag = tag)

/-- The packets that the encoder's notifications carry. -/
def encodedPackets (events : List EncoderEvent) : List VideoPacket :=
  events.filterMap EncoderEvent.packet?

@[simp] theorem sentDatagrams_append (xs ys : List TransmitAppEvent) :
    sentDatagrams (xs ++ ys) = sentDatagrams xs ++ sentDatagrams ys := List.filterMap_append

@[simp] theorem encodedPackets_append (xs ys : List EncoderEvent) :
    encodedPackets (xs ++ ys) = encodedPackets xs ++ encodedPackets ys := List.filterMap_append

@[simp] theorem fpsReports_append (tag : String) (xs ys : List TransmitAppEvent) :
    fpsReports tag (xs ++ ys) = fpsReports tag xs ++ fpsReports tag ys := by
  simp [fpsReports, List.filterMap_append]

@[simp] theorem sentDatagrams_fps (reports : List FPSReport) :
    sentDatagrams (reports.map .fps) = [] := by
  simp [sentDatagrams, TransmitAppEvent.datagram?]

theorem fpsReports_fps (tag : String) (reports : List FPSReport) :
    fpsReports tag (reports.map .fps) = reports.filter (·.tag = tag) := by
  simp [fpsReports, Function.comp_def, TransmitAppEvent.report?]

/-- The notifications of a call are answered by the datagrams of their packets, and leave the
sender where the packets after them go on. -/
theorem onEvents_datagrams (host : Endian) (now : ℤ) (events : List EncoderEvent)
    (packets : List VideoPacket) : ∀ s : StreamTransmitApp σ,
      datagrams host s.udpTransmit (encodedPackets events ++ packets) =
        sentDatagrams (onEvents host now s events).2 ++
          datagrams host (onEvents host now s events).1.udpTransmit packets := by
  induction events with
  | nil => intro s; rfl
  | cons event events ih =>
      intro s
      have hrest := ih (onEvent host now s event).1
      simp only [onEvents, sentDatagrams_append, List.append_assoc, ← hrest]
      cases event with
      | onFrameStarted => rfl
      | onFrameEnded =>
          simp only [onEvent, sentDatagrams_fps, List.nil_append]
          rfl
      | onNalEncoded data nalMeta =>
          have hpackets : encodedPackets (.onNalEncoded data nalMeta :: events)
              = ⟨data, nalMeta⟩ :: encodedPackets events := rfl
          simp only [onEvent, transmit_eq, hpackets, List.cons_append, datagrams_cons]
          rfl

/-- **What the application sends**: the packets of the encoder's run, one datagram each, in order
and numbered through from frame to frame. -/
theorem datagrams_transmitApp (host : Endian) (x264 : X264 σ) (calls : List CaptureCall) :
    ∀ s : StreamTransmitApp σ, sentDatagrams ((transmitApp host x264).outputs s calls) =
      datagrams host s.udpTransmit
        (encodedPackets ((encoder x264).outputs s.encoder (calls.map CaptureCall.frame))) := by
  induction calls with
  | nil => intro s; rfl
  | cons call calls ih =>
      intro s
      rw [List.map_cons, Machine.outputs_cons_eq, Machine.outputs_cons_eq (encoder x264),
        encodedPackets_append]
      simp only [transmitApp, encoder, captureCallback]
      rcases hcall : processFrame x264 s.encoder call.frame with ⟨encoder?, events⟩
      rw [onEvents_datagrams host call.ended events _
        { s with captureFps := (takeSample s.captureFps call.sampled).1 }]
      simp only [sentDatagrams_append, sentDatagrams_fps, List.nil_append]
      cases encoder? with
      | none => rfl
      | some encoder' => exact congrArg _ (ih _)

/-! ## The counters -/

/-- The calls of `take_sample` at these readings lead from one state of a counter to another, with
these reports. -/
structure Sampled (fps fps' : FPSCounter) (readings : List ℤ) (reports : List FPSReport) :
    Prop where
  final : fpsCounter.final fps readings = some fps'
  outputs : fpsCounter.outputs fps readings = reports

theorem Sampled.nil (fps : FPSCounter) : Sampled fps fps [] [] := ⟨rfl, rfl⟩

theorem Sampled.single (fps : FPSCounter) (now : ℤ) :
    Sampled fps (takeSample fps now).1 [now] (takeSample fps now).2 :=
  ⟨rfl, by simp [Machine.outputs, Machine.trace, fpsCounter]⟩

theorem Sampled.append {a b c : FPSCounter} {xs ys : List ℤ} {rs ts : List FPSReport}
    (h : Sampled a b xs rs) (h' : Sampled b c ys ts) : Sampled a c (xs ++ ys) (rs ++ ts) := by
  refine ⟨?_, ?_⟩
  · rw [Machine.final_append h.final, h'.final]
  · rw [Machine.outputs_append_eq, h.final, Option.elim_some, h.outputs, h'.outputs]

/-- A counter keeps its tag, and reports under it. -/
theorem Sampled.tag {a b : FPSCounter} {readings : List ℤ} {reports : List FPSReport}
    (h : Sampled a b readings reports) :
    b.tag = a.tag ∧ ∀ report ∈ reports, report.tag = a.tag := by
  induction readings generalizing a reports with
  | nil =>
      obtain ⟨hfinal, houtputs⟩ := h
      cases hfinal
      cases houtputs
      exact ⟨rfl, fun report hmem => absurd hmem List.not_mem_nil⟩
  | cons now readings ih =>
      obtain ⟨hfinal, houtputs⟩ := h
      have hcall : fpsCounter.step a now
        = (some (takeSample a now).1, (takeSample a now).2) := rfl
      rw [Machine.final_cons (congrArg Prod.fst hcall)] at hfinal
      rw [Machine.outputs_cons hcall] at houtputs
      have hfirst : (takeSample a now).1.tag = a.tag ∧
          ∀ report ∈ (takeSample a now).2, report.tag = a.tag := by
        by_cases hsecond : now - a.prevSampleTs ≥ 1000000000 <;> simp [takeSample, hsecond]
      obtain ⟨htag, hreports⟩ := ih ⟨hfinal, rfl⟩
      refine ⟨htag.trans hfirst.1, ?_⟩
      rw [← houtputs, List.forall_mem_append]
      exact ⟨hfirst.2, fun report hmem => (hreports report hmem).trans hfirst.1⟩

/-- The reports of a counter are all of those under its tag, and none of those under another. -/
theorem Sampled.filter {a b : FPSCounter} {readings : List ℤ} {reports : List FPSReport}
    (h : Sampled a b readings reports) (tag : String) :
    reports.filter (·.tag = tag) = if a.tag = tag then reports else [] := by
  split_ifs with htag
  · rw [List.filter_eq_self]
    intro report hmem
    simp [h.tag.2 report hmem, htag]
  · rw [List.filter_eq_nil_iff]
    intro report hmem
    simp [h.tag.2 report hmem, htag]

/-- What a fresh counter reported, what it counts and what it lost are the samples taken. -/
theorem Sampled.account {tag : String} {fps : FPSCounter} {readings : List ℤ}
    {reports : List FPSReport} (h : Sampled { tag } fps readings reports) : ∃ wraps : ℕ,
      reported reports + fps.framesCaptured.toInt + reports.length + 2 ^ 32 * (wraps : ℤ)
        = readings.length := by
  obtain ⟨t, wraps, hfinal, haccount⟩ := NaiveStreaming.account readings { tag }
  rw [h.final] at hfinal
  cases hfinal
  have hfresh : (0 : Int32).toInt = 0 := rfl
  rw [h.outputs, hfresh, Int.zero_add] at haccount
  exact ⟨wraps, haccount⟩

/-- The notifications of a call sample the encoder's counter once for every end of a frame, and
leave the other one alone. -/
theorem onEvents_fps (host : Endian) (now : ℤ) (events : List EncoderEvent) :
    ∀ s : StreamTransmitApp σ, (onEvents host now s events).1.captureFps = s.captureFps ∧
      ∃ reports, (onEvents host now s events).2.filterMap TransmitAppEvent.report? = reports ∧
        Sampled s.encodeFps (onEvents host now s events).1.encodeFps
          (List.replicate (events.count .onFrameEnded) now) reports := by
  induction events with
  | nil => intro s; exact ⟨rfl, [], rfl, .nil _⟩
  | cons event events ih =>
      intro s
      obtain ⟨hcapture, reports, hreports, hsampled⟩ := ih (onEvent host now s event).1
      cases event with
      | onFrameStarted => exact ⟨hcapture, reports, hreports, hsampled⟩
      | onNalEncoded data nalMeta =>
          refine ⟨hcapture, reports, ?_, hsampled⟩
          simp only [onEvents, onEvent, List.filterMap_append] at hreports ⊢
          exact hreports
      | onFrameEnded =>
          refine ⟨hcapture, (takeSample s.encodeFps now).2 ++ reports, ?_, ?_⟩
          · simp only [onEvents, List.filterMap_append, hreports]
            simp [onEvent, TransmitAppEvent.report?, Function.comp_def]
          · rw [List.count_cons_self, List.replicate_succ]
            exact (Sampled.single s.encodeFps now).append hsampled

/-- The tags that the two counters are constructed with. -/
def StreamTransmitApp.Tagged (s : StreamTransmitApp σ) : Prop :=
  s.captureFps.tag = "Capture" ∧ s.encodeFps.tag = "Encoder"

/-- **The two counters in a call**: the one is sampled for the frame, and the other for every end
of a frame that the encoder notifies of. -/
theorem captureCallback_fps {host : Endian} {x264 : X264 σ} {s s' : StreamTransmitApp σ}
    {call : CaptureCall} (htags : s.Tagged)
    (h : (captureCallback host x264 s call).1 = some s') : s'.Tagged ∧
      Sampled s.captureFps s'.captureFps [call.sampled]
        (fpsReports "Capture" (captureCallback host x264 s call).2) ∧
      ∃ readings, readings.length
          = (processFrame x264 s.encoder call.frame).2.count .onFrameEnded ∧
        Sampled s.encodeFps s'.encodeFps readings
          (fpsReports "Encoder" (captureCallback host x264 s call).2) := by
  have hsampled := Sampled.single s.captureFps call.sampled
  simp only [captureCallback] at h ⊢
  rcases hcall : processFrame x264 s.encoder call.frame with ⟨encoder?, events⟩
  rw [hcall] at h
  obtain ⟨encoder', -, rfl⟩ := Option.map_eq_some_iff.mp h
  obtain ⟨hcapture, reports, hreports, hended⟩ := onEvents_fps host call.ended events
    { s with captureFps := (takeSample s.captureFps call.sampled).1 }
  have hlines : ∀ tag, fpsReports tag (((takeSample s.captureFps call.sampled).2.map .fps) ++
      (onEvents host call.ended { s with
        captureFps := (takeSample s.captureFps call.sampled).1 } events).2) =
      (if s.captureFps.tag = tag then (takeSample s.captureFps call.sampled).2 else []) ++
        (if s.encodeFps.tag = tag then reports else []) := by
    intro tag
    rw [fpsReports_append, fpsReports_fps, hsampled.filter, fpsReports, hreports, hended.filter]
  have hcaptureTag : s.captureFps.tag ≠ "Encoder" := by simp [htags.1]
  have hencodeTag : s.encodeFps.tag ≠ "Capture" := by simp [htags.2]
  refine ⟨⟨?_, hended.tag.1.trans htags.2⟩, ?_,
    List.replicate (events.count .onFrameEnded) call.ended, List.length_replicate .., ?_⟩
  · rw [hcapture, hsampled.tag.1, htags.1]
  · rw [hlines, if_pos htags.1, if_neg hencodeTag, List.append_nil, hcapture]
    exact hsampled
  · rw [hlines, if_neg hcaptureTag, if_pos htags.2, List.nil_append]
    exact hended

theorem transmitApp_fps {host : Endian} {x264 : X264 σ} (calls : List CaptureCall) :
    ∀ {s s' : StreamTransmitApp σ}, s.Tagged → (transmitApp host x264).final s calls = some s' →
      Sampled s.captureFps s'.captureFps (calls.map CaptureCall.sampled)
        (fpsReports "Capture" ((transmitApp host x264).outputs s calls)) ∧
      ∃ readings, readings.length = ((encoder x264).outputs s.encoder
          (calls.map CaptureCall.frame)).count .onFrameEnded ∧
        Sampled s.encodeFps s'.encodeFps readings
          (fpsReports "Encoder" ((transmitApp host x264).outputs s calls)) := by
  induction calls with
  | nil =>
      intro s s' _ h
      cases h
      exact ⟨.nil _, [], rfl, .nil _⟩
  | cons call calls ih =>
      intro s s' htags h
      obtain ⟨s₁, hstep, hrest⟩ := Machine.final_cons_eq_some h
      obtain ⟨htags₁, hcapture, readings, hlength, hencode⟩ := captureCallback_fps htags hstep
      obtain ⟨hcapture', readings', hlength', hencode'⟩ := ih htags₁ hrest
      obtain ⟨encoder', hencoder, rfl⟩ := Option.map_eq_some_iff.mp hstep
      have hframe : ((encoder x264).step s.encoder call.frame).1 = some encoder' := hencoder
      rw [Machine.outputs_cons (Prod.ext hstep rfl), fpsReports_append, fpsReports_append,
        List.map_cons, List.map_cons, Machine.outputs_cons (Prod.ext hframe rfl),
        List.count_append]
      refine ⟨hcapture.append hcapture', readings ++ readings', ?_, hencode.append hencode'⟩
      rw [List.length_append, hlength, hlength']
      rfl

/-- **The account of the two counters.**  Of the frames captured by a fresh application, and of
those whose end the encoder notified of, each is in a reported count, or in the running one, or is
one that a report leaves out; a counter that wraps around loses `2 ^ 32` more. -/
theorem fps_account (host : Endian) (x264 : X264 σ) (e : EncoderImpl σ) (calls : List CaptureCall)
    (s : StreamTransmitApp σ)
    (hrun : (transmitApp host x264).final { encoder := e } calls = some s) :
    let events := (transmitApp host x264).outputs { encoder := e } calls
    let ended := ((encoder x264).outputs e (calls.map CaptureCall.frame)).count .onFrameEnded
    (∃ wraps : ℕ, reported (fpsReports "Capture" events) + s.captureFps.framesCaptured.toInt
      + (fpsReports "Capture" events).length + 2 ^ 32 * (wraps : ℤ) = calls.length) ∧
    ∃ wraps : ℕ, reported (fpsReports "Encoder" events) + s.encodeFps.framesCaptured.toInt
      + (fpsReports "Encoder" events).length + 2 ^ 32 * (wraps : ℤ) = ended := by
  obtain ⟨hcapture, readings, hlength, hencode⟩ := transmitApp_fps calls ⟨rfl, rfl⟩ hrun
  intro events ended
  refine ⟨?_, ?_⟩
  · rw [← List.length_map CaptureCall.sampled]
    exact hcapture.account
  · have haccount := hencode.account
    rwa [hlength] at haccount

end

/-- Two frames, half a second apart: the second one triggers both reports and is in neither. -/
theorem fps_account_two :
    let calls : List CaptureCall :=
      [⟨[], 700000000, 700000000, 710000000⟩, ⟨[], 1200000000, 1200000000, 1210000000⟩]
    let events := (transmitApp .little oneSliceX264).outputs { encoder := ⟨(), 0⟩ } calls
    let ended := ((encoder oneSliceX264).outputs ⟨(), 0⟩
      (calls.map CaptureCall.frame)).count .onFrameEnded
    (∃ wraps : ℕ, reported (fpsReports "Capture" events) + 0
      + (fpsReports "Capture" events).length + 2 ^ 32 * (wraps : ℤ) = calls.length) ∧
    ∃ wraps : ℕ, reported (fpsReports "Encoder" events) + 0
      + (fpsReports "Encoder" events).length + 2 ^ 32 * (wraps : ℤ) = ended := by
  intro calls
  exact fps_account .little oneSliceX264 ⟨(), 0⟩ calls
    { encoder := ⟨(), 2⟩, udpTransmit := ⟨2⟩, captureFps := ⟨"Capture", 1200000000, 0⟩,
      encodeFps := ⟨"Encoder", 1210000000, 0⟩ } (by decide +kernel)

/-! ## From end to end -/

section
variable {σ π κ : Type}

/-- What `param.i_slice_max_size` asks of x264: no NAL is longer than 1400 bytes. -/
def X264.SliceMaxSize (x264 : X264 σ) : Prop :=
  ∀ h picture, ∀ call ∈ (x264.encoderEncode h picture).2.1, (x264.nalEncode call.1).length ≤ 1400

/-- What the callback makes of a NAL: the bytes that x264 encodes, and no flags. -/
theorem packet_naluProcess {x264 : X264 σ} {nal : X264Nal} {userData : FrameUserData}
    {event : EncoderEvent} {packet : VideoPacket}
    (h : naluProcess x264 nal userData = some event) (hpacket : event.packet? = some packet) :
    packet.nalData = x264.nalEncode nal ∧ packet.nalMeta.flags = 0 := by
  simp only [naluProcess, Option.ite_none_right_eq_some, Option.some.injEq] at h
  rw [← h.2] at hpacket
  cases hpacket
  exact ⟨rfl, rfl⟩

theorem packet_naluProcessAll {x264 : X264 σ} {calls : List (X264Nal × FrameUserData)}
    {packet : VideoPacket} (h : packet ∈ encodedPackets (naluProcessAll x264 calls).2) :
    ∃ call ∈ calls, packet.nalData = x264.nalEncode call.1 ∧ packet.nalMeta.flags = 0 := by
  induction calls with
  | nil => exact absurd h List.not_mem_nil
  | cons call calls ih =>
      obtain ⟨nal, userData⟩ := call
      cases hproc : naluProcess x264 nal userData with
      | none => simp [naluProcessAll, hproc, encodedPackets] at h
      | some event =>
          simp only [naluProcessAll, hproc, encodedPackets, List.mem_filterMap,
            List.mem_cons] at h
          obtain ⟨event', rfl | hmem, hpacket⟩ := h
          · exact ⟨_, List.mem_cons_self .., packet_naluProcess hproc hpacket⟩
          · obtain ⟨call, hcall, hnal⟩ := ih (List.mem_filterMap.mpr ⟨event', hmem, hpacket⟩)
            exact ⟨call, List.mem_cons_of_mem _ hcall, hnal⟩

/-- **What the encoder yields is received as it is**: it fits the receive buffer, and has no flags
to lose. -/
theorem arrivedPacket_of_encoded {x264 : X264 σ} (hsize : x264.SliceMaxSize)
    (frames : List CapturedFrame) : ∀ s : EncoderImpl σ,
      ∀ packet ∈ encodedPackets ((encoder x264).outputs s frames),
        arrivedPacket packet = packet := by
  induction frames with
  | nil => intro s packet h; exact absurd h List.not_mem_nil
  | cons frame frames ih =>
      intro s packet h
      rw [Machine.outputs_cons_eq, encodedPackets_append, List.mem_append] at h
      rcases h with hcall | hrest
      · obtain ⟨event, hevent, hpacket⟩ := List.mem_filterMap.mp hcall
        have hnals : packet ∈ encodedPackets
            (naluProcessAll x264 (x264.encoderEncode s.h (s.picture frame)).2.1).2 := by
          rcases mem_processFrame hevent with rfl | rfl | hmem
          · cases hpacket
          · cases hpacket
          · exact List.mem_filterMap.mpr ⟨event, hmem, hpacket⟩
        obtain ⟨call, hmem, hdata, hflags⟩ := packet_naluProcessAll hnals
        have hlen := hsize s.h (s.picture frame) call hmem
        rw [← hdata] at hlen
        have hfits : packet.nalData.take 1581 = packet.nalData :=
          List.take_of_length_le (by omega)
        have hmeta : { packet.nalMeta with flags := 0 } = packet.nalMeta := by rw [← hflags]
        rw [arrivedPacket, hfits, hmeta]
      · cases hstep : ((encoder x264).step s frame).1 with
        | none => simp [hstep, encodedPackets] at hrest
        | some s' =>
            rw [hstep, Option.elim_some] at hrest
            exact ih s' packet hrest

/-- The parser recovers the packets of a stream that arrives whole. -/
theorem parse_stream (host : Endian) (packets : List VideoPacket) : ∀ counter : UDPTransmitImpl,
    ((((datagrams host counter packets).map arrive).filterMap (Completion.parse host)).map
      Prod.snd) = packets.map arrivedPacket := by
  induction packets with
  | nil => intro counter; rfl
  | cons packet packets ih =>
      intro counter
      rw [datagrams_cons, List.map_cons, List.filterMap_cons_some (parse_arrive ..),
        List.map_cons, List.map_cons, ih]

theorem defined_stream (host : Endian) (counter : UDPTransmitImpl) (packets : List VideoPacket) :
    ∀ c ∈ (datagrams host counter packets).map arrive, c.Defined := by
  intro c hc
  obtain ⟨bytes, hmem, rfl⟩ := List.mem_map.mp hc
  obtain ⟨i, rfl⟩ := List.get_of_mem hmem
  obtain ⟨packet, hget⟩ := get_datagrams host counter packets i
  rw [hget]
  exact defined_arrive host _ packet

/-- Packets that arrive as they are, and all of them in order, lead to the images that they would
lead to if the window received them directly. -/
theorem receiveApp_stream (host : Endian) (lib : AVCodec π κ) (c : ByteCast)
    (counter : UDPTransmitImpl) {packets : List VideoPacket}
    (hsame : ∀ packet ∈ packets, arrivedPacket packet = packet) (buffer : ReceiveBuffer)
    (view : MainWindow π κ × Option FrameImage) :
    let wire := datagrams host counter packets
    (receiveApp host lib c).outputs (.started buffer, view) (wire.map arrive)
        = (viewer lib c).outputs view packets ∧
      ((receiveApp host lib c).final (.started buffer, view) (wire.map arrive)).map Prod.snd
        = (viewer lib c).final view packets := by
  have hrun := receiveApp_run host lib c buffer view (defined_stream host counter packets)
  rwa [parse_stream, List.map_congr_left hsame, List.map_id'] at hrun

/-- **The stream is transparent.**  On a channel that keeps all datagrams and their order, the
receiving application shows, image by image, what its window would show if the encoder called it
directly, and fails where that would fail. -/
theorem stream_end_to_end (host : Endian) (x264 : X264 σ) (hsize : x264.SliceMaxSize)
    (lib : AVCodec π κ) (c : ByteCast) (s : StreamTransmitApp σ) (calls : List CaptureCall)
    (buffer : ReceiveBuffer) (view : MainWindow π κ × Option FrameImage) :
    let wire := sentDatagrams ((transmitApp host x264).outputs s calls)
    let packets := encodedPackets
      ((encoder x264).outputs s.encoder (calls.map CaptureCall.frame))
    (receiveApp host lib c).outputs (.started buffer, view) (wire.map arrive)
        = (viewer lib c).outputs view packets ∧
      ((receiveApp host lib c).final (.started buffer, view) (wire.map arrive)).map Prod.snd
        = (viewer lib c).final view packets := by
  intro wire packets
  have hwire : wire = datagrams host s.udpTransmit packets := datagrams_transmitApp ..
  rw [hwire]
  exact receiveApp_stream host lib c s.udpTransmit (arrivedPacket_of_encoded hsize _ s.encoder)
    buffer view

end

/-- One frame, of which x264 makes one slice of six bytes. -/
theorem stream_end_to_end_one :
    let calls : List CaptureCall := [⟨[], 700000000, 700000000, 710000000⟩]
    let buffer : ReceiveBuffer := ⟨List.replicate 1600 0xFF, List.length_replicate ..⟩
    let view : MainWindow Unit Unit × Option FrameImage := (⟨0, (), ()⟩, none)
    let wire := sentDatagrams
      ((transmitApp .little oneSliceX264).outputs { encoder := ⟨(), 0⟩ } calls)
    let packets := encodedPackets
      ((encoder oneSliceX264).outputs ⟨(), 0⟩ (calls.map CaptureCall.frame))
    (receiveApp .little greedyParser .wrap).outputs (.started buffer, view) (wire.map arrive)
        = (viewer greedyParser .wrap).outputs view packets ∧
      ((receiveApp .little greedyParser .wrap).final (.started buffer, view)
          (wire.map arrive)).map Prod.snd
        = (viewer greedyParser .wrap).final view packets := by
  intro calls buffer view
  refine stream_end_to_end .little oneSliceX264 ?_ greedyParser .wrap _ calls buffer view
  intro h picture call hcall
  rw [List.mem_singleton.mp hcall]
  exact (by decide : 6 ≤ 1400)

end NaiveStreaming
