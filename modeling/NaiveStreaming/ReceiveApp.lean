import NaiveStreaming.FrameDisplay
import NaiveStreaming.Lib.Cascade
import NaiveStreaming.MainWindow
import NaiveStreaming.Network

/-!
# The receiving application

The receiving application is a chain of callbacks: a completion of the socket makes the receiver
call the window with a packet, the window calls the decoder once or twice, and the decoder calls
the window back with every frame, which becomes the image that is painted.  All of it happens on
the thread of the event loop, so the chain is a cascade of machines.
-/

namespace NaiveStreaming
open ByteOrder Mealy

section
variable {π κ : Type}

def decoder (lib : AVCodec π κ) : Machine (DecoderImpl π κ) VideoPacket DecoderEvent where
  step := decodePacket lib

/-- The packets that the window passes to the decoder when it receives one. -/
def VideoPacket.decodeCalls (p : VideoPacket) : List VideoPacket :=
  if p.BeginsPicture then [p, p] else [p]

/-- The frame of an event that hands one over. -/
def DecoderEvent.frame? : DecoderEvent → Option VideoFrame
  | onFrame frame => some frame
  | consumed _ => none

/-- Successive calls of `MainWindow::on_frame`.  The state is `m_current_frame_img`, a null image
before the first frame; every image that replaces it is an output. -/
def frameDisplay (c : ByteCast) : Machine (Option FrameImage) VideoFrame FrameImage where
  step _ f :=
    match onFrame c f with
    | none => (none, [])
    | some image => (some (some image), [image])

/-- The window with its decoder: the frames of a packet are converted one after the other. -/
def viewer (lib : AVCodec π κ) (c : ByteCast) :
    Machine (MainWindow π κ × Option FrameImage) VideoPacket FrameImage :=
  (mainWindow lib).cascade (·.frame?.toList) (frameDisplay c)

/-- The receiver with the window as its listener. -/
def receiveApp (host : Endian) (lib : AVCodec π κ) (c : ByteCast) :
    Machine (UDPReceiveImpl × MainWindow π κ × Option FrameImage) Completion FrameImage :=
  (receiver host).cascade (·.packet?.toList) (viewer lib c)

/-- The window does to its decoder what the calls of `decode_packet` do. -/
theorem mainWindow_projects (lib : AVCodec π κ) :
    (mainWindow lib).Projects ((decoder lib).expand VideoPacket.decodeCalls)
      MainWindow.decoder := by
  intro s p
  simp only [mainWindow, onPacketReceived, Machine.expand, VideoPacket.decodeCalls]
  rcases hfirst : decodePacket lib s.decoder p with ⟨_ | d, events⟩
  · by_cases hpic : p.BeginsPicture <;>
      simp [hpic, Machine.final, Machine.outputs_cons_eq, decoder, hfirst]
  · by_cases hpic : p.BeginsPicture
    · rcases hsecond : decodePacket lib d p with ⟨_ | d', events'⟩ <;>
        simp [hpic, Machine.final, Machine.outputs, Machine.trace, decoder, hfirst, hsecond]
    · simp [hpic, Machine.final, Machine.outputs, Machine.trace, decoder, hfirst]

/-- The window counts every packet whose call returns. -/
theorem packetsReceived_final {lib : AVCodec π κ} (packets : List VideoPacket) :
    ∀ {s s' : MainWindow π κ}, (mainWindow lib).final s packets = some s' →
      s'.packetsReceived = s.packetsReceived + Int32.ofNat packets.length := by
  induction packets with
  | nil =>
      intro s s' h
      cases h
      exact (Int32.add_zero _).symm
  | cons p packets ih =>
      intro s s' h
      obtain ⟨s₁, hstep, hrest⟩ := Machine.final_cons_eq_some h
      have hcount : s₁.packetsReceived = s.packetsReceived + 1 := by
        simp only [mainWindow, onPacketReceived] at hstep
        rcases hfirst : decodePacket lib s.decoder p with ⟨_ | d, events⟩
        · simp [hfirst] at hstep
        · by_cases hpic : p.BeginsPicture
          · simp only [hfirst, hpic, if_true, Option.map_eq_some_iff] at hstep
            obtain ⟨d', -, rfl⟩ := hstep
            rfl
          · simp only [hfirst, hpic, if_false, Option.some.injEq] at hstep
            rw [← hstep]
      have hone : Int32.ofNat 1 = 1 := rfl
      rw [ih hrest, hcount, List.length_cons, Nat.add_comm, Int32.ofNat_add, hone, Int32.add_assoc]

/-- **What becomes of a list of packets**: the decoder is called for each of them, twice for those
that begin a picture, and every frame that it hands over is converted. -/
theorem outputs_viewer (lib : AVCodec π κ) (c : ByteCast) (window : MainWindow π κ)
    (image? : Option FrameImage) (packets : List VideoPacket) :
    (viewer lib c).outputs (window, image?) packets = (frameDisplay c).outputs image?
      (((decoder lib).outputs window.decoder
        (packets.flatMap VideoPacket.decodeCalls)).filterMap DecoderEvent.frame?) := by
  have hdecoder := ((decoder lib).run_expand VideoPacket.decodeCalls packets window.decoder).2
  have hwindow := (mainWindow_projects lib).outputs packets window
  rw [viewer, Machine.outputs_cascade, ← hwindow, hdecoder, List.filterMap_eq_flatMap_toList]

theorem final_frameDisplay (c : ByteCast) (frames : List VideoFrame) :
    ∀ {image? shown : Option FrameImage}, (frameDisplay c).final image? frames = some shown →
      shown = (((frameDisplay c).outputs image? frames).getLast?.map some).getD image? := by
  induction frames with
  | nil =>
      intro image? shown h
      cases h
      rfl
  | cons f frames ih =>
      intro image? shown h
      obtain ⟨next, hstep, hrest⟩ := Machine.final_cons_eq_some h
      simp only [frameDisplay] at hstep
      cases himage : onFrame c f with
      | none => simp [himage] at hstep
      | some image =>
          rw [himage] at hstep
          cases hstep
          have hcall : (frameDisplay c).step image? f = (some (some image), [image]) := by
            simp only [frameDisplay, himage]
          rw [ih hrest, Machine.outputs_cons hcall, List.singleton_append, List.getLast?_cons]
          cases ((frameDisplay c).outputs (some image) frames).getLast? <;> rfl

/-! ## The whole chain -/

theorem flatMap_packet? (events : List ReceiveEvent) :
    events.flatMap (·.packet?.toList) = deliveries events :=
  (List.filterMap_eq_flatMap_toList ..).symm

/-- **The images of any run without runts** are those that the accepted packets lead to, and the
application fails where the window or its decoder does. -/
theorem receiveApp_run (host : Endian) (lib : AVCodec π κ) (c : ByteCast) (buffer : ReceiveBuffer)
    (view : MainWindow π κ × Option FrameImage) {cs : List Completion}
    (h : ∀ completion ∈ cs, completion.Defined) :
    let packets := (cs.filterMap (Completion.parse host)).map Prod.snd
    (receiveApp host lib c).outputs (.started buffer, view) cs
        = (viewer lib c).outputs view packets ∧
      ((receiveApp host lib c).final (.started buffer, view) cs).map Prod.snd
        = (viewer lib c).final view packets := by
  obtain ⟨s, hfinal, -⟩ := receiver_run host buffer h
  have hpackets := deliveries_receiver host buffer h
  refine ⟨?_, ?_⟩
  · rw [receiveApp, Machine.outputs_cascade, flatMap_packet?, hpackets]
  · rw [receiveApp, Machine.final_cascade, hfinal, flatMap_packet?, hpackets, Option.bind_some,
      Option.map_map]
    exact congrFun Option.map_id _

/-- What is left when the window has received a list of packets: their number, and the last
image. -/
theorem final_viewer {lib : AVCodec π κ} {c : ByteCast} {window window' : MainWindow π κ}
    {image? shown : Option FrameImage} {packets : List VideoPacket}
    (h : (viewer lib c).final (window, image?) packets = some (window', shown)) :
    window'.packetsReceived = window.packetsReceived + Int32.ofNat packets.length ∧
      shown = (((viewer lib c).outputs (window, image?) packets).getLast?.map some).getD
        image? := by
  rw [viewer, Machine.final_cascade, Option.bind_eq_some_iff] at h
  obtain ⟨w, hwindow, hshown⟩ := h
  obtain ⟨image, himage, heq⟩ := Option.map_eq_some_iff.mp hshown
  cases heq
  rw [viewer, Machine.outputs_cascade]
  exact ⟨packetsReceived_final packets hwindow, final_frameDisplay c _ himage⟩

/-- **The images behind an arbitrary network.**  Whatever the network drops, repeats or reorders,
and whatever noise it adds, the decoder is called for the packets that arrive, in the order in
which they arrive and with as much of them as fits the receive buffer, twice for those that begin
a picture; the images are the frames that it hands over, converted.  If no call fails, every
packet is counted and the last image is the one that is shown. -/
theorem receiveApp_network (host : Endian) (lib : AVCodec π κ) (c : ByteCast)
    (buffer : ReceiveBuffer) (window : MainWindow π κ) (image? : Option FrameImage)
    (counter : UDPTransmitImpl) (packets : List VideoPacket)
    (arrivals : List (Arrival (datagrams host counter packets))) :
    let arrived := (arrivals.filterMap Arrival.index?).map (received host counter packets)
    let frames := ((decoder lib).outputs window.decoder
      (arrived.flatMap VideoPacket.decodeCalls)).filterMap DecoderEvent.frame?
    let images := (frameDisplay c).outputs image? frames
    (receiveApp host lib c).outputs (.started buffer, window, image?)
        (arrivals.map Arrival.completion) = images ∧
      ∀ s window' shown, (receiveApp host lib c).final (.started buffer, window, image?)
          (arrivals.map Arrival.completion) = some (s, window', shown) →
        window'.packetsReceived = window.packetsReceived + Int32.ofNat arrived.length ∧
          shown = (images.getLast?.map some).getD image? := by
  intro arrived frames images
  obtain ⟨houtputs, hfinal⟩ := receiveApp_run host lib c buffer (window, image?)
    (defined_arrivals host counter packets arrivals)
  rw [parse_arrivals, List.map_map] at houtputs hfinal
  have himages : (viewer lib c).outputs (window, image?) arrived = images := outputs_viewer ..
  refine ⟨houtputs.trans himages, ?_⟩
  intro s window' shown hrun
  rw [hrun, Option.map_some] at hfinal
  rw [← himages]
  exact final_viewer hfinal.symm

end

end NaiveStreaming
