import NaiveStreaming.PaintingProgress
import NaiveStreaming.ReceiveApp

/-!
# What is on the screen

The receiving application is a chain of callbacks in which a call of `on_frame` is one step, while
the user interface paints between the steps of such a call.  Here the two come together: the
event loop calls `on_frame` with the frames that the decoder hands over, and what is drawn meanwhile
are the images of the chain.
-/

namespace NaiveStreaming
open ByteOrder Mealy

section
variable {π κ : Type}

/-- The frames that the decoder hands over in a run of the receiving application. -/
def handedOver (host : Endian) (lib : AVCodec π κ) (window : MainWindow π κ)
    (cs : List Completion) : List VideoFrame :=
  let packets := (cs.filterMap (Completion.parse host)).map Prod.snd
  ((decoder lib).outputs window.decoder (packets.flatMap VideoPacket.decodeCalls)).filterMap
    DecoderEvent.frame?

/-- Calls of `on_frame` that all return make the images of their frames. -/
theorem map_onFrame_outputs {c : ByteCast} (frames : List VideoFrame) :
    ∀ {image? shown : Option FrameImage}, (frameDisplay c).final image? frames = some shown →
      frames.map (onFrame c) = ((frameDisplay c).outputs image? frames).map some := by
  induction frames with
  | nil => intro image? shown _; rfl
  | cons f frames ih =>
      intro image? shown h
      obtain ⟨next, hstep, hrest⟩ := Machine.final_cons_eq_some h
      cases himage : onFrame c f with
      | none => simp [frameDisplay, himage] at hstep
      | some image =>
          have hcall : (frameDisplay c).step image? f = (some (some image), [image]) := by
            simp only [frameDisplay, himage]
          rw [hcall] at hstep
          cases hstep
          rw [List.map_cons, himage, ih hrest, Machine.outputs_cons hcall, List.map_append]
          rfl

/-- **The images of a run** that does not fail are those of the frames handed over. -/
theorem map_onFrame_handedOver {host : Endian} {lib : AVCodec π κ} {c : ByteCast}
    {buffer : ReceiveBuffer} {window : MainWindow π κ} {image? : Option FrameImage}
    {cs : List Completion} {s : UDPReceiveImpl × MainWindow π κ × Option FrameImage}
    (hs : (receiveApp host lib c).final (.started buffer, window, image?) cs = some s) :
    (handedOver host lib window cs).map (onFrame c) =
      ((receiveApp host lib c).outputs (.started buffer, window, image?) cs).map some := by
  obtain ⟨r, hreceived, -⟩ := Option.bind_eq_some_iff.mp (Machine.final_cascade .. ▸ hs)
  obtain ⟨houtputs, hfinal⟩ := receiveApp_run host lib c buffer (window, image?)
    (defined_of_final host hreceived)
  rw [hs, Option.map_some] at hfinal
  rw [houtputs, outputs_viewer]
  have hdecoder := ((decoder lib).run_expand VideoPacket.decodeCalls
    ((cs.filterMap (Completion.parse host)).map Prod.snd) window.decoder).2
  have hwindow := (mainWindow_projects lib).outputs
    ((cs.filterMap (Completion.parse host)).map Prod.snd) window
  rw [viewer, Machine.final_cascade, ← hwindow, hdecoder,
    ← List.filterMap_eq_flatMap_toList] at hfinal
  obtain ⟨w, -, hshown⟩ := Option.bind_eq_some_iff.mp hfinal.symm
  obtain ⟨shown, hdisplay, -⟩ := Option.map_eq_some_iff.mp hshown
  exact map_onFrame_outputs _ hdisplay

theorem length_images {c : ByteCast} {frames : List VideoFrame} {images : List FrameImage}
    (himages : frames.map (onFrame c) = images.map some) : images.length = frames.length := by
  simpa using (congrArg List.length himages).symm

theorem exists_image_of_mem {c : ByteCast} {frames : List VideoFrame} {images : List FrameImage}
    (himages : frames.map (onFrame c) = images.map some) {f : VideoFrame} (hf : f ∈ frames) :
    ∃ image, onFrame c f = some image := by
  have hmem := List.mem_map_of_mem (f := onFrame c) hf
  rw [himages] at hmem
  obtain ⟨image, -, himage⟩ := List.mem_map.mp hmem
  exact ⟨image, himage.symm⟩

/-- The image of the frame published last is one of the images of the frames. -/
theorem lastImage_eq {c : ByteCast} {frames : List VideoFrame} {images : List FrameImage}
    (himages : frames.map (onFrame c) = images.map some) {events : List PaintingEvent}
    (hpublished : framesPublished events <+: frames) : lastImage c events =
      (images.take (framesPublished events).length).getLast?.map FrameImage.shown := by
  have htake : (framesPublished events).map (onFrame c) =
      (images.take (framesPublished events).length).map some := by
    rw [List.map_take, ← himages, ← List.map_take, ← List.prefix_iff_eq_take.mp hpublished]
  have hlast := congrArg List.getLast? htake
  rw [List.getLast?_map, List.getLast?_map] at hlast
  rw [lastImage]
  cases hframe : (framesPublished events).getLast? <;>
    cases himage : (images.take (framesPublished events).length).getLast? <;>
      simp only [hframe, himage, Option.map_none, Option.map_some, reduceCtorEq,
        Option.some.injEq] at hlast
  · rfl
  · rw [Option.bind_some, hlast]

/-- A call of `paintEvent` while the mutex is free draws the current image. -/
theorem outputs_paint {c : ByteCast} {s : Painting} (image? : Option ShownImage)
    (hgui : s.gui = .idle) (hlock : s.lock = none) (hshows : s.Shows image?) :
    (painting c).outputs s [.paintEvent, .gui, .gui] = [.drew image?] := by
  have hbegun : (painting c).step s .paintEvent = (some { s with gui := .begun }, []) := by
    simp only [painting, hgui, if_true]
  have hlocked : (painting c).step { s with gui := .begun } .gui =
      (some { s with lock := some .gui, gui := .locked }, []) := by
    simp only [painting, paintStep, hlock, if_true]
  have hdrawn : (painting c).step { s with lock := some .gui, gui := .locked } .gui =
      (some { s with lock := some .gui, gui := .drawn }, [.drew image?]) := by
    cases image? with
    | none => simp only [painting, paintStep, hshows.1]
    | some image =>
        obtain ⟨buffer, himg, -, hdata⟩ := hshows
        simp only [painting, paintStep, himg, hdata, Option.join_some]
  rw [Machine.outputs_cons hbegun, Machine.outputs_cons hlocked, Machine.outputs_cons hdrawn]
  rfl

theorem packets_arrive (host : Endian) (n : UInt16) (p : VideoPacket) :
    ([arrive (packetDatagram host n p)].filterMap (Completion.parse host)).map Prod.snd =
      [arrivedPacket p] := by
  rw [List.filterMap_cons_some (parse_arrive host n p)]
  rfl

/-- A call of the window that hands over one frame. -/
theorem final_viewer_frame {lib : AVCodec π κ} {c : ByteCast} {window window' : MainWindow π κ}
    {p : VideoPacket} {fed : List UInt8} {f : VideoFrame} {image : FrameImage}
    (hcall : onPacketReceived lib window p = (some window', [.consumed fed, .onFrame f]))
    (himage : onFrame c f = some image) (image? : Option FrameImage) :
    (viewer lib c).final (window, image?) [p] = some (window', some image) := by
  have hframe : (frameDisplay c).step image? f = (some (some image), [image]) := by
    simp only [frameDisplay, himage]
  have hstep : (mainWindow lib).step window p = (some window', [.consumed fed, .onFrame f]) := hcall
  rw [viewer, Machine.final_cascade, Machine.final_cons (congrArg Prod.fst hstep),
    Machine.outputs_cons hstep]
  show (some window').bind _ = _
  rw [Option.bind_some]
  show ((frameDisplay c).final image? [f]).map _ = _
  rw [Machine.final_cons (congrArg Prod.fst hframe)]
  rfl

section Single
variable {host : Endian} {lib : AVCodec π κ} {window : MainWindow π κ} {p : VideoPacket}
  {d : DecoderImpl π κ} {fed : List UInt8} {f : VideoFrame}

/-- The packet that arrives begins no picture, and makes one frame. -/
theorem handedOver_arrive (hbegins : ¬ (arrivedPacket p).BeginsPicture)
    (hdecode : decodePacket lib window.decoder (arrivedPacket p) =
      (some d, [.consumed fed, .onFrame f])) (n : UInt16) :
    handedOver host lib window [arrive (packetDatagram host n p)] = [f] := by
  have hcalls : [arrivedPacket p].flatMap VideoPacket.decodeCalls = [arrivedPacket p] := by
    simp [VideoPacket.decodeCalls, hbegins]
  simp only [handedOver, packets_arrive, hcalls]
  rw [Machine.outputs_cons (m := decoder lib) hdecode]
  rfl

theorem final_receiveApp_arrive (hbegins : ¬ (arrivedPacket p).BeginsPicture)
    (hdecode : decodePacket lib window.decoder (arrivedPacket p) =
      (some d, [.consumed fed, .onFrame f])) {c : ByteCast} {image : FrameImage}
    (himage : onFrame c f = some image) (buffer : ReceiveBuffer) (n : UInt16) :
    ∃ s, (receiveApp host lib c).final (.started buffer, window, none)
      [arrive (packetDatagram host n p)] = some s := by
  have hcall : onPacketReceived lib window (arrivedPacket p) =
      (some ⟨window.packetsReceived + 1, d⟩, [.consumed fed, .onFrame f]) := by
    simp only [onPacketReceived, hdecode, hbegins, if_false]
  have hdefined : ∀ completion ∈ [arrive (packetDatagram host n p)], completion.Defined :=
    List.forall_mem_singleton.mpr (defined_arrive host n p)
  have hfinal := (receiveApp_run host lib c buffer (window, none) hdefined).2
  rw [packets_arrive, final_viewer_frame hcall himage none] at hfinal
  obtain ⟨s, hs, -⟩ := Option.map_eq_some_iff.mp hfinal
  exact ⟨s, hs⟩

end Single

end

def greyPicture : AVFrame where
  format := .yuv422p
  width := 1280
  height := 720
  linesize0 := 1280
  linesize1 := 640
  linesize2 := 640
  data0 := some (List.replicate 921600 16)
  data1 := some (List.replicate 460800 128)
  data2 := some (List.replicate 460800 128)
  data3 := none

/-- A codec that makes a grey picture of every packet. -/
def greyCodec : AVCodec Unit Unit where
  parse _ data := { greedyParser.parse () data with packet := data }
  sendPacket _ _ := some ()
  receiveFrames _ := ((), [greyPicture])

theorem exists_greyImage : ∃ image, onFrame .wrap greyPicture.toVideoFrame = some image := by
  refine exists_onFrame rfl rfl rfl ?_ ?_
  · refine ⟨rfl, ?_, ?_, ?_⟩ <;> simp [AVFrame.toVideoFrame]
  · intro x hx y hy
    rw [List.length_replicate, List.length_replicate]
    have hwidth : greyPicture.toVideoFrame.width.toNat = 1280 := rfl
    have hheight : greyPicture.toVideoFrame.height.toNat = 720 := rfl
    rw [hwidth] at hx ⊢
    rw [hheight] at hy
    omega

theorem decodePacket_grey (d : DecoderImpl Unit Unit) {p : VideoPacket} (h : p.nalData ≠ []) :
    decodePacket greyCodec d p = (some ⟨(), ()⟩,
      [.consumed p.nalData, .onFrame greyPicture.toVideoFrame]) := by
  have hasserted : greyPicture.Asserted := ⟨rfl, rfl, rfl, rfl, rfl⟩
  simp [decodePacket, decodePacketImpl, greyCodec, greedyParser, h, handOver, hasserted]

/-- A packet of one byte arrives, and its frame is handed over. -/
theorem grey_run (buffer : ReceiveBuffer) :
    let cs := [arrive (packetDatagram .little 0 ⟨[1], { timestamp := 0 }⟩)]
    handedOver .little greyCodec ⟨0, (), ()⟩ cs = [greyPicture.toVideoFrame] ∧
      ∃ s, (receiveApp .little greyCodec .wrap).final (.started buffer, ⟨0, (), ()⟩, none) cs =
        some s := by
  intro cs
  obtain ⟨image, himage⟩ := exists_greyImage
  have hdecode := decodePacket_grey ⟨(), ()⟩ (p := arrivedPacket ⟨[1], { timestamp := 0 }⟩)
    (by decide)
  have hbegins : ¬ (arrivedPacket ⟨[1], { timestamp := 0 }⟩).BeginsPicture := by decide
  generalize greyPicture.toVideoFrame = f at himage hdecode ⊢
  exact ⟨handedOver_arrive hbegins hdecode 0,
    final_receiveApp_arrive hbegins hdecode himage buffer 0⟩

/-! ## The chain and the screen -/

section
variable {π κ : Type}

/-- **What is on the screen.**  In a run of the receiving application that does not fail, let the
event loop call `on_frame` with the frames that the decoder hands over, in their order, and let the
user interface paint at any time.  Nothing fails in any interleaving; every draw shows, as a whole,
the image of the run that was published last, so that none is drawn after a later one; and at most
one image has been begun and not yet published. -/
theorem screen_shows (host : Endian) (lib : AVCodec π κ) (c : ByteCast) (buffer : ReceiveBuffer)
    (window : MainWindow π κ) {cs : List Completion}
    {s : UDPReceiveImpl × MainWindow π κ × Option FrameImage}
    (hs : (receiveApp host lib c).final (.started buffer, window, none) cs = some s)
    (steps : List PaintingStep)
    (hframes : ∀ f, .onFrame f ∈ steps → f ∈ handedOver host lib window cs)
    (hcalls : framesEntered ((painting c).outputs {} steps) <+: handedOver host lib window cs) :
    let images := (receiveApp host lib c).outputs (.started buffer, window, none) cs
    let events := (painting c).outputs {} steps
    (∃ t, (painting c).final {} steps = some t) ∧
    (∀ pre image?, pre ++ [.drew image?] <+: events → image? =
      (images.take (framesPublished pre).length).getLast?.map FrameImage.shown) ∧
    (framesEntered events).length ≤ (framesPublished events).length + 1 := by
  intro images events
  have himages : (handedOver host lib window cs).map (onFrame c) = images.map some :=
    map_onFrame_handedOver hs
  obtain ⟨t, hfinal, hsound⟩ := sound_run c
    fun f hf => exists_image_of_mem himages (hframes f hf)
  have hpublished : framesPublished events <+: handedOver host lib window cs := by
    refine List.IsPrefix.trans ?_ hcalls
    rw [hsound.entered]
    exact List.prefix_append _ _
  refine ⟨⟨t, hfinal⟩, ?_, ?_⟩
  · intro pre image? hpre
    rw [hsound.draws pre image? hpre]
    refine lastImage_eq himages (List.IsPrefix.trans ?_ hpublished)
    exact ((List.prefix_append pre _).trans hpre).filterMap PaintingEvent.published?
  · have hone : t.decoder.frame?.toList.length ≤ 1 := by
      cases t.decoder.frame? <;> simp
    rw [hsound.entered, List.length_append]
    exact Nat.add_le_add_left hone _

/-- **The screen settles.**  Let the event loop have called `on_frame` with every frame that the
decoder hands over in such a run, and let both threads go on until the calls have returned, in
rounds of any order.  A call of `paintEvent` then draws the last image of the run. -/
theorem screen_settles (host : Endian) (lib : AVCodec π κ) (c : ByteCast) (buffer : ReceiveBuffer)
    (window : MainWindow π κ) {cs : List Completion}
    {s : UDPReceiveImpl × MainWindow π κ × Option FrameImage}
    (hs : (receiveApp host lib c).final (.started buffer, window, none) cs = some s)
    (steps : List PaintingStep)
    (hframes : ∀ f, .onFrame f ∈ steps → f ∈ handedOver host lib window cs)
    (hcalls : framesEntered ((painting c).outputs {} steps) = handedOver host lib window cs)
    {p : Painting} (hp : (painting c).final {} steps = some p) (rounds : List (List PaintingStep))
    (hrounds : ∀ round ∈ rounds, ∀ step, step ∈ round ↔ step = .decoder ∨ step = .gui)
    (hcount : p.stepsLeft ≤ rounds.length) :
    let images := (receiveApp host lib c).outputs (.started buffer, window, none) cs
    ∃ t, (painting c).final {} (steps ++ rounds.flatten) = some t ∧
      (painting c).outputs t [.paintEvent, .gui, .gui] =
        [.drew (images.getLast?.map FrameImage.shown)] := by
  intro images
  have himages : (handedOver host lib window cs).map (onFrame c) = images.map some :=
    map_onFrame_handedOver hs
  obtain ⟨t, ht, hsound, hdecoder, hgui, hpublished⟩ := sound_finished c
    (fun f hf => exists_image_of_mem himages (hframes f hf)) hp hrounds hcount
  rw [hcalls] at hpublished
  have hlast := lastImage_eq himages (by rw [hpublished])
  rw [hpublished, ← length_images himages, List.take_length] at hlast
  refine ⟨t, ht, outputs_paint _ hgui (hsound.unlocked hdecoder hgui) ?_⟩
  rw [← hlast]
  exact hsound.shows (by rw [hdecoder]; rfl)

end

/-- A packet arrives, its picture is begun, and the window is painted before it is complete. -/
theorem screen_shows_grey :
    let p : VideoPacket := ⟨[1], { timestamp := 0 }⟩
    let cs := [arrive (packetDatagram .little 0 p)]
    let start : UDPReceiveImpl × MainWindow Unit Unit × Option FrameImage :=
      (.started ⟨List.replicate 1600 0, List.length_replicate ..⟩, ⟨0, (), ()⟩, none)
    let images := (receiveApp .little greyCodec .wrap).outputs start cs
    let events := (painting .wrap).outputs {}
      [.onFrame greyPicture.toVideoFrame, .paintEvent, .gui, .gui]
    images.length = 1 ∧ ∀ pre image?, pre ++ [.drew image?] <+: events → image? =
      (images.take (framesPublished pre).length).getLast?.map FrameImage.shown := by
  obtain ⟨image, himage⟩ := exists_greyImage
  obtain ⟨hframes, s, hs⟩ := grey_run ⟨List.replicate 1600 0, List.length_replicate ..⟩
  generalize greyPicture.toVideoFrame = f at himage hframes ⊢
  intro p cs start images events
  have hevents : events = [.entered f, .drew none] := by
    have henter := step_onFrame .wrap (s := {}) rfl (fill_eq himage).1
    rw [show events = _ from Machine.outputs_cons henter _, outputs_paint none rfl rfl ⟨rfl, rfl⟩]
    rfl
  have hlength : images.length = 1 := by
    rw [length_images (map_onFrame_handedOver hs), hframes]
    rfl
  refine ⟨hlength, ?_⟩
  refine (screen_shows .little greyCodec .wrap _ _ hs _ ?_ ?_).2.1
  · intro g hg
    rw [hframes]
    simpa using hg
  · rw [hframes, show (painting .wrap).outputs {} _ = _ from hevents]
    exact List.prefix_refl _

/-- The same with the call of `on_frame` left to return. -/
theorem screen_settles_grey :
    let p : VideoPacket := ⟨[1], { timestamp := 0 }⟩
    let cs := [arrive (packetDatagram .little 0 p)]
    let start : UDPReceiveImpl × MainWindow Unit Unit × Option FrameImage :=
      (.started ⟨List.replicate 1600 0, List.length_replicate ..⟩, ⟨0, (), ()⟩, none)
    let images := (receiveApp .little greyCodec .wrap).outputs start cs
    images.length = 1 ∧ ∃ n t,
      (painting .wrap).final {} ([.onFrame greyPicture.toVideoFrame] ++
        (List.replicate n [.gui, .decoder]).flatten) = some t ∧
      (painting .wrap).outputs t [.paintEvent, .gui, .gui] =
        [.drew (images.getLast?.map FrameImage.shown)] := by
  obtain ⟨image, himage⟩ := exists_greyImage
  obtain ⟨hframes, s, hs⟩ := grey_run ⟨List.replicate 1600 0, List.length_replicate ..⟩
  generalize greyPicture.toVideoFrame = f at himage hframes ⊢
  intro p cs start images
  have henter := step_onFrame .wrap (s := {}) rfl (fill_eq himage).1
  have hcalls : framesEntered ((painting .wrap).outputs {} [.onFrame f]) = [f] := by
    rw [Machine.outputs_cons henter]
    rfl
  obtain ⟨q, hq⟩ : ∃ q, (painting .wrap).final {} [.onFrame f] = some q :=
    ⟨_, Machine.final_cons (congrArg Prod.fst henter) []⟩
  have hlength : images.length = 1 := by
    rw [length_images (map_onFrame_handedOver hs), hframes]
    rfl
  refine ⟨hlength, q.stepsLeft, ?_⟩
  refine screen_settles .little greyCodec .wrap _ _ hs _ ?_ (hcalls.trans hframes.symm) hq
    _ ?_ ?_
  · intro g hg
    rw [hframes]
    simpa using hg
  · intro round hround step
    rw [List.eq_of_mem_replicate hround]
    cases step <;> simp
  · rw [List.length_replicate]

end NaiveStreaming
