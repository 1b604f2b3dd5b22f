import NaiveStreaming.Decoder
import NaiveStreaming.FrameAddressing

/-!
# Decoded pictures on the screen

`decode_packet_impl` hands a decoded picture to `on_frame` as a `VideoFrame`, which has no strides,
and whose size is not the picture's own but 1280 by 720.  So `on_frame` finds the samples of a
pixel where they are exactly for the pictures of one geometry.
-/

namespace NaiveStreaming
open Loop Raster

/-- A decoded picture that passes the decoder's assertions: each plane has `height` lines of its
stride, and a line has room for the samples of a row. -/
structure AVFrame.WellFormed (frame : AVFrame) (Y_plane U_plane V_plane : List UInt8) : Prop where
  asserted : frame.Asserted
  data0 : frame.data0 = some Y_plane
  data1 : frame.data1 = some U_plane
  data2 : frame.data2 = some V_plane
  width_pos : 1 ≤ frame.width
  height_pos : 1 ≤ frame.height
  le_linesize0 : frame.width ≤ frame.linesize0
  le_linesize1 : (frame.width + 1) / 2 ≤ frame.linesize1
  le_linesize2 : (frame.width + 1) / 2 ≤ frame.linesize2
  length0 : Y_plane.length = frame.linesize0 * frame.height
  length1 : U_plane.length = frame.linesize1 * frame.height
  length2 : V_plane.length = frame.linesize2 * frame.height

/-- A turn reads the samples of its pixel, by the strides of the picture. -/
def AVFrame.ReadsOwnSamples (frame : AVFrame) (step : PixelStep) : Prop :=
  step.readY = step.y * frame.linesize0 + step.x ∧
  step.readU = step.y * frame.linesize1 + step.x / 2 ∧
  step.readV = step.y * frame.linesize2 + step.x / 2

/-- The image is that of the picture. -/
structure FrameImage.Shows (image : FrameImage) (c : ByteCast) (frame : AVFrame)
    (Y_plane U_plane V_plane : List UInt8) : Prop where
  width : image.width = frame.width
  height : image.height = frame.height
  /-- Every pixel has one turn. -/
  turns : image.steps.map (fun step => (step.x, step.y)) = pixels frame.width frame.height
  reads : ∀ step ∈ image.steps, frame.ReadsOwnSamples step
  inside : ∀ step ∈ image.steps, step.readY < Y_plane.length ∧ step.readU < U_plane.length ∧
    step.readV < V_plane.length
  length : image.data.length = 4 * (frame.width * frame.height)
  /-- The four bytes of a pixel are the colour of its own samples. -/
  bytes : ∀ x < frame.width, ∀ y < frame.height, ∃ Y U V,
    Y_plane[y * frame.linesize0 + x]? = some Y ∧
    U_plane[y * frame.linesize1 + x / 2]? = some U ∧
    V_plane[y * frame.linesize2 + x / 2]? = some V ∧
    (image.data.drop (4 * (y * frame.width + x))).take 4 =
      [(yuvToRgb c Y U V).b, (yuvToRgb c Y U V).g, (yuvToRgb c Y U V).r, 255]

/-- The `VideoFrame` built from a decoded picture gives the image of the picture. -/
def ShownAsDecoded (c : ByteCast) (frame : AVFrame) (Y_plane U_plane V_plane : List UInt8) :
    Prop :=
  ∃ image, onFrame c frame.toVideoFrame = some image ∧
    image.Shows c frame Y_plane U_plane V_plane

/-- The one geometry that `decode_packet_impl` passes on. -/
def AVFrame.Hardcoded (frame : AVFrame) : Prop :=
  frame.width = 1280 ∧ frame.height = 720 ∧
    frame.linesize0 = 1280 ∧ frame.linesize1 = 640 ∧ frame.linesize2 = 640

section
variable {c : ByteCast} {frame : AVFrame} {Y_plane U_plane V_plane : List UInt8}

theorem width_toVideoFrame (frame : AVFrame) : frame.toVideoFrame.width.toNat = 1280 := rfl

theorem height_toVideoFrame (frame : AVFrame) : frame.toVideoFrame.height.toNat = 720 := rfl

/-- A picture that is shown as it was decoded has the hardcoded size, and the first pixel of its
second row gives the strides away. -/
theorem hardcoded_of_shown (h : frame.WellFormed Y_plane U_plane V_plane)
    (hshown : ShownAsDecoded c frame Y_plane U_plane V_plane) : frame.Hardcoded := by
  obtain ⟨image, himage, hshows⟩ := hshown
  obtain ⟨hiw, hih, -, hturns, -⟩ := onFrame_eq_some h.data0 h.data1 h.data2 himage
  have hwidth : frame.width = 1280 := by
    have hcast : (1280 : ℤ) = frame.width := hiw.symm.trans hshows.width
    omega
  have hheight : frame.height = 720 := by
    have hcast : (720 : ℤ) = frame.height := hih.symm.trans hshows.height
    omega
  rw [width_toVideoFrame, height_toVideoFrame] at hturns
  have hpixel : (0, 1) ∈ pixels 1280 720 := mem_pixels.mpr ⟨by omega, by omega⟩
  obtain ⟨step, hmem, hturn⟩ := exists_turn hturns hpixel
  obtain ⟨hxy, hoffset, hY, hU, hV⟩ := pixelStep_eq_some hturn
  obtain ⟨hx, hy⟩ := Prod.mk.inj hxy
  obtain ⟨hY', hU', hV'⟩ := hshows.reads step hmem
  rw [hY, hoffset, hx, hy] at hY'
  rw [hU, hoffset, hx, hy] at hU'
  rw [hV, hoffset, hx, hy] at hV'
  refine ⟨hwidth, hheight, ?_, ?_, ?_⟩ <;> omega

theorem AVFrame.Hardcoded.exists_image (hgeom : frame.Hardcoded)
    (h : frame.WellFormed Y_plane U_plane V_plane) (c : ByteCast) :
    ∃ image, onFrame c frame.toVideoFrame = some image := by
  obtain ⟨-, hh, h0, h1, h2⟩ := hgeom
  have hlen0 := h.length0
  have hlen1 := h.length1
  have hlen2 := h.length2
  rw [h0, hh] at hlen0
  rw [h1, hh] at hlen1
  rw [h2, hh] at hlen2
  have hdisp : frame.toVideoFrame.Displayable := by
    refine ⟨rfl, ?_, ?_, ?_⟩ <;> simp [AVFrame.toVideoFrame]
  refine exists_onFrame h.data0 h.data1 h.data2 hdisp ?_
  rw [width_toVideoFrame, height_toVideoFrame]
  intro x hx y hy
  omega

/-- In the hardcoded geometry the one offset of a pixel is that of its samples in every plane. -/
theorem AVFrame.Hardcoded.readsOwnSamples (hgeom : frame.Hardcoded) {ps : List (ℕ × ℕ)}
    {steps : List PixelStep} (hturns : List.Forall₂ (fun p step =>
      pixelStep c 1280 Y_plane U_plane V_plane p = some step) ps steps) {step : PixelStep}
    (hmem : step ∈ steps) : frame.ReadsOwnSamples step := by
  obtain ⟨-, -, h0, h1, h2⟩ := hgeom
  obtain ⟨p, -, hturn⟩ := exists_source hturns hmem
  obtain ⟨-, hoffset, hY, hU, hV⟩ := pixelStep_eq_some hturn
  rw [AVFrame.ReadsOwnSamples, h0, h1, h2]
  omega

theorem AVFrame.Hardcoded.shown (hgeom : frame.Hardcoded)
    (h : frame.WellFormed Y_plane U_plane V_plane) (c : ByteCast) :
    ShownAsDecoded c frame Y_plane U_plane V_plane := by
  obtain ⟨image, himage⟩ := hgeom.exists_image h c
  obtain ⟨hiw, hih, -, hturns, -⟩ := onFrame_eq_some h.data0 h.data1 h.data2 himage
  have hlength := length_data h.data0 h.data1 h.data2 himage
  rw [width_toVideoFrame, height_toVideoFrame] at hturns hlength
  obtain ⟨hw, hh, -⟩ := id hgeom
  refine ⟨image, himage, ?_⟩
  exact
    { width := by rw [hiw, hw]; rfl
      height := by rw [hih, hh]; rfl
      turns := by rw [pixels_of_turns hturns, hw, hh]
      reads := fun step hmem => hgeom.readsOwnSamples hturns hmem
      inside := fun step hmem => inside_of_turn hturns hmem
      length := by rw [hlength, hw, hh]
      bytes := by
        intro x hx y hy
        rw [hw] at hx
        rw [hh] at hy
        obtain ⟨step, hmem, rfl, rfl, Y, U, V, hsY, hsU, hsV, hpixel⟩ :=
          bytes_of_pixel h.data0 h.data1 h.data2 himage (x := x) hx (y := y) hy
        obtain ⟨hreadY, hreadU, hreadV⟩ := hgeom.readsOwnSamples hturns hmem
        rw [width_toVideoFrame] at hpixel
        refine ⟨Y, U, V, hreadY ▸ hsY, hreadU ▸ hsU, hreadV ▸ hsV, ?_⟩
        rw [hw]
        exact hpixel }

end

/-- **Exactly the pictures of the hardcoded geometry are shown as they were decoded.** -/
theorem shownAsDecoded_iff (c : ByteCast) (frame : AVFrame) {Y_plane U_plane V_plane : List UInt8}
    (h : frame.WellFormed Y_plane U_plane V_plane) :
    ShownAsDecoded c frame Y_plane U_plane V_plane ↔ frame.Hardcoded := by
  constructor
  · intro hshown
    exact hardcoded_of_shown h hshown
  · intro hgeom
    exact hgeom.shown h c

/-- A grey picture of one row and two columns, without padding. -/
def greyPair : AVFrame :=
  { format := .yuv422p
    width := 2
    height := 1
    linesize0 := 2
    linesize1 := 1
    linesize2 := 1
    data0 := some [16, 16]
    data1 := some [128]
    data2 := some [128]
    data3 := none }

theorem wellFormed_greyPair : greyPair.WellFormed [16, 16] [128] [128] :=
  ⟨by decide, rfl, rfl, rfl, by decide, by decide, by decide, by decide, by decide, rfl, rfl, rfl⟩

theorem shownAsDecoded_iff_greyPair :
    ShownAsDecoded .wrap greyPair [16, 16] [128] [128] ↔ greyPair.Hardcoded :=
  shownAsDecoded_iff .wrap greyPair wellFormed_greyPair

/-- Two pixels are shown as an image of 1280 columns, or not at all. -/
theorem greyPair_not_shown : greyPair.WellFormed [16, 16] [128] [128] ∧
    ¬ ShownAsDecoded .wrap greyPair [16, 16] [128] [128] := by
  refine ⟨wellFormed_greyPair, ?_⟩
  intro h
  obtain ⟨image, himage, hshows⟩ := h
  have hshown := (onFrame_eq_some wellFormed_greyPair.data0 wellFormed_greyPair.data1
    wellFormed_greyPair.data2 himage).1
  rw [hshows.width] at hshown
  exact absurd hshown (by decide)

end NaiveStreaming
