import NaiveStreaming.Decoder
import NaiveStreaming.Lib.Loop
import NaiveStreaming.Lib.Raster

/-!
# Displaying a frame

`MainWindow::on_frame` turns the planes of a frame into an ARGB32 image.  The loops run over
the columns and, in each, over the rows; one turn reads a byte of every plane and stores the
four bytes of a pixel.  A read outside a plane, or a store outside the image, has no defined
behaviour, and neither has an `int` that overflows.

The doubles of the colour conversion are read as the decimals they are written as.  The cast of
a value outside `0..255` to `uint8_t` is undefined in the language; `ByteCast` leaves open what
comes of it.
-/

namespace NaiveStreaming
open Loop Raster

/-- `static_cast<uint8_t>` of a rounded double: the values of a byte are preserved. -/
structure ByteCast where
  cast : ℤ → UInt8
  toNat_cast : ∀ v, 0 ≤ v → v ≤ 255 → ((cast v).toNat : ℤ) = v

/-- The cast that keeps the low byte. -/
def ByteCast.wrap : ByteCast where
  cast := UInt8.ofInt
  toNat_cast v hv hv' := by
    rw [UInt8.ofInt, UInt8.toNat_ofNat']
    omega

/-- `round` of the fraction `n / d`: to the nearest integer, halves away from zero. -/
def roundDiv (n d : ℤ) : ℤ := if 0 ≤ n then (2 * n + d).tdiv (2 * d) else (2 * n - d).tdiv (2 * d)

/-- The bytes of a pixel's colour. -/
structure RGB where
  r : UInt8
  g : UInt8
  b : UInt8
  deriving DecidableEq, Repr

/-- A sample as the signed number it is used as. -/
abbrev sample (v : UInt8) : ℤ := v.toNat

/-- The rounded red, green and blue values, before the cast.  For 41 of the 2^24 triples of samples
the doubles of the source give a green that is one lower; in all of these the red is outside
`0..255`. -/
def rounded (Y U V : UInt8) : ℤ × ℤ × ℤ :=
  (roundDiv (100000 * sample Y + 113983 * (sample V - 128)) 100000,
    roundDiv (100000 * sample Y - 39465 * (sample U - 128) - 58060 * (sample V - 128)) 100000,
    roundDiv (100000 * sample Y + 203211 * (sample U - 128)) 100000)

/-- The lambda `yuv_to_rgb`. -/
def yuvToRgb (c : ByteCast) (Y U V : UInt8) : RGB :=
  let (Rd, Gd, Bd) := rounded Y U V
  ⟨c.cast Rd, c.cast Gd, c.cast Bd⟩

/-! ## The loops -/

/-- One turn: the pixel, its offset, the elements read of the three planes, and the colour. -/
structure PixelStep where
  x : ℕ
  y : ℕ
  offset : ℕ
  readY : ℕ
  readU : ℕ
  readV : ℕ
  colour : RGB
  deriving DecidableEq, Repr

/-- The stores of a turn, in order. -/
def PixelStep.stores (step : PixelStep) : List (ℕ × UInt8) :=
  [(step.offset * 4 + 3, 255), (step.offset * 4 + 2, step.colour.r),
    (step.offset * 4 + 1, step.colour.g), (step.offset * 4 + 0, step.colour.b)]

/-- The body of the inner loop, on planes of which these bytes can be read. -/
def pixelStep (c : ByteCast) (width : ℕ) (Y_plane U_plane V_plane : List UInt8) (p : ℕ × ℕ) :
    Option PixelStep :=
  let (x, y) := p
  let offset := y * width + x
  match Y_plane[offset]?, U_plane[offset / 2]?, V_plane[offset / 2]? with
  | some Y, some U, some V =>
    some
      { x := x
        y := y
        offset := offset
        readY := offset
        readU := offset / 2
        readV := offset / 2
        colour := yuvToRgb c Y U V }
  | _, _, _ => none

/-- The pixels in the order of the loops: column by column. -/
def pixels (width height : ℕ) : List (ℕ × ℕ) :=
  (List.range width).product (List.range height)

/-- A store into the image buffer. -/
def storeByte (buffer : List UInt8) (store : ℕ × UInt8) : Option (List UInt8) :=
  if store.1 < buffer.length then some (buffer.set store.1 store.2) else none

/-- The `QImage` over `m_current_frame_data`, and the turns that filled it. -/
structure FrameImage where
  width : ℤ
  height : ℤ
  data : List UInt8
  steps : List PixelStep
  deriving DecidableEq, Repr

/-- The assertions of `on_frame`, and a size for which `f.width * f.height * 4` is the number
of bytes to allocate. -/
def VideoFrame.Displayable (f : VideoFrame) : Prop :=
  f.pixelFormat = .yuv422Planar ∧ 0 ≤ f.width ∧ 0 ≤ f.height ∧ f.width * f.height * 4 < 2 ^ 31

instance : DecidablePred VideoFrame.Displayable := fun f => by
  unfold VideoFrame.Displayable
  infer_instance

/-- `MainWindow::on_frame`.  The image buffer is fresh memory that no plane shares, so the
stores can be carried out after the reads; zeros stand for its contents. -/
def onFrame (c : ByteCast) (f : VideoFrame) : Option FrameImage :=
  match f.plane0, f.plane1, f.plane2 with
  | some Y_plane, some U_plane, some V_plane =>
    if f.Displayable then do
      let width := f.width.toNat
      let height := f.height.toNat
      let steps ← (pixels width height).mapM (pixelStep c width Y_plane U_plane V_plane)
      let data ← (steps.flatMap PixelStep.stores).foldlM storeByte
        (List.replicate (width * height * 4) 0)
      some ⟨f.width, f.height, data, steps⟩
    else none
  | _, _, _ => none

theorem mem_pixels {width height x y : ℕ} :
    (x, y) ∈ pixels width height ↔ x < width ∧ y < height := by
  rw [pixels, List.pair_mem_product, List.mem_range, List.mem_range]

theorem pixelStep_eq_some {c : ByteCast} {width : ℕ} {Y_plane U_plane V_plane : List UInt8}
    {p : ℕ × ℕ} {step : PixelStep} (h : pixelStep c width Y_plane U_plane V_plane p = some step) :
    (step.x, step.y) = p ∧ step.offset = step.y * width + step.x ∧ step.readY = step.offset ∧
      step.readU = step.offset / 2 ∧ step.readV = step.offset / 2 := by
  obtain ⟨x, y⟩ := p
  simp only [pixelStep] at h
  split at h
  · cases h
    exact ⟨rfl, rfl, rfl, rfl, rfl⟩
  · cases h

theorem pixelStep_samples {c : ByteCast} {width : ℕ} {Y_plane U_plane V_plane : List UInt8}
    {p : ℕ × ℕ} {step : PixelStep} (h : pixelStep c width Y_plane U_plane V_plane p = some step) :
    ∃ Y U V, Y_plane[step.readY]? = some Y ∧ U_plane[step.readU]? = some U ∧
      V_plane[step.readV]? = some V ∧ step.colour = yuvToRgb c Y U V := by
  obtain ⟨x, y⟩ := p
  simp only [pixelStep] at h
  split at h
  case h_1 Y U V hY hU hV =>
    cases h
    exact ⟨Y, U, V, hY, hU, hV, rfl⟩
  case h_2 => cases h

/-- A turn is defined when its reads are inside the planes. -/
theorem exists_pixelStep (c : ByteCast) {width x y : ℕ} {Y_plane U_plane V_plane : List UInt8}
    (hY : y * width + x < Y_plane.length) (hU : (y * width + x) / 2 < U_plane.length)
    (hV : (y * width + x) / 2 < V_plane.length) :
    ∃ step, pixelStep c width Y_plane U_plane V_plane (x, y) = some step := by
  simp only [pixelStep, List.getElem?_eq_getElem hY, List.getElem?_eq_getElem hU,
    List.getElem?_eq_getElem hV]
  exact ⟨_, rfl⟩

theorem lt_of_mem_stores {step : PixelStep} {size : ℕ} (h : step.offset < size)
    {store : ℕ × UInt8} (hstore : store ∈ step.stores) : store.1 < size * 4 := by
  simp only [PixelStep.stores, List.mem_cons, List.not_mem_nil, or_false] at hstore
  rcases hstore with rfl | rfl | rfl | rfl <;> simp only <;> omega

theorem exists_stored {steps : List PixelStep} {size : ℕ}
    (h : ∀ step ∈ steps, step.offset < size) {buffer : List UInt8}
    (hlen : buffer.length = size * 4) :
    ∃ data, (steps.flatMap PixelStep.stores).foldlM storeByte buffer = some data := by
  have hstore : ∀ buffer : List UInt8, ∀ store ∈ steps.flatMap PixelStep.stores,
      buffer.length = size * 4 →
        ∃ buffer', storeByte buffer store = some buffer' ∧ buffer'.length = size * 4 := by
    intro buffer store hstore hlen
    obtain ⟨step, hmem, hin⟩ := List.mem_flatMap.mp hstore
    have hlt := lt_of_mem_stores (h step hmem) hin
    refine ⟨buffer.set store.1 store.2, ?_, by rw [List.length_set, hlen]⟩
    rw [storeByte, if_pos (by rw [hlen]; exact hlt)]
  obtain ⟨data, hdata, -⟩ := foldlM_invariant (fun buffer : List UInt8 => buffer.length = size * 4)
    hstore hlen
  exact ⟨data, hdata⟩

theorem exists_turns (c : ByteCast) {width height : ℕ} {Y_plane U_plane V_plane : List UInt8}
    (hreads : ∀ x < width, ∀ y < height, y * width + x < Y_plane.length ∧
      (y * width + x) / 2 < U_plane.length ∧ (y * width + x) / 2 < V_plane.length) :
    ∃ steps, List.Forall₂ (fun p step => pixelStep c width Y_plane U_plane V_plane p = some step)
      (pixels width height) steps := by
  refine exists_results ?_
  intro p hp
  obtain ⟨hx, hy⟩ := mem_pixels.mp hp
  obtain ⟨hYlt, hUlt, hVlt⟩ := hreads p.1 hx p.2 hy
  exact exists_pixelStep c hYlt hUlt hVlt

section
variable {c : ByteCast} {f : VideoFrame} {Y_plane U_plane V_plane : List UInt8}

/-- **An image** has the size of the frame, is made of one turn for each pixel, and holds what the
turns store. -/
theorem onFrame_eq_some {image : FrameImage} (hY : f.plane0 = some Y_plane)
    (hU : f.plane1 = some U_plane) (hV : f.plane2 = some V_plane)
    (h : onFrame c f = some image) :
    image.width = f.width ∧ image.height = f.height ∧ f.Displayable ∧
      List.Forall₂ (fun p step => pixelStep c f.width.toNat Y_plane U_plane V_plane p = some step)
        (pixels f.width.toNat f.height.toNat) image.steps ∧
      (image.steps.flatMap PixelStep.stores).foldlM storeByte
        (List.replicate (f.width.toNat * f.height.toNat * 4) 0) = some image.data := by
  simp only [onFrame, hY, hU, hV] at h
  by_cases hdisp : f.Displayable
  · simp only [hdisp, if_true, Option.bind_eq_bind, Option.bind_eq_some_iff,
      Option.some.injEq] at h
    obtain ⟨steps, hsteps, data, hdata, rfl⟩ := h
    exact ⟨rfl, rfl, hdisp, mapM_eq_some_iff.mp hsteps, hdata⟩
  · simp [hdisp] at h

/-- **A frame whose pixels all lie inside its planes** has an image. -/
theorem exists_onFrame (hY : f.plane0 = some Y_plane) (hU : f.plane1 = some U_plane)
    (hV : f.plane2 = some V_plane) (hdisp : f.Displayable)
    (hreads : ∀ x < f.width.toNat, ∀ y < f.height.toNat,
      y * f.width.toNat + x < Y_plane.length ∧ (y * f.width.toNat + x) / 2 < U_plane.length ∧
        (y * f.width.toNat + x) / 2 < V_plane.length) :
    ∃ image, onFrame c f = some image := by
  obtain ⟨steps, hsteps⟩ := exists_turns c hreads
  have hoffset : ∀ step ∈ steps, step.offset < f.width.toNat * f.height.toNat := by
    intro step hmem
    obtain ⟨p, hp, hturn⟩ := exists_source hsteps hmem
    obtain ⟨hpixel, hoffset, -⟩ := pixelStep_eq_some hturn
    obtain ⟨hx, hy⟩ := mem_pixels.mp (hpixel ▸ hp)
    exact hoffset ▸ rowMajor_lt hx hy
  obtain ⟨data, hdata⟩ := exists_stored hoffset
    (List.length_replicate (n := f.width.toNat * f.height.toNat * 4) (a := 0))
  refine ⟨⟨f.width, f.height, data, steps⟩, ?_⟩
  simp only [onFrame, hY, hU, hV, hdisp, if_true, mapM_eq_some_iff.mpr hsteps,
    Option.bind_eq_bind, Option.bind_some, hdata]

end

end NaiveStreaming
