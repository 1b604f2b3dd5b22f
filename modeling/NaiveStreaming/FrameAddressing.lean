import NaiveStreaming.FrameDisplay

/-!
# Planar 4:2:2

In a planar 4:2:2 frame two neighbours in a row share their chroma samples, so the chroma planes
have half the columns.  `MainWindow::on_frame` has one offset for each pixel, and reads the
chroma at half of it.
-/

namespace NaiveStreaming
open Loop Raster

/-- The image of a frame of `width` columns and `height` rows in tightly packed planes. -/
structure FrameImage.Planar422 (image : FrameImage) (c : ByteCast) (width height : ℕ)
    (Y_plane U_plane V_plane : List UInt8) : Prop where
  /-- Every pixel has one turn. -/
  turns : image.steps.map (fun step => (step.x, step.y)) = pixels width height
  /-- A pixel takes its luma from its own place, and its chroma from its row and half its
  column. -/
  reads : ∀ step ∈ image.steps, step.readY = step.y * width + step.x ∧
    step.readU = step.y * (width / 2) + step.x / 2 ∧
    step.readV = step.y * (width / 2) + step.x / 2
  /-- All reads are inside the planes. -/
  inside : ∀ step ∈ image.steps, step.readY < Y_plane.length ∧ step.readU < U_plane.length ∧
    step.readV < V_plane.length
  /-- Two pixels share their chroma samples exactly when they are the columns `2k` and `2k + 1`
  of a row. -/
  shared : ∀ s ∈ image.steps, ∀ t ∈ image.steps,
    (s.readU = t.readU ↔ s.y = t.y ∧ s.x / 2 = t.x / 2) ∧
    (s.readV = t.readV ↔ s.y = t.y ∧ s.x / 2 = t.x / 2)
  /-- Every byte of the image is stored to once. -/
  once : ((image.steps.flatMap PixelStep.stores).map Prod.fst).Perm
    (List.range (4 * width * height))
  length : image.data.length = 4 * width * height
  /-- The four bytes of a pixel are blue, green, red and alpha. -/
  bytes : ∀ x < width, ∀ y < height, ∃ Y U V, Y_plane[y * width + x]? = some Y ∧
    U_plane[y * (width / 2) + x / 2]? = some U ∧ V_plane[y * (width / 2) + x / 2]? = some V ∧
    (image.data.drop (4 * (y * width + x))).take 4 =
      [(yuvToRgb c Y U V).b, (yuvToRgb c Y U V).g, (yuvToRgb c Y U V).r, 255]

/-- Half the offset of a pixel is the offset of its chroma samples. -/
theorem half_offset {width : ℕ} (heven : Even width) (x y : ℕ) :
    (y * width + x) / 2 = y * (width / 2) + x / 2 := by
  obtain ⟨half, rfl⟩ := heven
  have hhalf : (half + half) / 2 = half := by omega
  have hrow : y * (half + half) = y * half * 2 := by ring
  rw [hhalf, hrow, Nat.add_comm, Nat.add_mul_div_right _ _ (by decide), Nat.add_comm]

theorem half_column_lt {width x : ℕ} (heven : Even width) (hx : x < width) :
    x / 2 < width / 2 := by
  obtain ⟨half, rfl⟩ := heven
  omega

theorem foldlM_storeByte {buffer data : List UInt8} {stores : List (ℕ × UInt8)}
    (h : stores.foldlM storeByte buffer = some data) : data = stored buffer stores := by
  induction stores generalizing buffer with
  | nil => exact (Option.some.inj h).symm
  | cons store stores ih =>
      rw [List.foldlM_cons, Option.bind_eq_bind, Option.bind_eq_some_iff] at h
      obtain ⟨next, hstore, hrest⟩ := h
      rw [storeByte, Option.ite_none_right_eq_some] at hstore
      rw [ih hrest, stored_cons, ← Option.some.inj hstore.2]

/-- **The stores of turns** at all offsets up to `n` cover the bytes up to `4 * n`, each once. -/
theorem stores_perm {steps : List PixelStep} {n : ℕ}
    (h : (steps.map PixelStep.offset).Perm (List.range n)) :
    ((steps.flatMap PixelStep.stores).map Prod.fst).Perm (List.range (n * 4)) := by
  have hindices : (steps.flatMap PixelStep.stores).map Prod.fst =
      (steps.map PixelStep.offset).flatMap
        fun offset => [offset * 4 + 3, offset * 4 + 2, offset * 4 + 1, offset * 4 + 0] := by
    rw [List.map_flatMap, List.flatMap_map]
    rfl
  rw [hindices]
  refine blocks_perm h fun offset => ?_
  exact (List.reverse_perm ((List.range 4).map (offset * 4 + ·)))

section
variable {c : ByteCast} {width : ℕ} {Y_plane U_plane V_plane : List UInt8}
  {ps : List (ℕ × ℕ)} {steps : List PixelStep}

/-- The turns are those of the pixels, in order. -/
theorem pixels_of_turns (h : List.Forall₂ (fun p step =>
      pixelStep c width Y_plane U_plane V_plane p = some step) ps steps) :
    steps.map (fun step => (step.x, step.y)) = ps := by
  induction h with
  | nil => rfl
  | cons hturn _ ih => rw [List.map_cons, ih, (pixelStep_eq_some hturn).1]

theorem offsets_of_turns (h : List.Forall₂ (fun p step =>
      pixelStep c width Y_plane U_plane V_plane p = some step) ps steps) :
    steps.map PixelStep.offset = ps.map fun p => p.2 * width + p.1 := by
  induction h with
  | nil => rfl
  | cons hturn _ ih =>
      obtain ⟨hpixel, hoffset, -⟩ := pixelStep_eq_some hturn
      rw [List.map_cons, List.map_cons, ih, ← hpixel, hoffset]

theorem bounds_of_turn {height : ℕ} (h : List.Forall₂ (fun p step =>
      pixelStep c width Y_plane U_plane V_plane p = some step) (pixels width height) steps)
    {step : PixelStep} (hmem : step ∈ steps) : step.x < width ∧ step.y < height := by
  obtain ⟨p, hp, hturn⟩ := exists_source h hmem
  exact mem_pixels.mp ((pixelStep_eq_some hturn).1 ▸ hp)

/-- A turn reads the luma of its pixel, and the chroma of its row and half its column. -/
theorem reads_of_turn (heven : Even width) (h : List.Forall₂ (fun p step =>
      pixelStep c width Y_plane U_plane V_plane p = some step) ps steps)
    {step : PixelStep} (hmem : step ∈ steps) : step.readY = step.y * width + step.x ∧
      step.readU = step.y * (width / 2) + step.x / 2 ∧
      step.readV = step.y * (width / 2) + step.x / 2 := by
  obtain ⟨p, -, hturn⟩ := exists_source h hmem
  obtain ⟨-, hoffset, hreadY, hreadU, hreadV⟩ := pixelStep_eq_some hturn
  rw [hreadY, hreadU, hreadV, hoffset, half_offset heven]
  exact ⟨rfl, rfl, rfl⟩

theorem inside_of_turn (h : List.Forall₂ (fun p step =>
      pixelStep c width Y_plane U_plane V_plane p = some step) ps steps)
    {step : PixelStep} (hmem : step ∈ steps) : step.readY < Y_plane.length ∧
      step.readU < U_plane.length ∧ step.readV < V_plane.length := by
  obtain ⟨p, -, hturn⟩ := exists_source h hmem
  obtain ⟨Y, U, V, hsY, hsU, hsV, -⟩ := pixelStep_samples hturn
  exact ⟨(List.getElem?_eq_some_iff.mp hsY).1, (List.getElem?_eq_some_iff.mp hsU).1,
    (List.getElem?_eq_some_iff.mp hsV).1⟩

/-- Two turns read the same chroma exactly when they are about neighbours. -/
theorem shared_of_turns {height : ℕ} (heven : Even width) (h : List.Forall₂ (fun p step =>
      pixelStep c width Y_plane U_plane V_plane p = some step) (pixels width height) steps)
    {s t : PixelStep} (hs : s ∈ steps) (ht : t ∈ steps) :
    (s.readU = t.readU ↔ s.y = t.y ∧ s.x / 2 = t.x / 2) ∧
      (s.readV = t.readV ↔ s.y = t.y ∧ s.x / 2 = t.x / 2) := by
  obtain ⟨-, hsU, hsV⟩ := reads_of_turn heven h hs
  obtain ⟨-, htU, htV⟩ := reads_of_turn heven h ht
  have hchroma : s.y * (width / 2) + s.x / 2 = t.y * (width / 2) + t.x / 2 ↔
      s.y = t.y ∧ s.x / 2 = t.x / 2 :=
    rowMajor_inj (half_column_lt heven (bounds_of_turn h hs).1)
      (half_column_lt heven (bounds_of_turn h ht).1)
  rw [hsU, htU, hsV, htV, hchroma]
  exact ⟨Iff.rfl, Iff.rfl⟩

end

/-! ## Planar frames -/

section
variable {c : ByteCast} {f : VideoFrame} {width height : ℕ} {Y_plane U_plane V_plane : List UInt8}
  {image : FrameImage}

theorem exists_planar422 (hformat : f.pixelFormat = .yuv422Planar) (hwidth : f.width = width)
    (hheight : f.height = height) (heven : Even width) (hsize : 4 * width * height < 2 ^ 31)
    (hY : f.plane0 = some Y_plane) (hU : f.plane1 = some U_plane) (hV : f.plane2 = some V_plane)
    (hlenY : Y_plane.length = width * height) (hlenU : U_plane.length = width / 2 * height)
    (hlenV : V_plane.length = width / 2 * height) : ∃ image, onFrame c f = some image := by
  have hdisp : f.Displayable := by
    refine ⟨hformat, by omega, by omega, ?_⟩
    rw [hwidth, hheight]
    have hbytes : width * height * 4 = 4 * width * height := by ring
    exact_mod_cast hbytes ▸ hsize
  refine exists_onFrame hY hU hV hdisp ?_
  rw [hwidth, hheight, Int.toNat_natCast, Int.toNat_natCast, hlenY, hlenU, hlenV]
  intro x hx y hy
  rw [half_offset heven]
  have hchroma := rowMajor_lt (half_column_lt heven hx) hy
  exact ⟨rowMajor_lt hx hy, hchroma, hchroma⟩

theorem stores_once (hY : f.plane0 = some Y_plane) (hU : f.plane1 = some U_plane)
    (hV : f.plane2 = some V_plane) (h : onFrame c f = some image) :
    ((image.steps.flatMap PixelStep.stores).map Prod.fst).Perm
      (List.range (f.width.toNat * f.height.toNat * 4)) := by
  obtain ⟨-, -, -, hturns, -⟩ := onFrame_eq_some hY hU hV h
  exact stores_perm (offsets_of_turns hturns ▸ rowMajor_perm f.width.toNat f.height.toNat)

theorem length_data (hY : f.plane0 = some Y_plane) (hU : f.plane1 = some U_plane)
    (hV : f.plane2 = some V_plane) (h : onFrame c f = some image) :
    image.data.length = f.width.toNat * f.height.toNat * 4 := by
  obtain ⟨-, -, -, -, hdata⟩ := onFrame_eq_some hY hU hV h
  rw [foldlM_storeByte hdata, length_stored, List.length_replicate]

theorem bytes_of_turn (hY : f.plane0 = some Y_plane) (hU : f.plane1 = some U_plane)
    (hV : f.plane2 = some V_plane) (h : onFrame c f = some image) {step : PixelStep}
    (hmem : step ∈ image.steps) : (image.data.drop (step.offset * 4)).take 4 =
      [step.colour.b, step.colour.g, step.colour.r, 255] := by
  obtain ⟨-, -, -, -, hdata⟩ := onFrame_eq_some hY hU hV h
  have honce := stores_once hY hU hV h
  have hnodup := honce.nodup_iff.mpr List.nodup_range
  have hstore : ∀ store ∈ step.stores, image.data[store.1]? = some store.2 := by
    intro store hin
    have hall : store ∈ image.steps.flatMap PixelStep.stores :=
      List.mem_flatMap.mpr ⟨step, hmem, hin⟩
    have hlt := List.mem_range.mp (honce.mem_iff.mp (List.mem_map_of_mem hall))
    rw [foldlM_storeByte hdata]
    exact getElem?_stored_of_mem hnodup hall (by rwa [List.length_replicate])
  refine take_drop_eq [step.colour.b, step.colour.g, step.colour.r, 255] ?_
  intro j hj
  match j, hj with
  | 0, _ => exact hstore (step.offset * 4 + 0, step.colour.b) (by simp [PixelStep.stores])
  | 1, _ => exact hstore (step.offset * 4 + 1, step.colour.g) (by simp [PixelStep.stores])
  | 2, _ => exact hstore (step.offset * 4 + 2, step.colour.r) (by simp [PixelStep.stores])
  | 3, _ => exact hstore (step.offset * 4 + 3, 255) (by simp [PixelStep.stores])

/-- The bytes of a pixel are the colour of the samples that its turn reads. -/
theorem bytes_of_pixel (hY : f.plane0 = some Y_plane) (hU : f.plane1 = some U_plane)
    (hV : f.plane2 = some V_plane) (h : onFrame c f = some image) {x y : ℕ}
    (hx : x < f.width.toNat) (hy : y < f.height.toNat) :
    ∃ step ∈ image.steps, step.x = x ∧ step.y = y ∧ ∃ Y U V, Y_plane[step.readY]? = some Y ∧
      U_plane[step.readU]? = some U ∧ V_plane[step.readV]? = some V ∧
      (image.data.drop (4 * (y * f.width.toNat + x))).take 4 =
        [(yuvToRgb c Y U V).b, (yuvToRgb c Y U V).g, (yuvToRgb c Y U V).r, 255] := by
  obtain ⟨-, -, -, hturns, -⟩ := onFrame_eq_some hY hU hV h
  obtain ⟨step, hmem, hturn⟩ := exists_turn hturns (mem_pixels.mpr ⟨hx, hy⟩)
  obtain ⟨hxy, hoffset, -⟩ := pixelStep_eq_some hturn
  obtain ⟨rfl, rfl⟩ := Prod.mk.inj hxy
  obtain ⟨Y, U, V, hsY, hsU, hsV, hcolour⟩ := pixelStep_samples hturn
  refine ⟨step, hmem, rfl, rfl, Y, U, V, hsY, hsU, hsV, ?_⟩
  rw [← hcolour, ← hoffset, Nat.mul_comm]
  exact bytes_of_turn hY hU hV h hmem

/-- **Planar 4:2:2 addressing.**  A frame of an even width in tightly packed planes has an image:
every pixel is computed from its own luma and the chroma it shares with one neighbour, by reads
inside the planes, and every byte of the image is stored to once. -/
theorem onFrame_planar422 (c : ByteCast) (hformat : f.pixelFormat = .yuv422Planar)
    (hwidth : f.width = width) (hheight : f.height = height) (heven : Even width)
    (hsize : 4 * width * height < 2 ^ 31) (hY : f.plane0 = some Y_plane)
    (hU : f.plane1 = some U_plane) (hV : f.plane2 = some V_plane)
    (hlenY : Y_plane.length = width * height) (hlenU : U_plane.length = width / 2 * height)
    (hlenV : V_plane.length = width / 2 * height) :
    ∃ image, onFrame c f = some image ∧ image.width = width ∧ image.height = height ∧
      image.Planar422 c width height Y_plane U_plane V_plane := by
  obtain ⟨image, himage⟩ := exists_planar422 (c := c) hformat hwidth hheight heven hsize hY hU hV
    hlenY hlenU hlenV
  obtain ⟨hiw, hih, -, hturns, -⟩ := onFrame_eq_some hY hU hV himage
  have hw : f.width.toNat = width := by omega
  have hh : f.height.toNat = height := by omega
  have hbytes : f.width.toNat * f.height.toNat * 4 = 4 * width * height := by
    rw [hw, hh]
    ring
  rw [hw, hh] at hturns
  refine ⟨image, himage, hiw.trans hwidth, hih.trans hheight, ?_⟩
  exact
    { turns := pixels_of_turns hturns
      reads := fun step hmem => reads_of_turn heven hturns hmem
      inside := fun step hmem => inside_of_turn hturns hmem
      shared := fun s hs t ht => shared_of_turns heven hturns hs ht
      once := hbytes ▸ stores_once hY hU hV himage
      length := hbytes ▸ length_data hY hU hV himage
      bytes := by
        intro x hx y hy
        obtain ⟨step, hmem, rfl, rfl, Y, U, V, hsY, hsU, hsV, hpixel⟩ :=
          bytes_of_pixel hY hU hV himage (hw ▸ hx) (hh ▸ hy)
        obtain ⟨hreadY, hreadU, hreadV⟩ := reads_of_turn heven hturns hmem
        rw [hw] at hpixel
        exact ⟨Y, U, V, hreadY ▸ hsY, hreadU ▸ hsU, hreadV ▸ hsV, hpixel⟩ }

end

/-- A frame of one row and two columns. -/
theorem onFrame_planar422_pair :
    let f : VideoFrame := ⟨.yuv422Planar, 2, 1, some [16, 235], some [90], some [240]⟩
    ∃ image, onFrame .wrap f = some image ∧ image.width = (2 : ℕ) ∧ image.height = (1 : ℕ) ∧
      image.Planar422 .wrap 2 1 [16, 235] [90] [240] :=
  onFrame_planar422 .wrap rfl rfl rfl (by decide) (by decide) rfl rfl rfl rfl rfl rfl

end NaiveStreaming
