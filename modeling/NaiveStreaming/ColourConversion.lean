import NaiveStreaming.FrameDisplay

/-!
# The range of the colours

`yuv_to_rgb` rounds three linear combinations of the samples and casts them to bytes, without a
look at their range.  The coefficients are such that saturated chroma leaves it, at either end.
-/

namespace NaiveStreaming
open Loop

theorem roundDiv_neg (n : ℤ) {d : ℤ} (hd : 0 < d) : roundDiv (-n) d = -roundDiv n d := by
  rcases lt_trichotomy n 0 with hneg | rfl | hpos
  · rw [roundDiv, roundDiv, if_pos (by omega), if_neg (by omega), ← Int.neg_tdiv]
    congr 1
    ring
  · have hzero : d.tdiv (2 * d) = 0 := by
      rw [Int.tdiv_eq_ediv_of_nonneg hd.le, Int.ediv_eq_zero_of_lt hd.le (by omega)]
    simp [roundDiv, hzero]
  · rw [roundDiv, roundDiv, if_neg (by omega), if_pos (by omega), ← Int.neg_tdiv]
    congr 1
    ring

theorem roundDiv_of_nonneg {n d : ℤ} (hn : 0 ≤ n) (hd : 0 < d) :
    roundDiv n d = (2 * n + d) / (2 * d) := by
  rw [roundDiv, if_pos hn, Int.tdiv_eq_ediv_of_nonneg (by omega)]

theorem roundDiv_nonneg {n d : ℤ} (hn : 0 ≤ n) (hd : 0 < d) : 0 ≤ roundDiv n d := by
  rw [roundDiv_of_nonneg hn hd]
  exact Int.ediv_nonneg (by omega) (by omega)

/-- **Rounding keeps the order.** -/
theorem roundDiv_mono {n n' d : ℤ} (hd : 0 < d) (h : n ≤ n') : roundDiv n d ≤ roundDiv n' d := by
  have hpos : ∀ {a b : ℤ}, 0 ≤ a → a ≤ b → roundDiv a d ≤ roundDiv b d := by
    intro a b ha hab
    rw [roundDiv_of_nonneg ha hd, roundDiv_of_nonneg (ha.trans hab) hd]
    exact Int.ediv_le_ediv (by omega) (by omega)
  rcases le_total 0 n with hn | hn
  · exact hpos hn h
  · -- A negative fraction is the opposite of one that is not.
    have hneg : ∀ a, roundDiv a d = -roundDiv (-a) d := by
      intro a
      rw [roundDiv_neg _ hd, Int.neg_neg]
    rcases le_total 0 n' with hn' | hn'
    · have hle : 0 ≤ roundDiv (-n) d := roundDiv_nonneg (by omega) hd
      have hge : 0 ≤ roundDiv n' d := roundDiv_nonneg hn' hd
      rw [hneg n]
      omega
    · rw [hneg n, hneg n']
      exact Int.neg_le_neg (hpos (by omega) (by omega))

/-- **The fractions that round into `0..m`** lie between minus one half and `m` and a half, both
excluded. -/
theorem roundDiv_mem_iff {n d m : ℤ} (hd : 0 < d) (hm : 0 ≤ m) :
    (0 ≤ roundDiv n d ∧ roundDiv n d ≤ m) ↔ (-d < 2 * n ∧ 2 * n < (2 * m + 1) * d) := by
  have hmd : 0 ≤ m * d := Int.mul_nonneg hm hd.le
  have hbound : (2 * m + 1) * d = 2 * (m * d) + d := by ring
  rcases le_total 0 n with hn | hn
  · have hle : roundDiv n d ≤ m ↔ 2 * n < (2 * m + 1) * d := by
      have hsucc : (m + 1) * (2 * d) = 2 * (m * d) + 2 * d := by ring
      rw [roundDiv_of_nonneg hn hd, ← Int.lt_add_one_iff, Int.ediv_lt_iff_lt_mul (by omega),
        hsucc, hbound]
      omega
    rw [hle, and_iff_right (roundDiv_nonneg hn hd), and_iff_right (by omega)]
  · have hneg : roundDiv n d = -((2 * -n + d) / (2 * d)) := by
      rw [← roundDiv_of_nonneg (by omega) hd, roundDiv_neg _ hd, Int.neg_neg]
    have hquot : 0 ≤ (2 * -n + d) / (2 * d) := Int.ediv_nonneg (by omega) (by omega)
    have hle : 0 ≤ roundDiv n d ↔ -d < 2 * n := by
      have hone : (2 * -n + d) / (2 * d) < 1 ↔ 2 * -n + d < 1 * (2 * d) :=
        Int.ediv_lt_iff_lt_mul (by omega)
      rw [hneg]
      omega
    rw [hle, and_congr_right_iff]
    intro _
    rw [hneg, hbound]
    omega

/-! ## The colour of a pixel -/

/-- A fraction of one hundred thousandth parts, more than minus one half and less than 255 and a
half. -/
def RoundsToByte (n : ℤ) : Prop := -50000 < n ∧ n < 25550000

/-- The samples of which the exact red, green and blue values round to bytes. -/
structure InGamut (Y U V : UInt8) : Prop where
  red : RoundsToByte (100000 * sample Y + 113983 * (sample V - 128))
  green : RoundsToByte (100000 * sample Y - 39465 * (sample U - 128) - 58060 * (sample V - 128))
  blue : RoundsToByte (100000 * sample Y + 203211 * (sample U - 128))

/-- A value that is a byte. -/
def ByteRange (v : ℤ) : Prop := 0 ≤ v ∧ v ≤ 255

/-- A colour whose bytes are the rounded values, which are in their range. -/
structure RGB.Preserves (colour : RGB) (Y U V : UInt8) : Prop where
  red : ByteRange (rounded Y U V).1 ∧ (colour.r.toNat : ℤ) = (rounded Y U V).1
  green : ByteRange (rounded Y U V).2.1 ∧ (colour.g.toNat : ℤ) = (rounded Y U V).2.1
  blue : ByteRange (rounded Y U V).2.2 ∧ (colour.b.toNat : ℤ) = (rounded Y U V).2.2

theorem byteRange_roundDiv_iff (n : ℤ) : ByteRange (roundDiv n 100000) ↔ RoundsToByte n := by
  rw [ByteRange, roundDiv_mem_iff (by decide) (by decide), RoundsToByte]
  omega

/-- **The samples that are converted without loss**: the values that are cast are bytes exactly
for samples of the gamut, and then the cast preserves them. -/
theorem preserves_yuvToRgb_iff (c : ByteCast) (Y U V : UInt8) :
    (yuvToRgb c Y U V).Preserves Y U V ↔ InGamut Y U V := by
  constructor
  · intro h
    exact ⟨(byteRange_roundDiv_iff _).mp h.red.1, (byteRange_roundDiv_iff _).mp h.green.1,
      (byteRange_roundDiv_iff _).mp h.blue.1⟩
  · intro h
    have hcast : ∀ n, RoundsToByte n → ByteRange (roundDiv n 100000) ∧
        ((c.cast (roundDiv n 100000)).toNat : ℤ) = roundDiv n 100000 := by
      intro n hn
      have hrange := (byteRange_roundDiv_iff n).mpr hn
      exact ⟨hrange, c.toNat_cast _ hrange.1 hrange.2⟩
    exact ⟨hcast _ h.red, hcast _ h.green, hcast _ h.blue⟩

/-- The rounded values grow with the luma. -/
theorem rounded_mono {Y Y' : UInt8} (h : Y ≤ Y') (U V : UInt8) :
    (rounded Y U V).1 ≤ (rounded Y' U V).1 ∧ (rounded Y U V).2.1 ≤ (rounded Y' U V).2.1 ∧
      (rounded Y U V).2.2 ≤ (rounded Y' U V).2.2 := by
  have hsample : sample Y ≤ sample Y' := by exact_mod_cast UInt8.le_iff_toNat_le.mp h
  refine ⟨?_, ?_, ?_⟩ <;> refine roundDiv_mono (by decide) ?_ <;> omega

/-- **A larger luma never yields a smaller byte**, where both colours are preserved. -/
theorem RGB.Preserves.mono {colour colour' : RGB} {Y Y' U V : UInt8}
    (h : colour.Preserves Y U V) (h' : colour'.Preserves Y' U V) (hY : Y ≤ Y') :
    colour.r ≤ colour'.r ∧ colour.g ≤ colour'.g ∧ colour.b ≤ colour'.b := by
  obtain ⟨hred, hgreen, hblue⟩ := rounded_mono hY U V
  simp only [UInt8.le_iff_toNat_le]
  rw [← h.red.2, ← h'.red.2] at hred
  rw [← h.green.2, ← h'.green.2] at hgreen
  rw [← h.blue.2, ← h'.blue.2] at hblue
  exact ⟨by exact_mod_cast hred, by exact_mod_cast hgreen, by exact_mod_cast hblue⟩

/-- The samples that a turn read. -/
def PixelStep.Samples (step : PixelStep) (Y_plane U_plane V_plane : List UInt8)
    (Y U V : UInt8) : Prop :=
  Y_plane[step.readY]? = some Y ∧ U_plane[step.readU]? = some U ∧ V_plane[step.readV]? = some V

/-- The casts of all pixels of an image are defined, and for the same chroma a larger luma has no
smaller byte. -/
structure FrameImage.ColoursInRange (image : FrameImage) (Y_plane U_plane V_plane : List UInt8) :
    Prop where
  preserved : ∀ step ∈ image.steps, ∀ Y U V, step.Samples Y_plane U_plane V_plane Y U V →
    step.colour.Preserves Y U V
  monotone : ∀ s ∈ image.steps, ∀ t ∈ image.steps, ∀ Y Y' U V,
    s.Samples Y_plane U_plane V_plane Y U V → t.Samples Y_plane U_plane V_plane Y' U V →
      Y ≤ Y' → s.colour.r ≤ t.colour.r ∧ s.colour.g ≤ t.colour.g ∧ s.colour.b ≤ t.colour.b

/-- The samples of every pixel of the frame are in the gamut. -/
def VideoFrame.AllInGamut (f : VideoFrame) (Y_plane U_plane V_plane : List UInt8) : Prop :=
  ∀ x < f.width.toNat, ∀ y < f.height.toNat, ∀ Y U V,
    Y_plane[y * f.width.toNat + x]? = some Y →
    U_plane[(y * f.width.toNat + x) / 2]? = some U →
    V_plane[(y * f.width.toNat + x) / 2]? = some V → InGamut Y U V

theorem colour_of_samples {c : ByteCast} {width : ℕ} {Y_plane U_plane V_plane : List UInt8}
    {p : ℕ × ℕ} {step : PixelStep} (h : pixelStep c width Y_plane U_plane V_plane p = some step)
    {Y U V : UInt8} (hsamples : step.Samples Y_plane U_plane V_plane Y U V) :
    step.colour = yuvToRgb c Y U V := by
  obtain ⟨Y', U', V', hY', hU', hV', hcolour⟩ := pixelStep_samples h
  obtain ⟨hY, hU, hV⟩ := hsamples
  rw [hY] at hY'
  rw [hU] at hU'
  rw [hV] at hV'
  cases hY'
  cases hU'
  cases hV'
  exact hcolour

/-- **The frames whose colours stay in the byte range**: those whose pixels are all in the
gamut. -/
theorem coloursInRange_iff {c : ByteCast} {f : VideoFrame} {Y_plane U_plane V_plane : List UInt8}
    {image : FrameImage} (hY : f.plane0 = some Y_plane) (hU : f.plane1 = some U_plane)
    (hV : f.plane2 = some V_plane) (h : onFrame c f = some image) :
    image.ColoursInRange Y_plane U_plane V_plane ↔ f.AllInGamut Y_plane U_plane V_plane := by
  obtain ⟨-, -, -, hturns, -⟩ := onFrame_eq_some hY hU hV h
  constructor
  · intro hrange x hx y hy Y U V hsY hsU hsV
    obtain ⟨step, hmem, hturn⟩ := exists_turn hturns (mem_pixels.mpr ⟨hx, hy⟩)
    obtain ⟨hpixel, hoffset, hreadY, hreadU, hreadV⟩ := pixelStep_eq_some hturn
    obtain ⟨rfl, rfl⟩ := Prod.mk.inj hpixel
    have hsamples : step.Samples Y_plane U_plane V_plane Y U V := by
      rw [PixelStep.Samples, hreadY, hreadU, hreadV, hoffset]
      exact ⟨hsY, hsU, hsV⟩
    have hkept := hrange.preserved step hmem Y U V hsamples
    rwa [colour_of_samples hturn hsamples, preserves_yuvToRgb_iff] at hkept
  · intro hgamut
    have hpreserved : ∀ step ∈ image.steps, ∀ Y U V,
        step.Samples Y_plane U_plane V_plane Y U V → step.colour.Preserves Y U V := by
      intro step hmem Y U V hsamples
      obtain ⟨p, hp, hturn⟩ := exists_source hturns hmem
      obtain ⟨hpixel, hoffset, hreadY, hreadU, hreadV⟩ := pixelStep_eq_some hturn
      obtain ⟨hx, hy⟩ := mem_pixels.mp (hpixel ▸ hp)
      rw [colour_of_samples hturn hsamples, preserves_yuvToRgb_iff]
      rw [PixelStep.Samples, hreadY, hreadU, hreadV, hoffset] at hsamples
      exact hgamut step.x hx step.y hy Y U V hsamples.1 hsamples.2.1 hsamples.2.2
    refine ⟨hpreserved, ?_⟩
    intro s hs t ht Y Y' U V hsamples hsamples' hle
    exact (hpreserved s hs Y U V hsamples).mono (hpreserved t ht Y' U V hsamples') hle

/-- Two pixels without colour. -/
theorem coloursInRange_iff_grey :
    let f : VideoFrame := ⟨.yuv422Planar, 2, 1, some [16, 235], some [128], some [128]⟩
    ((onFrame .wrap f).getD ⟨0, 0, [], []⟩).ColoursInRange [16, 235] [128] [128] ↔
      f.AllInGamut [16, 235] [128] [128] :=
  coloursInRange_iff rfl rfl rfl rfl

/-- Two bright pixels of saturated red: the red value that is cast is 400. -/
theorem saturated_red_out_of_range :
    let f : VideoFrame := ⟨.yuv422Planar, 2, 1, some [255, 255], some [128], some [255]⟩
    ∃ image, onFrame .wrap f = some image ∧ ¬ image.ColoursInRange [255, 255] [128] [255] := by
  refine ⟨_, rfl, ?_⟩
  intro h
  have hred := (h.preserved _ (List.mem_cons_self ..) 255 128 255 ⟨rfl, rfl, rfl⟩).red.1.2
  exact absurd hred (by decide)

end NaiveStreaming
