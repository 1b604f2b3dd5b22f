import Mathlib.Order.Filter.AtTopBot.Basic
import Mathlib.Order.Filter.Finite
import NaiveStreaming.Lib.Loop

/-!
# Enumerating the formats of a capture device

`VideoCaptureImpl::enumerate_formats` asks the device for its pixel formats, for the frame sizes
of each, and for the frame intervals of each discrete size, with an index that it increments
until the request fails.  The sizes and intervals are only logged.  The indices are `__u32`, and
no device has so many entries that one of them wraps.
-/

namespace NaiveStreaming
open Loop Filter

/-- `v4l2_frmsizeenum`, by its type. -/
inductive FrmSize
  | discrete (width height : UInt32)
  | continuous
  | stepwise
  deriving DecidableEq, Repr

/-- The type of a `v4l2_frmivalenum`. -/
inductive FrmIvalType
  | discrete
  | continuous
  | stepwise
  deriving DecidableEq, Repr

/-- The frame intervals of a size: a number of discrete entries, or one entry of another
type. -/
inductive FrmIvals
  | discrete (count : UInt32)
  | continuous
  | stepwise
  deriving DecidableEq, Repr

/-- A device: its pixel formats, the frame sizes of a format, and the frame intervals of a
format and a discrete size. -/
structure V4L2Device where
  formats : List UInt32
  frameSizes : UInt32 → List FrmSize
  frameIntervals : UInt32 → UInt32 → UInt32 → FrmIvals
  formats_lt : formats.length < 2 ^ 32
  frameSizes_lt : ∀ pixelformat, (frameSizes pixelformat).length < 2 ^ 32

namespace V4L2Device

def enumFmt (dev : V4L2Device) (index : UInt32) : Option UInt32 := dev.formats[index.toNat]?

def enumFrameSizes (dev : V4L2Device) (pixelformat index : UInt32) : Option FrmSize :=
  (dev.frameSizes pixelformat)[index.toNat]?

/-- `VIDIOC_ENUM_FRAMEINTERVALS`.  An entry that is not discrete has the index zero. -/
def enumFrameIntervals (dev : V4L2Device) (pixelformat width height index : UInt32) :
    Option FrmIvalType :=
  match dev.frameIntervals pixelformat width height with
  | .discrete count => if index < count then some .discrete else none
  | .continuous => if index = 0 then some .continuous else none
  | .stepwise => if index = 0 then some .stepwise else none

end V4L2Device

/-! ## The loops -/

/-- `Video4LinuxVideoFormat`, with its `Basic` part. -/
structure Video4LinuxVideoFormat where
  width : ℤ
  height : ℤ
  pixelFormat : UInt32
  deriving DecidableEq, Repr

/-- The loop over the frame intervals.  The index is incremented for the discrete type only. -/
def intervalTurn (dev : V4L2Device) (pixelformat width height index : UInt32) :
    Option (UInt32 ⊕ Unit) :=
  match dev.enumFrameIntervals pixelformat width height index with
  | none => some (.inr ())
  | some .discrete => some (.inl (index + 1))
  | some .continuous => some (.inl index)
  | some .stepwise => some (.inl index)

/-- The loop over the frame sizes. -/
def sizeTurn (fuel : ℕ) (dev : V4L2Device) (pixelformat index : UInt32) :
    Option (UInt32 ⊕ Unit) :=
  match dev.enumFrameSizes pixelformat index with
  | none => some (.inr ())
  | some (.discrete width height) =>
    (loop (intervalTurn dev pixelformat width height) fuel 0).map fun _ => .inl (index + 1)
  | some .continuous => some (.inl (index + 1))
  | some .stepwise => some (.inl (index + 1))

def formatSpec (pixelformat : UInt32) : Video4LinuxVideoFormat :=
  { width := 1280, height := 720, pixelFormat := pixelformat }

/-- The loop over the formats. -/
def formatTurn (fuel : ℕ) (dev : V4L2Device) (s : UInt32 × List Video4LinuxVideoFormat) :
    Option ((UInt32 × List Video4LinuxVideoFormat) ⊕ List Video4LinuxVideoFormat) :=
  match dev.enumFmt s.1 with
  | none => some (.inr s.2)
  | some pixelformat =>
    (loop (sizeTurn fuel dev pixelformat) fuel 0).map fun _ =>
      .inl (s.1 + 1, s.2 ++ [formatSpec pixelformat])

/-- `VideoCaptureImpl::enumerate_formats`; nothing when a loop has not ended after `fuel`
turns. -/
def enumerateFormats (fuel : ℕ) (dev : V4L2Device) : Option (List Video4LinuxVideoFormat) :=
  loop (formatTurn fuel dev) fuel (0, [])

/-- The call ends, and returns one spec for each pixel format of the device, in order. -/
def EnumeratesAll (dev : V4L2Device) : Prop :=
  ∃ enough, ∀ fuel ≥ enough, enumerateFormats fuel dev = some (dev.formats.map formatSpec)

/-- The discrete sizes of the format have discrete intervals. -/
def V4L2Device.DiscreteIntervals (dev : V4L2Device) (pixelformat : UInt32) : Prop :=
  ∀ width height, .discrete width height ∈ dev.frameSizes pixelformat →
    ∃ count, dev.frameIntervals pixelformat width height = .discrete count

/-- An index below the number of entries does not wrap. -/
theorem toNat_add_one {index : UInt32} {n : ℕ} (h : index.toNat < n) (hn : n < 2 ^ 32) :
    (index + 1).toNat = index.toNat + 1 := by
  rw [UInt32.toNat_add, UInt32.toNat_one]
  exact Nat.mod_eq_of_lt (by omega)

section
variable {dev : V4L2Device} {pixelformat width height : UInt32}

/-- **Discrete intervals end**, once the fuel exceeds their number. -/
theorem intervals_end {count : UInt32}
    (h : dev.frameIntervals pixelformat width height = .discrete count) {fuel : ℕ}
    (hfuel : count.toNat < fuel) : ∃ result,
      loop (intervalTurn dev pixelformat width height) fuel 0 = some result := by
  have hnext : ∀ index : UInt32, True → index.toNat < count.toNat → ∃ index' : UInt32,
      intervalTurn dev pixelformat width height index = some (.inl index') ∧ True ∧
        index'.toNat = index.toNat + 1 := by
    intro index _ hlt
    refine ⟨index + 1, ?_, trivial, toNat_add_one hlt count.toNat_lt⟩
    simp [intervalTurn, V4L2Device.enumFrameIntervals, h, UInt32.lt_iff_toNat_lt.mpr hlt]
  have hexit : ∀ index : UInt32, True → count.toNat ≤ index.toNat → ∃ result,
      intervalTurn dev pixelformat width height index = some (.inr result) ∧ True := by
    intro index _ hle
    refine ⟨(), ?_, trivial⟩
    have hnot : ¬ index < count := fun hlt => Nat.not_lt.mpr hle (UInt32.lt_iff_toNat_lt.mp hlt)
    simp [intervalTurn, V4L2Device.enumFrameIntervals, h, hnot]
  obtain ⟨result, hresult, -⟩ := counting_ends (fun _ => True) (fun _ => True) UInt32.toNat hnext
    hexit hfuel trivial
  exact ⟨result, hresult⟩

/-- **Continuous and stepwise intervals never end**: the index stays at the one entry. -/
theorem intervals_never_end
    (h : ∀ count, dev.frameIntervals pixelformat width height ≠ .discrete count) (fuel : ℕ) :
    loop (intervalTurn dev pixelformat width height) fuel 0 = none := by
  refine loop_eq_none (· = 0) ?_ fuel 0 rfl
  intro index hindex
  refine .inr ⟨0, ?_, rfl⟩
  subst hindex
  cases hivals : dev.frameIntervals pixelformat width height with
  | discrete count => exact absurd hivals (h count)
  | continuous => simp [intervalTurn, V4L2Device.enumFrameIntervals, hivals]
  | stepwise => simp [intervalTurn, V4L2Device.enumFrameIntervals, hivals]

end

section
variable {dev : V4L2Device} {pixelformat : UInt32}

theorem intervals_all_end (h : dev.DiscreteIntervals pixelformat) : ∀ᶠ fuel in atTop,
    ∀ width height, .discrete width height ∈ dev.frameSizes pixelformat → ∃ result,
      loop (intervalTurn dev pixelformat width height) fuel 0 = some result := by
  have hsizes : ∀ᶠ fuel in atTop, ∀ size ∈ {size | size ∈ dev.frameSizes pixelformat},
      ∀ width height, size = .discrete width height → ∃ result,
        loop (intervalTurn dev pixelformat width height) fuel 0 = some result := by
    rw [eventually_all_finite (List.finite_toSet _)]
    intro size hsize
    cases size with
    | discrete width height =>
        obtain ⟨count, hcount⟩ := h width height hsize
        filter_upwards [eventually_gt_atTop count.toNat] with fuel hfuel width' height' heq
        cases heq
        exact intervals_end hcount hfuel
    | continuous => exact Eventually.of_forall fun _ _ _ heq => by cases heq
    | stepwise => exact Eventually.of_forall fun _ _ _ heq => by cases heq
  filter_upwards [hsizes] with fuel hfuel width height hmem
  exact hfuel _ hmem width height rfl

/-- A turn on a size of the format does not end, because its intervals do not, or goes on with
the next size. -/
theorem sizeTurn_cases (fuel : ℕ) {index : UInt32}
    (h : index.toNat < (dev.frameSizes pixelformat).length) :
    (sizeTurn fuel dev pixelformat index = none ∧
      ∃ width height, .discrete width height ∈ dev.frameSizes pixelformat ∧
        loop (intervalTurn dev pixelformat width height) fuel 0 = none) ∨
      sizeTurn fuel dev pixelformat index = some (.inl (index + 1)) := by
  have hsize : dev.enumFrameSizes pixelformat index
      = some (dev.frameSizes pixelformat)[index.toNat] := List.getElem?_eq_getElem h
  have hmem : (dev.frameSizes pixelformat)[index.toNat] ∈ dev.frameSizes pixelformat :=
    List.getElem_mem h
  rw [sizeTurn, hsize]
  cases heq : (dev.frameSizes pixelformat)[index.toNat] with
  | discrete width height =>
      cases hloop : loop (intervalTurn dev pixelformat width height) fuel 0 with
      | none => exact .inl ⟨by simp [hloop], width, height, heq ▸ hmem, hloop⟩
      | some result => exact .inr (by simp [hloop])
  | continuous => exact .inr rfl
  | stepwise => exact .inr rfl

/-- **The sizes of a format end** when the intervals of all of them do. -/
theorem sizes_end (h : dev.DiscreteIntervals pixelformat) : ∀ᶠ fuel in atTop,
    ∃ result, loop (sizeTurn fuel dev pixelformat) fuel 0 = some result := by
  filter_upwards [intervals_all_end h, eventually_gt_atTop (dev.frameSizes pixelformat).length]
    with fuel hintervals hfuel
  have hnext : ∀ index : UInt32, True → index.toNat < (dev.frameSizes pixelformat).length →
      ∃ index' : UInt32, sizeTurn fuel dev pixelformat index = some (.inl index') ∧ True ∧
        index'.toNat = index.toNat + 1 := by
    intro index _ hlt
    rcases sizeTurn_cases fuel hlt with ⟨-, width, height, hmem, hnone⟩ | hstep
    · obtain ⟨result, hresult⟩ := hintervals width height hmem
      rw [hnone] at hresult
      cases hresult
    · exact ⟨index + 1, hstep, trivial, toNat_add_one hlt (dev.frameSizes_lt pixelformat)⟩
  have hexit : ∀ index : UInt32, True → (dev.frameSizes pixelformat).length ≤ index.toNat →
      ∃ result, sizeTurn fuel dev pixelformat index = some (.inr result) ∧ True := by
    intro index _ hle
    refine ⟨(), ?_, trivial⟩
    simp [sizeTurn, V4L2Device.enumFrameSizes, hle]
  obtain ⟨result, hresult, -⟩ := counting_ends (fun _ => True) (fun _ => True) UInt32.toNat hnext
    hexit hfuel trivial
  exact ⟨result, hresult⟩

/-- **The sizes of a format never end** when the intervals of one of them do not. -/
theorem sizes_never_end (h : ¬ dev.DiscreteIntervals pixelformat) (fuel : ℕ) :
    loop (sizeTurn fuel dev pixelformat) fuel 0 = none := by
  simp only [V4L2Device.DiscreteIntervals, not_forall, not_exists] at h
  obtain ⟨width, height, hmem, hivals⟩ := h
  obtain ⟨last, hlast⟩ := List.getElem?_of_mem hmem
  have hnext : ∀ index : UInt32, index.toNat < last → sizeTurn fuel dev pixelformat index = none ∨
      ∃ index' : UInt32, sizeTurn fuel dev pixelformat index = some (.inl index') ∧
        index'.toNat = index.toNat + 1 := by
    intro index hlt
    have hsize := hlt.trans (List.getElem?_eq_some_iff.mp hlast).1
    exact (sizeTurn_cases fuel hsize).imp And.left fun hstep =>
      ⟨index + 1, hstep, toNat_add_one hsize (dev.frameSizes_lt pixelformat)⟩
  have hstuck : ∀ index : UInt32, index.toNat = last →
      sizeTurn fuel dev pixelformat index = none := by
    intro index heq
    simp [sizeTurn, V4L2Device.enumFrameSizes, heq, hlast, intervals_never_end hivals]
  exact counting_eq_none UInt32.toNat hnext hstuck fuel (Nat.zero_le _)

end

/-! ## The formats of the device -/

section
variable {dev : V4L2Device}

/-- A turn on a format does not end, because its sizes do not, or adds its spec and goes on with
the next format. -/
theorem formatTurn_cases (fuel : ℕ) {s : UInt32 × List Video4LinuxVideoFormat}
    (h : s.1.toNat < dev.formats.length) :
    (formatTurn fuel dev s = none ∧
      ∃ pixelformat ∈ dev.formats, loop (sizeTurn fuel dev pixelformat) fuel 0 = none) ∨
      formatTurn fuel dev s =
        some (.inl (s.1 + 1, s.2 ++ [formatSpec dev.formats[s.1.toNat]])) := by
  have hformat : dev.enumFmt s.1 = some dev.formats[s.1.toNat] := List.getElem?_eq_getElem h
  rw [formatTurn, hformat]
  cases hloop : loop (sizeTurn fuel dev dev.formats[s.1.toNat]) fuel 0 with
  | none => exact .inl ⟨by simp [hloop], _, List.getElem_mem h, hloop⟩
  | some result => exact .inr (by simp [hloop])

/-- **The formats are all enumerated** when the sizes of all of them end. -/
theorem formats_end (h : ∀ pixelformat ∈ dev.formats, dev.DiscreteIntervals pixelformat) :
    ∀ᶠ fuel in atTop, enumerateFormats fuel dev = some (dev.formats.map formatSpec) := by
  have hsizes : ∀ᶠ fuel in atTop, ∀ pixelformat ∈ {pixelformat | pixelformat ∈ dev.formats},
      ∃ result, loop (sizeTurn fuel dev pixelformat) fuel 0 = some result := by
    rw [eventually_all_finite (List.finite_toSet _)]
    exact fun pixelformat hmem => sizes_end (h pixelformat hmem)
  filter_upwards [hsizes, eventually_gt_atTop dev.formats.length] with fuel hsizes hfuel
  -- So far, the specs of the formats before the index.
  let Inv : UInt32 × List Video4LinuxVideoFormat → Prop := fun s =>
    s.2 = (dev.formats.take s.1.toNat).map formatSpec
  have hnext : ∀ s, Inv s → s.1.toNat < dev.formats.length →
      ∃ s', formatTurn fuel dev s = some (.inl s') ∧ Inv s' ∧ s'.1.toNat = s.1.toNat + 1 := by
    intro s hs hlt
    rcases formatTurn_cases fuel hlt with ⟨-, pixelformat, hmem, hnone⟩ | hstep
    · obtain ⟨result, hresult⟩ := hsizes pixelformat hmem
      rw [hnone] at hresult
      cases hresult
    · have hindex := toNat_add_one hlt dev.formats_lt
      refine ⟨_, hstep, ?_, hindex⟩
      simp only [Inv, hindex, List.take_add_one, List.getElem?_eq_getElem hlt, List.map_append]
      rw [hs]
      rfl
  have hexit : ∀ s, Inv s → dev.formats.length ≤ s.1.toNat → ∃ result,
      formatTurn fuel dev s = some (.inr result) ∧ result = dev.formats.map formatSpec := by
    intro s hs hle
    refine ⟨s.2, ?_, ?_⟩
    · simp [formatTurn, V4L2Device.enumFmt, hle]
    · rw [hs, List.take_of_length_le hle]
  obtain ⟨result, hresult, hpost⟩ := counting_ends Inv (· = dev.formats.map formatSpec)
    (·.1.toNat) hnext hexit hfuel (s := (0, [])) rfl
  rw [enumerateFormats, hresult, hpost]

/-- **The formats are never all enumerated** when the sizes of one of them do not end. -/
theorem formats_never_end {pixelformat : UInt32} (hmem : pixelformat ∈ dev.formats)
    (h : ¬ dev.DiscreteIntervals pixelformat) (fuel : ℕ) : enumerateFormats fuel dev = none := by
  obtain ⟨last, hlast⟩ := List.getElem?_of_mem hmem
  have hnext : ∀ s : UInt32 × List Video4LinuxVideoFormat, s.1.toNat < last →
      formatTurn fuel dev s = none ∨
        ∃ s', formatTurn fuel dev s = some (.inl s') ∧ s'.1.toNat = s.1.toNat + 1 := by
    intro s hlt
    have hformat := hlt.trans (List.getElem?_eq_some_iff.mp hlast).1
    exact (formatTurn_cases fuel hformat).imp And.left fun hstep =>
      ⟨_, hstep, toNat_add_one hformat dev.formats_lt⟩
  have hstuck : ∀ s : UInt32 × List Video4LinuxVideoFormat, s.1.toNat = last →
      formatTurn fuel dev s = none := by
    intro s heq
    simp [formatTurn, V4L2Device.enumFmt, heq, hlast, sizes_never_end h]
  exact counting_eq_none (·.1.toNat) hnext hstuck fuel (Nat.zero_le _)

end

/-- **The devices whose formats are enumerated**: those whose discrete sizes have discrete frame
intervals.  For any other the call never returns. -/
theorem enumeratesAll_iff (dev : V4L2Device) :
    EnumeratesAll dev ↔ ∀ pixelformat ∈ dev.formats, dev.DiscreteIntervals pixelformat := by
  constructor
  · intro hall pixelformat hmem
    by_contra hbad
    obtain ⟨enough, henough⟩ := hall
    have hsome := henough enough (Nat.le_refl _)
    rw [formats_never_end hmem hbad] at hsome
    cases hsome
  · intro h
    exact eventually_atTop.mp (formats_end h)

/-- A camera with one format, one size and any frame rate. -/
def steplessCamera : V4L2Device where
  formats := [0x56595559]
  frameSizes _ := [.discrete 1280 720]
  frameIntervals _ _ _ := .continuous
  formats_lt := by decide
  frameSizes_lt _ := by simp

/-- The call never returns for a camera whose intervals are continuous. -/
theorem stepless_camera_hangs :
    ¬ EnumeratesAll steplessCamera ∧ ∀ fuel, enumerateFormats fuel steplessCamera = none := by
  have hnone : ∀ fuel, enumerateFormats fuel steplessCamera = none := by
    refine formats_never_end (List.mem_singleton.mpr rfl) ?_
    intro h
    obtain ⟨count, hcount⟩ := h 1280 720 (List.mem_singleton.mpr rfl)
    cases hcount
  refine ⟨?_, hnone⟩
  intro h
  obtain ⟨enough, henough⟩ := h
  have hsome := henough enough (Nat.le_refl _)
  rw [hnone enough] at hsome
  cases hsome

end NaiveStreaming
