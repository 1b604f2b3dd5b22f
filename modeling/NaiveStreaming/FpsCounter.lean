import Mathlib.Algebra.BigOperators.Group.List.Basic
import Mathlib.Algebra.Ring.Int.Defs
import NaiveStreaming.Lib.Mealy

/-!
# Counting frames per second

`FPS_Counter::take_sample` counts a frame, or, when a second has passed since the last report,
reports the frames counted so far and starts again from zero.  The frame of the call that
reports is in neither count.
-/

namespace NaiveStreaming
open Mealy

/-- `FPS_Counter`, with times in nanoseconds since the epoch of the clock.  The atomic `int` wraps
around. -/
structure FPSCounter where
  tag : String
  prevSampleTs : ℤ := 0
  framesCaptured : Int32 := 0
  deriving DecidableEq, Repr

/-- A line `"{}: {} FPS"` of the log. -/
structure FPSReport where
  tag : String
  frames : Int32
  deriving DecidableEq, Repr

/-- `FPS_Counter::take_sample`, at the reading `now` of the clock. -/
def takeSample (s : FPSCounter) (now : ℤ) : FPSCounter × List FPSReport :=
  if now - s.prevSampleTs ≥ 1000000000 then
    ({ s with prevSampleTs := now, framesCaptured := 0 }, [⟨s.tag, s.framesCaptured⟩])
  else ({ s with framesCaptured := s.framesCaptured + 1 }, [])

def fpsCounter : Machine FPSCounter ℤ FPSReport where
  step s now := (some (takeSample s now).1, (takeSample s now).2)

/-- The sum of the reported counts. -/
def reported (reports : List FPSReport) : ℤ := (reports.map (·.frames.toInt)).sum

/-- After any number of the calls on a fresh counter, the frames reported and the frames counted
since are as many as the calls. -/
def LosesNoFrame (tag : String) (readings : List ℤ) : Prop :=
  ∀ calls t, calls <+: readings → fpsCounter.final { tag } calls = some t →
    reported (fpsCounter.outputs { tag } calls) + t.framesCaptured.toInt = calls.length

@[simp] theorem reported_append (xs ys : List FPSReport) :
    reported (xs ++ ys) = reported xs + reported ys := by
  simp [reported]

theorem toInt_increment (v : Int32) :
    ∃ wraps : ℕ, (v + 1).toInt + 2 ^ 32 * (wraps : ℤ) = v.toInt + 1 := by
  have hle := v.le_toInt
  have hlt := v.toInt_lt
  have hadd : (v + 1).toInt = (v.toInt + 1).bmod (2 ^ 32) := Int32.toInt_add v 1
  by_cases hmax : v.toInt + 1 < 2 ^ 31
  · refine ⟨0, ?_⟩
    rw [hadd, Int.bmod_eq_of_le (by omega) (by omega)]
    omega
  · refine ⟨1, ?_⟩
    rw [hadd, Int.bmod_def, if_neg (by omega)]
    omega

/-- **One call** counts a frame, or reports the count and loses one. -/
theorem takeSample_account (s : FPSCounter) (now : ℤ) : ∃ wraps : ℕ,
    reported (takeSample s now).2 + (takeSample s now).1.framesCaptured.toInt
      + (takeSample s now).2.length + 2 ^ 32 * (wraps : ℤ) = s.framesCaptured.toInt + 1 := by
  by_cases hsecond : now - s.prevSampleTs ≥ 1000000000
  · refine ⟨0, ?_⟩
    simp [takeSample, hsecond, reported]
  · obtain ⟨wraps, hwraps⟩ := toInt_increment s.framesCaptured
    refine ⟨wraps, ?_⟩
    simpa [takeSample, hsecond, reported] using hwraps

/-- **What becomes of the calls of a run**: they are reported, or counted since the last report,
or lost, one with each report; and `2 ^ 32` are lost whenever the counter wraps around. -/
theorem account (readings : List ℤ) : ∀ s : FPSCounter, ∃ t, ∃ wraps : ℕ,
    fpsCounter.final s readings = some t ∧
      reported (fpsCounter.outputs s readings) + t.framesCaptured.toInt
        + (fpsCounter.outputs s readings).length + 2 ^ 32 * (wraps : ℤ)
          = s.framesCaptured.toInt + readings.length := by
  induction readings with
  | nil =>
      intro s
      exact ⟨s, 0, rfl, by simp [Machine.outputs, Machine.trace, reported]⟩
  | cons now readings ih =>
      intro s
      obtain ⟨wraps, hstep⟩ := takeSample_account s now
      obtain ⟨t, wraps', hfinal, hrun⟩ := ih (takeSample s now).1
      have hcall : fpsCounter.step s now
        = (some (takeSample s now).1, (takeSample s now).2) := rfl
      refine ⟨t, wraps + wraps', ?_, ?_⟩
      · rw [Machine.final_cons (congrArg Prod.fst hcall), hfinal]
      · rw [Machine.outputs_cons hcall, reported_append, List.length_append, List.length_cons]
        push_cast
        omega

/-- Nothing is reported exactly while all readings are within a second of the last report. -/
theorem outputs_eq_nil_iff (readings : List ℤ) : ∀ s : FPSCounter,
    fpsCounter.outputs s readings = [] ↔
      ∀ now ∈ readings, now - s.prevSampleTs < 1000000000 := by
  induction readings with
  | nil => intro s; simp [Machine.outputs, Machine.trace]
  | cons now readings ih =>
      intro s
      have hcall : fpsCounter.step s now
        = (some (takeSample s now).1, (takeSample s now).2) := rfl
      rw [Machine.outputs_cons hcall, List.append_eq_nil_iff, ih, List.forall_mem_cons]
      by_cases hsecond : now - s.prevSampleTs ≥ 1000000000
      · have hnot : ¬ now - s.prevSampleTs < 1000000000 := Int.not_lt.mpr hsecond
        simp [takeSample, hsecond, hnot]
      · simp [takeSample, hsecond, Int.not_le.mp hsecond]

/-- **The runs that lose no frame**: fewer than `2 ^ 31` calls, all of them within a second of
the epoch of the clock. -/
theorem losesNoFrame_iff (tag : String) (readings : List ℤ) :
    LosesNoFrame tag readings ↔
      (∀ now ∈ readings, now < 1000000000) ∧ readings.length < 2 ^ 31 := by
  have hsilent : ∀ calls, fpsCounter.outputs { tag } calls = [] ↔
      ∀ now ∈ calls, now < 1000000000 := by
    intro calls
    simpa using outputs_eq_nil_iff calls { tag }
  constructor
  · intro h
    obtain ⟨t, wraps, hfinal, haccount⟩ := account readings { tag }
    have hall := h readings t (List.prefix_refl readings) hfinal
    have hfresh : ({ tag } : FPSCounter).framesCaptured.toInt = 0 := rfl
    have hlt := t.framesCaptured.toInt_lt
    have hnone : fpsCounter.outputs { tag } readings = [] := by
      rw [← List.length_eq_zero_iff]
      omega
    refine ⟨(hsilent readings).mp hnone, ?_⟩
    rw [hnone] at hall
    simp only [reported, List.map_nil, List.sum_nil] at hall
    omega
  · intro h calls t hpre hfinal
    obtain ⟨hsecond, hlength⟩ := h
    obtain ⟨t', wraps, hfinal', haccount⟩ := account calls { tag }
    rw [hfinal] at hfinal'
    cases hfinal'
    have hnone : fpsCounter.outputs { tag } calls = [] :=
      (hsilent calls).mpr fun now hnow => hsecond now (hpre.subset hnow)
    have hfresh : (0 : Int32).toInt = 0 := rfl
    have hle := t.framesCaptured.le_toInt
    have hcalls := hpre.length_le
    rw [hnone] at haccount ⊢
    simp only [reported, List.map_nil, List.sum_nil, List.length_nil] at haccount ⊢
    omega

/-- Two frames, half a second apart: the report of the second does not have it. -/
theorem frame_lost_at_report : ¬ LosesNoFrame "Capture" [700000000, 1200000000] := by
  intro h
  have hcount := h [700000000, 1200000000] _ (List.prefix_refl _) rfl
  exact absurd hcount (by decide)

end NaiveStreaming
