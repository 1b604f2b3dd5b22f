import NaiveStreaming.FramePainting
import NaiveStreaming.Lib.Cascade

/-!
# No call of the window waits for ever

`on_frame` and `paintEvent` wait for one mutex, and each leaves it after a fixed number of its own
steps.  So while no further call is made, both return, and the frame of a pending `on_frame` is
published: whenever one thread cannot go on, the other can.
-/

namespace NaiveStreaming
open Loop Mealy

def OnFramePC.stepsLeft : OnFramePC → ℕ
  | idle => 0
  | filling _ _ rest => rest.length + 4
  | locked .. => 3
  | moved .. => 2
  | assigned => 1

def PaintPC.stepsLeft : PaintPC → ℕ
  | idle => 0
  | begun => 3
  | locked => 2
  | drawn => 1

/-- The steps that the calls have left, the waiting for the mutex not counted. -/
def Painting.stepsLeft (s : Painting) : ℕ := s.decoder.stepsLeft + s.gui.stepsLeft

theorem OnFramePC.stepsLeft_eq_zero {pc : OnFramePC} (h : pc.stepsLeft = 0) : pc = .idle := by
  cases pc <;> simp [stepsLeft] at h ⊢

theorem PaintPC.stepsLeft_eq_zero {pc : PaintPC} (h : pc.stepsLeft = 0) : pc = .idle := by
  cases pc <;> simp [stepsLeft] at h ⊢

/-- A step of `on_frame` is one step less, unless it is idle or waits for the mutex. -/
theorem stepsLeft_onFrameStep {c : ByteCast} {s s' : Painting} {out : List PaintingEvent}
    (h : onFrameStep c s = (some s', out)) :
    s'.stepsLeft < s.stepsLeft ∨
      s' = s ∧ (s.decoder = .idle ∨ s.decoder.holdsLock = false ∧ s.lock ≠ none) := by
  cases hpc : s.decoder with
  | idle =>
      simp only [onFrameStep, hpc, Prod.mk.injEq, Option.some.injEq] at h
      exact .inr ⟨h.1.symm, .inl rfl⟩
  | filling f buffer rest =>
      cases rest with
      | nil =>
          by_cases hfree : s.lock = none
          · simp only [onFrameStep, hpc, hfree, if_true, Prod.mk.injEq, Option.some.injEq] at h
            rw [← h.1]
            exact .inl (by simp [Painting.stepsLeft, OnFramePC.stepsLeft, hpc])
          · simp only [onFrameStep, hpc, hfree, if_false, Prod.mk.injEq, Option.some.injEq] at h
            exact .inr ⟨h.1.symm, .inr ⟨rfl, hfree⟩⟩
      | cons p rest =>
          cases hturn : s.buffers[buffer]?.join.bind (fillPixel c f · p) with
          | none => simp [onFrameStep, hpc, hturn] at h
          | some data =>
              simp only [onFrameStep, hpc, hturn, Prod.mk.injEq, Option.some.injEq] at h
              rw [← h.1]
              exact .inl (by simp [Painting.stepsLeft, OnFramePC.stepsLeft, hpc])
  | _ =>
      simp only [onFrameStep, hpc, Prod.mk.injEq, Option.some.injEq] at h
      rw [← h.1]
      exact .inl (by simp [Painting.stepsLeft, OnFramePC.stepsLeft, hpc])

/-- A step of `paintEvent` is one step less, unless it is idle or waits for the mutex. -/
theorem stepsLeft_paintStep {s s' : Painting} {out : List PaintingEvent}
    (h : paintStep s = (some s', out)) :
    s'.stepsLeft < s.stepsLeft ∨
      s' = s ∧ (s.gui = .idle ∨ s.gui.holdsLock = false ∧ s.lock ≠ none) := by
  cases hpc : s.gui with
  | idle =>
      simp only [paintStep, hpc, Prod.mk.injEq, Option.some.injEq] at h
      exact .inr ⟨h.1.symm, .inl rfl⟩
  | begun =>
      by_cases hfree : s.lock = none
      · simp only [paintStep, hpc, hfree, if_true, Prod.mk.injEq, Option.some.injEq] at h
        rw [← h.1]
        exact .inl (by simp [Painting.stepsLeft, PaintPC.stepsLeft, hpc])
      · simp only [paintStep, hpc, hfree, if_false, Prod.mk.injEq, Option.some.injEq] at h
        exact .inr ⟨h.1.symm, .inr ⟨rfl, hfree⟩⟩
  | locked =>
      have hdrawn : s'.decoder = s.decoder ∧ s'.gui = .drawn := by
        cases himg : s.currentFrameImg with
        | none =>
            simp only [paintStep, hpc, himg, Prod.mk.injEq, Option.some.injEq] at h
            rw [← h.1]
            exact ⟨rfl, rfl⟩
        | some view =>
            cases hdata : s.buffers[view.buffer]?.join with
            | none => simp [paintStep, hpc, himg, hdata] at h
            | some data =>
                simp only [paintStep, hpc, himg, hdata, Prod.mk.injEq, Option.some.injEq] at h
                rw [← h.1]
                exact ⟨rfl, rfl⟩
      exact .inl (by simp [Painting.stepsLeft, PaintPC.stepsLeft, hdrawn, hpc])
  | drawn =>
      simp only [paintStep, hpc, Prod.mk.injEq, Option.some.injEq] at h
      rw [← h.1]
      exact .inl (by simp [Painting.stepsLeft, PaintPC.stepsLeft, hpc])

theorem onFrameStep_ne (c : ByteCast) {s : Painting} (hrun : s.decoder ≠ .idle)
    (hfree : s.decoder.holdsLock = true ∨ s.lock = none) : (onFrameStep c s).1 ≠ some s := by
  intro hstay
  have hstep : onFrameStep c s = (some s, (onFrameStep c s).2) := Prod.ext hstay rfl
  rcases stepsLeft_onFrameStep hstep with hless | ⟨-, hidle | ⟨hout, hheld⟩⟩
  · exact Nat.lt_irrefl _ hless
  · exact hrun hidle
  · rcases hfree with hin | hfree
    · simp [hout] at hin
    · exact hheld hfree

theorem paintStep_ne {s : Painting} (hrun : s.gui ≠ .idle)
    (hfree : s.gui.holdsLock = true ∨ s.lock = none) : (paintStep s).1 ≠ some s := by
  intro hstay
  have hstep : paintStep s = (some s, (paintStep s).2) := Prod.ext hstay rfl
  rcases stepsLeft_paintStep hstep with hless | ⟨-, hidle | ⟨hout, hheld⟩⟩
  · exact Nat.lt_irrefl _ hless
  · exact hrun hidle
  · rcases hfree with hin | hfree
    · simp [hout] at hin
    · exact hheld hfree

/-! ## Fair rounds -/

/-- A thread goes on; no call is made. -/
def PaintingStep.GoesOn (step : PaintingStep) : Prop := step = .decoder ∨ step = .gui

theorem framesEntered_append (xs ys : List PaintingEvent) :
    framesEntered (xs ++ ys) = framesEntered xs ++ framesEntered ys := List.filterMap_append

theorem entered?_goesOn (c : ByteCast) (s : Painting) {step : PaintingStep} (h : step.GoesOn) :
    ∀ event ∈ ((painting c).step s step).2, event.entered? = none := by
  rcases h with rfl | rfl
  · cases hpc : s.decoder with
    | filling f buffer rest =>
        cases rest with
        | nil => by_cases hfree : s.lock = none <;> simp [painting, onFrameStep, hpc, hfree]
        | cons p rest =>
            cases hturn : s.buffers[buffer]?.join.bind (fillPixel c f · p) <;>
              simp [painting, onFrameStep, hpc, hturn]
    | _ => simp [painting, onFrameStep, hpc, PaintingEvent.entered?]
  · cases hpc : s.gui with
    | begun => by_cases hfree : s.lock = none <;> simp [painting, paintStep, hpc, hfree]
    | locked =>
        cases himg : s.currentFrameImg with
        | none => simp [painting, paintStep, hpc, himg, PaintingEvent.entered?]
        | some view =>
            cases hdata : s.buffers[view.buffer]?.join <;>
              simp [painting, paintStep, hpc, himg, hdata, PaintingEvent.entered?]
    | _ => simp [painting, paintStep, hpc]

theorem framesEntered_goesOn (c : ByteCast) (s : Painting) {steps : List PaintingStep}
    (h : ∀ step ∈ steps, step.GoesOn) : framesEntered ((painting c).outputs s steps) = [] := by
  have hstep : ∀ s step, True → PaintingStep.GoesOn step →
      (∀ event ∈ ((painting c).step s step).2, event.entered? = none) ∧
        ∀ s', ((painting c).step s step).1 = some s' → True :=
    fun s _ _ hgoes => ⟨entered?_goesOn c s hgoes, fun _ _ => trivial⟩
  exact List.filterMap_eq_nil_iff.mpr
    (Machine.outputs_allowed_of_always hstep steps s trivial (Machine.always_of_forall h s))

section Progress
variable {c : ByteCast} {past : List PaintingEvent} {s : Painting}

/-- **A thread that goes on** changes nothing or has one step less. -/
theorem Sound.goesOn (h : Sound c past s) {step : PaintingStep} (hstep : step.GoesOn) :
    ∃ s', ((painting c).step s step).1 = some s' ∧ (∃ past', Sound c past' s') ∧
      (s' = s ∨ s'.stepsLeft < s.stepsLeft) := by
  rcases hstep with rfl | rfl
  · obtain ⟨s', out, hs', hsound⟩ := h.onFrameStep
    refine ⟨s', congrArg Prod.fst hs', ⟨_, hsound⟩, ?_⟩
    exact (stepsLeft_onFrameStep hs').elim .inr fun hstay => .inl hstay.1
  · obtain ⟨s', out, hs', hsound⟩ := h.paintStep
    refine ⟨s', congrArg Prod.fst hs', ⟨_, hsound⟩, ?_⟩
    exact (stepsLeft_paintStep hs').elim .inr fun hstay => .inl hstay.1

/-- **There is no deadlock**: while a call is running, one of the threads can go on. -/
theorem Sound.exists_goesOn (h : Sound c past s) (hpos : 0 < s.stepsLeft) :
    ∃ step : PaintingStep, step.GoesOn ∧ ((painting c).step s step).1 ≠ some s := by
  have hlock := h.lock
  by_cases hgui : s.gui.holdsLock = true
  · have hrun : s.gui ≠ .idle := by
      intro hidle
      simp [hidle, PaintPC.holdsLock] at hgui
    exact ⟨.gui, .inr rfl, paintStep_ne hrun (.inl hgui)⟩
  · by_cases hidle : s.decoder = .idle
    · -- Nobody holds the mutex, and it is `paintEvent` that is running.
      have hfree : s.lock = none := by
        rw [hlock, hidle]
        simp [OnFramePC.holdsLock, hgui]
      have hrun : s.gui ≠ .idle := by
        intro hrest
        simp [Painting.stepsLeft, hidle, hrest, OnFramePC.stepsLeft, PaintPC.stepsLeft] at hpos
      exact ⟨.gui, .inr rfl, paintStep_ne hrun (.inr hfree)⟩
    · refine ⟨.decoder, .inl rfl, onFrameStep_ne c hidle ?_⟩
      by_cases hin : s.decoder.holdsLock = true
      · exact .inl hin
      · right
        rw [hlock, if_neg hin, if_neg hgui]

/-- After as many fair rounds as there are steps left both calls have returned. -/
theorem Sound.finishes (h : Sound c past s) {rounds : List (List PaintingStep)}
    (hrounds : ∀ round ∈ rounds, ∀ step, step ∈ round ↔ PaintingStep.GoesOn step)
    (hcount : s.stepsLeft ≤ rounds.length) :
    ∃ t, (painting c).final s rounds.flatten = some t ∧ t.decoder = .idle ∧ t.gui = .idle := by
  have hstep : ∀ s step, (∃ past, Sound c past s) → PaintingStep.GoesOn step → ∃ s',
      ((painting c).step s step).1 = some s' ∧ (∃ past, Sound c past s') ∧
        (s' = s ∨ s'.stepsLeft < s.stepsLeft) :=
    fun _ _ ⟨_, hsound⟩ hgoes => hsound.goesOn hgoes
  have hlower : ∀ s : Painting, (∃ past, Sound c past s) → 0 < s.stepsLeft → ∃ step,
      PaintingStep.GoesOn step ∧ ((painting c).step s step).1 ≠ some s :=
    fun _ ⟨_, hsound⟩ hpos => hsound.exists_goesOn hpos
  obtain ⟨t, ht, -, hrank⟩ := Machine.final_rounds Painting.stepsLeft hstep hlower rounds s
    ⟨_, h⟩ hrounds
  have hzero : t.decoder.stepsLeft + t.gui.stepsLeft = 0 := by
    have hdone : t.stepsLeft ≤ 0 := by omega
    exact Nat.le_zero.mp hdone
  exact ⟨t, ht, OnFramePC.stepsLeft_eq_zero (by omega), PaintPC.stepsLeft_eq_zero (by omega)⟩

/-- While `on_frame` is not running, every frame that it was called with has been published. -/
theorem Sound.published (h : Sound c past s) (hidle : s.decoder = .idle) :
    framesEntered past = framesPublished past := by
  have hentered := h.entered
  rw [hidle] at hentered
  exact hentered.trans (List.append_nil _)

theorem Sound.unlocked (h : Sound c past s) (hidle : s.decoder = .idle) (hgui : s.gui = .idle) :
    s.lock = none := by
  rw [h.lock, hidle, hgui]
  rfl

end Progress

/-- What holds of a run of any steps and of the rounds that finish its calls. -/
theorem sound_finished (c : ByteCast) {steps : List PaintingStep}
    (h : ∀ f, .onFrame f ∈ steps → ∃ image, onFrame c f = some image)
    {s : Painting} (hs : (painting c).final {} steps = some s)
    {rounds : List (List PaintingStep)}
    (hrounds : ∀ round ∈ rounds, ∀ step, step ∈ round ↔ PaintingStep.GoesOn step)
    (hcount : s.stepsLeft ≤ rounds.length) :
    let events := (painting c).outputs {} (steps ++ rounds.flatten)
    ∃ t, (painting c).final {} (steps ++ rounds.flatten) = some t ∧ Sound c events t ∧
      t.decoder = .idle ∧ t.gui = .idle ∧
      framesPublished events = framesEntered ((painting c).outputs {} steps) := by
  intro events
  have hgoes : ∀ step ∈ rounds.flatten, step.GoesOn := by
    intro step hstep
    obtain ⟨round, hround, hmem⟩ := List.mem_flatten.mp hstep
    exact (hrounds round hround step).mp hmem
  -- The rounds call nothing, so the frames of the whole run are those of the steps.
  have hall : ∀ f, .onFrame f ∈ steps ++ rounds.flatten → ∃ image, onFrame c f = some image := by
    intro f hf
    rcases List.mem_append.mp hf with hcalled | hround
    · exact h f hcalled
    · have hnot := hgoes _ hround
      simp [PaintingStep.GoesOn] at hnot
  obtain ⟨s₀, hs₀, hsound₀⟩ := sound_run c h
  obtain rfl : s = s₀ := Option.some.inj (hs.symm.trans hs₀)
  obtain ⟨t, ht, hidle, hgui⟩ := hsound₀.finishes hrounds hcount
  obtain ⟨t', ht', hsound⟩ := sound_run c hall
  obtain rfl : t = t' := by
    rw [Machine.final_append hs, ht] at ht'
    exact Option.some.inj ht'
  refine ⟨t, ht', hsound, hidle, hgui, ?_⟩
  calc framesPublished events = framesEntered events := (hsound.published hidle).symm
    _ = framesEntered ((painting c).outputs {} steps) := by
        rw [show events = _ from Machine.outputs_append_eq .., hs, Option.elim_some,
          framesEntered_append, framesEntered_goesOn c s hgoes, List.append_nil]

/-- **No call of the window waits for ever.**  After any run of the two threads, let no further call
be made, and let the threads go on in rounds, in each of which each takes a step at least, in any
order and any number.  After as many rounds as there are steps left both calls have returned, the
mutex is free, every frame that `on_frame` was called with has become the current one, and no buffer
is live but that of the current one. -/
theorem painting_finishes (c : ByteCast) (steps : List PaintingStep)
    (h : ∀ f, .onFrame f ∈ steps → ∃ image, onFrame c f = some image)
    {s : Painting} (hs : (painting c).final {} steps = some s)
    (rounds : List (List PaintingStep))
    (hrounds : ∀ round ∈ rounds, ∀ step, step ∈ round ↔ step = .decoder ∨ step = .gui)
    (hcount : s.stepsLeft ≤ rounds.length) :
    let all := steps ++ rounds.flatten
    ∃ t, (painting c).final {} all = some t ∧ t.decoder = .idle ∧ t.gui = .idle ∧ t.lock = none ∧
      framesPublished ((painting c).outputs {} all) =
        framesEntered ((painting c).outputs {} steps) ∧
      ∀ (buffer : ℕ) (data : List UInt8), t.buffers[buffer]? = some (some data) →
        t.currentFrameData = some buffer := by
  intro all
  obtain ⟨t, ht, hsound, hdecoder, hgui, hpublished⟩ := sound_finished c h hs hrounds hcount
  refine ⟨t, ht, hdecoder, hgui, hsound.unlocked hdecoder hgui, hpublished, ?_⟩
  intro buffer data hlive
  refine (hsound.live buffer data hlive).resolve_right ?_
  simp [hdecoder, OnFramePC.buffer?]

/-- A frame of two pixels and a paint, both begun: nine rounds are enough. -/
theorem painting_finishes_pair :
    let f : VideoFrame :=
      { pixelFormat := .yuv422Planar, width := 2, height := 1, plane0 := some [16, 16],
        plane1 := some [128], plane2 := some [128] }
    let all := [.onFrame f, .paintEvent] ++ (List.replicate 9 [.gui, .decoder]).flatten
    ∃ t, (painting .wrap).final {} all = some t ∧ t.decoder = .idle ∧ t.gui = .idle ∧
      t.lock = none ∧
      framesPublished ((painting .wrap).outputs {} all) =
        framesEntered ((painting .wrap).outputs {} [.onFrame f, .paintEvent]) ∧
      ∀ (buffer : ℕ) (data : List UInt8), t.buffers[buffer]? = some (some data) →
        t.currentFrameData = some buffer := by
  intro f
  have himage : ∃ image, onFrame .wrap f = some image :=
    Option.isSome_iff_exists.mp (by decide +kernel)
  refine painting_finishes .wrap [.onFrame f, .paintEvent] ?_ rfl
    (List.replicate 9 [.gui, .decoder]) ?_ ?_
  · intro g hg
    obtain rfl : g = f := by simpa using hg
    exact himage
  · intro round hround step
    rw [List.eq_of_mem_replicate hround]
    cases step <;> simp
  · decide

end NaiveStreaming
