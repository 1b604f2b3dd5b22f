import NaiveStreaming.FrameDisplay
import NaiveStreaming.Lib.Mealy

/-!
# Painting while frames are decoded

`MainWindow::on_frame` runs on the thread of the event loop and `MainWindow::paintEvent` on that of
the user interface.  The one fills a buffer of its own, pixel by pixel, and under the mutex puts it
in the place of the one that is shown, which is freed; the other draws under the mutex.  The
`QImage` that is drawn does not own its buffer, so between the two assignments of `on_frame` it
points to freed memory.

The steps of the two threads interleave in any order.  A step that a thread cannot take, because it
waits for the mutex or is inside no call, does nothing; an access to freed memory, and a read or a
store that `on_frame` may not make, end the run.
-/

namespace NaiveStreaming
open Loop Mealy

/-- The thread of the event loop, which calls the decoder, and that of the user interface. -/
inductive WindowThread
  | decoder
  | gui
  deriving DecidableEq, Repr

/-- How far `on_frame` has come. -/
inductive OnFramePC
  | idle
  /-- In the loops, with the pixels still to be written; behind them it waits for the mutex. -/
  | filling (f : VideoFrame) (buffer : ℕ) (rest : List (ℕ × ℕ))
  | locked (f : VideoFrame) (buffer : ℕ)
  | moved (f : VideoFrame) (buffer : ℕ)
  | assigned
  deriving DecidableEq, Repr

/-- How far `paintEvent` has come. -/
inductive PaintPC
  | idle
  | begun
  | locked
  | drawn
  deriving DecidableEq, Repr

/-- A `QImage` over memory that it does not own. -/
structure ImageView where
  width : ℤ
  height : ℤ
  buffer : ℕ
  deriving DecidableEq, Repr

/-- What `drawImage` shows. -/
structure ShownImage where
  width : ℤ
  height : ℤ
  data : List UInt8
  deriving DecidableEq, Repr

/-- The image that `on_frame` makes of a frame. -/
def FrameImage.shown (image : FrameImage) : ShownImage := ⟨image.width, image.height, image.data⟩

/-- The members of `MainWindow` that both threads use, the memory, and the threads. -/
structure Painting where
  /-- The image buffers allocated so far; those that were freed are gone. -/
  buffers : List (Option (List UInt8)) := []
  /-- `m_current_frame_data` -/
  currentFrameData : Option ℕ := none
  /-- `m_current_frame_img` -/
  currentFrameImg : Option ImageView := none
  /-- `m_current_frame_lock` -/
  lock : Option WindowThread := none
  decoder : OnFramePC := .idle
  gui : PaintPC := .idle
  deriving DecidableEq, Repr

/-- A call is made, or a thread goes on. -/
inductive PaintingStep
  | onFrame (f : VideoFrame)
  | decoder
  | paintEvent
  | gui
  deriving DecidableEq, Repr

inductive PaintingEvent
  | entered (f : VideoFrame)
  | published (f : VideoFrame)
  /-- `drawImage`, of a null image before the first frame. -/
  | drew (image? : Option ShownImage)
  deriving DecidableEq, Repr

/-- One turn of the loops of `on_frame`: three reads and four stores. -/
def fillPixel (c : ByteCast) (f : VideoFrame) (data : List UInt8) (p : ℕ × ℕ) :
    Option (List UInt8) :=
  match f.plane0, f.plane1, f.plane2 with
  | some Y_plane, some U_plane, some V_plane => do
    let step ← pixelStep c f.width.toNat Y_plane U_plane V_plane p
    step.stores.foldlM storeByte data
  | _, _, _ => none

/-- The assertions of `on_frame` on a frame. -/
def VideoFrame.Asserted (f : VideoFrame) : Prop :=
  f.plane0.isSome ∧ f.plane1.isSome ∧ f.plane2.isSome ∧ f.Displayable

instance : DecidablePred VideoFrame.Asserted := fun f => by
  unfold VideoFrame.Asserted
  infer_instance

/-- `delete[]` of what a `unique_ptr` holds. -/
def freeBuffer (buffers : List (Option (List UInt8))) (owned : Option ℕ) :
    List (Option (List UInt8)) :=
  match owned with
  | none => buffers
  | some buffer => buffers.set buffer none

def onFrameStep (c : ByteCast) (s : Painting) : Option Painting × List PaintingEvent :=
  match s.decoder with
  | .idle => (some s, [])
  | .filling f buffer (p :: rest) =>
    match s.buffers[buffer]?.join.bind (fillPixel c f · p) with
    | none => (none, [])
    | some data =>
      (some { s with buffers := s.buffers.set buffer (some data)
                     decoder := .filling f buffer rest }, [])
  | .filling f buffer [] =>
    if s.lock = none then (some { s with lock := some .decoder, decoder := .locked f buffer }, [])
    else (some s, [])
  | .locked f buffer =>
    -- The move assignment frees the buffer that the image still points to.
    (some { s with buffers := freeBuffer s.buffers s.currentFrameData
                   currentFrameData := some buffer
                   decoder := .moved f buffer }, [])
  | .moved f buffer =>
    (some { s with currentFrameImg := some ⟨f.width, f.height, buffer⟩, decoder := .assigned },
      [.published f])
  | .assigned => (some { s with lock := none, decoder := .idle }, [])

def paintStep (s : Painting) : Option Painting × List PaintingEvent :=
  match s.gui with
  | .idle => (some s, [])
  | .begun =>
    if s.lock = none then (some { s with lock := some .gui, gui := .locked }, [])
    else (some s, [])
  | .locked =>
    match s.currentFrameImg with
    | none => (some { s with gui := .drawn }, [.drew none])
    | some view =>
      match s.buffers[view.buffer]?.join with
      | none => (none, [])
      | some data =>
        (some { s with gui := .drawn }, [.drew (some ⟨view.width, view.height, data⟩)])
  | .drawn => (some { s with lock := none, gui := .idle }, [])

/-- The two threads.  Zeros stand for the contents of a fresh buffer. -/
def painting (c : ByteCast) : Machine Painting PaintingStep PaintingEvent where
  step s
    | .onFrame f =>
      if s.decoder = .idle then
        if f.Asserted then
          let size := f.width.toNat * f.height.toNat * 4
          (some { s with
              buffers := s.buffers ++ [some (List.replicate size 0)]
              decoder := .filling f s.buffers.length (pixels f.width.toNat f.height.toNat) },
            [.entered f])
        else (none, [])
      else (some s, [])
    | .decoder => onFrameStep c s
    | .paintEvent => if s.gui = .idle then (some { s with gui := .begun }, []) else (some s, [])
    | .gui => paintStep s

theorem step_onFrame (c : ByteCast) {s : Painting} {f : VideoFrame} (hidle : s.decoder = .idle)
    (hasserted : f.Asserted) : (painting c).step s (.onFrame f) = (some { s with
        buffers := s.buffers ++ [some (List.replicate (f.width.toNat * f.height.toNat * 4) 0)]
        decoder := .filling f s.buffers.length (pixels f.width.toNat f.height.toNat) },
      [.entered f]) := by
  simp only [painting, hidle, hasserted, if_true]

/-- **The turns leave the image in the buffer**: what `on_frame` makes of a frame is what its loops
leave in a fresh buffer, turn by turn. -/
theorem fill_eq {c : ByteCast} {f : VideoFrame} {image : FrameImage}
    (h : onFrame c f = some image) : f.Asserted ∧
      image.width = f.width ∧ image.height = f.height ∧
      (pixels f.width.toNat f.height.toNat).foldlM (fillPixel c f)
        (List.replicate (f.width.toNat * f.height.toNat * 4) 0) = some image.data := by
  have hplanes : ∃ Y_plane U_plane V_plane, f.plane0 = some Y_plane ∧ f.plane1 = some U_plane ∧
      f.plane2 = some V_plane := by
    cases hY : f.plane0 <;> cases hU : f.plane1 <;> cases hV : f.plane2 <;>
      simp [onFrame, hY, hU, hV] at h ⊢
  obtain ⟨Y_plane, U_plane, V_plane, hY, hU, hV⟩ := hplanes
  obtain ⟨hwidth, hheight, hdisp, hturns, hdata⟩ := onFrame_eq_some hY hU hV h
  refine ⟨⟨by simp [hY], by simp [hU], by simp [hV], hdisp⟩, hwidth, hheight, ?_⟩
  rw [← hdata]
  generalize List.replicate (f.width.toNat * f.height.toNat * 4) (0 : UInt8) = data
  generalize pixels f.width.toNat f.height.toNat = ps at hturns
  generalize image.steps = steps at hturns
  clear hdata h
  induction hturns generalizing data with
  | nil => rfl
  | @cons p step ps steps hturn _ ih =>
      have hpixel : fillPixel c f data p = step.stores.foldlM storeByte data := by
        simp [fillPixel, hY, hU, hV, hturn]
      rw [List.foldlM_cons, hpixel, List.flatMap_cons, List.foldlM_append]
      exact congrArg _ (funext fun data => ih data)

/-! ## What holds of the shared state -/

def PaintingEvent.entered? : PaintingEvent → Option VideoFrame
  | entered f => some f
  | _ => none

def PaintingEvent.published? : PaintingEvent → Option VideoFrame
  | published f => some f
  | _ => none

def framesEntered (events : List PaintingEvent) : List VideoFrame :=
  events.filterMap PaintingEvent.entered?

def framesPublished (events : List PaintingEvent) : List VideoFrame :=
  events.filterMap PaintingEvent.published?

/-- The image of the frame published last, none before the first. -/
def lastImage (c : ByteCast) (events : List PaintingEvent) : Option ShownImage :=
  (framesPublished events).getLast?.bind fun f => (onFrame c f).map FrameImage.shown

/-- The frame that `on_frame` has not yet published. -/
def OnFramePC.frame? : OnFramePC → Option VideoFrame
  | filling f _ _ | locked f _ | moved f _ => some f
  | idle | assigned => none

/-- The buffer that `on_frame` alone owns. -/
def OnFramePC.buffer? : OnFramePC → Option ℕ
  | filling _ buffer _ | locked _ buffer => some buffer
  | idle | moved .. | assigned => none

/-- `on_frame` is between its `lock_guard` and its end. -/
def OnFramePC.holdsLock : OnFramePC → Bool
  | locked .. | moved .. | assigned => true
  | idle | filling .. => false

/-- `paintEvent` is between its `scoped_lock` and its end. -/
def PaintPC.holdsLock : PaintPC → Bool
  | locked | drawn => true
  | idle | begun => false

/-- The current image is this one, in a live buffer. -/
def Painting.Shows (s : Painting) : Option ShownImage → Prop
  | none => s.currentFrameImg = none ∧ s.currentFrameData = none
  | some image => ∃ buffer, s.currentFrameImg = some ⟨image.width, image.height, buffer⟩ ∧
      s.currentFrameData = some buffer ∧ s.buffers[buffer]? = some (some image.data)

/-- The buffer of `on_frame` is its own, and the turns that are left complete the image in it. -/
def Painting.Fills (c : ByteCast) (s : Painting) (f : VideoFrame) (buffer : ℕ)
    (rest : List (ℕ × ℕ)) : Prop :=
  s.currentFrameData ≠ some buffer ∧ ∃ image data, onFrame c f = some image ∧
    s.buffers[buffer]? = some (some data) ∧
    rest.foldlM (fillPixel c f) data = some image.data

/-- What the place of `on_frame` says about the memory, when `image?` was published last. -/
def Painting.Agrees (c : ByteCast) (s : Painting) (image? : Option ShownImage) : OnFramePC → Prop
  | .idle | .assigned => s.Shows image?
  | .filling f buffer rest => s.Shows image? ∧ s.Fills c f buffer rest
  | .locked f buffer => s.Shows image? ∧ s.Fills c f buffer []
  | .moved f buffer => s.currentFrameData = some buffer ∧
      ∃ image, onFrame c f = some image ∧ s.buffers[buffer]? = some (some image.data)

/-- Every draw so far showed the image that had been published last. -/
def DrawsLast (c : ByteCast) (past : List PaintingEvent) : Prop :=
  ∀ pre image?, pre ++ [.drew image?] <+: past → image? = lastImage c pre

/-- What holds after a run with the events `past`. -/
structure Sound (c : ByteCast) (past : List PaintingEvent) (s : Painting) : Prop where
  lock : s.lock = if s.decoder.holdsLock then some .decoder
    else if s.gui.holdsLock then some .gui else none
  exclusive : s.decoder.holdsLock = true → s.gui.holdsLock = false
  agrees : s.Agrees c (lastImage c past) s.decoder
  entered : framesEntered past = framesPublished past ++ s.decoder.frame?.toList
  live : ∀ (buffer : ℕ) (data : List UInt8), s.buffers[buffer]? = some (some data) →
    s.currentFrameData = some buffer ∨ s.decoder.buffer? = some buffer
  draws : DrawsLast c past

theorem sound_init (c : ByteCast) : Sound c [] {} where
  lock := rfl
  exclusive h := by cases h
  agrees := ⟨rfl, rfl⟩
  entered := rfl
  live buffer data h := by simp at h
  draws pre image? h := by simp at h

theorem DrawsLast.concat {c : ByteCast} {past : List PaintingEvent} {event : PaintingEvent}
    (h : DrawsLast c past) (hevent : ∀ image?, event = .drew image? → image? = lastImage c past) :
    DrawsLast c (past ++ [event]) := by
  intro pre image? hpre
  rcases List.prefix_concat_iff.mp hpre with heq | hold
  · obtain ⟨rfl, hlast⟩ := List.append_inj' heq rfl
    exact hevent image? (List.singleton_inj.mp hlast).symm
  · exact h pre image? hold

theorem Sound.free {c : ByteCast} {past : List PaintingEvent} {s : Painting}
    (h : Sound c past s) (hfree : s.lock = none) :
    s.decoder.holdsLock = false ∧ s.gui.holdsLock = false := by
  have hlock := h.lock
  rw [hfree] at hlock
  cases hd : s.decoder.holdsLock <;> cases hg : s.gui.holdsLock <;> simp [hd, hg] at hlock ⊢

/-- Outside the critical section of `on_frame`, the current image is live. -/
theorem Sound.shows {c : ByteCast} {past : List PaintingEvent} {s : Painting}
    (h : Sound c past s) (hout : s.decoder.holdsLock = false) : s.Shows (lastImage c past) := by
  have hagrees := h.agrees
  cases hpc : s.decoder with
  | idle => rwa [hpc] at hagrees
  | filling f buffer rest =>
      rw [hpc] at hagrees
      exact hagrees.1
  | locked f buffer => simp [hpc, OnFramePC.holdsLock] at hout
  | moved f buffer => simp [hpc, OnFramePC.holdsLock] at hout
  | assigned => simp [hpc, OnFramePC.holdsLock] at hout

/-- The current image stays what it is while its buffer and the two members do. -/
theorem Painting.Shows.congr {s s' : Painting} {image? : Option ShownImage} (h : s.Shows image?)
    (himg : s'.currentFrameImg = s.currentFrameImg)
    (hdata : s'.currentFrameData = s.currentFrameData)
    (hbuffers : ∀ buffer, s.currentFrameData = some buffer →
      ∀ data, s.buffers[buffer]? = some (some data) → s'.buffers[buffer]? = some (some data)) :
    s'.Shows image? := by
  cases image? with
  | none => exact ⟨himg.trans h.1, hdata.trans h.2⟩
  | some image =>
      obtain ⟨buffer, hi, hd, hb⟩ := h
      exact ⟨buffer, himg.trans hi, hdata.trans hd, hbuffers buffer hd _ hb⟩

/-! ## One step -/

section Step
variable {c : ByteCast} {past : List PaintingEvent} {s : Painting}

theorem Sound.enter (h : Sound c past s) {f : VideoFrame} {image : FrameImage}
    (himage : onFrame c f = some image) (hidle : s.decoder = .idle) :
    Sound c (past ++ [.entered f])
      { s with
        buffers := s.buffers ++ [some (List.replicate (f.width.toNat * f.height.toNat * 4) 0)]
        decoder := .filling f s.buffers.length (pixels f.width.toNat f.height.toNat) } := by
  obtain ⟨-, -, -, hfill⟩ := fill_eq himage
  have hshows := h.shows (by rw [hidle]; rfl)
  have hlock := h.lock
  have hentered := h.entered
  rw [hidle] at hlock hentered
  have hold : ∀ (buffer : ℕ) (data : List UInt8), s.buffers[buffer]? = some (some data) →
      buffer < s.buffers.length := fun _ _ hb => (List.getElem?_eq_some_iff.mp hb).1
  refine ⟨hlock, (fun hcrit => by cases hcrit), ⟨?_, ?_, image, _, himage, ?_, hfill⟩, ?_, ?_, ?_⟩
  · have hlast : lastImage c (past ++ [.entered f]) = lastImage c past := by
      simp [lastImage, framesPublished, PaintingEvent.published?]
    rw [hlast]
    refine hshows.congr rfl rfl ?_
    intro buffer _ data hb
    rw [List.getElem?_append_left (hold buffer data hb), hb]
  · intro hown
    cases hlast : lastImage c past with
    | none =>
        rw [hlast] at hshows
        exact absurd (hshows.2.symm.trans hown) (by simp)
    | some shown =>
        rw [hlast] at hshows
        obtain ⟨buffer, -, hd, hb⟩ := hshows
        rw [hown, Option.some_inj] at hd
        exact absurd (hold buffer _ hb) (by omega)
  · exact List.getElem?_concat_length
  · simp only [framesEntered, framesPublished, List.filterMap_append] at hentered ⊢
    simp [hentered, PaintingEvent.entered?, PaintingEvent.published?, OnFramePC.frame?]
  · intro buffer data hb
    by_cases hnew : buffer = s.buffers.length
    · exact .inr (congrArg some hnew.symm)
    · have hlt := (List.getElem?_eq_some_iff.mp hb).1
      rw [List.length_append, List.length_singleton] at hlt
      rw [List.getElem?_append_left (by omega)] at hb
      rcases h.live buffer data hb with hcur | hown
      · exact .inl hcur
      · rw [hidle] at hown
        cases hown
  · exact h.draws.concat fun image? heq => by cases heq

/-- A turn of the loops leaves one pixel less to be written. -/
theorem Sound.fill (h : Sound c past s) {f : VideoFrame} {buffer : ℕ} {p : ℕ × ℕ}
    {rest : List (ℕ × ℕ)} (hpc : s.decoder = .filling f buffer (p :: rest)) :
    ∃ data, s.buffers[buffer]?.join.bind (fillPixel c f · p) = some data ∧
      Sound c past { s with buffers := s.buffers.set buffer (some data)
                            decoder := .filling f buffer rest } := by
  have hagrees := h.agrees
  have hlock := h.lock
  have hentered := h.entered
  have hlive := h.live
  rw [hpc] at hagrees hlock hentered hlive
  obtain ⟨hshows, hcur, image, data, himage, hdata, hrest⟩ := hagrees
  rw [List.foldlM_cons, Option.bind_eq_bind, Option.bind_eq_some_iff] at hrest
  obtain ⟨data', hturn, hrest⟩ := hrest
  have hlt := (List.getElem?_eq_some_iff.mp hdata).1
  refine ⟨data', by rw [hdata]; exact hturn, hlock, (fun hcrit => by cases hcrit),
    ⟨?_, hcur, image, data', himage, ?_, hrest⟩, hentered, ?_, h.draws⟩
  · refine hshows.congr rfl rfl ?_
    intro buffer' hb data'' hdata''
    have hne : buffer ≠ buffer' := fun heq => hcur (heq ▸ hb)
    rw [List.getElem?_set_ne hne, hdata'']
  · exact List.getElem?_set_self hlt
  · intro buffer' data'' hb
    by_cases heq : buffer = buffer'
    · exact .inr (congrArg some heq)
    · rw [List.getElem?_set_ne heq] at hb
      exact hlive buffer' data'' hb

theorem Sound.lockDecoder (h : Sound c past s) {f : VideoFrame} {buffer : ℕ}
    (hpc : s.decoder = .filling f buffer []) (hfree : s.lock = none) :
    Sound c past { s with lock := some .decoder, decoder := .locked f buffer } := by
  have hagrees := h.agrees
  have hentered := h.entered
  have hlive := h.live
  rw [hpc] at hagrees hentered hlive
  exact ⟨rfl, fun _ => (h.free hfree).2, hagrees, hentered, hlive, h.draws⟩

theorem Sound.move (h : Sound c past s) {f : VideoFrame} {buffer : ℕ}
    (hpc : s.decoder = .locked f buffer) :
    Sound c past { s with buffers := freeBuffer s.buffers s.currentFrameData
                          currentFrameData := some buffer
                          decoder := .moved f buffer } := by
  have hagrees := h.agrees
  have hlock := h.lock
  have hexcl := h.exclusive
  have hentered := h.entered
  have hlive := h.live
  rw [hpc] at hagrees hlock hexcl hentered hlive
  obtain ⟨-, hcur, image, data, himage, hdata, hrest⟩ := hagrees
  cases hrest
  refine ⟨hlock, hexcl, ⟨rfl, image, himage, ?_⟩, hentered, ?_, h.draws⟩
  · cases howned : s.currentFrameData with
    | none => exact hdata
    | some old =>
        have hne : old ≠ buffer := fun heq => hcur (heq ▸ howned)
        simpa only [freeBuffer, List.getElem?_set_ne hne] using hdata
  · intro buffer' data' hb
    cases howned : s.currentFrameData with
    | none =>
        rw [howned] at hb
        rcases hlive buffer' data' hb with hold | hown
        · rw [howned] at hold
          cases hold
        · exact .inl hown
    | some old =>
        rw [howned] at hb
        have hne : old ≠ buffer' := by
          rintro rfl
          simp only [freeBuffer, List.getElem?_set, if_true] at hb
          split_ifs at hb
          cases hb
        simp only [freeBuffer, List.getElem?_set_ne hne] at hb
        rcases hlive buffer' data' hb with hold | hown
        · rw [howned, Option.some_inj] at hold
          exact absurd hold hne
        · exact .inl hown

/-- `m_current_frame_img` is assigned: the frame is published. -/
theorem Sound.publish (h : Sound c past s) {f : VideoFrame} {buffer : ℕ}
    (hpc : s.decoder = .moved f buffer) :
    Sound c (past ++ [.published f])
      { s with currentFrameImg := some ⟨f.width, f.height, buffer⟩, decoder := .assigned } := by
  have hagrees := h.agrees
  have hlock := h.lock
  have hexcl := h.exclusive
  have hentered := h.entered
  have hlive := h.live
  rw [hpc] at hagrees hlock hexcl hentered hlive
  obtain ⟨hcur, image, himage, hdata⟩ := hagrees
  obtain ⟨-, hwidth, hheight, -⟩ := fill_eq himage
  have hlast : lastImage c (past ++ [.published f]) = some image.shown := by
    simp [lastImage, framesPublished, PaintingEvent.published?, himage]
  refine ⟨hlock, hexcl, ?_, ?_, hlive, h.draws.concat fun image? heq => by cases heq⟩
  · rw [hlast]
    refine ⟨buffer, ?_, hcur, hdata⟩
    rw [FrameImage.shown, hwidth, hheight]
  · simp only [framesEntered, framesPublished, List.filterMap_append] at hentered ⊢
    simp [hentered, PaintingEvent.entered?, PaintingEvent.published?, OnFramePC.frame?]

theorem Sound.leave (h : Sound c past s) (hpc : s.decoder = .assigned) :
    Sound c past { s with lock := none, decoder := .idle } := by
  have hagrees := h.agrees
  have hentered := h.entered
  have hlive := h.live
  have hexcl := h.exclusive
  rw [hpc] at hagrees hentered hlive hexcl
  have hgui : s.gui.holdsLock = false := hexcl rfl
  refine ⟨?_, (fun hcrit => by cases hcrit), hagrees, hentered, hlive, h.draws⟩
  simp [hgui, OnFramePC.holdsLock]

theorem Sound.silent (h : Sound c past s) : Sound c (past ++ []) s :=
  (List.append_nil past).symm ▸ h

/-- **A step of `on_frame`** is defined. -/
theorem Sound.onFrameStep (h : Sound c past s) : ∃ s' out,
    NaiveStreaming.onFrameStep c s = (some s', out) ∧ Sound c (past ++ out) s' := by
  cases hpc : s.decoder with
  | idle => exact ⟨s, [], by simp only [NaiveStreaming.onFrameStep, hpc], h.silent⟩
  | filling f buffer rest =>
      cases rest with
      | nil =>
          by_cases hfree : s.lock = none
          · refine ⟨_, _, ?_, (h.lockDecoder hpc hfree).silent⟩
            simp only [NaiveStreaming.onFrameStep, hpc, hfree, if_true]
          · exact ⟨s, [], by simp only [NaiveStreaming.onFrameStep, hpc, hfree, if_false],
              h.silent⟩
      | cons p rest =>
          obtain ⟨data, hturn, hsound⟩ := h.fill hpc
          exact ⟨_, _, by simp only [NaiveStreaming.onFrameStep, hpc, hturn], hsound.silent⟩
  | locked f buffer =>
      exact ⟨_, _, by simp only [NaiveStreaming.onFrameStep, hpc], (h.move hpc).silent⟩
  | moved f buffer =>
      exact ⟨_, _, by simp only [NaiveStreaming.onFrameStep, hpc], h.publish hpc⟩
  | assigned =>
      exact ⟨_, _, by simp only [NaiveStreaming.onFrameStep, hpc], (h.leave hpc).silent⟩

/-- While `paintEvent` holds the mutex, `on_frame` does not. -/
theorem Sound.outside (h : Sound c past s) (hgui : s.gui.holdsLock = true) :
    s.decoder.holdsLock = false := by
  cases hcrit : s.decoder.holdsLock with
  | false => rfl
  | true => simp [h.exclusive hcrit] at hgui

/-- A change of `paintEvent` and the mutex alone, with a draw at most. -/
theorem Sound.paint (h : Sound c past s) (lock : Option WindowThread) (gui : PaintPC)
    {out : List PaintingEvent}
    (hlock : lock = if s.decoder.holdsLock then some .decoder
      else if gui.holdsLock then some .gui else none)
    (hexcl : s.decoder.holdsLock = true → gui.holdsLock = false)
    (hout : out = [] ∨ out = [.drew (lastImage c past)]) :
    Sound c (past ++ out) { s with lock := lock, gui := gui } := by
  have hlast : lastImage c (past ++ out) = lastImage c past := by
    rcases hout with rfl | rfl <;> simp [lastImage, framesPublished, PaintingEvent.published?]
  have hevents : framesEntered (past ++ out) = framesEntered past ∧
      framesPublished (past ++ out) = framesPublished past := by
    rcases hout with rfl | rfl <;>
      simp [framesEntered, framesPublished, PaintingEvent.entered?, PaintingEvent.published?]
  refine ⟨hlock, hexcl, ?_, ?_, h.live, ?_⟩
  · have hagrees := h.agrees
    rw [hlast]
    cases hpc : s.decoder <;> rw [hpc] at hagrees <;> exact hagrees
  · rw [hevents.1, hevents.2, h.entered]
  · rcases hout with rfl | rfl
    · rw [List.append_nil]
      exact h.draws
    · refine h.draws.concat ?_
      intro image? heq
      cases heq
      rfl

/-- **A step of `paintEvent`** is defined: the buffer that it draws from is live. -/
theorem Sound.paintStep (h : Sound c past s) : ∃ s' out,
    NaiveStreaming.paintStep s = (some s', out) ∧ Sound c (past ++ out) s' := by
  cases hpc : s.gui with
  | idle => exact ⟨s, [], by simp only [NaiveStreaming.paintStep, hpc], h.silent⟩
  | begun =>
      by_cases hfree : s.lock = none
      · obtain ⟨hd, -⟩ := h.free hfree
        refine ⟨_, _, ?_, h.paint (some .gui) .locked ?_ ?_ (.inl rfl)⟩
        · simp only [NaiveStreaming.paintStep, hpc, hfree, if_true]
        · simp [hd, PaintPC.holdsLock]
        · simp [hd]
      · exact ⟨s, [], by simp only [NaiveStreaming.paintStep, hpc, hfree, if_false], h.silent⟩
  | locked =>
      have hout : s.decoder.holdsLock = false := h.outside (by rw [hpc]; rfl)
      have hlock := h.lock
      rw [hpc] at hlock
      have hshows := h.shows hout
      refine ⟨_, _, ?_, h.paint s.lock .drawn hlock (by simp [hout]) (.inr rfl)⟩
      cases hlast : lastImage c past with
      | none =>
          rw [hlast] at hshows
          simp only [NaiveStreaming.paintStep, hpc, hshows.1]
      | some image =>
          rw [hlast] at hshows
          obtain ⟨buffer, himg, -, hdata⟩ := hshows
          simp only [NaiveStreaming.paintStep, hpc, himg, hdata, Option.join_some]
  | drawn =>
      have hout : s.decoder.holdsLock = false := h.outside (by rw [hpc]; rfl)
      refine ⟨_, _, ?_, h.paint none .idle ?_ ?_ (.inl rfl)⟩
      · simp only [NaiveStreaming.paintStep, hpc]
      · simp [hout, PaintPC.holdsLock]
      · simp [hout]

/-- The frame of a call of `on_frame` is one that it is defined on. -/
def PaintingStep.Good (c : ByteCast) (step : PaintingStep) : Prop :=
  ∀ f, step = .onFrame f → ∃ image, NaiveStreaming.onFrame c f = some image

/-- **Every step of either thread** is defined, and keeps what holds. -/
theorem Sound.step (h : Sound c past s) {step : PaintingStep} (hgood : step.Good c) : ∃ s' out,
    (painting c).step s step = (some s', out) ∧ Sound c (past ++ out) s' := by
  cases step with
  | onFrame f =>
      obtain ⟨image, himage⟩ := hgood f rfl
      obtain ⟨hasserted, -⟩ := fill_eq himage
      by_cases hidle : s.decoder = .idle
      · exact ⟨_, _, step_onFrame c hidle hasserted, h.enter himage hidle⟩
      · exact ⟨s, [], by simp only [painting, hidle, if_false], h.silent⟩
  | decoder => exact h.onFrameStep
  | paintEvent =>
      by_cases hidle : s.gui = .idle
      · have hlock := h.lock
        rw [hidle] at hlock
        refine ⟨_, _, ?_, h.paint s.lock .begun hlock (fun _ => rfl) (.inl rfl)⟩
        simp only [painting, hidle, if_true]
      · exact ⟨s, [], by simp only [painting, hidle, if_false], h.silent⟩
  | gui => exact h.paintStep

end Step

/-! ## Any interleaving -/

theorem sound_run (c : ByteCast) {steps : List PaintingStep}
    (h : ∀ f, .onFrame f ∈ steps → ∃ image, onFrame c f = some image) :
    ∃ s, (painting c).final {} steps = some s ∧ Sound c ((painting c).outputs {} steps) s := by
  have hgood : ∀ step ∈ steps, step.Good c := by
    rintro step hstep f rfl
    exact h f hstep
  have hstep : ∀ past s step, Sound c past s → step.Good c → ∃ s' out,
      (painting c).step s step = (some s', out) ∧ Sound c (past ++ out) s' :=
    fun _ _ _ hs hstep => hs.step hstep
  exact Machine.final_history hstep (sound_init c) (Machine.always_of_forall hgood _)

/-- **Painting is safe in any interleaving.**  Let `on_frame` be called, any number of times, with
frames that it is defined on, and `paintEvent` any number of times, and let the steps of the two
threads interleave in any order.  No step reads freed memory or fails otherwise; every draw shows
the whole image of the frame published last, or none before the first; the frames are published in
the order in which `on_frame` was called with them, none left out; and no buffer is live but the
current one and the one that `on_frame` is filling. -/
theorem painting_run (c : ByteCast) (steps : List PaintingStep)
    (h : ∀ f, .onFrame f ∈ steps → ∃ image, onFrame c f = some image) :
    ∃ s, (painting c).final {} steps = some s ∧
      let events := (painting c).outputs {} steps
      (∀ pre image?, pre ++ [.drew image?] <+: events → image? = lastImage c pre) ∧
      framesEntered events = framesPublished events ++ s.decoder.frame?.toList ∧
      ∀ (buffer : ℕ) (data : List UInt8), s.buffers[buffer]? = some (some data) →
        s.currentFrameData = some buffer ∨ s.decoder.buffer? = some buffer := by
  obtain ⟨s, hfinal, hsound⟩ := sound_run c h
  exact ⟨s, hfinal, hsound.draws, hsound.entered, hsound.live⟩

/-- Two pixels; `paintEvent` waits for the mutex while the frame takes the place of the last. -/
theorem painting_run_pair :
    let f : VideoFrame :=
      { pixelFormat := .yuv422Planar, width := 2, height := 1, plane0 := some [16, 16],
        plane1 := some [128], plane2 := some [128] }
    let steps : List PaintingStep :=
      [.onFrame f, .paintEvent, .decoder, .decoder, .decoder, .gui, .decoder, .gui, .decoder,
        .gui, .decoder, .gui, .gui, .onFrame f, .gui]
    ∃ s, (painting .wrap).final {} steps = some s ∧
      let events := (painting .wrap).outputs {} steps
      (∀ pre image?, pre ++ [.drew image?] <+: events → image? = lastImage .wrap pre) ∧
      framesEntered events = framesPublished events ++ s.decoder.frame?.toList ∧
      ∀ (buffer : ℕ) (data : List UInt8), s.buffers[buffer]? = some (some data) →
        s.currentFrameData = some buffer ∨ s.decoder.buffer? = some buffer := by
  intro f steps
  refine painting_run .wrap steps ?_
  intro f' hmem
  have hsame : f' = f := by simpa [steps] using hmem
  rw [hsame]
  exact Option.isSome_iff_exists.mp (by decide +kernel)

end NaiveStreaming
