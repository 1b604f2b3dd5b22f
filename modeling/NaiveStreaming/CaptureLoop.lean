import NaiveStreaming.CaptureStop

/-!
# The reading loop

The working thread that `VideoCaptureImpl::start` launches waits for a frame with `select` and
calls `read_frame`, which takes a buffer out of the driver's queue, hands its memory to
`m_on_frame` and puts it back.  A buffer belongs either to the driver, when it is enqueued, or
to the program.

The driver is a parameter: what its calls come to, and which buffer a `VIDIOC_DQBUF` returns.
-/

namespace NaiveStreaming
open Mealy

/-- What the calls of one turn come to. -/
structure TurnOutcomes where
  /-- `stoken.stop_requested()` -/
  stopRequested : Bool := false
  select : SelectResult := .ready
  /-- `VIDIOC_DQBUF`, with its retries. -/
  dqbuf : List IoctlResult := [.success]
  /-- `buff.index` after the `VIDIOC_DQBUF` that succeeds. -/
  index : ℕ
  /-- `VIDIOC_QBUF`, with its retries. -/
  qbuf : List IoctlResult := [.success]
  /-- `is_closing()`, after `read_frame` had no result. -/
  isClosing : Bool := false
  deriving DecidableEq, Repr

/-- What is seen of the buffers. -/
inductive BufferEvent
  /-- A `VIDIOC_DQBUF` that succeeds. -/
  | dqbuf (index : ℕ)
  | access (index : ℕ)
  /-- `m_on_frame`, and the buffers that are enqueued when it is called. -/
  | onFrame (data : BufferView) (enqueued : List ℕ)
  /-- A `VIDIOC_QBUF` that succeeds, and the buffers that were enqueued before it. -/
  | qbuf (index : ℕ) (enqueued : List ℕ)
  deriving DecidableEq, Repr

/-- `VideoCaptureImpl::read_frame`; nothing when an `xioctl` does not return, or an access is
outside `m_buffers`.  When an ioctl fails, the tests of `is_closing` and of `EAGAIN` all lead to
the same empty result. -/
def readFrame (o : TurnOutcomes) (s : VideoCaptureImpl) :
    Option (Option Bool × VideoCaptureImpl) × List BufferEvent :=
  match xioctl o.dqbuf with
  | none => (none, [])
  | some (.failure _) => (some (none, s), [])
  | some .success =>
    let s := { s with enqueued := s.enqueued.erase o.index }
    let accesses : List BufferEvent := [.dqbuf o.index, .access o.index, .access o.index]
    match s.buffers[o.index]? with
    | none => (none, accesses)
    | some view =>
      let events := accesses ++ [.onFrame view s.enqueued]
      match xioctl o.qbuf with
      | none => (none, events)
      | some (.failure _) => (some (none, s), events)
      | some .success =>
        (some (some true, { s with enqueued := s.enqueued ++ [o.index] }),
          events ++ [.qbuf o.index s.enqueued])

/-- The capture, and whether the thread is at the head of its loop or has ended. -/
structure ReadingLoop where
  capture : VideoCaptureImpl
  running : Bool := true
  deriving DecidableEq, Repr

/-- A turn of the loop.  A `read_frame` without a result ends the thread, unless the capture is
closing. -/
def readingTurn (s : ReadingLoop) (o : TurnOutcomes) : Option ReadingLoop × List BufferEvent :=
  if ¬ s.running then (some s, [])
  else if o.stopRequested then (some { s with running := false }, [])
  else
    match o.select with
    | .interrupted => (some s, [])
    | .failed => (some { s with running := false }, [])
    | .timeout => (some { s with running := false }, [])
    | .ready =>
      match readFrame o s.capture with
      | (none, events) => (none, events)
      | (some (some _, capture), events) => (some { s with capture := capture }, events)
      | (some (none, capture), events) => (some ⟨capture, o.isClosing⟩, events)

def readingLoop : Machine ReadingLoop TurnOutcomes BufferEvent where
  step := readingTurn

/-- Calls of `start` on a fresh capture. -/
def starts (calls : List StartOutcomes) : Option VideoCaptureImpl :=
  calls.foldlM (fun s os => start os s) {}

/-! ## Buffers that are neither lost nor aliased -/

/-- The turn gets to a `VIDIOC_DQBUF`, and it succeeds. -/
def TurnOutcomes.Dequeues (o : TurnOutcomes) (s : ReadingLoop) : Prop :=
  s.running = true ∧ o.stopRequested = false ∧ o.select = .ready ∧ xioctl o.dqbuf = some .success

/-- The descriptor is open, and the driver returns only a buffer that is enqueued. -/
def DriverKeepsQueue (s : ReadingLoop) (o : TurnOutcomes) : Prop :=
  o.isClosing = false ∧ (o.Dequeues s → o.index ∈ s.capture.enqueued)

/-- The events of a `VIDIOC_DQBUF` that succeeds and of `m_on_frame`. -/
def BufferEvent.ofFrame : BufferEvent → Bool
  | dqbuf _ => true
  | onFrame _ _ => true
  | _ => false

/-- A frame that was dequeued and handed to `m_on_frame`. -/
structure DequeuedFrame where
  index : ℕ
  data : BufferView
  enqueued : List ℕ

def DequeuedFrame.events (frame : DequeuedFrame) : List BufferEvent :=
  [.dqbuf frame.index, .onFrame frame.data frame.enqueued]

/-- The frame was handed over with its own buffer, while the driver did not have it. -/
def DequeuedFrame.OwnedBy (frame : DequeuedFrame) (buffers : List BufferView) : Prop :=
  buffers[frame.index]? = some frame.data ∧ frame.index ∉ frame.enqueued

/-- What may be seen of buffers with these views. -/
structure Orderly (buffers : List BufferView) (events : List BufferEvent) : Prop where
  /-- Every access to `m_buffers` is inside. -/
  inside : ∀ index, .access index ∈ events → index < buffers.length
  /-- No buffer is enqueued that is already. -/
  once : ∀ index enqueued, .qbuf index enqueued ∈ events → index ∉ enqueued
  /-- Every buffer that is dequeued is handed to `m_on_frame`, once, with its own view and while it
  is not enqueued. -/
  frames : ∃ frames : List DequeuedFrame,
    events.filter BufferEvent.ofFrame = frames.flatMap DequeuedFrame.events ∧
    ∀ frame ∈ frames, frame.OwnedBy buffers

/-- After `start` has left `s`, these turns keep the buffers: at the head of the loop those are
enqueued that `start_capture` enqueued, and there never is one twice. -/
structure KeepsBuffers (s : VideoCaptureImpl) (turns : List TurnOutcomes) : Prop where
  head : ∀ t, readingLoop.final ⟨s, true⟩ turns = some t → t.running = true →
    ∀ index, index ∈ t.capture.enqueued ↔ index ∈ s.enqueued
  nodup : ∀ t, readingLoop.final ⟨s, true⟩ turns = some t → t.capture.enqueued.Nodup
  buffers : ∀ t, readingLoop.final ⟨s, true⟩ turns = some t → t.capture.buffers = s.buffers
  orderly : Orderly s.buffers (readingLoop.outputs ⟨s, true⟩ turns)
  /-- A turn that dequeues a buffer hands over that buffer, and no other. -/
  dequeued : ∀ before o t, before ++ [o] <+: turns →
    readingLoop.final ⟨s, true⟩ before = some t → o.Dequeues t →
      ∃ frame : DequeuedFrame, frame.index = o.index ∧ frame.OwnedBy s.buffers ∧
        (readingTurn t o).2.filter BufferEvent.ofFrame = frame.events

theorem enqueued_of_start {os : StartOutcomes} {s s' : VideoCaptureImpl}
    (h : start os s = some s') (hbuffers : s'.buffers = []) : s'.enqueued = s.enqueued := by
  by_cases hno : os.NoBuffers
  · obtain ⟨granted, rfl⟩ := start_noBuffers h hno
    rfl
  · by_cases hmaps : ∀ i < os.count, os.Maps i
    · obtain ⟨granted, -, buffers, first, on, hlen, -, -, rfl, -⟩ := start_mapped h hno hmaps
      have hnil : buffers = [] := hbuffers
      have hcount := (os.not_noBuffers_iff.mp hno).2
      rw [hnil, List.length_nil] at hlen
      omega
    · obtain ⟨granted, -, buffers, mapped, -, rfl⟩ := start_unmapped h hno hmaps
      rfl

/-- While `start` can be called again, nothing is enqueued. -/
theorem enqueued_of_starts (calls : List StartOutcomes) : ∀ {s s' : VideoCaptureImpl},
    (s.buffers = [] → s.enqueued = []) →
      calls.foldlM (fun s os => start os s) s = some s' → s'.buffers = [] → s'.enqueued = [] := by
  induction calls with
  | nil =>
      intro s s' hs h hbuffers
      cases h
      exact hs hbuffers
  | cons os calls ih =>
      intro s s' hs h
      rw [List.foldlM_cons, Option.bind_eq_bind, Option.bind_eq_some_iff] at h
      obtain ⟨t, hstart, hrest⟩ := h
      refine ih ?_ hrest
      intro hbuffers
      rw [enqueued_of_start hstart hbuffers]
      exact hs (buffers_eq_nil_of_start hstart)

/-! ## One turn -/

/-- What the loop keeps, with the buffers and the queue that it began with. -/
structure LoopInv (s : VideoCaptureImpl) (t : ReadingLoop) : Prop where
  buffers : t.capture.buffers = s.buffers
  nodup : t.capture.enqueued.Nodup
  bound : ∀ index ∈ t.capture.enqueued, index < s.buffers.length
  head : t.running = true → t.capture.enqueued.Perm s.enqueued

theorem orderly_nil (buffers : List BufferView) : Orderly buffers [] where
  inside := by simp
  once := by simp
  frames := ⟨[], rfl, by simp⟩

theorem Orderly.append {buffers : List BufferView} {xs ys : List BufferEvent}
    (hx : Orderly buffers xs) (hy : Orderly buffers ys) : Orderly buffers (xs ++ ys) where
  inside index h := (List.mem_append.mp h).elim (hx.inside index) (hy.inside index)
  once index enqueued h :=
    (List.mem_append.mp h).elim (hx.once index enqueued) (hy.once index enqueued)
  frames := by
    obtain ⟨framesX, heqX, hownX⟩ := hx.frames
    obtain ⟨framesY, heqY, hownY⟩ := hy.frames
    refine ⟨framesX ++ framesY, ?_, ?_⟩
    · rw [List.filter_append, heqX, heqY, List.flatMap_append]
    · intro frame hframe
      exact (List.mem_append.mp hframe).elim (hownX frame) (hownY frame)

/-- The traffic of a buffer that is dequeued, with the `VIDIOC_QBUF` at the end or without. -/
theorem orderly_frame {buffers : List BufferView} {index : ℕ} {view : BufferView}
    {enqueued : List ℕ} (hview : buffers[index]? = some view) (hown : index ∉ enqueued)
    {last : List BufferEvent} (hlast : last = [] ∨ last = [.qbuf index enqueued]) :
    Orderly buffers
      ([.dqbuf index, .access index, .access index] ++ [.onFrame view enqueued] ++ last) where
  inside i h := by
    have hlt := (List.getElem?_eq_some_iff.mp hview).1
    rcases hlast with rfl | rfl <;> simp at h <;> exact h ▸ hlt
  once i queue h := by
    rcases hlast with rfl | rfl <;> simp at h
    rw [h.1, h.2]
    exact hown
  frames := by
    refine ⟨[⟨index, view, enqueued⟩], ?_, ?_⟩
    · rcases hlast with rfl | rfl <;> rfl
    · intro frame hframe
      rw [List.mem_singleton.mp hframe]
      exact ⟨hview, hown⟩

theorem requeued_perm {enqueued : List ℕ} {index : ℕ} (h : index ∈ enqueued) :
    (enqueued.erase index ++ [index]).Perm enqueued :=
  (List.perm_append_comm).trans (List.perm_cons_erase h).symm

/-- **One call of `read_frame`** takes no buffer; or it takes one and hands it over, and puts it
back if it has a result. -/
theorem readFrame_cases (o : TurnOutcomes) (s : VideoCaptureImpl)
    (h : xioctl o.dqbuf = some .success → o.index < s.buffers.length) :
    (xioctl o.dqbuf ≠ some .success ∧ (readFrame o s).2 = [] ∧
      ∀ result t, (readFrame o s).1 = some (result, t) → result = none ∧ t = s) ∨
    ∃ view last, xioctl o.dqbuf = some .success ∧ s.buffers[o.index]? = some view ∧
      (readFrame o s).2 = [.dqbuf o.index, .access o.index, .access o.index] ++
        [.onFrame view (s.enqueued.erase o.index)] ++ last ∧
      (last = [] ∨ last = [.qbuf o.index (s.enqueued.erase o.index)]) ∧
      ∀ result t, (readFrame o s).1 = some (result, t) →
        (result = none ∧ t = { s with enqueued := s.enqueued.erase o.index }) ∨
        t = { s with enqueued := s.enqueued.erase o.index ++ [o.index] } := by
  cases hdqbuf : xioctl o.dqbuf with
  | none => exact .inl (by simp [readFrame, hdqbuf])
  | some outcome =>
      cases outcome with
      | failure errno =>
          left
          refine ⟨by simp, by simp [readFrame, hdqbuf], ?_⟩
          intro result t heq
          simp only [readFrame, hdqbuf, Option.some.injEq, Prod.mk.injEq] at heq
          exact ⟨heq.1.symm, heq.2.symm⟩
      | success =>
          right
          obtain ⟨view, hview⟩ : ∃ view, s.buffers[o.index]? = some view :=
            ⟨_, List.getElem?_eq_getElem (h hdqbuf)⟩
          cases hqbuf : xioctl o.qbuf with
          | none => exact ⟨view, [], rfl, hview, by simp [readFrame, hdqbuf, hview, hqbuf]⟩
          | some outcome =>
              cases outcome with
              | failure errno =>
                  refine ⟨view, [], rfl, hview, by simp [readFrame, hdqbuf, hview, hqbuf],
                    .inl rfl, ?_⟩
                  intro result t heq
                  simp only [readFrame, hdqbuf, hview, hqbuf, Option.some.injEq,
                    Prod.mk.injEq] at heq
                  exact .inl ⟨heq.1.symm, heq.2.symm⟩
              | success =>
                  refine ⟨view, [.qbuf o.index (s.enqueued.erase o.index)], rfl, hview,
                    by simp [readFrame, hdqbuf, hview, hqbuf], .inr rfl, ?_⟩
                  intro result t heq
                  simp only [readFrame, hdqbuf, hview, hqbuf, Option.some.injEq,
                    Prod.mk.injEq] at heq
                  exact .inr heq.2.symm

theorem readingTurn_idle {t : ReadingLoop} {o : TurnOutcomes}
    (h : ¬ (t.running = true ∧ o.stopRequested = false ∧ o.select = .ready)) :
    (readingTurn t o).2 = [] ∧ ∀ t', (readingTurn t o).1 = some t' →
      t'.capture = t.capture ∧ (t'.running = true → t.running = true) := by
  cases hrun : t.running with
  | false => simp [readingTurn, hrun]
  | true =>
      cases hstop : o.stopRequested with
      | true => simp [readingTurn, hrun, hstop]
      | false =>
          cases hselect : o.select with
          | ready => exact absurd ⟨hrun, hstop, hselect⟩ h
          | interrupted => simp [readingTurn, hrun, hstop, hselect]
          | failed => simp [readingTurn, hrun, hstop, hselect]
          | timeout => simp [readingTurn, hrun, hstop, hselect]

/-- A turn that gets to `read_frame`; the thread goes on if that has a result. -/
theorem readingTurn_ready {t : ReadingLoop} {o : TurnOutcomes} (hrun : t.running = true)
    (hstop : o.stopRequested = false) (hselect : o.select = .ready)
    (hopen : o.isClosing = false) : readingTurn t o =
      ((readFrame o t.capture).1.map fun result => ⟨result.2, result.1.isSome⟩,
        (readFrame o t.capture).2) := by
  simp only [readingTurn, hrun, hstop, hselect, hopen, not_true_eq_false, if_false,
    Bool.false_eq_true]
  obtain ⟨outcome, events⟩ := readFrame o t.capture
  cases outcome with
  | none => rfl
  | some result =>
      obtain ⟨frame, capture⟩ := result
      cases frame <;> rfl

theorem LoopInv.unchanged {s : VideoCaptureImpl} {t t' : ReadingLoop} (h : LoopInv s t)
    (hcapture : t'.capture = t.capture) (hrun : t'.running = true → t.running = true) :
    LoopInv s t' where
  buffers := by rw [hcapture, h.buffers]
  nodup := by rw [hcapture]; exact h.nodup
  bound := by rw [hcapture]; exact h.bound
  head hrunning := by rw [hcapture]; exact h.head (hrun hrunning)

theorem LoopInv.kept {s : VideoCaptureImpl} {t : ReadingLoop} (h : LoopInv s t) (index : ℕ) :
    LoopInv s ⟨{ t.capture with enqueued := t.capture.enqueued.erase index }, false⟩ where
  buffers := h.buffers
  nodup := h.nodup.erase index
  bound i hi := h.bound i (List.mem_of_mem_erase hi)
  head hrunning := by cases hrunning

theorem LoopInv.requeued {s : VideoCaptureImpl} {t : ReadingLoop} (h : LoopInv s t)
    (hrun : t.running = true) {index : ℕ} (hindex : index ∈ t.capture.enqueued) (running : Bool) :
    LoopInv s ⟨{ t.capture with
      enqueued := t.capture.enqueued.erase index ++ [index] }, running⟩ where
  buffers := h.buffers
  nodup := (requeued_perm hindex).nodup_iff.mpr h.nodup
  bound i hi := h.bound i ((requeued_perm hindex).mem_iff.mp hi)
  head _ := (requeued_perm hindex).trans (h.head hrun)

/-- A buffer that is dequeued was enqueued, and is one that is mapped. -/
theorem LoopInv.dequeued {s : VideoCaptureImpl} {t : ReadingLoop} {o : TurnOutcomes}
    (hinv : LoopInv s t) (hdriver : DriverKeepsQueue t o) (h : o.Dequeues t) :
    o.index ∈ t.capture.enqueued ∧ o.index < t.capture.buffers.length := by
  have hmem : o.index ∈ t.capture.enqueued := hdriver.2 h
  refine ⟨hmem, ?_⟩
  rw [hinv.buffers]
  exact hinv.bound o.index hmem

/-- **One turn of the loop** shows orderly traffic, and keeps the invariant. -/
theorem readingTurn_orderly {s : VideoCaptureImpl} {t : ReadingLoop} {o : TurnOutcomes}
    (hinv : LoopInv s t) (hdriver : DriverKeepsQueue t o) :
    Orderly s.buffers (readingTurn t o).2 ∧
      ∀ t', (readingTurn t o).1 = some t' → LoopInv s t' := by
  by_cases hready : t.running = true ∧ o.stopRequested = false ∧ o.select = .ready
  · obtain ⟨hrun, hstop, hselect⟩ := hready
    have hindex : xioctl o.dqbuf = some .success →
        o.index ∈ t.capture.enqueued ∧ o.index < t.capture.buffers.length :=
      fun hdqbuf => hinv.dequeued hdriver ⟨hrun, hstop, hselect, hdqbuf⟩
    rw [readingTurn_ready hrun hstop hselect hdriver.1]
    simp only [Option.map_eq_some_iff]
    rcases readFrame_cases o t.capture (fun hdqbuf => (hindex hdqbuf).2) with
      ⟨-, hevents, hresult⟩ | ⟨view, last, hdqbuf, hview, hevents, hlast, hresult⟩
    · rw [hevents]
      refine ⟨orderly_nil s.buffers, ?_⟩
      rintro t' ⟨⟨result, capture⟩, heq, rfl⟩
      obtain ⟨rfl, rfl⟩ := hresult result capture heq
      exact hinv.unchanged rfl (fun _ => hrun)
    · rw [hevents]
      have hown : o.index ∉ t.capture.enqueued.erase o.index := hinv.nodup.not_mem_erase
      refine ⟨orderly_frame (hinv.buffers ▸ hview) hown hlast, ?_⟩
      rintro t' ⟨⟨result, capture⟩, heq, rfl⟩
      rcases hresult result capture heq with ⟨rfl, rfl⟩ | rfl
      · exact hinv.kept o.index
      · exact hinv.requeued hrun (hindex hdqbuf).1 _
  · obtain ⟨hevents, hnext⟩ := readingTurn_idle hready
    rw [hevents]
    exact ⟨orderly_nil s.buffers, fun t' ht' => hinv.unchanged (hnext t' ht').1 (hnext t' ht').2⟩

/-- **A turn that dequeues a buffer** hands it over. -/
theorem readingTurn_dequeues {s : VideoCaptureImpl} {t : ReadingLoop} {o : TurnOutcomes}
    (hinv : LoopInv s t) (hdriver : DriverKeepsQueue t o) (h : o.Dequeues t) :
    ∃ frame : DequeuedFrame, frame.index = o.index ∧ frame.OwnedBy s.buffers ∧
      (readingTurn t o).2.filter BufferEvent.ofFrame = frame.events := by
  have hbound := (hinv.dequeued hdriver h).2
  obtain ⟨hrun, hstop, hselect, hdqbuf⟩ := h
  rcases readFrame_cases o t.capture (fun _ => hbound) with
    ⟨hfailed, -⟩ | ⟨view, last, -, hview, hevents, hlast, -⟩
  · exact absurd hdqbuf hfailed
  · refine ⟨⟨o.index, view, t.capture.enqueued.erase o.index⟩, rfl, ⟨?_, ?_⟩, ?_⟩
    · rw [← hinv.buffers]
      exact hview
    · exact hinv.nodup.not_mem_erase
    · rw [readingTurn_ready hrun hstop hselect hdriver.1, hevents]
      rcases hlast with rfl | rfl <;> rfl

theorem loopInv_initial {s : VideoCaptureImpl}
    (h : s.enqueued <+: List.range s.buffers.length) : LoopInv s ⟨s, true⟩ where
  buffers := rfl
  nodup := List.Nodup.sublist h.sublist List.nodup_range
  bound _ hindex := List.mem_range.mp (h.subset hindex)
  head _ := List.Perm.refl s.enqueued

/-- **All runs of the loop.**  After a `start` that has mapped all buffers, whatever the calls
before it came to, nothing but the first of the buffers is enqueued, every buffer has the view
that the driver and `mmap` gave for it, and the turns of the loop keep the buffers while the
descriptor is open and the driver returns those that are enqueued. -/
theorem readingLoop_keepsBuffers {calls : List StartOutcomes} {os : StartOutcomes}
    {s₀ s : VideoCaptureImpl} (hcalls : starts calls = some s₀) (h : start os s₀ = some s)
    (hbuffers : ¬ os.NoBuffers) (hmaps : ∀ i < os.count, os.Maps i) (turns : List TurnOutcomes)
    (hdriver : readingLoop.Always DriverKeepsQueue ⟨s, true⟩ turns) :
    s₀.enqueued = [] ∧ s.buffers.length = os.count ∧ s.enqueued <+: List.range os.count ∧
      (∀ i < os.count, ∃ view, s.buffers[i]? = some view ∧ os.Views i view) ∧
      KeepsBuffers s turns := by
  have hqueue : s₀.enqueued = [] :=
    enqueued_of_starts calls (fun _ => rfl) hcalls (buffers_eq_nil_of_start h)
  obtain ⟨granted, -, buffers, first, on, hlen, hviews, hfirst, hs, -⟩ :=
    start_mapped h hbuffers hmaps
  have hqueued : s.enqueued = first := by rw [hs, hqueue, List.nil_append]
  have hkept : s.buffers = buffers := by rw [hs]
  rw [← hqueued] at hfirst
  rw [← hkept] at hlen hviews
  have hkeeps : ∀ turns, readingLoop.Always DriverKeepsQueue ⟨s, true⟩ turns →
      Orderly s.buffers (readingLoop.outputs ⟨s, true⟩ turns) ∧
        ∀ t, readingLoop.final ⟨s, true⟩ turns = some t → LoopInv s t := fun turns =>
    Machine.outputs_and_final_of_always (m := readingLoop) (orderly_nil s.buffers)
      (fun _ _ => Orderly.append) (fun _ _ => readingTurn_orderly) turns ⟨s, true⟩
      (loopInv_initial (hlen ▸ hfirst))
  obtain ⟨horderly, hfinal⟩ := hkeeps turns hdriver
  refine ⟨hqueue, hlen, hfirst, hviews, ?_⟩
  refine
    { head := fun t ht hrun index => ((hfinal t ht).head hrun).mem_iff
      nodup := fun t ht => (hfinal t ht).nodup
      buffers := fun t ht => (hfinal t ht).buffers
      orderly := horderly
      dequeued := ?_ }
  rintro before o t ⟨rest, rfl⟩ hfinal hdequeues
  rw [List.append_assoc] at hdriver
  obtain ⟨hbefore, hafter⟩ := Machine.always_append.mp hdriver
  have hinv : LoopInv s t := (hkeeps before hbefore).2 t hfinal
  exact readingTurn_dequeues hinv (hafter t hfinal).1 hdequeues

/-- A start that maps five buffers, a frame that goes round, and one whose buffer is not taken
back. -/
theorem readingLoop_keepsBuffers_two_frames :
    ∃ s, start (fiveBuffers (fun i => .success 1843200 (1843200 * i)) [.success]) {} = some s ∧
      s.enqueued = [0, 1, 2, 3, 4] ∧
      KeepsBuffers s [{ index := 0 }, { index := 1, qbuf := [.failure .einval] }] := by
  have hmapped := readingLoop_keepsBuffers (rfl : starts [] = some {})
    (rfl : start (fiveBuffers (fun i => .success 1843200 (1843200 * i)) [.success]) {} = some _)
    (by simp [StartOutcomes.NoBuffers, fiveBuffers]) (fun _ _ => ⟨⟨_, _, rfl⟩, _, rfl⟩)
    [{ index := 0 }, { index := 1, qbuf := [.failure .einval] }]
    ⟨⟨rfl, fun _ => by decide⟩, fun _ hfirst => by
      cases hfirst
      exact ⟨⟨rfl, fun _ => by decide⟩, fun _ _ => trivial⟩⟩
  exact ⟨_, rfl, rfl, hmapped.2.2.2.2⟩

end NaiveStreaming
