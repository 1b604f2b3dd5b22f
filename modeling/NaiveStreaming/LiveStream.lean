import NaiveStreaming.CaptureOwnership
import NaiveStreaming.FramesAfterStop
import NaiveStreaming.TransmitApp

/-!
# The live stream

The callback that the application passes to `make_video_capture` runs on the capture's thread: the
frame in a buffer is encoded and sent before the buffer is put back.  So the sending side is the
capture's thread with the application behind it, while `stop` takes its steps at any time; the
memory of the buffers and the clock are read when a frame is handed over.
-/

namespace NaiveStreaming
open ByteOrder Mealy

/-- A step of the thread or of `stop`, with the bytes that the memory of a view holds at that
time and the readings of the clock. -/
structure LiveStep where
  step : ThreadStep
  memory : BufferView → List UInt8
  sampled : ℤ
  ts : ℤ
  ended : ℤ

/-- The call of the callback with the memory of a view. -/
def LiveStep.call (i : LiveStep) (view : BufferView) : CaptureCall :=
  ⟨i.memory view, i.sampled, i.ts, i.ended⟩

/-- The call of the callback, if the event is one. -/
def LiveStep.call? (i : LiveStep) : BufferEvent → Option CaptureCall
  | .onFrame view _ => some (i.call view)
  | _ => none

/-- The thread and `stop`, with the calls of the callback. -/
def capturing : Machine CaptureThread LiveStep CaptureCall where
  step s i :=
    ((captureThread.step s i.step).1, (captureThread.step s i.step).2.filterMap i.call?)

def liveSender {σ : Type} (host : Endian) (x264 : X264 σ) :
    Machine (CaptureThread × StreamTransmitApp σ) LiveStep TransmitAppEvent :=
  capturing.cascade (fun call => [call]) (transmitApp host x264)

theorem final_capturing (steps : List LiveStep) : ∀ s : CaptureThread,
    capturing.final s steps = captureThread.final s (steps.map LiveStep.step) := by
  induction steps with
  | nil => intro s; rfl
  | cons i steps ih =>
      intro s
      simp only [Machine.final, List.map_cons, capturing]
      cases (captureThread.step s i.step).1 with
      | none => rfl
      | some s' => exact ih s'

/-- A step hands over one frame, and makes one call, or none. -/
theorem calls_step (s : CaptureThread) (i : LiveStep) : ∃ handed : List (LiveStep × BufferEvent),
    (handed.map Prod.fst).Sublist [i] ∧
      handed.map Prod.snd = (captureThread.step s i.step).2.filter BufferEvent.handsOver ∧
      handed.map (fun p => p.1.call? p.2) = (capturing.step s i).2.map some := by
  have hcalls : ∀ events : List BufferEvent,
      (events.filter BufferEvent.handsOver).map i.call? = (events.filterMap i.call?).map some := by
    intro events
    induction events with
    | nil => rfl
    | cons event events ih =>
        cases event with
        | onFrame view enqueued => exact congrArg (List.cons _) ih
        | dqbuf index => exact ih
        | access index => exact ih
        | qbuf index enqueued => exact ih
  refine ⟨((captureThread.step s i.step).2.filter BufferEvent.handsOver).map fun e => (i, e),
    ?_, ?_, ?_⟩
  · have hle : (captureThread.step s i.step).2.countP BufferEvent.handsOver ≤ 1 := by
      cases i.step with
      | stop closed => exact Nat.zero_le _
      | worker selected result index =>
          exact Nat.le_trans (handsOver_bufferStep s result index) (by split <;> simp)
    rw [List.countP_eq_length_filter] at hle
    rw [List.map_map]
    match (captureThread.step s i.step).2.filter BufferEvent.handsOver, hle with
    | [], _ => exact List.nil_sublist _
    | [_], _ => exact List.Sublist.refl _
  · rw [List.map_map]
    exact List.map_id _
  · rw [List.map_map]
    exact hcalls _

/-- **One call for every frame that is handed over**, in the same order and at the same steps. -/
theorem calls_capturing (steps : List LiveStep) : ∀ s : CaptureThread,
    ∃ handed : List (LiveStep × BufferEvent), (handed.map Prod.fst).Sublist steps ∧
      handed.map Prod.snd =
        (captureThread.outputs s (steps.map LiveStep.step)).filter BufferEvent.handsOver ∧
      handed.map (fun p => p.1.call? p.2) = (capturing.outputs s steps).map some := by
  induction steps with
  | nil => intro s; exact ⟨[], List.Sublist.refl _, rfl, rfl⟩
  | cons i steps ih =>
      intro s
      obtain ⟨first, hsub, hevents, hcalls⟩ := calls_step s i
      rw [Machine.outputs_cons_eq, List.map_cons, Machine.outputs_cons_eq, List.filter_append,
        List.map_append]
      simp only [capturing] at hcalls ⊢
      cases (captureThread.step s i.step).1 with
      | none =>
          refine ⟨first, hsub.trans (List.singleton_sublist.mpr (List.mem_cons_self ..)), ?_, ?_⟩
          · simpa using hevents
          · simpa using hcalls
      | some s' =>
          obtain ⟨rest, hsub', hevents', hcalls'⟩ := ih s'
          refine ⟨first ++ rest, ?_, ?_, ?_⟩
          · rw [List.map_append]
            exact hsub.append hsub'
          · rw [List.map_append, hevents, hevents']
            rfl
          · rw [List.map_append, hcalls, hcalls']
            rfl

theorem length_calls (steps : List LiveStep) (s : CaptureThread) :
    (capturing.outputs s steps).length =
      (captureThread.outputs s (steps.map LiveStep.step)).countP BufferEvent.handsOver := by
  obtain ⟨handed, -, hevents, hcalls⟩ := calls_capturing steps s
  rw [List.countP_eq_length_filter, ← hevents, ← List.length_map some, ← hcalls, List.length_map,
    List.length_map]

theorem handsOver_frames (frames : List DequeuedFrame) :
    (frames.flatMap DequeuedFrame.events).filter BufferEvent.handsOver =
      frames.map fun frame => .onFrame frame.data frame.enqueued := by
  induction frames with
  | nil => rfl
  | cons frame frames ih =>
      rw [List.flatMap_cons, List.filter_append, ih]
      rfl

theorem exists_frames {frames : List DequeuedFrame} : ∀ {handed : List (LiveStep × BufferEvent)},
    handed.map Prod.snd = frames.map (fun frame => .onFrame frame.data frame.enqueued) →
      ∃ taken : List (LiveStep × DequeuedFrame), taken.map Prod.fst = handed.map Prod.fst ∧
        taken.map Prod.snd = frames ∧
        handed.map (fun p => p.1.call? p.2) = taken.map (fun p => some (p.1.call p.2.data)) := by
  induction frames with
  | nil =>
      intro handed h
      rw [List.map_nil, List.map_eq_nil_iff] at h
      exact ⟨[], by simp [h]⟩
  | cons frame frames ih =>
      intro handed h
      obtain ⟨⟨i, event⟩, rest, rfl, hevent, hrest⟩ := List.map_eq_cons_iff.mp h
      obtain rfl : event = .onFrame frame.data frame.enqueued := hevent
      obtain ⟨taken, hfst, hsnd, hcalls⟩ := ih hrest
      refine ⟨(i, frame) :: taken, by simp [hfst], by simp [hsnd], ?_⟩
      rw [List.map_cons, List.map_cons, hcalls]
      rfl

/-- What was handed over are frames that the program owned. -/
theorem Owns.handedOver {s : VideoCaptureImpl} {past : List BufferEvent} {t : CaptureThread}
    (h : Owns s past t) : ∃ frames : List DequeuedFrame,
      past.filter BufferEvent.handsOver =
        frames.map (fun frame => .onFrame frame.data frame.enqueued) ∧
      frames.flatMap DequeuedFrame.events <+: past.filter BufferEvent.ofFrame ∧
      ∀ frame ∈ frames, frame.OwnedBy s.buffers := by
  obtain ⟨frames, hevents, hown⟩ := h.frames
  refine ⟨frames, ?_, ⟨t.pending, hevents.symm⟩, hown⟩
  have hpending : t.pending.filter BufferEvent.handsOver = [] := by
    rw [List.filter_eq_nil_iff]
    intro event hevent
    simp only [CaptureThread.pending] at hevent
    split_ifs at hevent
    · cases hheld : t.held with
      | none => simp [hheld] at hevent
      | some held =>
          have heq : event = .dqbuf held := by simpa [hheld] using hevent
          simp [heq, BufferEvent.handsOver]
    · exact absurd hevent List.not_mem_nil
  have hframes := congrArg (List.filter BufferEvent.handsOver) hevents
  rw [List.filter_append, handsOver_frames, hpending, List.append_nil,
    List.filter_filter] at hframes
  rw [← hframes]
  refine List.filter_congr ?_
  intro event _
  cases event <;> rfl

/-! ## From the driver to the screen -/

section
variable {σ π κ : Type}

/-- What the application sends for the calls of the callback. -/
theorem sentDatagrams_liveSender (host : Endian) (x264 : X264 σ) (thread : CaptureThread)
    (app : StreamTransmitApp σ) (steps : List LiveStep) :
    sentDatagrams ((liveSender host x264).outputs (thread, app) steps) =
      datagrams host app.udpTransmit (encodedPackets ((encoder x264).outputs app.encoder
        ((capturing.outputs thread steps).map CaptureCall.frame))) := by
  rw [liveSender, Machine.outputs_cascade, List.flatMap_singleton', datagrams_transmitApp]

/-- **The live stream.**  Let a start have mapped all buffers, and let the driver return only
buffers that are enqueued.  In any interleaving of the thread with `stop`,

* the callback is called once for every event of a buffer that is handed over, in order, with the
  memory of that buffer, which was dequeued before and which the program owned;
* behind a channel that keeps all datagrams and their order, the receiving application shows what
  its window would show if the encoder called it directly with the NALs of these calls;
* after a stop is requested there is at most one more call, and none after `stop` has returned. -/
theorem live_stream {calls : List StartOutcomes} {os : StartOutcomes} {s₀ s : VideoCaptureImpl}
    (hcalls : starts calls = some s₀) (h : start os s₀ = some s) (hbuffers : ¬ os.NoBuffers)
    (hmaps : ∀ i < os.count, os.Maps i) {fd : ℤ} (hfd : fd ≠ -1) (steps : List LiveStep)
    (hdriver : captureThread.Always (fun t step => step.KeepsQueue t)
      (CaptureThread.launched fd s) (steps.map LiveStep.step))
    (host : Endian) {x264 : X264 σ} (hsize : x264.SliceMaxSize) (app : StreamTransmitApp σ)
    (lib : AVCodec π κ) (c : ByteCast) (buffer : ReceiveBuffer)
    (view : MainWindow π κ × Option FrameImage) :
    let thread := CaptureThread.launched fd s
    let seen := captureThread.outputs thread (steps.map LiveStep.step)
    let captured := capturing.outputs thread steps
    let packets := encodedPackets
      ((encoder x264).outputs app.encoder (captured.map CaptureCall.frame))
    let wire := sentDatagrams ((liveSender host x264).outputs (thread, app) steps)
    (∃ handed : List (LiveStep × DequeuedFrame), (handed.map Prod.fst).Sublist steps ∧
      captured = handed.map (fun p => p.1.call p.2.data) ∧
      handed.map (fun p => .onFrame p.2.data p.2.enqueued) = seen.filter BufferEvent.handsOver ∧
      handed.flatMap (fun p => p.2.events) <+: seen.filter BufferEvent.ofFrame ∧
      ∀ p ∈ handed, p.2.OwnedBy s.buffers) ∧
    (receiveApp host lib c).outputs (.started buffer, view) (wire.map arrive)
      = (viewer lib c).outputs view packets ∧
    ∀ pre post t, steps = pre ++ post → capturing.final thread pre = some t →
      t.control.stopRequested = true → ∃ last,
        captured = capturing.outputs thread pre ++ last ∧ last.length ≤ 1 ∧
        (t.control.stop = .returned → last = []) := by
  intro thread seen captured packets wire
  refine ⟨?_, ?_, ?_⟩
  · obtain ⟨t, -, howns⟩ := owns_run (enqueued_of_mapped hcalls h hbuffers hmaps) hfd hdriver
    obtain ⟨frames, hevents, hdequeued, hown⟩ := howns.handedOver
    obtain ⟨handed, hsub, hhanded, hcalled⟩ := calls_capturing steps thread
    obtain ⟨taken, hfst, hsnd, htaken⟩ := exists_frames (hhanded.trans hevents)
    refine ⟨taken, hfst ▸ hsub, ?_, ?_, ?_, ?_⟩
    · refine (List.map_injective_iff.mpr (Option.some_injective _)) ?_
      rw [List.map_map]
      exact hcalled.symm.trans htaken
    · rw [hevents, ← hsnd, List.map_map]
      rfl
    · rw [← hsnd, List.flatMap_map] at hdequeued
      exact hdequeued
    · intro p hp
      exact hown p.2 (hsnd ▸ List.mem_map_of_mem hp)
  · have hwire : wire = datagrams host app.udpTransmit packets := sentDatagrams_liveSender ..
    rw [hwire]
    exact (receiveApp_stream host lib c app.udpTransmit
      (arrivedPacket_of_encoded hsize _ app.encoder) buffer view).1
  · rintro pre post t rfl ht hreq
    refine ⟨capturing.outputs t post, ?_, ?_, ?_⟩
    · show capturing.outputs thread (pre ++ post) = _
      rw [Machine.outputs_append_eq, ht, Option.elim_some]
    · rw [length_calls]
      exact frames_after_request hreq _
    · intro hstop
      rw [final_capturing] at ht
      have hnone := outputs_returned ⟨hfd, rfl⟩ ht hstop (post.map LiveStep.step)
      rw [← List.length_eq_zero_iff, length_calls, hnone, List.countP_nil]

end

/-- A frame goes round, and `stop` is called while the second one is waited for. -/
theorem live_stream_two_frames :
    ∃ s, start (fiveBuffers (fun i => .success 1843200 (1843200 * i)) [.success]) {} = some s ∧
      let thread := CaptureThread.launched 3 s
      let step : ThreadStep → LiveStep := fun step => ⟨step, fun view => [view.start.toNat.toUInt8],
        700000000, 700000000, 710000000⟩
      let steps := [plainStep, plainStep, plainStep, .worker .ready .success 0, plainStep,
        plainStep, plainStep, plainStep, .stop true, .worker .ready .success 0,
        .worker .ready .success 1, .stop true, plainStep, plainStep].map step
      let seen := captureThread.outputs thread (steps.map LiveStep.step)
      ∃ handed : List (LiveStep × DequeuedFrame), (handed.map Prod.fst).Sublist steps ∧
        capturing.outputs thread steps = handed.map (fun p => p.1.call p.2.data) ∧
        handed.map (fun p => .onFrame p.2.data p.2.enqueued) =
          seen.filter BufferEvent.handsOver ∧
        handed.flatMap (fun p => p.2.events) <+: seen.filter BufferEvent.ofFrame ∧
        ∀ p ∈ handed, p.2.OwnedBy s.buffers := by
  refine ⟨_, rfl, ?_⟩
  intro thread step steps seen
  have hsize : oneSliceX264.SliceMaxSize := by
    intro h picture call hcall
    rw [List.mem_singleton.mp hcall]
    exact (by decide : 6 ≤ 1400)
  exact (live_stream (rfl : starts [] = some {})
    (rfl : start (fiveBuffers (fun i => .success 1843200 (1843200 * i)) [.success]) {} = some _)
    (by simp [StartOutcomes.NoBuffers, fiveBuffers]) (fun _ _ => ⟨⟨_, _, rfl⟩, _, rfl⟩)
    (show (3 : ℤ) ≠ -1 by decide) steps (by decide) .little hsize { encoder := ⟨(), 0⟩ }
    greedyParser .wrap ⟨List.replicate 1600 0xFF, List.length_replicate ..⟩
    (⟨0, (), ()⟩, none)).1

end NaiveStreaming
