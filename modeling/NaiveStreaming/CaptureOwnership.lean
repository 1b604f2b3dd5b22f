import NaiveStreaming.CaptureThread

/-!
# The buffers in any interleaving

A buffer is with the driver or with the capture thread, wherever the thread is and whatever `stop`
does between its steps.
-/

namespace NaiveStreaming
open Mealy

/-- The driver returns only a buffer that is enqueued. -/
def ThreadStep.KeepsQueue (t : CaptureThread) (step : ThreadStep) : Prop :=
  ∀ selected index, step = .worker selected .success index → t.control.worker = .dqbuf →
    index ∈ t.capture.enqueued

instance (t : CaptureThread) : DecidablePred (ThreadStep.KeepsQueue t)
  | .worker _ .success index =>
    decidable_of_iff (t.control.worker = .dqbuf → index ∈ t.capture.enqueued)
      (by simp [ThreadStep.KeepsQueue])
  | .worker _ (.failure _) _ => .isTrue (by simp [ThreadStep.KeepsQueue])
  | .stop _ => .isTrue (by simp [ThreadStep.KeepsQueue])

/-- The program has a buffer, and where it has none: in the calls before a frame, and at the test
of the token unless that ends the thread. -/
def WorkerPC.Holds (stopRequested : Bool) (held : Option ℕ) : WorkerPC → Prop
  | onFrame | qbuf => held.isSome
  | fdSet | select | dqbuf | dqbufFailed => held = none
  | testToken => stopRequested = false → held = none
  | qbufFailed | readFailed | done => True

/-- The event of a buffer that is dequeued and not yet handed over. -/
def CaptureThread.pending (t : CaptureThread) : List BufferEvent :=
  if t.control.worker = .onFrame then (t.held.map BufferEvent.dqbuf).toList else []

/-- Where the buffers are, of those that `s` has enqueued, and what was seen of them. -/
structure Owns (s : VideoCaptureImpl) (past : List BufferEvent) (t : CaptureThread) : Prop where
  buffers : t.capture.buffers = s.buffers
  /-- A buffer is with the driver or with the program, and with one of them only. -/
  conserved : (t.held.toList ++ t.capture.enqueued).Perm s.enqueued
  holds : t.control.worker.Holds t.control.stopRequested t.held
  requested : t.control.stop ≠ .requestStop → t.control.stopRequested = true
  closing : t.control.fd = -1 → t.control.stopRequested = true
  inside : ∀ index, .access index ∈ past → index < s.buffers.length
  once : ∀ index enqueued, .qbuf index enqueued ∈ past → index ∉ enqueued
  /-- Every buffer that is dequeued is handed over next, with its own view, while it is not
  enqueued. -/
  frames : ∃ frames : List DequeuedFrame,
    past.filter BufferEvent.ofFrame = frames.flatMap DequeuedFrame.events ++ t.pending ∧
    ∀ frame ∈ frames, frame.OwnedBy s.buffers

theorem WorkerPC.Holds.mono {pc : WorkerPC} {stopRequested : Bool} {held : Option ℕ}
    (h : pc.Holds stopRequested held) : pc.Holds true held := by
  cases pc <;> first | exact h | exact fun hfalse => by cases hfalse

section Ownership
variable {s : VideoCaptureImpl} {past : List BufferEvent} {t : CaptureThread}

/-- A buffer that the program has is not enqueued, and has a view. -/
theorem Owns.of_held (h : Owns s past t) (hnodup : s.enqueued.Nodup)
    (hbound : ∀ index ∈ s.enqueued, index < s.buffers.length) {held : ℕ}
    (hheld : t.held = some held) :
    held ∉ t.capture.enqueued ∧ ∃ view, s.buffers[held]? = some view := by
  have hperm := h.conserved
  rw [hheld] at hperm
  have hmem : held ∈ s.enqueued := hperm.mem_iff.mp (List.mem_cons_self ..)
  exact ⟨(List.nodup_cons.mp (hperm.nodup_iff.mpr hnodup)).1, _,
    List.getElem?_eq_getElem (hbound held hmem)⟩

theorem Owns.stop (h : Owns s past t) (closed : Bool) :
    Owns s past { t with control := stopStep t.control closed } := by
  have hreq := requested_stopStep h.requested closed
  have hframes := h.frames
  refine { h with
    holds := ?_, requested := fun _ => hreq, closing := fun _ => hreq, frames := ?_ }
  · simp only [worker_stopStep, hreq]
    exact h.holds.mono
  · simpa only [CaptureThread.pending, worker_stopStep] using hframes

/-- A step of the thread that moves it on and does nothing with the buffers. -/
theorem Owns.move (h : Owns s past t) {pc : WorkerPC}
    (hholds : pc.Holds t.control.stopRequested t.held)
    (hfrom : t.control.worker ≠ .onFrame) (hto : pc ≠ .onFrame) : Owns s past (t.at pc) := by
  have hframes := h.frames
  refine { h with holds := hholds, frames := ?_ }
  simpa [CaptureThread.pending, CaptureThread.at, hfrom, hto] using hframes

theorem Owns.copying (h : Owns s past t) (copy : Option ℤ) : Owns s past (t.copying copy) :=
  ⟨h.buffers, h.conserved, h.holds, h.requested, h.closing, h.inside, h.once, h.frames⟩

theorem Owns.dequeue (h : Owns s past t) (hpc : t.control.worker = .dqbuf) {index : ℕ}
    (hindex : index ∈ t.capture.enqueued) :
    Owns s (past ++ [.dqbuf index]) { t.at .onFrame with
      capture := { t.capture with enqueued := t.capture.enqueued.erase index }
      held := some index } := by
  have hholds := h.holds
  have hperm := h.conserved
  rw [hpc] at hholds
  have hnone : t.held = none := hholds
  obtain ⟨frames, hevents, hown⟩ := h.frames
  refine { h with
    conserved := ?_, holds := rfl, inside := ?_, once := ?_, frames := ⟨frames, ?_, hown⟩ }
  · rw [hnone] at hperm
    exact (List.perm_cons_erase hindex).symm.trans hperm
  · intro i hi
    exact h.inside i (by simpa using hi)
  · intro i enqueued hi
    exact h.once i enqueued (by simpa using hi)
  · rw [List.filter_append, hevents]
    simp [CaptureThread.pending, CaptureThread.at, hpc, BufferEvent.ofFrame]

theorem Owns.handOver (h : Owns s past t) (hnodup : s.enqueued.Nodup)
    (hbound : ∀ index ∈ s.enqueued, index < s.buffers.length)
    (hpc : t.control.worker = .onFrame) {held : ℕ} (hheld : t.held = some held)
    {view : BufferView} (hview : s.buffers[held]? = some view) :
    Owns s (past ++ [.access held, .access held, .onFrame view t.capture.enqueued])
      (t.at .qbuf) := by
  obtain ⟨hnot, -⟩ := h.of_held hnodup hbound hheld
  obtain ⟨frames, hevents, hown⟩ := h.frames
  refine { h with
    holds := ?_, inside := ?_, once := ?_
    frames := ⟨frames ++ [⟨held, view, t.capture.enqueued⟩], ?_, ?_⟩ }
  · rw [show (t.at .qbuf).held = some held from hheld]
    rfl
  · intro i hi
    rcases List.mem_append.mp hi with hold | hnew
    · exact h.inside i hold
    · have heq : i = held := by simpa using hnew
      exact heq ▸ (List.getElem?_eq_some_iff.mp hview).1
  · intro i enqueued hi
    exact h.once i enqueued (by simpa using hi)
  · rw [List.filter_append, hevents]
    simp [CaptureThread.pending, CaptureThread.at, hpc, hheld, BufferEvent.ofFrame,
      DequeuedFrame.events]
  · intro frame hframe
    rcases List.mem_append.mp hframe with hold | hnew
    · exact hown frame hold
    · rw [List.mem_singleton.mp hnew]
      exact ⟨hview, hnot⟩

theorem Owns.requeue (h : Owns s past t) (hnodup : s.enqueued.Nodup)
    (hbound : ∀ index ∈ s.enqueued, index < s.buffers.length)
    (hpc : t.control.worker = .qbuf) {held : ℕ} (hheld : t.held = some held) :
    Owns s (past ++ [.qbuf held t.capture.enqueued]) { t.at .testToken with
      capture := { t.capture with enqueued := t.capture.enqueued ++ [held] }
      held := none } := by
  obtain ⟨hnot, -⟩ := h.of_held hnodup hbound hheld
  have hperm := h.conserved
  rw [hheld] at hperm
  obtain ⟨frames, hevents, hown⟩ := h.frames
  refine { h with
    conserved := ?_, holds := fun _ => rfl, inside := ?_, once := ?_
    frames := ⟨frames, ?_, hown⟩ }
  · show (t.capture.enqueued ++ [held]).Perm s.enqueued
    exact List.perm_append_comm.trans hperm
  · intro i hi
    exact h.inside i (by simpa using hi)
  · intro i enqueued hi
    rcases List.mem_append.mp hi with hold | hnew
    · exact h.once i enqueued hold
    · simp only [List.mem_singleton, BufferEvent.qbuf.injEq] at hnew
      rw [hnew.1, hnew.2]
      exact hnot
  · rw [List.filter_append, hevents]
    simp [CaptureThread.pending, CaptureThread.at, hpc, BufferEvent.ofFrame]

/-- A step that only moves the thread on keeps the buffers. -/
theorem Owns.moved (h : Owns s past t) (pc : WorkerPC) {step : ThreadStep}
    (hstep : captureThread.step t step = (some (t.at pc), []))
    (hholds : pc.Holds t.control.stopRequested t.held)
    (hfrom : t.control.worker ≠ .onFrame) (hto : pc ≠ .onFrame) :
    ∃ t' out, captureThread.step t step = (some t', out) ∧ Owns s (past ++ out) t' := by
  refine ⟨_, _, hstep, ?_⟩
  rw [List.append_nil]
  exact h.move hholds hfrom hto

/-- An ioctl that fails moves the thread on, or leaves it to try again. -/
theorem Owns.failed (h : Owns s past t) (hcall : t.AtCall) (pc : WorkerPC)
    {selected : SelectResult} {errno : Errno} {index : ℕ}
    (hstep : errno ≠ .eintr →
      captureThread.step t (.worker selected (.failure errno) index) = (some (t.at pc), []))
    (hholds : pc.Holds t.control.stopRequested t.held) (hto : pc ≠ .onFrame) :
    ∃ t' out, captureThread.step t (.worker selected (.failure errno) index) = (some t', out) ∧
      Owns s (past ++ out) t' := by
  by_cases hintr : errno = .eintr
  · subst hintr
    refine ⟨_, _, hcall.retry selected index, ?_⟩
    rw [List.append_nil]
    exact h.copying _
  · refine h.moved pc (hstep hintr) hholds ?_ hto
    rcases hcall with hpc | ⟨hpc, -⟩ <;> simp [hpc]

/-- **Every step keeps the buffers**, if the driver returns only those that are enqueued. -/
theorem Owns.step (hnodup : s.enqueued.Nodup)
    (hbound : ∀ index ∈ s.enqueued, index < s.buffers.length) (step : ThreadStep)
    (h : Owns s past t) (hqueue : step.KeepsQueue t) :
    ∃ t' out, captureThread.step t step = (some t', out) ∧ Owns s (past ++ out) t' := by
  cases step with
  | stop closed => exact ⟨_, [], rfl, (List.append_nil past).symm ▸ h.stop closed⟩
  | worker selected result index =>
      have hholds := h.holds
      cases hpc : t.control.worker <;> rw [hpc] at hholds
      case testToken =>
        refine h.moved (if t.control.stopRequested then .done else .fdSet)
          (by simp [captureThread, bufferStep, workerStep, hpc, CaptureThread.at]) ?_
          (by simp [hpc]) (by split <;> simp)
        cases hreq : t.control.stopRequested with
        | true => trivial
        | false => exact hholds hreq
      case fdSet =>
        exact h.moved .select
          (by simp [captureThread, bufferStep, workerStep, hpc, CaptureThread.at]) hholds
          (by simp [hpc]) (by simp)
      case select =>
        refine h.moved selected.next ?_ ?_ (by simp [hpc])
          (by cases selected <;> simp [SelectResult.next])
        · cases selected <;>
            simp [captureThread, bufferStep, workerStep, hpc, CaptureThread.at, SelectResult.next]
        · cases selected with
          | interrupted => exact fun _ => hholds
          | failed => trivial
          | timeout => trivial
          | ready => exact hholds
      case dqbuf =>
        cases result with
        | success =>
            have hindex : index ∈ t.capture.enqueued := hqueue selected index rfl hpc
            refine ⟨_, [.dqbuf index], ?_, h.dequeue hpc hindex⟩
            simp [captureThread, bufferStep, workerStep, hpc, CaptureThread.at]
        | failure errno =>
            refine h.failed (.inl hpc) .dqbufFailed ?_ hholds (by simp)
            intro hintr
            simp [captureThread, bufferStep, workerStep, hpc, hintr, CaptureThread.at]
      case dqbufFailed =>
        exact h.moved .readFailed
          (by simp [captureThread, bufferStep, workerStep, hpc, CaptureThread.at]) trivial
          (by simp [hpc]) (by simp)
      case onFrame =>
        obtain ⟨held, hheld⟩ := Option.isSome_iff_exists.mp hholds
        obtain ⟨-, view, hview⟩ := h.of_held hnodup hbound hheld
        refine ⟨t.at .qbuf, _, ?_, h.handOver hnodup hbound hpc hheld hview⟩
        rw [← h.buffers] at hview
        simp [captureThread, bufferStep, workerStep, hpc, hheld, hview, CaptureThread.at]
      case qbuf =>
        obtain ⟨held, hheld⟩ := Option.isSome_iff_exists.mp hholds
        cases result with
        | success =>
            refine ⟨_, _, ?_, h.requeue hnodup hbound hpc hheld⟩
            simp [captureThread, bufferStep, workerStep, hpc, hheld, CaptureThread.at]
        | failure errno =>
            refine h.failed (.inr ⟨hpc, hholds⟩) .qbufFailed ?_ trivial (by simp)
            intro hintr
            simp [captureThread, bufferStep, workerStep, hpc, hheld, hintr, CaptureThread.at]
      case qbufFailed =>
        exact h.moved .readFailed
          (by simp [captureThread, bufferStep, workerStep, hpc, CaptureThread.at]) trivial
          (by simp [hpc]) (by simp)
      case readFailed =>
        refine h.moved (if t.control.IsClosing then .testToken else .done)
          (by simp [captureThread, bufferStep, workerStep, hpc, CaptureThread.at,
            CaptureState.IsClosing]) ?_ (by simp [hpc]) (by split <;> simp)
        split
        next hclosing =>
          intro hreq
          rw [h.closing hclosing] at hreq
          cases hreq
        next => trivial
      case done =>
        refine ⟨t, [], by simp [captureThread, bufferStep, workerStep, hpc], ?_⟩
        rwa [List.append_nil]

end Ownership

theorem owns_launched {fd : ℤ} (hfd : fd ≠ -1) (s : VideoCaptureImpl) :
    Owns s [] (CaptureThread.launched fd s) where
  buffers := rfl
  conserved := List.Perm.refl s.enqueued
  holds := fun _ => rfl
  requested hstop := absurd rfl hstop
  closing hclosed := absurd hclosed hfd
  inside := by simp
  once := by simp
  frames := ⟨[], rfl, by simp⟩

theorem enqueued_of_mapped {calls : List StartOutcomes} {os : StartOutcomes}
    {s₀ s : VideoCaptureImpl} (hcalls : starts calls = some s₀) (h : start os s₀ = some s)
    (hbuffers : ¬ os.NoBuffers) (hmaps : ∀ i < os.count, os.Maps i) :
    s.enqueued <+: List.range s.buffers.length := by
  have hqueue : s₀.enqueued = [] :=
    enqueued_of_starts calls (fun _ => rfl) hcalls (buffers_eq_nil_of_start h)
  obtain ⟨granted, -, buffers, first, on, hlen, -, hfirst, hs, -⟩ := start_mapped h hbuffers hmaps
  rw [hs]
  simpa only [hqueue, List.nil_append, hlen] using hfirst

/-- Every run keeps the buffers of which the first ones were enqueued. -/
theorem owns_run {s : VideoCaptureImpl} (hqueued : s.enqueued <+: List.range s.buffers.length)
    {fd : ℤ} (hfd : fd ≠ -1) {steps : List ThreadStep}
    (hdriver : captureThread.Always (fun t step => step.KeepsQueue t)
      (CaptureThread.launched fd s) steps) :
    ∃ t, captureThread.final (CaptureThread.launched fd s) steps = some t ∧
      Owns s (captureThread.outputs (CaptureThread.launched fd s) steps) t := by
  have hnodup : s.enqueued.Nodup := List.Nodup.sublist hqueued.sublist List.nodup_range
  have hbound : ∀ index ∈ s.enqueued, index < s.buffers.length :=
    fun _ hindex => List.mem_range.mp (hqueued.subset hindex)
  have hstep : ∀ past t step, Owns s past t → step.KeepsQueue t → ∃ t' out,
      captureThread.step t step = (some t', out) ∧ Owns s (past ++ out) t' :=
    fun _ _ step howns hqueue => howns.step hnodup hbound step hqueue
  exact Machine.final_history hstep (owns_launched hfd s) hdriver

/-- **The buffers in any interleaving.**  After a `start` that has mapped all buffers, whatever the
thread and `stop` do, in any order, every step is defined while the driver returns only buffers that
are enqueued; and at any time each of the buffers that were enqueued is with the driver or with the
thread, is never enqueued twice, and was handed over, once for each time that it was dequeued, while
the driver did not have it. -/
theorem captureThread_keepsBuffers {calls : List StartOutcomes} {os : StartOutcomes}
    {s₀ s : VideoCaptureImpl} (hcalls : starts calls = some s₀) (h : start os s₀ = some s)
    (hbuffers : ¬ os.NoBuffers) (hmaps : ∀ i < os.count, os.Maps i) {fd : ℤ} (hfd : fd ≠ -1)
    (steps : List ThreadStep) (hdriver : captureThread.Always (fun t step => step.KeepsQueue t)
      (CaptureThread.launched fd s) steps) :
    ∃ t, captureThread.final (CaptureThread.launched fd s) steps = some t ∧
      Owns s (captureThread.outputs (CaptureThread.launched fd s) steps) t :=
  owns_run (enqueued_of_mapped hcalls h hbuffers hmaps) hfd hdriver

/-- A start that maps five buffers, and a `stop` while the first frame is handed over, so that its
buffer is not taken back. -/
theorem captureThread_keepsBuffers_stopped :
    ∃ s t, start (fiveBuffers (fun i => .success 1843200 (1843200 * i)) [.success]) {} = some s ∧
      t.control.stop = .returned ∧ t.held = some 0 ∧ t.capture.enqueued = [1, 2, 3, 4] ∧
      Owns s [.dqbuf 0, .access 0, .access 0,
        .onFrame ⟨0, 1843200⟩ [1, 2, 3, 4]] t := by
  obtain ⟨t, hfinal, howns⟩ := captureThread_keepsBuffers (rfl : starts [] = some {})
    (rfl : start (fiveBuffers (fun i => .success 1843200 (1843200 * i)) [.success]) {} = some _)
    (by simp [StartOutcomes.NoBuffers, fiveBuffers]) (fun _ _ => ⟨⟨_, _, rfl⟩, _, rfl⟩)
    (show (3 : ℤ) ≠ -1 by decide)
    [plainStep, plainStep, plainStep, .worker .ready .success 0, .stop true, .stop true, plainStep,
      .stop true, .worker .ready (.failure .einval) 0, plainStep, plainStep, plainStep, .stop true]
    (by decide)
  cases hfinal
  exact ⟨_, _, rfl, rfl, rfl, rfl, howns⟩

end NaiveStreaming
