import NaiveStreaming.CaptureThread
import NaiveStreaming.StopReturns

/-!
# Frames and the stop

How often the thread still calls `m_on_frame` once it has been requested to stop.
-/

namespace NaiveStreaming
open Mealy

/-- A call of `m_on_frame`. -/
def BufferEvent.handsOver : BufferEvent → Bool
  | onFrame _ _ => true
  | _ => false

/-- The calls of `m_on_frame` that the thread has left at most, after it was requested to stop. -/
def WorkerPC.framesLeft : WorkerPC → ℕ
  | fdSet | select | dqbuf | onFrame => 1
  | _ => 0

theorem handsOver_bufferStep (s : CaptureThread) (result : IoctlResult) (index : ℕ) :
    (bufferStep s result index).2.countP BufferEvent.handsOver ≤
      if s.control.worker = .onFrame then 1 else 0 := by
  cases hpc : s.control.worker
  case onFrame =>
    cases hheld : s.held with
    | none => simp [bufferStep, hpc, hheld]
    | some held =>
        cases hview : s.capture.buffers[held]? <;>
          simp [bufferStep, hpc, hheld, hview, BufferEvent.handsOver]
  case dqbuf => by_cases hresult : result = .success <;>
    simp [bufferStep, hpc, hresult, BufferEvent.handsOver]
  case qbuf =>
    cases hheld : s.held with
    | none => simp [bufferStep, hpc, hheld]
    | some held => by_cases hresult : result = .success <;>
        simp [bufferStep, hpc, hheld, hresult, BufferEvent.handsOver]
  all_goals simp [bufferStep, hpc]

theorem framesLeft_workerStep {s : CaptureState} (h : s.stopRequested = true)
    (selected : SelectResult) (result : IoctlResult) :
    (if s.worker = .onFrame then 1 else 0) + (workerStep s selected result).1.worker.framesLeft ≤
      s.worker.framesLeft := by
  cases hpc : s.worker <;> simp only [workerStep, hpc, h, if_true]
  case select => cases selected <;> simp [WorkerPC.framesLeft]
  case dqbuf =>
    cases result with
    | success => simp [WorkerPC.framesLeft]
    | failure errno => by_cases hintr : errno = .eintr <;> simp [WorkerPC.framesLeft, hintr, hpc]
  case qbuf =>
    cases result with
    | success => simp [WorkerPC.framesLeft]
    | failure errno => by_cases hintr : errno = .eintr <;> simp [WorkerPC.framesLeft, hintr, hpc]
  case readFailed => by_cases hclosing : s.IsClosing <;> simp [WorkerPC.framesLeft, hclosing]
  all_goals simp [WorkerPC.framesLeft]

theorem control_step {s s' : CaptureThread} {selected : SelectResult} {result : IoctlResult}
    {index : ℕ} (h : (captureThread.step s (.worker selected result index)).1 = some s') :
    s'.control = (workerStep s.control selected result).1 := by
  obtain ⟨_, -, rfl⟩ := Option.map_eq_some_iff.mp h
  rfl

/-- A thread that was requested to stop spends what it has left, in one step. -/
theorem framesLeft_step (s : CaptureThread) (step : ThreadStep)
    (h : s.control.stopRequested = true) :
    (captureThread.step s step).2.countP BufferEvent.handsOver ≤ s.control.worker.framesLeft ∧
      ∀ s', (captureThread.step s step).1 = some s' → s'.control.stopRequested = true ∧
        (captureThread.step s step).2.countP BufferEvent.handsOver +
          s'.control.worker.framesLeft ≤ s.control.worker.framesLeft := by
  cases step with
  | stop closed =>
      refine ⟨Nat.zero_le _, ?_⟩
      intro s' hs'
      cases hs'
      refine ⟨requested_stopStep (fun _ => h) closed, Nat.le_of_eq ?_⟩
      simp [captureThread]
  | worker selected result index =>
      have hevents := handsOver_bufferStep s result index
      have hleft := framesLeft_workerStep h selected result
      refine ⟨Nat.le_trans hevents (by omega), ?_⟩
      intro s' hs'
      rw [control_step hs', (stopRequested_workerStep s.control selected result).1]
      exact ⟨h, Nat.le_trans (Nat.add_le_add_right hevents _) hleft⟩

theorem outputs_ended (steps : List ThreadStep) : ∀ {t : CaptureThread},
    t.control.worker = .done → captureThread.outputs t steps = [] := by
  induction steps with
  | nil => intro t _; rfl
  | cons step steps ih =>
      intro t hdone
      cases step with
      | stop closed =>
          have hstep : captureThread.step t (.stop closed)
              = (some { t with control := stopStep t.control closed }, []) := rfl
          rw [Machine.outputs_cons hstep, List.nil_append]
          refine ih ?_
          rw [worker_stopStep, hdone]
      | worker selected result index =>
          have hstep : captureThread.step t (.worker selected result index) = (some t, []) := by
            simp [captureThread, bufferStep, workerStep, hdone]
          rw [Machine.outputs_cons hstep, List.nil_append, ih hdone]

theorem joined_step (s s' : CaptureThread) (step : ThreadStep)
    (h : s.control.stop = .returned → s.control.worker = .done)
    (hs' : (captureThread.step s step).1 = some s') :
    s'.control.stop = .returned → s'.control.worker = .done := by
  cases step with
  | stop closed =>
      cases hs'
      rw [worker_stopStep]
      cases hstop : s.control.stop <;> simp only [stopStep, hstop]
      case close => split <;> simp
      case join => split <;> simp [*]
      case returned => exact fun _ => h hstop
      all_goals simp
  | worker selected result index =>
      rw [control_step hs', (stopRequested_workerStep s.control selected result).2]
      intro hstop
      simp [workerStep, h hstop]

/-- A thread that was requested to stop hands over at most one more frame. -/
theorem frames_after_request {t : CaptureThread} (h : t.control.stopRequested = true)
    (steps : List ThreadStep) :
    (captureThread.outputs t steps).countP BufferEvent.handsOver ≤ 1 := by
  have hspent := Machine.outputs_budget BufferEvent.handsOver
    (fun s : CaptureThread => s.control.worker.framesLeft)
    (fun s step h => (framesLeft_step s step h).1)
    (fun s step s' h hs' => (framesLeft_step s step h).2 s' hs') steps t h
  have hle : t.control.worker.framesLeft ≤ 1 := by
    cases t.control.worker <;> simp [WorkerPC.framesLeft]
  exact Nat.le_trans hspent hle

/-- After `stop` has returned, the thread does nothing with the buffers. -/
theorem outputs_returned {s t : CaptureThread} (hs : s.control.Running) {pre : List ThreadStep}
    (ht : captureThread.final s pre = some t) (hstop : t.control.stop = .returned)
    (post : List ThreadStep) : captureThread.outputs t post = [] := by
  have hdone := Machine.final_keeps (fun s step s' h hs' => joined_step s s' step h hs')
    (fun hreturned => absurd (hs.stop.symm.trans hreturned) (by simp)) ht hstop
  exact outputs_ended post hdone

/-- **Frames and the stop.**  From a running capture, once a stop is requested `m_on_frame` is
called at most once more, and once `stop` has returned the thread does nothing with the buffers,
whatever the driver does. -/
theorem frames_after_stop {s t : CaptureThread} (hs : s.control.Running) {pre : List ThreadStep}
    (ht : captureThread.final s pre = some t) (post : List ThreadStep) :
    (t.control.stopRequested = true →
      (captureThread.outputs t post).countP BufferEvent.handsOver ≤ 1) ∧
    (t.control.stop = .returned → captureThread.outputs t post = []) :=
  ⟨fun hreq => frames_after_request hreq post, fun hstop => outputs_returned hs ht hstop post⟩

/-- A stop is requested between the `VIDIOC_DQBUF` of the only buffer and `m_on_frame`. -/
theorem frames_after_stop_during_frame :
    let s := CaptureThread.launched 3 { buffers := [{}], enqueued := [0] }
    let pre : List ThreadStep :=
      [plainStep, plainStep, plainStep, .worker .ready .success 0, .stop true]
    let post : List ThreadStep :=
      [plainStep, .stop true, .worker .ready .success 0, plainStep, .stop true, .stop true]
    ∃ t, captureThread.final s pre = some t ∧
      (t.control.stopRequested = true →
        (captureThread.outputs t post).countP BufferEvent.handsOver ≤ 1) ∧
      (t.control.stop = .returned → captureThread.outputs t post = []) := by
  intro s pre post
  have hfinal : captureThread.final s pre = some _ := rfl
  exact ⟨_, hfinal, frames_after_stop ⟨by decide, rfl⟩ hfinal post⟩

end NaiveStreaming
