import NaiveStreaming.CaptureStop

/-!
# The end of a stop

After the request the thread gets to its end in so many steps, and `stop`, which joins it, in so
many of its own.
-/

namespace NaiveStreaming
open Mealy

def CaptureStep.ofStop : CaptureStep → Bool
  | worker _ _ => false
  | stop _ => true

/-- A step of the thread at which no ioctl is interrupted. -/
def CaptureStep.uninterrupted : CaptureStep → Bool
  | worker _ result => result ≠ .failure .eintr
  | stop _ => false

/-- The steps that the thread has left at most, after it was requested to stop. -/
def WorkerPC.stepsLeft : WorkerPC → ℕ
  | fdSet => 8
  | select => 7
  | dqbuf => 6
  | onFrame => 5
  | qbuf => 4
  | dqbufFailed => 3
  | qbufFailed => 3
  | readFailed => 2
  | testToken => 1
  | done => 0

/-- The steps that `stop` has left at most, after the thread has ended. -/
def StopPC.stepsLeft : StopPC → ℕ
  | requestStop => 4
  | close => 3
  | setFd => 2
  | join => 1
  | returned => 0

theorem WorkerPC.stepsLeft_le (pc : WorkerPC) : pc.stepsLeft ≤ 8 := by
  cases pc <;> simp [stepsLeft]

theorem WorkerPC.stepsLeft_eq_zero (pc : WorkerPC) (h : pc.stepsLeft = 0) : pc = .done := by
  cases pc <;> simp [stepsLeft] at h ⊢

theorem StopPC.stepsLeft_le (pc : StopPC) : pc.stepsLeft ≤ 4 := by
  cases pc <;> simp [stepsLeft]

theorem StopPC.stepsLeft_eq_zero (pc : StopPC) (h : pc.stepsLeft = 0) : pc = .returned := by
  cases pc <;> simp [stepsLeft] at h ⊢

theorem stepsLeft_workerStep {s : CaptureState} (hreq : s.stopRequested = true)
    (selected : SelectResult) (result : IoctlResult) :
    (workerStep s selected result).1.worker.stepsLeft ≤ s.worker.stepsLeft ∧
      (result ≠ .failure .eintr →
        (workerStep s selected result).1.worker.stepsLeft ≤ s.worker.stepsLeft - 1) := by
  cases hpc : s.worker <;> simp only [workerStep, hpc, hreq, if_true]
  case select => cases selected <;> simp [WorkerPC.stepsLeft]
  case dqbuf =>
    cases result with
    | success => simp [WorkerPC.stepsLeft]
    | failure errno => by_cases hintr : errno = .eintr <;> simp [WorkerPC.stepsLeft, hintr, hpc]
  case qbuf =>
    cases result with
    | success => simp [WorkerPC.stepsLeft]
    | failure errno => by_cases hintr : errno = .eintr <;> simp [WorkerPC.stepsLeft, hintr, hpc]
  case readFailed => split <;> simp [WorkerPC.stepsLeft]
  all_goals simp [WorkerPC.stepsLeft]

theorem stepsLeft_stopStep {s : CaptureState} (hdone : s.worker = .done) (closed : Bool) :
    (stopStep s closed).stop.stepsLeft ≤ s.stop.stepsLeft - 1 := by
  cases hstop : s.stop <;> simp only [stopStep, hstop, hdone, if_true]
  case close => split <;> simp [StopPC.stepsLeft]
  all_goals simp [StopPC.stepsLeft]

theorem stopRequested_workerStep (s : CaptureState) (selected : SelectResult)
    (result : IoctlResult) :
    (workerStep s selected result).1.stopRequested = s.stopRequested ∧
      (workerStep s selected result).1.stop = s.stop := by
  obtain ⟨⟨pc, copy, hframe⟩, -⟩ := workerStep_frame s selected result
  rw [hframe]
  exact ⟨rfl, rfl⟩

theorem requested_step (s : CaptureState) (step : CaptureStep)
    (h : s.stop ≠ .requestStop → s.stopRequested = true) : ∃ s', (capture.step s step).1 = some s' ∧
      (s'.stop ≠ .requestStop → s'.stopRequested = true) ∧
      (if s'.stopRequested then 0 else 1) ≤ (if s.stopRequested then 0 else 1) ∧
      (step.ofStop = true →
        (if s'.stopRequested then 0 else 1) ≤ (if s.stopRequested then 0 else 1) - 1) := by
  cases step with
  | worker selected result =>
      obtain ⟨hreq, hstop⟩ := stopRequested_workerStep s selected result
      refine ⟨_, rfl, ?_, Nat.le_of_eq ?_, by simp [CaptureStep.ofStop]⟩
      · rw [hreq, hstop]
        exact h
      · rw [hreq]
  | stop closed =>
      have hreq := requested_stopStep h closed
      refine ⟨_, rfl, fun _ => hreq, ?_, ?_⟩ <;> simp [hreq]

/-- The thread on its way to its end, in one step. -/
theorem ending_step (s : CaptureState) (step : CaptureStep) (h : s.stopRequested = true) :
    ∃ s', (capture.step s step).1 = some s' ∧ s'.stopRequested = true ∧
      s'.worker.stepsLeft ≤ s.worker.stepsLeft ∧
      (step.uninterrupted = true → s'.worker.stepsLeft ≤ s.worker.stepsLeft - 1) := by
  cases step with
  | worker selected result =>
      obtain ⟨hle, hlt⟩ := stepsLeft_workerStep h selected result
      refine ⟨_, rfl, ?_, hle, ?_⟩
      · rw [(stopRequested_workerStep s selected result).1]
        exact h
      · simpa [CaptureStep.uninterrupted] using hlt
  | stop closed =>
      refine ⟨_, rfl, requested_stopStep (fun _ => h) closed, Nat.le_of_eq ?_,
        by simp [CaptureStep.uninterrupted]⟩
      rw [worker_stopStep]

/-- `stop` on its way to its end, in one step. -/
theorem joining_step (s : CaptureState) (step : CaptureStep) (h : s.worker = .done) :
    ∃ s', (capture.step s step).1 = some s' ∧ s'.worker = .done ∧
      s'.stop.stepsLeft ≤ s.stop.stepsLeft ∧
      (step.ofStop = true → s'.stop.stepsLeft ≤ s.stop.stepsLeft - 1) := by
  cases step with
  | worker selected result =>
      have hsame : (workerStep s selected result).1 = s := by simp [workerStep, h]
      refine ⟨_, rfl, ?_, Nat.le_of_eq ?_, by simp [CaptureStep.ofStop]⟩ <;> rw [hsame]
      exact h
  | stop closed =>
      have hle := stepsLeft_stopStep h closed
      refine ⟨_, rfl, ?_, by omega, fun _ => hle⟩
      rw [worker_stopStep, h]

/-- **`stop` returns**: in any run in which, after its first step, the thread takes eight steps at
which no ioctl is interrupted, and `stop` then takes four, the thread has ended and `stop` has
returned, whatever the calls come to and whatever steps there are in between. -/
theorem stop_returns {s : CaptureState} (hs : s.Running) {pre mid post : List CaptureStep}
    (hpre : 1 ≤ pre.countP CaptureStep.ofStop) (hmid : 8 ≤ mid.countP CaptureStep.uninterrupted)
    (hpost : 4 ≤ post.countP CaptureStep.ofStop) :
    ∃ t, capture.final s (pre ++ mid ++ post) = some t ∧ t.worker = .done ∧ t.stop = .returned := by
  obtain ⟨s₁, hfinal₁, -, hrank₁⟩ := Machine.final_rank (fun t => if t.stopRequested then 0 else 1)
    CaptureStep.ofStop requested_step pre s (fun hstop => absurd hs.stop hstop)
  have hreq : s₁.stopRequested = true := by
    by_contra hreq
    rw [if_neg hreq] at hrank₁
    split at hrank₁ <;> omega
  obtain ⟨s₂, hfinal₂, -, hrank₂⟩ := Machine.final_rank (fun t => t.worker.stepsLeft)
    CaptureStep.uninterrupted ending_step mid s₁ hreq
  have hdone : s₂.worker = .done := by
    have hle := s₁.worker.stepsLeft_le
    exact s₂.worker.stepsLeft_eq_zero (by omega)
  obtain ⟨t, hfinal, hended, hrank⟩ := Machine.final_rank (fun t => t.stop.stepsLeft)
    CaptureStep.ofStop joining_step post s₂ hdone
  refine ⟨t, ?_, hended, ?_⟩
  · rw [Machine.final_append (by rw [Machine.final_append hfinal₁, hfinal₂]), hfinal]
  · have hle := s₂.stop.stepsLeft_le
    exact t.stop.stepsLeft_eq_zero (by omega)

/-- `stop` begins while the thread waits; a frame comes, and its buffer is put back after an
interruption. -/
theorem stop_returns_after_frame :
    ∃ t, capture.final { fd := 3, worker := .select }
        ([.stop true] ++
          ([.worker .ready .success, .worker .ready .success, .stop true, .worker .ready .success,
            .worker .ready (.failure .eintr)] ++ List.replicate 5 (.worker .ready .success)) ++
          List.replicate 4 (.stop true)) = some t ∧
      t.worker = .done ∧ t.stop = .returned :=
  stop_returns ⟨by decide, rfl⟩ (by decide) (by decide) (by decide)

end NaiveStreaming
