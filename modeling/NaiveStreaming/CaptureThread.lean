import NaiveStreaming.CaptureLoop
import NaiveStreaming.Lib.Cascade

/-!
# The steps of the capture thread

The working thread takes a buffer out of the driver's queue, hands it to `m_on_frame` and puts it
back, in steps between which `stop` takes its own.  Here the steps of the thread carry the buffer
along; a turn of the reading loop is what they come to when the thread runs from one test of its
token to the next.
-/

namespace NaiveStreaming
open Mealy

/-- The members of the capture, the parties, and the thread's variable `buff.index` while the
program has that buffer. -/
structure CaptureThread where
  control : CaptureState
  capture : VideoCaptureImpl
  held : Option ℕ := none
  deriving DecidableEq, Repr

/-- The thread that `start` has launched. -/
def CaptureThread.launched (fd : ℤ) (s : VideoCaptureImpl) : CaptureThread where
  control := { fd := fd, worker := .testToken }
  capture := s

inductive ThreadStep
  /-- A step of the thread; `index` is the buffer that a `VIDIOC_DQBUF` returns. -/
  | worker (selected : SelectResult) (result : IoctlResult) (index : ℕ)
  | stop (closed : Bool)
  deriving DecidableEq, Repr

/-- What a step of the thread does with the buffers; nothing when an access is outside
`m_buffers`. -/
def bufferStep (s : CaptureThread) (result : IoctlResult) (index : ℕ) :
    Option (VideoCaptureImpl × Option ℕ) × List BufferEvent :=
  match s.control.worker, s.held with
  | .dqbuf, held =>
    if result = .success then
      (some ({ s.capture with enqueued := s.capture.enqueued.erase index }, some index),
        [.dqbuf index])
    else (some (s.capture, held), [])
  | .onFrame, some held =>
    match s.capture.buffers[held]? with
    | none => (none, [.access held, .access held])
    | some view => (some (s.capture, some held),
        [.access held, .access held, .onFrame view s.capture.enqueued])
  | .qbuf, some held =>
    if result = .success then
      (some ({ s.capture with enqueued := s.capture.enqueued ++ [held] }, none),
        [.qbuf held s.capture.enqueued])
    else (some (s.capture, some held), [])
  | _, held => (some (s.capture, held), [])

def captureThread : Machine CaptureThread ThreadStep BufferEvent where
  step s
    | .worker selected result index =>
      let (buffers?, events) := bufferStep s result index
      (buffers?.map fun (capture, held) =>
        ⟨(workerStep s.control selected result).1, capture, held⟩, events)
    | .stop closed => (some { s with control := stopStep s.control closed }, [])

/-- The steps of one `xioctl`: an ioctl that is interrupted is repeated. -/
def callSteps (index : ℕ) : List IoctlResult → List ThreadStep
  | [] => []
  | .success :: _ => [.worker .ready .success index]
  | .failure errno :: results =>
    .worker .ready (.failure errno) index ::
      if errno = .eintr then callSteps index results else []

/-- A step at which nothing is called whose outcome counts. -/
def plainStep : ThreadStep := .worker .ready .success 0

/-- The steps of `read_frame`, and of the test of `is_closing` when it has no result. -/
def readSteps (o : TurnOutcomes) : List ThreadStep :=
  callSteps o.index o.dqbuf ++
    match xioctl o.dqbuf with
    | none => []
    | some (.failure _) => [plainStep, plainStep]
    | some .success =>
      plainStep :: callSteps o.index o.qbuf ++
        match xioctl o.qbuf with
        | some (.failure _) => [plainStep, plainStep]
        | _ => []

/-- The steps of a turn. -/
def turnSteps (o : TurnOutcomes) : List ThreadStep :=
  if o.stopRequested then [plainStep]
  else [plainStep, plainStep, .worker o.select .success 0] ++
    if o.select = .ready then readSteps o else []

/-! ## Turns as runs of the thread -/

/-- The steps take the thread from one state to another, with these events. -/
structure Runs (s : CaptureThread) (steps : List ThreadStep) (t : CaptureThread)
    (events : List BufferEvent) : Prop where
  final : captureThread.final s steps = some t
  outputs : captureThread.outputs s steps = events

theorem Runs.nil (s : CaptureThread) : Runs s [] s [] := ⟨rfl, rfl⟩

theorem Runs.append {s t u : CaptureThread} {xs ys : List ThreadStep} {e f : List BufferEvent}
    (h : Runs s xs t e) (h' : Runs t ys u f) : Runs s (xs ++ ys) u (e ++ f) := by
  refine ⟨?_, ?_⟩
  · rw [Machine.final_append h.final, h'.final]
  · rw [Machine.outputs_append_eq, h.final, Option.elim_some, h.outputs, h'.outputs]

theorem Runs.cons {s t u : CaptureThread} {step : ThreadStep} {steps : List ThreadStep}
    {e f : List BufferEvent} (h : captureThread.step s step = (some t, e))
    (h' : Runs t steps u f) : Runs s (step :: steps) u (e ++ f) := by
  refine ⟨?_, ?_⟩
  · rw [Machine.final_cons (congrArg Prod.fst h), h'.final]
  · rw [Machine.outputs_cons h, h'.outputs]

theorem Runs.single {s t : CaptureThread} {step : ThreadStep} {e : List BufferEvent}
    (h : captureThread.step s step = (some t, e)) : Runs s [step] t e := by
  have hrun := (Runs.nil t).cons h
  rwa [List.append_nil] at hrun

/-- The thread at another place, with the same members. -/
def CaptureThread.at (s : CaptureThread) (pc : WorkerPC) : CaptureThread :=
  { s with control := s.control.goTo pc }

/-- The thread in its `xioctl`, with another copy of the descriptor. -/
def CaptureThread.copying (s : CaptureThread) (copy : Option ℤ) : CaptureThread :=
  { s with control := { s.control with callFd := copy } }

@[simp] theorem worker_copying (s : CaptureThread) (copy : Option ℤ) :
    (s.copying copy).control.worker = s.control.worker := rfl

@[simp] theorem goTo_copying (s : CaptureThread) (copy : Option ℤ) (pc : WorkerPC) :
    (s.copying copy).control.goTo pc = s.control.goTo pc := rfl

@[simp] theorem capture_copying (s : CaptureThread) (copy : Option ℤ) :
    (s.copying copy).capture = s.capture := rfl

@[simp] theorem held_copying (s : CaptureThread) (copy : Option ℤ) :
    (s.copying copy).held = s.held := rfl

/-- The thread is at an ioctl of `read_frame`, with a buffer if it is the second. -/
def CaptureThread.AtCall (s : CaptureThread) : Prop :=
  s.control.worker = .dqbuf ∨ s.control.worker = .qbuf ∧ s.held.isSome

/-- An ioctl that is interrupted does nothing but keep the descriptor for the next. -/
theorem CaptureThread.AtCall.retry {s : CaptureThread} (h : s.AtCall) (selected : SelectResult)
    (index : ℕ) : captureThread.step s (.worker selected (.failure .eintr) index) =
      (some (s.copying (some s.control.passed)), []) := by
  obtain ⟨⟨fd, stopRequested, worker, stop, callFd⟩, capture, held⟩ := s
  rcases h with hpc | ⟨hpc, hheld⟩
  · obtain rfl : worker = .dqbuf := hpc
    simp [captureThread, bufferStep, workerStep, CaptureThread.copying, CaptureState.retry]
  · obtain rfl : worker = .qbuf := hpc
    obtain ⟨index, rfl⟩ := Option.isSome_iff_exists.mp hheld
    simp [captureThread, bufferStep, workerStep, CaptureThread.copying, CaptureState.retry]

/-- **The steps of an `xioctl`** come to what its last ioctl does, whatever copy of the descriptor
that is given. -/
theorem runs_call {s t : CaptureThread} (hcall : s.AtCall) {index : ℕ} {events : List BufferEvent}
    {results : List IoctlResult} {result : IoctlResult} (h : xioctl results = some result)
    (hend : ∀ copy, captureThread.step (s.copying copy) (.worker .ready result index) =
      (some t, events)) : Runs s (callSteps index results) t events := by
  have hcopy : ∀ copy, Runs (s.copying copy) (callSteps index results) t events := by
    induction results with
    | nil => cases h
    | cons first results ih =>
        intro copy
        cases first with
        | success =>
            cases h
            exact .single (hend copy)
        | failure errno =>
            by_cases hintr : errno = .eintr
            · simp only [xioctl, hintr, if_true] at h
              simp only [callSteps, hintr, if_true]
              have hretry := CaptureThread.AtCall.retry (s := s.copying copy) hcall .ready index
              exact (ih h _).cons hretry
            · simp only [xioctl, hintr, if_false, Option.some.injEq] at h
              subst h
              simp only [callSteps, hintr, if_false]
              exact .single (hend copy)
  exact hcopy s.control.callFd

/-- The thread has ended, or is at the test of its token, as the loop says, and has its capture. -/
structure Follows (control : CaptureState) (r : ReadingLoop) (t : CaptureThread) : Prop where
  control : t.control = control.goTo (if r.running then .testToken else .done)
  capture : t.capture = r.capture

theorem xioctl_ne_eintr {results : List IoctlResult} {errno : Errno}
    (h : xioctl results = some (.failure errno)) : errno ≠ .eintr := by
  induction results with
  | nil => cases h
  | cons first results ih =>
      cases first with
      | success => cases h
      | failure errno' =>
          by_cases hintr : errno' = .eintr
          · simp only [xioctl, hintr, if_true] at h
            exact ih h
          · simp only [xioctl, hintr, if_false, Option.some.injEq,
              IoctlResult.failure.injEq] at h
            exact h ▸ hintr

/-- After a call of `read_frame` has failed, the thread goes on if the capture is closing. -/
theorem runs_failed {s : CaptureThread} {o : TurnOutcomes} {capture : VideoCaptureImpl}
    (hclosing : o.isClosing = decide s.control.IsClosing) (hcapture : s.capture = capture)
    (hpc : s.control.worker = .dqbufFailed ∨ s.control.worker = .qbufFailed) :
    ∃ t, Runs s [plainStep, plainStep] t [] ∧ Follows s.control ⟨capture, o.isClosing⟩ t := by
  have hfirst : captureThread.step s plainStep = (some (s.at .readFailed), []) := by
    rcases hpc with hpc | hpc <;>
      simp [captureThread, plainStep, bufferStep, workerStep, hpc, CaptureThread.at]
  refine ⟨s.at (if s.control.IsClosing then .testToken else .done),
    (Runs.single ?_).cons hfirst, ?_, hcapture⟩
  · simp [captureThread, plainStep, bufferStep, workerStep, CaptureThread.at]
  · by_cases hc : s.control.IsClosing <;> simp [CaptureThread.at, hclosing, hc]

theorem runs_dqbufFailed {s : CaptureThread} {results : List IoctlResult} {errno : Errno}
    (hpc : s.control.worker = .dqbuf) (h : xioctl results = some (.failure errno)) (index : ℕ) :
    Runs s (callSteps index results) (s.at .dqbufFailed) [] := by
  refine runs_call (.inl hpc) h fun copy => ?_
  simp [captureThread, bufferStep, workerStep, hpc, CaptureThread.at, xioctl_ne_eintr h]

theorem runs_qbufFailed {s : CaptureThread} {results : List IoctlResult} {errno : Errno} {held : ℕ}
    (hpc : s.control.worker = .qbuf) (hheld : s.held = some held)
    (h : xioctl results = some (.failure errno)) (index : ℕ) :
    Runs s (callSteps index results) (s.at .qbufFailed) [] := by
  refine runs_call (.inr ⟨hpc, by simp [hheld]⟩) h fun copy => ?_
  simp [captureThread, bufferStep, workerStep, hpc, hheld, CaptureThread.at, xioctl_ne_eintr h]

theorem runs_handOver {s : CaptureThread} {index : ℕ} {results : List IoctlResult}
    {view : BufferView} (hpc : s.control.worker = .dqbuf) (h : xioctl results = some .success)
    (hview : s.capture.buffers[index]? = some view) :
    Runs s (callSteps index results ++ [plainStep]) { s.at .qbuf with
      capture := { s.capture with enqueued := s.capture.enqueued.erase index }
      held := some index }
      [.dqbuf index, .access index, .access index,
        .onFrame view (s.capture.enqueued.erase index)] := by
  let taken : CaptureThread := { s.at .onFrame with
    capture := { s.capture with enqueued := s.capture.enqueued.erase index }
    held := some index }
  have htake : Runs s (callSteps index results) taken [.dqbuf index] := by
    refine runs_call (.inl hpc) h fun copy => ?_
    simp [captureThread, bufferStep, workerStep, hpc, taken, CaptureThread.at]
  refine htake.append (f := [.access index, .access index, .onFrame view taken.capture.enqueued])
    (Runs.single ?_)
  simp [captureThread, plainStep, bufferStep, workerStep, taken, CaptureThread.at, hview]

theorem runs_requeued {s : CaptureThread} {index : ℕ} {results : List IoctlResult}
    (hpc : s.control.worker = .qbuf) (hheld : s.held = some index)
    (h : xioctl results = some .success) :
    Runs s (callSteps index results) { s.at .testToken with
      capture := { s.capture with enqueued := s.capture.enqueued ++ [index] }
      held := none } [.qbuf index s.capture.enqueued] := by
  refine runs_call (.inr ⟨hpc, by simp [hheld]⟩) h fun copy => ?_
  simp [captureThread, bufferStep, workerStep, hpc, hheld, CaptureThread.at]

/-- **The steps of `read_frame`** come to what `read_frame` does; without a result, the thread goes
on if the capture is closing, and ends otherwise. -/
theorem runs_readSteps {s : CaptureThread} {o : TurnOutcomes} {result : Option Bool}
    {capture : VideoCaptureImpl} {events : List BufferEvent} (hpc : s.control.worker = .dqbuf)
    (hclosing : o.isClosing = decide s.control.IsClosing)
    (h : readFrame o s.capture = (some (result, capture), events)) :
    ∃ t, Runs s (readSteps o) t events ∧
      Follows s.control ⟨capture, result.isSome || o.isClosing⟩ t := by
  simp only [readFrame, readSteps] at h ⊢
  cases hdqbuf : xioctl o.dqbuf with
  | none => simp [hdqbuf] at h
  | some outcome =>
      cases outcome with
      | failure errno =>
          simp only [hdqbuf, Prod.mk.injEq, Option.some.injEq] at h
          obtain ⟨⟨rfl, rfl⟩, rfl⟩ := h
          obtain ⟨t, hruns, hfollows⟩ :=
            runs_failed (s := s.at .dqbufFailed) hclosing rfl (.inl rfl)
          have hcall := runs_dqbufFailed hpc hdqbuf o.index
          exact ⟨t, hcall.append hruns, hfollows.control, hfollows.capture⟩
      | success =>
          simp only [hdqbuf] at h ⊢
          cases hview : s.capture.buffers[o.index]? with
          | none => simp [hview] at h
          | some view =>
              have hread := runs_handOver hpc hdqbuf hview
              simp only [hview] at h
              cases hqbuf : xioctl o.qbuf with
              | none => simp [hqbuf] at h
              | some outcome =>
                  cases outcome with
                  | failure errno =>
                      simp only [hqbuf, Prod.mk.injEq, Option.some.injEq] at h
                      obtain ⟨⟨rfl, rfl⟩, rfl⟩ := h
                      have hcall := hread.append (runs_qbufFailed rfl rfl hqbuf o.index)
                      obtain ⟨t, hruns, hfollows⟩ := runs_failed
                        (s := { s.at .qbufFailed with
                          capture := { s.capture with
                            enqueued := s.capture.enqueued.erase o.index }
                          held := some o.index }) hclosing rfl (.inr rfl)
                      refine ⟨t, ?_, hfollows.control, hfollows.capture⟩
                      simpa using hcall.append hruns
                  | success =>
                      simp only [hqbuf, Prod.mk.injEq, Option.some.injEq] at h
                      obtain ⟨⟨rfl, rfl⟩, rfl⟩ := h
                      have hall := hread.append (runs_requeued rfl rfl hqbuf)
                      refine ⟨_, by simpa using hall, rfl, rfl⟩

theorem runs_done {t : CaptureThread} (hpc : t.control.worker = .done) {steps : List ThreadStep}
    (h : ∀ step ∈ steps, ∃ selected result index, step = .worker selected result index) :
    Runs t steps t [] := by
  induction steps with
  | nil => exact .nil t
  | cons step steps ih =>
      obtain ⟨⟨selected, result, index, rfl⟩, hrest⟩ := List.forall_mem_cons.mp h
      refine (ih hrest).cons (e := []) ?_
      simp [captureThread, bufferStep, workerStep, hpc]

theorem worker_callSteps (index : ℕ) (results : List IoctlResult) :
    ∀ step ∈ callSteps index results, ∃ selected result index,
      step = .worker selected result index := by
  induction results with
  | nil => simp [callSteps]
  | cons result results ih =>
      cases result with
      | success => simp [callSteps]
      | failure errno =>
          by_cases hintr : errno = .eintr
          · simpa [callSteps, hintr] using ih
          · simp [callSteps, hintr]

theorem worker_turnSteps (o : TurnOutcomes) : ∀ step ∈ turnSteps o, ∃ selected result index,
    step = .worker selected result index := by
  have hplain : ∃ selected result index, plainStep = .worker selected result index :=
    ⟨_, _, _, rfl⟩
  have hcall := worker_callSteps o.index
  intro step hstep
  simp only [turnSteps, readSteps] at hstep
  rcases xioctl o.dqbuf with _ | _ | _ <;> rcases xioctl o.qbuf with _ | _ | _ <;>
    split_ifs at hstep <;>
    simp only [List.mem_append, List.mem_cons, List.not_mem_nil, or_false] at hstep <;>
    grind

def SelectResult.next : SelectResult → WorkerPC
  | interrupted => .testToken
  | failed | timeout => .done
  | ready => .dqbuf

theorem runs_select {s : CaptureThread} (hpc : s.control.worker = .testToken)
    (hstop : s.control.stopRequested = false) (selected : SelectResult) :
    Runs s [plainStep, plainStep, .worker selected .success 0] (s.at selected.next) [] := by
  have htest : captureThread.step s plainStep = (some (s.at .fdSet), []) := by
    simp [captureThread, plainStep, bufferStep, workerStep, CaptureThread.at, hpc, hstop]
  have hset : captureThread.step (s.at .fdSet) plainStep = (some (s.at .select), []) := by
    simp [captureThread, plainStep, bufferStep, workerStep, CaptureThread.at]
  have hselect : captureThread.step (s.at .select) (.worker selected .success 0)
      = (some (s.at selected.next), []) := by
    cases selected <;>
      simp [captureThread, bufferStep, workerStep, CaptureThread.at, SelectResult.next]
  exact ((Runs.single hselect).cons hset).cons htest

/-- **A turn of the loop** is a run of the thread. -/
theorem runs_turn {control : CaptureState} {r r' : ReadingLoop} {t : CaptureThread}
    {o : TurnOutcomes} {events : List BufferEvent} (hfollows : Follows control r t)
    (hstop : o.stopRequested = control.stopRequested)
    (hclosing : o.isClosing = decide control.IsClosing)
    (h : readingTurn r o = (some r', events)) :
    ∃ t', Runs t (turnSteps o) t' events ∧ Follows control r' t' := by
  obtain ⟨tcontrol, tcapture, held⟩ := t
  obtain ⟨rcapture, running⟩ := r
  obtain ⟨hcontrol, hcapture⟩ := hfollows
  simp only at hcontrol hcapture
  subst hcontrol hcapture
  cases running with
  | false =>
      simp only [readingTurn, Bool.false_eq_true, not_false_eq_true, if_true, Prod.mk.injEq,
        Option.some.injEq] at h
      obtain ⟨rfl, rfl⟩ := h
      exact ⟨_, runs_done rfl (worker_turnSteps o), rfl, rfl⟩
  | true =>
      simp only [readingTurn, not_true_eq_false, if_false, turnSteps, if_true] at h ⊢
      by_cases hrequested : control.stopRequested = true
      · rw [hrequested] at hstop
        simp only [hstop, if_true, Prod.mk.injEq, Option.some.injEq] at h ⊢
        obtain ⟨rfl, rfl⟩ := h
        refine ⟨⟨control.goTo .done, _, held⟩, .single ?_, rfl, rfl⟩
        simp [captureThread, plainStep, bufferStep, workerStep, hrequested]
      · rw [Bool.not_eq_true] at hrequested
        have hselect := runs_select (s := ⟨control.goTo .testToken, tcapture, held⟩)
          rfl hrequested o.select
        rw [hrequested] at hstop
        simp only [hstop, if_false, Bool.false_eq_true] at h ⊢
        cases hselected : o.select with
        | ready =>
            rw [hselected] at hselect
            simp only [hselected] at h
            rcases hread : readFrame o tcapture with ⟨_ | ⟨result, capture⟩, read⟩
            · simp [hread] at h
            · obtain ⟨t, hruns, hfollows⟩ := runs_readSteps (o := o)
                (s := ⟨control.goTo .dqbuf, tcapture, held⟩) rfl hclosing hread
              have hend : r' = ⟨capture, result.isSome || o.isClosing⟩ ∧ events = read := by
                cases result <;> simp_all
              obtain ⟨rfl, rfl⟩ := hend
              exact ⟨t, hselect.append hruns, hfollows.control, hfollows.capture⟩
        | _ =>
            rw [hselected] at hselect
            simp only [hselected, Prod.mk.injEq, Option.some.injEq] at h
            obtain ⟨rfl, rfl⟩ := h
            exact ⟨_, hselect, rfl, rfl⟩

/-- **The reading loop is what the thread does**: while `stop` takes no step, the steps of any turns
that return come to the same uses of the buffers, and the same place, as the turns. -/
theorem captureThread_refines_readingLoop (control : CaptureState) (turns : List TurnOutcomes)
    (hturns : ∀ o ∈ turns, o.stopRequested = control.stopRequested ∧
      o.isClosing = decide control.IsClosing) :
    ∀ {r r' : ReadingLoop} {t : CaptureThread}, Follows control r t →
      readingLoop.final r turns = some r' →
        ∃ t', captureThread.final t (turns.flatMap turnSteps) = some t' ∧
          captureThread.outputs t (turns.flatMap turnSteps) = readingLoop.outputs r turns ∧
          Follows control r' t' := by
  induction turns with
  | nil =>
      intro r r' t hfollows h
      cases h
      exact ⟨t, rfl, rfl, hfollows⟩
  | cons o turns ih =>
      intro r r' t hfollows h
      obtain ⟨hfirst, hrest⟩ := List.forall_mem_cons.mp hturns
      obtain ⟨r₁, hturn, hrun⟩ := Machine.final_cons_eq_some h
      have hturn' : readingTurn r o = (some r₁, (readingTurn r o).2) := Prod.ext hturn rfl
      obtain ⟨t₁, hruns, hfollows₁⟩ := runs_turn hfollows hfirst.1 hfirst.2 hturn'
      obtain ⟨t', hfinal, houtputs, hfollows'⟩ := ih hrest hfollows₁ hrun
      have hall := hruns.append ⟨hfinal, houtputs⟩
      refine ⟨t', hall.final, ?_, hfollows'⟩
      rw [List.flatMap_cons, hall.outputs, Machine.outputs_cons hturn']

/-- A frame after an interrupted `VIDIOC_DQBUF`, and one whose buffer is not taken back. -/
theorem captureThread_refines_readingLoop_two_turns :
    let capture : VideoCaptureImpl := { buffers := [{}, {}], enqueued := [0, 1] }
    let turns : List TurnOutcomes := [{ index := 0, dqbuf := [.failure .eintr, .success] },
      { index := 1, qbuf := [.failure .einval] }]
    let s := CaptureThread.launched 3 capture
    ∃ t, captureThread.final s (turns.flatMap turnSteps) = some t ∧
      captureThread.outputs s (turns.flatMap turnSteps)
        = readingLoop.outputs ⟨capture, true⟩ turns ∧
      t.control.worker = .done ∧ t.capture.enqueued = [0] := by
  intro capture turns s
  obtain ⟨t, hfinal, houtputs, hfollows⟩ := captureThread_refines_readingLoop s.control turns
    (by decide) (show Follows s.control ⟨capture, true⟩ s from ⟨rfl, rfl⟩) rfl
  refine ⟨t, hfinal, houtputs, ?_, ?_⟩
  · rw [hfollows.control]
    rfl
  · rw [hfollows.capture]
    rfl

end NaiveStreaming
