import NaiveStreaming.Lib.Mealy
import NaiveStreaming.VideoCapture

/-!
# Stopping a capture

`VideoCaptureImpl::stop` requests the working thread to stop, closes the descriptor, sets the
member `m_v4l_fd` to `-1` and joins the thread.  The thread tests its stop token at the head
of the reading loop alone; in between it uses `m_v4l_fd` up to four times.  The two
parties take their steps in any order, and what `select`, `ioctl` and `close` come to is part
of a step.  A call of `xioctl` reads the member and makes its first ioctl in one step; its retries
are given the copy that it was called with.  What counts as a dead use is the member's value at the
time of it.
-/

namespace NaiveStreaming
open Mealy

/-- What `select` returns. -/
inductive SelectResult
  /-- `-1`, with the error `EINTR` -/
  | interrupted
  /-- `-1`, with another error -/
  | failed
  /-- `0` -/
  | timeout
  | ready
  deriving DecidableEq, Repr

/-- Where the working thread is. -/
inductive WorkerPC
  /-- At `stoken.stop_requested()`. -/
  | testToken
  | fdSet
  | select
  | dqbuf
  /-- At the `is_closing` test after it, both outcomes of which are no result. -/
  | dqbufFailed
  | onFrame
  | qbuf
  | qbufFailed
  /-- At the `is_closing` test of the reading loop. -/
  | readFailed
  | done
  deriving DecidableEq, Repr

inductive StopPC
  | requestStop
  | close
  /-- At the store of `-1`. -/
  | setFd
  | join
  | returned
  deriving DecidableEq, Repr

/-- The members that both parties use, and where the parties are. -/
structure CaptureState where
  fd : ℤ
  stopRequested : Bool := false
  worker : WorkerPC
  stop : StopPC := .requestStop
  /-- The argument `fd` of an `xioctl` of the thread that has been interrupted. -/
  callFd : Option ℤ := none
  deriving DecidableEq, Repr

/-- A use of the descriptor by the thread, with the value of `m_v4l_fd`, and with what `xioctl`
passes on. -/
inductive Access
  | fdSet (fd : ℤ)
  | select (fd : ℤ)
  | ioctl (fd passed : ℤ)
  deriving DecidableEq, Repr

def Access.fd : Access → ℤ
  | fdSet fd => fd
  | select fd => fd
  | ioctl fd _ => fd

def CaptureState.IsClosing (s : CaptureState) : Prop := s.fd = -1

instance : DecidablePred CaptureState.IsClosing := fun s => by
  unfold CaptureState.IsClosing
  infer_instance

/-- What an ioctl of the thread is given. -/
def CaptureState.passed (s : CaptureState) : ℤ := s.callFd.getD s.fd

/-- The thread goes on, out of an `xioctl` if it was in one. -/
def CaptureState.goTo (s : CaptureState) (pc : WorkerPC) : CaptureState :=
  { s with worker := pc, callFd := none }

/-- The thread stays in its `xioctl`. -/
def CaptureState.retry (s : CaptureState) : CaptureState := { s with callFd := some s.passed }

@[simp] theorem worker_goTo (s : CaptureState) (pc : WorkerPC) : (s.goTo pc).worker = pc := rfl

@[simp] theorem fd_goTo (s : CaptureState) (pc : WorkerPC) : (s.goTo pc).fd = s.fd := rfl

@[simp] theorem stop_goTo (s : CaptureState) (pc : WorkerPC) : (s.goTo pc).stop = s.stop := rfl

@[simp] theorem stopRequested_goTo (s : CaptureState) (pc : WorkerPC) :
    (s.goTo pc).stopRequested = s.stopRequested := rfl

@[simp] theorem isClosing_goTo (s : CaptureState) (pc : WorkerPC) :
    (s.goTo pc).IsClosing ↔ s.IsClosing := Iff.rfl

@[simp] theorem goTo_goTo (s : CaptureState) (pc pc' : WorkerPC) :
    (s.goTo pc).goTo pc' = s.goTo pc' := rfl

@[simp] theorem worker_retry (s : CaptureState) : s.retry.worker = s.worker := rfl

/-- An ioctl of the thread, and where it goes on when it succeeds and when it fails. -/
def callStep (s : CaptureState) (result : IoctlResult) (next failed : WorkerPC) :
    CaptureState × List Access :=
  match result with
  | .success => (s.goTo next, [.ioctl s.fd s.passed])
  | .failure errno =>
    (if errno = .eintr then s.retry else s.goTo failed, [.ioctl s.fd s.passed])

@[simp] theorem callStep_success (s : CaptureState) (next failed : WorkerPC) :
    callStep s .success next failed = (s.goTo next, [.ioctl s.fd s.passed]) := rfl

@[simp] theorem callStep_failure (s : CaptureState) (errno : Errno) (next failed : WorkerPC) :
    callStep s (.failure errno) next failed =
      (if errno = .eintr then s.retry else s.goTo failed, [.ioctl s.fd s.passed]) := rfl

/-- A step of the thread. -/
def workerStep (s : CaptureState) (selected : SelectResult) (result : IoctlResult) :
    CaptureState × List Access :=
  match s.worker with
  | .testToken => (s.goTo (if s.stopRequested then .done else .fdSet), [])
  | .fdSet => (s.goTo .select, [.fdSet s.fd])
  | .select =>
    match selected with
    | .interrupted => (s.goTo .testToken, [.select s.fd])
    | .failed => (s.goTo .done, [.select s.fd])
    | .timeout => (s.goTo .done, [.select s.fd])
    | .ready => (s.goTo .dqbuf, [.select s.fd])
  | .dqbuf => callStep s result .onFrame .dqbufFailed
  | .dqbufFailed => (s.goTo .readFailed, [])
  | .onFrame => (s.goTo .qbuf, [])
  | .qbuf => callStep s result .testToken .qbufFailed
  | .qbufFailed => (s.goTo .readFailed, [])
  | .readFailed => (s.goTo (if s.IsClosing then .testToken else .done), [])
  | .done => (s, [])

/-- A step of `stop`; `closed` is whether `close` succeeds.  When it fails, `close_v4l_fd`
leaves `m_v4l_fd` as it is. -/
def stopStep (s : CaptureState) (closed : Bool) : CaptureState :=
  match s.stop with
  | .requestStop => { s with stopRequested := true, stop := .close }
  | .close => { s with stop := if s.fd ≠ -1 ∧ closed then .setFd else .join }
  | .setFd => { s with fd := -1, stop := .join }
  | .join => { s with stop := if s.worker = .done then .returned else .join }
  | .returned => s

inductive CaptureStep
  | worker (selected : SelectResult) (result : IoctlResult)
  | stop (closed : Bool)
  deriving DecidableEq, Repr

def capture : Machine CaptureState CaptureStep Access where
  step s
    | .worker selected result =>
      (some (workerStep s selected result).1, (workerStep s selected result).2)
    | .stop closed => (some (stopStep s closed), [])

/-! ## Uses of a dead descriptor -/

/-- The thread is somewhere in its loop, with a descriptor, and `stop` has not begun. -/
structure CaptureState.Running (s : CaptureState) : Prop where
  fd : s.fd ≠ -1
  stop : s.stop = .requestStop

/-- In no step of the run the thread uses the descriptor when `m_v4l_fd` is `-1`. -/
def NoDeadAccess (s : CaptureState) (steps : List CaptureStep) : Prop :=
  ∀ access ∈ capture.outputs s steps, access.fd ≠ -1

/-- From here the thread gets to the test of its token without another use of the
descriptor, if it is closing. -/
def WorkerPC.Safe : WorkerPC → Prop
  | testToken => True
  | dqbufFailed => True
  | qbufFailed => True
  | readFailed => True
  | done => True
  | _ => False

/-- If the step stores `-1`, the thread is at a safe place. -/
def StoresSafely (s : CaptureState) (step : CaptureStep) : Prop :=
  ∀ closed, step = .stop closed → s.stop = .setFd → s.worker.Safe

/-- What a run with safe stores keeps: whoever has begun to stop has requested it, and a thread
without a descriptor will find that out before it uses it. -/
structure Guarded (s : CaptureState) : Prop where
  requested : s.stop ≠ .requestStop → s.stopRequested = true
  safe : s.fd = -1 → s.stopRequested = true ∧ s.worker.Safe

theorem CaptureState.Running.guarded {s : CaptureState} (h : s.Running) : Guarded s :=
  ⟨fun hstop => absurd h.stop hstop, fun hfd => absurd hfd h.fd⟩

/-- An ioctl moves the thread on, out of its `xioctl`, or leaves it there. -/
theorem callStep_cases (s : CaptureState) (result : IoctlResult) (next failed : WorkerPC) :
    ((callStep s result next failed).1 = s.retry ∨
        ∃ pc, (callStep s result next failed).1 = s.goTo pc) ∧
      (callStep s result next failed).2 = [.ioctl s.fd s.passed] := by
  cases result with
  | success => exact ⟨.inr ⟨next, rfl⟩, rfl⟩
  | failure errno =>
      by_cases hintr : errno = .eintr
      · exact ⟨.inl (if_pos hintr), rfl⟩
      · exact ⟨.inr ⟨failed, if_neg hintr⟩, rfl⟩

/-- **A step of the thread** moves it on, leaves it in its `xioctl`, or is none; and its one use of
the descriptor, if it makes one, sees the member as it is. -/
theorem workerStep_cases (s : CaptureState) (selected : SelectResult) (result : IoctlResult) :
    ((workerStep s selected result).1 = s ∨ (workerStep s selected result).1 = s.retry ∨
        ∃ pc, (workerStep s selected result).1 = s.goTo pc) ∧
      ∀ access ∈ (workerStep s selected result).2,
        access = .fdSet s.fd ∨ access = .select s.fd ∨ access = .ioctl s.fd s.passed := by
  cases hpc : s.worker <;> simp only [workerStep, hpc]
  case select => cases selected <;> exact ⟨.inr (.inr ⟨_, rfl⟩), by simp⟩
  case dqbuf =>
    obtain ⟨hnext, huse⟩ := callStep_cases s result .onFrame .dqbufFailed
    exact ⟨.inr hnext, by simp [huse]⟩
  case qbuf =>
    obtain ⟨hnext, huse⟩ := callStep_cases s result .testToken .qbufFailed
    exact ⟨.inr hnext, by simp [huse]⟩
  case done => simp
  all_goals exact ⟨.inr (.inr ⟨_, rfl⟩), by simp⟩

/-- The thread changes no member, and its uses see the descriptor as it is. -/
theorem workerStep_frame (s : CaptureState) (selected : SelectResult) (result : IoctlResult) :
    (∃ pc copy, (workerStep s selected result).1 = { s with worker := pc, callFd := copy }) ∧
      ∀ access ∈ (workerStep s selected result).2, access.fd = s.fd := by
  obtain ⟨hnext, huse⟩ := workerStep_cases s selected result
  refine ⟨?_, ?_⟩
  · rcases hnext with hstay | hretry | ⟨pc, hgo⟩
    · exact ⟨s.worker, s.callFd, hstay⟩
    · exact ⟨s.worker, some s.passed, hretry⟩
    · exact ⟨pc, none, hgo⟩
  · intro access haccess
    rcases huse access haccess with rfl | rfl | rfl <;> rfl

/-- A thread at a safe place that is closing stays at safe places and uses nothing. -/
theorem workerStep_safe {s : CaptureState} (hfd : s.fd = -1) (hreq : s.stopRequested = true)
    (hsafe : s.worker.Safe) (selected : SelectResult) (result : IoctlResult) :
    (workerStep s selected result).1.worker.Safe ∧ (workerStep s selected result).2 = [] := by
  cases hpc : s.worker <;> rw [hpc] at hsafe
  case testToken => simp [workerStep, hpc, hreq, WorkerPC.Safe]
  case dqbufFailed => simp [workerStep, hpc, WorkerPC.Safe]
  case qbufFailed => simp [workerStep, hpc, WorkerPC.Safe]
  case readFailed => simp [workerStep, hpc, hfd, CaptureState.IsClosing, WorkerPC.Safe]
  case done => simp [workerStep, hpc, WorkerPC.Safe]
  all_goals exact hsafe.elim

/-- A thread at any other place that is closing uses the descriptor, at once or after
`m_on_frame`. -/
theorem workerStep_not_safe {s : CaptureState} (hfd : s.fd = -1) (hsafe : ¬ s.worker.Safe)
    (selected : SelectResult) (result : IoctlResult) :
    (∃ access ∈ (workerStep s selected result).2, access.fd = -1) ∨
      ¬ (workerStep s selected result).1.worker.Safe := by
  cases hpc : s.worker <;> rw [hpc] at hsafe
  case fdSet => simp [workerStep, hpc, hfd, Access.fd]
  case select => cases selected <;> simp [workerStep, hpc, hfd, Access.fd]
  case dqbuf => cases result <;> simp [workerStep, hpc, hfd, Access.fd]
  case qbuf => cases result <;> simp [workerStep, hpc, hfd, Access.fd]
  case onFrame => simp [workerStep, hpc, WorkerPC.Safe]
  all_goals exact absurd trivial hsafe

@[simp] theorem worker_stopStep (s : CaptureState) (closed : Bool) :
    (stopStep s closed).worker = s.worker := by
  cases hstop : s.stop <;> simp [stopStep, hstop]

theorem fd_stopStep (s : CaptureState) (closed : Bool) :
    (s.stop = .setFd ∧ (stopStep s closed).fd = -1) ∨ (stopStep s closed).fd = s.fd := by
  cases hstop : s.stop <;> simp [stopStep, hstop]

@[simp] theorem callFd_stopStep (s : CaptureState) (closed : Bool) :
    (stopStep s closed).callFd = s.callFd := by
  cases hstop : s.stop <;> simp [stopStep, hstop]

/-- `stop` requests the thread to stop before anything else. -/
theorem requested_stopStep {s : CaptureState}
    (h : s.stop ≠ .requestStop → s.stopRequested = true) (closed : Bool) :
    (stopStep s closed).stopRequested = true := by
  cases hstop : s.stop <;> simp [stopStep, hstop]
  all_goals exact h (by simp [hstop])

/-- What a run from the descriptor `opened` keeps: an `xioctl` that was called with another value
than the member has now was called before the store of `-1`. -/
structure CaptureState.Copied (opened : ℤ) (s : CaptureState) : Prop where
  fd : s.fd = opened ∨ s.fd = -1
  passed : s.passed = s.fd ∨ s.passed = opened

/-- `stop` leaves the copy alone, and what it stores is `-1`. -/
theorem CaptureState.Copied.stop {opened : ℤ} {s : CaptureState} (h : s.Copied opened)
    (closed : Bool) : (stopStep s closed).Copied opened := by
  have hpassed := h.passed
  simp only [CaptureState.passed] at hpassed
  rcases fd_stopStep s closed with ⟨-, hset⟩ | hsame
  · refine ⟨.inr hset, ?_⟩
    simp only [CaptureState.passed, callFd_stopStep, hset]
    cases hcall : s.callFd with
    | none => exact .inl rfl
    | some copy =>
        rw [hcall] at hpassed
        rcases hpassed with hold | hcopied
        · rcases h.fd with hfd | hfd
          · exact .inr (hold.trans hfd)
          · exact .inl (hold.trans hfd)
        · exact .inr hcopied
  · refine ⟨?_, ?_⟩
    · rw [hsame]
      exact h.fd
    · simpa only [CaptureState.passed, callFd_stopStep, hsame] using hpassed

theorem copied_step {opened : ℤ} (s : CaptureState) (step : CaptureStep) (h : s.Copied opened)
    (_ : True) : ∃ s' out, capture.step s step = (some s', out) ∧ s'.Copied opened ∧
      ∀ access ∈ out, ∀ seen passed, access = .ioctl seen passed →
        passed = seen ∨ seen = -1 ∧ passed = opened := by
  cases step with
  | worker selected result =>
      refine ⟨_, _, rfl, ?_⟩
      obtain ⟨hnext, huse⟩ := workerStep_cases s selected result
      refine ⟨?_, ?_⟩
      · rcases hnext with hstay | hretry | ⟨pc, hgo⟩
        · rwa [hstay]
        · rw [hretry]
          exact ⟨h.fd, h.passed⟩
        · rw [hgo]
          exact ⟨h.fd, .inl rfl⟩
      · rintro access haccess seen passed rfl
        obtain ⟨rfl, rfl⟩ : seen = s.fd ∧ passed = s.passed := by
          simpa using huse _ haccess
        rcases h.passed with hsame | hcopy
        · exact .inl hsame
        · rcases h.fd with hfd | hfd
          · exact .inl (hcopy.trans hfd.symm)
          · exact .inr ⟨hfd, hcopy⟩
  | stop closed => exact ⟨_, _, rfl, h.stop closed, by simp⟩

/-- **What an ioctl is given**: the member as it is; or, after the store of `-1`, the descriptor of
before, when it is a retry in an `xioctl` that was called then. -/
theorem ioctl_passes {s : CaptureState} (hs : s.callFd = none) (steps : List CaptureStep) :
    ∀ access ∈ capture.outputs s steps, ∀ seen passed, access = .ioctl seen passed →
      passed = seen ∨ seen = -1 ∧ passed = s.fd := by
  have hinit : s.Copied s.fd := ⟨.inl rfl, .inl (by simp [CaptureState.passed, hs])⟩
  exact Machine.outputs_of_always copied_step steps s hinit
    (Machine.always_of_forall (fun _ _ => trivial) s)

/-- **Safe stores keep the thread from the dead descriptor**, in one step. -/
theorem guarded_step (s : CaptureState) (step : CaptureStep) (h : Guarded s)
    (hstore : StoresSafely s step) : ∃ s' out, capture.step s step = (some s', out) ∧
      Guarded s' ∧ ∀ access ∈ out, access.fd ≠ -1 := by
  cases step with
  | worker selected result =>
      refine ⟨_, _, rfl, ?_⟩
      obtain ⟨⟨pc, copy, hframe⟩, huse⟩ := workerStep_frame s selected result
      by_cases hfd : s.fd = -1
      · obtain ⟨hreq, hsafe⟩ := h.safe hfd
        obtain ⟨hsafe', hnone⟩ := workerStep_safe hfd hreq hsafe selected result
        refine ⟨⟨?_, ?_⟩, by simp [hnone]⟩
        · rw [hframe]
          exact h.requested
        · refine fun _ => ⟨?_, hsafe'⟩
          rw [hframe]
          exact hreq
      · refine ⟨⟨?_, ?_⟩, fun access haccess => huse access haccess ▸ hfd⟩
        · rw [hframe]
          exact h.requested
        · rw [hframe]
          exact fun hdead => absurd hdead hfd
  | stop closed =>
      refine ⟨_, _, rfl, ?_⟩
      have hreq := requested_stopStep h.requested closed
      refine ⟨⟨fun _ => hreq, ?_⟩, by simp⟩
      intro hdead
      refine ⟨hreq, ?_⟩
      rw [worker_stopStep]
      rcases fd_stopStep s closed with ⟨hset, -⟩ | hsame
      · exact hstore closed rfl hset
      · exact (h.safe (hsame ▸ hdead)).2

/-- The thread is on its way to a dead use. -/
def CaptureState.Doomed (s : CaptureState) : Prop := s.fd = -1 ∧ ¬ s.worker.Safe

/-- **A thread on its way to a dead use** makes it or stays on its way, in one step. -/
theorem doomed_step (s : CaptureState) (step : CaptureStep) (s' : CaptureState)
    (hdoomed : s.Doomed) (h : (capture.step s step).1 = some s') :
    (∃ access ∈ (capture.step s step).2, access.fd = -1) ∨ s'.Doomed := by
  obtain ⟨hfd, hsafe⟩ := hdoomed
  cases step with
  | worker selected result =>
      cases h
      obtain ⟨⟨pc, copy, hframe⟩, -⟩ := workerStep_frame s selected result
      have hfd' : (workerStep s selected result).1.fd = -1 := by
        rw [hframe]
        exact hfd
      have hworker := workerStep_not_safe hfd hsafe selected result
      exact hworker.imp_right fun hnext => ⟨hfd', hnext⟩
  | stop closed =>
      cases h
      right
      refine ⟨?_, by rwa [worker_stopStep]⟩
      rcases fd_stopStep s closed with ⟨-, hset⟩ | hsame
      · exact hset
      · rw [hsame, hfd]

/-- An unsafe store puts the thread on its way to a dead use. -/
theorem doomed_of_store (s : CaptureState) (step : CaptureStep) (s' : CaptureState)
    (hstore : ¬ StoresSafely s step) (h : (capture.step s step).1 = some s') : s'.Doomed := by
  simp only [StoresSafely, not_forall] at hstore
  obtain ⟨closed, hstop, hset, hsafe⟩ := hstore
  subst hstop
  cases h
  exact ⟨by simp [stopStep, hset], by rwa [worker_stopStep]⟩

/-- **When stopping is safe.**  From a running capture, no run in which `-1` is stored while the
thread is at a safe place has a use of a dead descriptor; and a run that takes the thread to its
end has none exactly when it is of that kind. -/
theorem stop_iff {s : CaptureState} (hs : s.Running) (steps : List CaptureStep) :
    (capture.Always StoresSafely s steps → NoDeadAccess s steps) ∧
    ∀ t, capture.final s steps = some t → t.worker = .done →
      (NoDeadAccess s steps ↔ capture.Always StoresSafely s steps) := by
  have hsafe : capture.Always StoresSafely s steps → NoDeadAccess s steps :=
    Machine.outputs_of_always guarded_step steps s hs.guarded
  refine ⟨hsafe, ?_⟩
  intro t hfinal hdone
  refine ⟨?_, hsafe⟩
  have hend : ¬ t.Doomed := fun hdoomed => hdoomed.2 (by rw [hdone]; trivial)
  exact Machine.always_of_not_bad doomed_of_store doomed_step steps hfinal hend

/-- The thread is at the test of its token when `stop` runs as a whole. -/
theorem stop_iff_between_turns :
    let s : CaptureState := { fd := 3, worker := .testToken }
    let steps : List CaptureStep :=
      [.stop true, .stop true, .stop true, .worker .ready .success, .stop true]
    (capture.Always StoresSafely s steps → NoDeadAccess s steps) ∧
    ∀ t, capture.final s steps = some t → t.worker = .done →
      (NoDeadAccess s steps ↔ capture.Always StoresSafely s steps) :=
  stop_iff ⟨by decide, rfl⟩ _

/-- The thread has just found its token unset when `stop` runs: it passes `-1` to `FD_SET`. -/
theorem fd_set_after_stop :
    ¬ ∀ (s : CaptureState) (steps : List CaptureStep), s.Running → NoDeadAccess s steps := by
  intro h
  have huse := h { fd := 3, worker := .testToken }
    [.worker .ready .success, .stop true, .stop true, .stop true, .worker .ready .success]
    ⟨by decide, rfl⟩
  exact absurd (huse (.fdSet (-1)) (by decide)) (by decide)

end NaiveStreaming
