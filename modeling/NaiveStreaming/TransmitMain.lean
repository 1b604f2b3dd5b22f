import NaiveStreaming.CaptureStop
import NaiveStreaming.Lib.Scope
import NaiveStreaming.TransmitApp

/-!
# The end of the transmitting application

The `main` of the transmitting application runs the event loop until a signal arrives.  The handler
of the signal stops the capture and then the event loop; after that `main` returns, and the members
of the application go, the sender and the counters before the capture.  The capture's thread calls
back into all of them, so what keeps it from a member that is gone is the `join` of `stop`.

The two threads take their steps in any order.  A step of the working thread is one use of a member
while the callback runs, and otherwise a step of the reading loop, which uses the capture; the
buffers are left out.  A callback in which an assertion fails ends the run.
-/

namespace NaiveStreaming
open ByteOrder Mealy

/-- The members of `StreamTransmitApp` that the working thread uses, in the order in which they are
destroyed. -/
inductive AppMember
  | encodeFps
  | captureFps
  | udpTransmit
  | capture
  | encoder
  deriving DecidableEq, Repr

/-- The order of destruction: the members last to first. -/
def AppMember.destruction : List AppMember := [encodeFps, captureFps, udpTransmit, capture, encoder]

/-- What the encoder and its client use at a notification. -/
def EncoderEvent.uses : EncoderEvent → List AppMember
  | onFrameStarted => [.encoder]
  | onNalEncoded _ _ => [.encoder, .udpTransmit, .encoder]
  | onFrameEnded => [.encodeFps, .encoder]

section
variable {σ : Type}

/-- What the lambda passed to `make_video_capture` uses. -/
def callbackUses (x264 : X264 σ) (app : StreamTransmitApp σ) (call : CaptureCall) :
    List AppMember :=
  [.captureFps, .encoder] ++
    (processFrame x264 app.encoder call.frame).2.flatMap EncoderEvent.uses ++ [.encoder]

inductive TransmitMainPC
  /-- In `ctx.run`, until a signal arrives. -/
  | running
  | stopping
  | stopLoop
  /-- In the destructor of the application; so many members are gone. -/
  | destroying (gone : ℕ)
  | returned
  deriving DecidableEq, Repr

/-- `main`, the capture and the application; `control` says where the working thread is, and where
`stop` is. -/
structure TransmitMain (σ : Type) where
  main : TransmitMainPC := .running
  control : CaptureState
  /-- What the callback that is running has still to use. -/
  uses : List AppMember := []
  app : StreamTransmitApp σ

inductive TransmitMainStep
  /-- A step of `main`; `closed` is whether a `close` succeeds. -/
  | main (closed : Bool)
  /-- A step of the working thread; `call` is what the callback is called with. -/
  | worker (selected : SelectResult) (result : IoctlResult) (call : CaptureCall)
  deriving DecidableEq, Repr

def TransmitMainPC.gone : TransmitMainPC → ℕ
  | destroying gone => gone
  | returned => AppMember.destruction.length
  | _ => 0

def TransmitMain.Alive (s : TransmitMain σ) (m : AppMember) : Prop :=
  Scope.Alive AppMember.destruction s.main.gone m

instance TransmitMain.decidableAlive (s : TransmitMain σ) (m : AppMember) : Decidable (s.Alive m) :=
  inferInstanceAs (Decidable (Scope.Alive ..))

/-- A use of a member by the working thread, and whether the member is still there. -/
structure AppMemberUse where
  member : AppMember
  alive : Bool
  deriving DecidableEq, Repr

def TransmitMain.mainStep (s : TransmitMain σ) (closed : Bool) : TransmitMain σ :=
  match s.main with
  | .running => { s with main := .stopping }
  | .stopping =>
    if s.control.stop = .returned then { s with main := .stopLoop }
    else { s with control := stopStep s.control closed }
  | .stopLoop => { s with main := .destroying 0 }
  | .destroying gone =>
    { s with main :=
        if gone < AppMember.destruction.length then .destroying (gone + 1) else .returned }
  | .returned => s

/-- A step of the reading loop, or the call of the callback. -/
def loopStep (x264 : X264 σ) (host : Endian) (s : TransmitMain σ) (selected : SelectResult)
    (result : IoctlResult) (call : CaptureCall) : Option (TransmitMain σ) :=
  let control := (workerStep s.control selected result).1
  if s.control.worker = .onFrame then
    (captureCallback host x264 s.app call).1.map fun app =>
      { s with control := control, uses := callbackUses x264 s.app call, app := app }
  else some { s with control := control }

def transmitMain (host : Endian) (x264 : X264 σ) :
    Machine (TransmitMain σ) TransmitMainStep AppMemberUse where
  step s
    | .main closed => (some (s.mainStep closed), [])
    | .worker selected result call =>
      match s.uses with
      | m :: rest => (some { s with uses := rest }, [⟨m, s.Alive m⟩])
      | [] =>
        if s.control.worker = .done then (some s, [])
        else (loopStep x264 host s selected result call, [⟨.capture, s.Alive .capture⟩])

/-! ## The order of the end -/

/-- `main` has returned from `stop`. -/
def TransmitMainPC.Stopped : TransmitMainPC → Prop
  | running => False
  | stopping => False
  | _ => True

/-- What every run keeps: `main` goes on after `stop` only, `stop` returns after the thread has
ended, and the thread ends outside the callback. -/
structure TransmitMain.Ordered (s : TransmitMain σ) : Prop where
  stopped : s.main.Stopped → s.control.stop = .returned
  joined : s.control.stop = .returned → s.control.worker = .done
  idle : s.control.worker = .done → s.uses = []

/-- The capture's thread runs, and `main` is in the event loop. -/
def TransmitMain.launched (fd : ℤ) (app : StreamTransmitApp σ) : TransmitMain σ where
  control := { fd := fd, worker := .testToken }
  app := app

theorem ordered_launched (fd : ℤ) (app : StreamTransmitApp σ) :
    (TransmitMain.launched fd app).Ordered :=
  ⟨fun h => h.elim, by simp [TransmitMain.launched], by simp [TransmitMain.launched]⟩

/-- No member is gone while the thread has not ended. -/
theorem TransmitMain.Ordered.alive {s : TransmitMain σ} (h : s.Ordered)
    (hworker : s.control.worker ≠ .done) (m : AppMember) : s.Alive m := by
  have hstopped : ¬ s.main.Stopped := fun hstopped => hworker (h.joined (h.stopped hstopped))
  cases hpc : s.main <;> rw [hpc] at hstopped
  case running => simp [TransmitMain.Alive, hpc, TransmitMainPC.gone]
  case stopping => simp [TransmitMain.Alive, hpc, TransmitMainPC.gone]
  all_goals exact absurd trivial hstopped

/-- `stop` returns after the thread has ended. -/
theorem joined_stopStep {s : CaptureState} (h : s.stop = .returned → s.worker = .done)
    (closed : Bool) : (stopStep s closed).stop = .returned → s.worker = .done := by
  cases hstop : s.stop <;> simp only [stopStep, hstop]
  case close => split <;> simp
  case join => by_cases hdone : s.worker = .done <;> simp [hdone]
  case returned => exact fun _ => h hstop
  all_goals simp

theorem TransmitMain.Ordered.mainStep {s : TransmitMain σ} (h : s.Ordered) (closed : Bool) :
    (s.mainStep closed).Ordered := by
  have hstopped := h.stopped
  cases hpc : s.main <;> rw [hpc] at hstopped <;> simp only [TransmitMain.mainStep, hpc]
  case running => exact ⟨fun h => h.elim, h.joined, h.idle⟩
  case stopping =>
    by_cases hreturned : s.control.stop = .returned
    · rw [if_pos hreturned]
      exact ⟨fun _ => hreturned, h.joined, h.idle⟩
    · rw [if_neg hreturned]
      refine ⟨fun h => h.elim, ?_, ?_⟩
      · rw [worker_stopStep]
        exact joined_stopStep h.joined closed
      · rw [worker_stopStep]
        exact h.idle
  case returned => exact h
  all_goals exact ⟨fun _ => hstopped trivial, h.joined, h.idle⟩

theorem TransmitMain.Ordered.loopStep {s s' : TransmitMain σ} (h : s.Ordered)
    (hworker : s.control.worker ≠ .done) (huses : s.uses = []) {x264 : X264 σ} {host : Endian}
    {selected : SelectResult} {result : IoctlResult} {call : CaptureCall}
    (hstep : loopStep x264 host s selected result call = some s') : s'.Ordered := by
  have hrunning : s.control.stop ≠ .returned := fun hstop => hworker (h.joined hstop)
  have hmain : ¬ s.main.Stopped := fun hstopped => hrunning (h.stopped hstopped)
  obtain ⟨⟨pc, copy, hframe⟩, -⟩ := workerStep_frame s.control selected result
  simp only [NaiveStreaming.loopStep] at hstep
  by_cases hpc : s.control.worker = .onFrame
  · rw [if_pos hpc] at hstep
    obtain ⟨app, -, rfl⟩ := Option.map_eq_some_iff.mp hstep
    refine ⟨fun hstopped => absurd hstopped hmain, ?_, ?_⟩
    · rw [hframe]
      exact fun hstop => absurd hstop hrunning
    · simp [workerStep, hpc]
  · rw [if_neg hpc] at hstep
    cases hstep
    refine ⟨fun hstopped => absurd hstopped hmain, ?_, fun _ => huses⟩
    rw [hframe]
    exact fun hstop => absurd hstop hrunning

/-- **Every use finds its member alive**, in one step. -/
theorem ordered_step {host : Endian} {x264 : X264 σ} (s : TransmitMain σ)
    (step : TransmitMainStep) (h : s.Ordered) :
    (∀ use ∈ ((transmitMain host x264).step s step).2, use.alive = true) ∧
      ∀ s', ((transmitMain host x264).step s step).1 = some s' → s'.Ordered := by
  cases step with
  | main closed =>
      refine ⟨by simp [transmitMain], ?_⟩
      intro s' hstep
      cases hstep
      exact h.mainStep closed
  | worker selected result call =>
      cases huses : s.uses with
      | cons m rest =>
          have hworker : s.control.worker ≠ .done := by
            intro hdone
            simp [h.idle hdone] at huses
          simp only [transmitMain, huses]
          refine ⟨by simpa using h.alive hworker m, ?_⟩
          rintro s' ⟨⟩
          exact ⟨h.stopped, h.joined, fun hdone => absurd hdone hworker⟩
      | nil =>
          by_cases hworker : s.control.worker = .done
          · simp only [transmitMain, huses, hworker, if_true]
            refine ⟨by simp, ?_⟩
            rintro s' ⟨⟩
            exact h
          · simp only [transmitMain, huses, hworker, if_false]
            refine ⟨by simpa using h.alive hworker .capture, ?_⟩
            exact fun s' hstep => h.loopStep hworker huses hstep

/-- **No member is used that is gone.**  From the launch of the capture's thread to the return of
`main`, in any order of the steps and whatever the calls come to, the thread uses only members of
the application that are still there. -/
theorem transmitMain_alive (host : Endian) (x264 : X264 σ) (fd : ℤ) (app : StreamTransmitApp σ)
    (steps : List TransmitMainStep) :
    ∀ use ∈ (transmitMain host x264).outputs (.launched fd app) steps, use.alive = true := by
  have halways : (transmitMain host x264).Always (fun _ _ => True) (.launched fd app) steps :=
    Machine.always_of_forall (fun _ _ => trivial) _
  exact Machine.outputs_allowed_of_always (fun s step h _ => ordered_step s step h) steps _
    (ordered_launched fd app) halways

end

/-- A signal arrives while the callback runs, which still uses the sender, and `main` returns. -/
theorem transmitMain_alive_signal :
    let frame : TransmitMainStep := .worker .ready .success ⟨[], 0, 0, 0⟩
    let steps := List.replicate 5 frame ++ List.replicate 4 (.main true) ++
      List.replicate 11 frame ++ List.replicate 9 (.main true)
    let m := transmitMain .little oneSliceX264
    let s := TransmitMain.launched 3 { encoder := ⟨(), 0⟩ }
    (m.final s steps).map (·.main) = some .returned ∧
      ∃ use ∈ m.outputs s steps, use.member = .udpTransmit ∧ use.alive = true := by
  intro frame steps m s
  have huse : ⟨.udpTransmit, true⟩ ∈ m.outputs s steps := by decide +kernel
  refine ⟨by decide +kernel, _, huse, rfl, ?_⟩
  exact transmitMain_alive .little oneSliceX264 3 _ steps _ huse

end NaiveStreaming
