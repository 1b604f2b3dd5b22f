import NaiveStreaming.Lib.Scope
import NaiveStreaming.ReceiveApp

/-!
# The end of the receiving application

The `main` of the receiving application has the event loop run on a thread of its own and the user
interface on the main thread.  When the window is closed it stops the event loop, which lets the
handler that is running go on to its end, and returns: the window goes first, member by member,
and the thread is joined after it.  So nothing keeps the handler from a member that is gone.  When
`initialize` fails, `main` returns without stopping the event loop.

The two threads take their steps in any order; a step of the event loop is one use of a member by
the handler.  A handler in which an assertion fails ends the run, and its uses are left out.
-/

namespace NaiveStreaming
open ByteOrder Mealy

/-- What the event loop uses of the window, in the order in which the window is destroyed. -/
inductive WindowMember
  | currentFrameData
  | currentFrameImg
  | currentFrameLock
  | udpReceive
  | decoder
  /-- The widget and the listeners, which are base classes. -/
  | window
  deriving DecidableEq, Repr

/-- The order of destruction: the members last to first, then the base classes. -/
def WindowMember.destruction : List WindowMember :=
  [currentFrameData, currentFrameImg, currentFrameLock, udpReceive, decoder, window]

/-- What the decoder uses at an event: `on_frame` locks, assigns, updates and unlocks. -/
def DecoderEvent.uses : DecoderEvent → List WindowMember
  | consumed _ => [.decoder]
  | onFrame _ => [.window, .currentFrameLock, .currentFrameData, .currentFrameImg, .window,
      .currentFrameLock, .decoder]

section
variable {π κ : Type}

/-- What `on_packet_received` uses; it ends with `update`. -/
def packetUses (lib : AVCodec π κ) (window : MainWindow π κ) (p : VideoPacket) :
    List WindowMember :=
  .window :: (onPacketReceived lib window p).2.flatMap DecoderEvent.uses ++ [.window]

/-- What the completion handler uses at an event. -/
def ReceiveEvent.uses (lib : AVCodec π κ) (window : MainWindow π κ) :
    ReceiveEvent → List WindowMember
  | receiveFailed _ | tooSmall => []
  | onPacketReceived p => .udpReceive :: packetUses lib window p
  | _ => [.udpReceive]

/-- What is left of the window's members once the handlers have run. -/
abbrev ReceiveState (π κ : Type) := UDPReceiveImpl × MainWindow π κ × Option FrameImage

/-- What the handler of a completion uses; it ends with `receive_next`. -/
def handlerUses (host : Endian) (lib : AVCodec π κ) (app : ReceiveState π κ)
    (completion : Completion) : List WindowMember :=
  ((receiver host).step app.1 completion).2.flatMap (ReceiveEvent.uses lib app.2.1) ++
    [.udpReceive]

inductive ReceiveMainPC
  | initializing
  | starting
  /-- In `exec`, until the window is closed. -/
  | executing
  | stopping
  /-- In the destructor of the window; so many members are gone. -/
  | destroying (gone : ℕ)
  /-- At the `join` of `~jthread`; the thread does not look at the request before it. -/
  | joining
  | returned
  deriving DecidableEq, Repr

/-- `main` and the event loop. -/
structure ReceiveMain (π κ : Type) where
  main : ReceiveMainPC := .initializing
  /-- A receive has been armed. -/
  armed : Bool := false
  /-- `ctx.stop` has been called. -/
  stopped : Bool := false
  /-- The thread is in `ctx.run`, which has work of its own and returns only when stopped. -/
  running : Bool := true
  /-- What the handler that is running has still to use. -/
  uses : List WindowMember := []
  app : ReceiveState π κ

inductive ReceiveMainStep
  /-- A step of `main`; `initialized` is the result of `initialize`. -/
  | main (initialized : Bool)
  /-- A step of the event loop; `completion` is what the socket completes with. -/
  | asio (completion : Completion)
  deriving DecidableEq

/-- The threads when the one of the event loop has been launched; `app` is what `initialize` makes
of the members. -/
def ReceiveMain.launched (app : ReceiveState π κ) : ReceiveMain π κ := { app := app }

def ReceiveMainPC.gone : ReceiveMainPC → ℕ
  | destroying gone => gone
  | joining | returned => WindowMember.destruction.length
  | _ => 0

def ReceiveMain.Alive (s : ReceiveMain π κ) (m : WindowMember) : Prop :=
  Scope.Alive WindowMember.destruction s.main.gone m

instance ReceiveMain.decidableAlive (s : ReceiveMain π κ) (m : WindowMember) :
    Decidable (s.Alive m) :=
  inferInstanceAs (Decidable (Scope.Alive ..))

/-- A use of a member by the handler, and whether the member is still there. -/
structure MemberUse where
  member : WindowMember
  alive : Bool
  deriving DecidableEq, Repr

def ReceiveMain.mainStep (s : ReceiveMain π κ) (initialized : Bool) : ReceiveMain π κ :=
  match s.main with
  | .initializing => { s with main := if initialized then .starting else .destroying 0 }
  | .starting => { s with main := .executing, armed := true }
  | .executing => { s with main := .stopping }
  | .stopping => { s with main := .destroying 0, stopped := true }
  | .destroying gone =>
    { s with main :=
        if gone < WindowMember.destruction.length then .destroying (gone + 1) else .joining }
  | .joining => { s with main := if s.running then .joining else .returned }
  | .returned => s

def asioStep (host : Endian) (lib : AVCodec π κ) (c : ByteCast) (s : ReceiveMain π κ)
    (completion : Completion) : Option (ReceiveMain π κ) × List MemberUse :=
  match s.uses with
  | m :: rest => (some { s with uses := rest }, [⟨m, s.Alive m⟩])
  | [] =>
    if s.stopped then (some { s with running := false }, [])
    else if s.armed then
      (((receiveApp host lib c).step s.app completion).1.map fun app =>
        { s with uses := handlerUses host lib s.app completion, app := app }, [])
    else (some s, [])

def receiveMain (host : Endian) (lib : AVCodec π κ) (c : ByteCast) :
    Machine (ReceiveMain π κ) ReceiveMainStep MemberUse where
  step s
    | .main initialized => (some (s.mainStep initialized), [])
    | .asio completion => asioStep host lib c s completion

/-! ## What every run keeps -/

/-- `main` is at its end, from the destructor of the window on. -/
def ReceiveMainPC.Leaving : ReceiveMainPC → Prop
  | destroying _ => True
  | joining => True
  | returned => True
  | _ => False

/-- The order in which `main` goes on, as the event loop sees it. -/
structure ReceiveMain.Orderly (s : ReceiveMain π κ) : Prop where
  leaving : s.stopped = true → s.main.Leaving
  armed : s.armed = true → s.stopped = true ∨ s.main = .executing ∨ s.main = .stopping
  running : s.running = false → s.stopped = true

theorem orderly_launched (app : ReceiveState π κ) : (ReceiveMain.launched app).Orderly :=
  ⟨by simp [ReceiveMain.launched], by simp [ReceiveMain.launched], by simp [ReceiveMain.launched]⟩

/-- A step of `main` takes away the next member in the order, or none. -/
theorem alive_mainStep (s : ReceiveMain π κ) (initialized : Bool) (m : WindowMember) :
    (s.mainStep initialized).Alive m ↔ s.Alive m ∧
      ∀ gone, s.main = .destroying gone → WindowMember.destruction[gone]? ≠ some m := by
  cases hpc : s.main with
  | destroying gone =>
      by_cases hmore : gone < WindowMember.destruction.length
      · simp [ReceiveMain.mainStep, ReceiveMain.Alive, hpc, hmore, ReceiveMainPC.gone,
          Scope.alive_succ_iff]
      · have hend : WindowMember.destruction.length ≤ gone := Nat.le_of_not_lt hmore
        simp [ReceiveMain.mainStep, ReceiveMain.Alive, hpc, hmore, ReceiveMainPC.gone,
          Scope.alive_iff_of_length_le hend]
  | initializing =>
      cases initialized <;> simp [ReceiveMain.mainStep, ReceiveMain.Alive, hpc, ReceiveMainPC.gone]
  | joining =>
      by_cases hrunning : s.running = true <;>
        simp [ReceiveMain.mainStep, ReceiveMain.Alive, hpc, hrunning, ReceiveMainPC.gone]
  | _ => simp [ReceiveMain.mainStep, ReceiveMain.Alive, hpc, ReceiveMainPC.gone]

@[simp] theorem uses_mainStep (s : ReceiveMain π κ) (initialized : Bool) :
    (s.mainStep initialized).uses = s.uses := by
  cases hpc : s.main <;> simp [ReceiveMain.mainStep, hpc]

/-- What a step of the event loop can be: a use, the return from `ctx.run`, the start of a handler,
or a wait. -/
theorem asioStep_cases (host : Endian) (lib : AVCodec π κ) (c : ByteCast) (s : ReceiveMain π κ)
    (completion : Completion) :
    (∃ m rest, s.uses = m :: rest ∧
      asioStep host lib c s completion = (some { s with uses := rest }, [⟨m, s.Alive m⟩])) ∨
    (s.uses = [] ∧ s.stopped = true ∧
      asioStep host lib c s completion = (some { s with running := false }, [])) ∨
    (s.uses = [] ∧ s.stopped = false ∧ s.armed = true ∧
      asioStep host lib c s completion =
        (((receiveApp host lib c).step s.app completion).1.map fun app =>
          { s with uses := handlerUses host lib s.app completion, app := app }, [])) ∨
    (s.uses = [] ∧ s.stopped = false ∧ s.armed = false ∧
      asioStep host lib c s completion = (some s, [])) := by
  cases huses : s.uses with
  | cons m rest => exact .inl ⟨m, rest, rfl, by simp [asioStep, huses]⟩
  | nil =>
      cases hstopped : s.stopped with
      | true => exact .inr (.inl ⟨rfl, rfl, by simp [asioStep, huses, hstopped]⟩)
      | false =>
          cases harmed : s.armed with
          | true =>
              refine .inr (.inr (.inl ⟨rfl, rfl, rfl, ?_⟩))
              simp [asioStep, huses, hstopped, harmed]
          | false =>
              refine .inr (.inr (.inr ⟨rfl, rfl, rfl, ?_⟩))
              simp [asioStep, huses, hstopped, harmed]

theorem ReceiveMain.Orderly.mainStep {s : ReceiveMain π κ} (h : s.Orderly) (initialized : Bool) :
    (s.mainStep initialized).Orderly := by
  have hleaving := h.leaving
  have harmed := h.armed
  cases hpc : s.main <;> rw [hpc] at hleaving harmed <;>
    simp only [ReceiveMainPC.Leaving, reduceCtorEq, or_false, or_true, imp_false, imp_true_iff]
      at hleaving harmed <;>
    simp only [ReceiveMain.mainStep, hpc]
  case initializing =>
    exact ⟨fun hstopped => absurd hstopped hleaving, fun h => .inl (harmed h), h.running⟩
  case starting =>
    exact ⟨fun hstopped => absurd hstopped hleaving, fun _ => .inr (.inl rfl), h.running⟩
  case executing =>
    exact ⟨fun hstopped => absurd hstopped hleaving, fun _ => .inr (.inr rfl), h.running⟩
  case stopping => exact ⟨fun _ => trivial, fun _ => .inl rfl, fun _ => rfl⟩
  case destroying gone =>
    refine ⟨fun _ => ?_, fun h => .inl (harmed h), h.running⟩
    by_cases hmore : gone < WindowMember.destruction.length <;> simp [hmore, ReceiveMainPC.Leaving]
  case joining =>
    refine ⟨fun _ => ?_, fun h => .inl (harmed h), h.running⟩
    by_cases hrunning : s.running = true <;> simp [hrunning, ReceiveMainPC.Leaving]
  case returned => exact h

theorem ReceiveMain.Orderly.asioStep {s s' : ReceiveMain π κ} (h : s.Orderly) {host : Endian}
    {lib : AVCodec π κ} {c : ByteCast} {completion : Completion}
    (hstep : (asioStep host lib c s completion).1 = some s') : s'.Orderly := by
  rcases asioStep_cases host lib c s completion with ⟨m, rest, -, heq⟩ | ⟨-, hstopped, heq⟩ |
    ⟨-, -, -, heq⟩ | ⟨-, -, -, heq⟩
  all_goals rw [heq] at hstep
  · cases hstep
    exact ⟨h.leaving, h.armed, h.running⟩
  · cases hstep
    exact ⟨h.leaving, h.armed, fun _ => hstopped⟩
  · obtain ⟨app, -, rfl⟩ := Option.map_eq_some_iff.mp hstep
    exact ⟨h.leaving, h.armed, h.running⟩
  · cases hstep
    exact h

/-! ## Members that are gone -/

/-- A member that the step takes away is none that the handler has still to use. -/
def SafeDestruction (s : ReceiveMain π κ) (step : ReceiveMainStep) : Prop :=
  ∀ initialized gone m, step = .main initialized → s.main = .destroying gone →
    WindowMember.destruction[gone]? = some m → m ∉ s.uses

/-- What the handler has still to use is still there. -/
structure ReceiveMain.Intact (s : ReceiveMain π κ) : Prop where
  orderly : s.Orderly
  alive : ∀ m ∈ s.uses, s.Alive m

/-- The handler has still to use a member that is gone. -/
def ReceiveMain.Doomed (s : ReceiveMain π κ) : Prop := ∃ m ∈ s.uses, ¬ s.Alive m

variable {host : Endian} {lib : AVCodec π κ} {c : ByteCast}

/-- No member is gone while handlers are started. -/
theorem ReceiveMain.Orderly.alive {s : ReceiveMain π κ} (h : s.Orderly)
    (hstopped : s.stopped = false) (harmed : s.armed = true) (m : WindowMember) : s.Alive m := by
  have hmain := (h.armed harmed).resolve_left (by simp [hstopped])
  rcases hmain with hmain | hmain <;> simp [ReceiveMain.Alive, hmain, ReceiveMainPC.gone]

/-- What the handler uses in a step is the first of what it has still to use. -/
theorem alive_outputs {s : ReceiveMain π κ} (halive : ∀ m ∈ s.uses, s.Alive m)
    (step : ReceiveMainStep) :
    ∀ use ∈ ((receiveMain host lib c).step s step).2, use.alive = true := by
  cases step with
  | main initialized => simp [receiveMain]
  | asio completion =>
      simp only [receiveMain]
      rcases asioStep_cases host lib c s completion with ⟨m, rest, huses, heq⟩ |
        ⟨-, -, heq⟩ | ⟨-, -, -, heq⟩ | ⟨-, -, -, heq⟩
      · rw [huses, List.forall_mem_cons] at halive
        simpa [heq] using halive.1
      all_goals simp [heq]

/-- **Safe destruction keeps the handler from members that are gone**, in one step. -/
theorem safeDestruction_step (s : ReceiveMain π κ) (step : ReceiveMainStep) (h : s.Intact)
    (hsafe : SafeDestruction s step) :
    (∀ use ∈ ((receiveMain host lib c).step s step).2, use.alive = true) ∧
      ∀ s', ((receiveMain host lib c).step s step).1 = some s' → s'.Intact := by
  refine ⟨alive_outputs h.alive step, ?_⟩
  intro s' hstep
  cases step with
  | main initialized =>
      cases hstep
      refine ⟨h.orderly.mainStep initialized, ?_⟩
      intro m hm
      rw [uses_mainStep] at hm
      rw [alive_mainStep]
      exact ⟨h.alive m hm, fun gone hpc hnext => hsafe initialized gone m rfl hpc hnext hm⟩
  | asio completion =>
      simp only [receiveMain] at hstep
      refine ⟨h.orderly.asioStep hstep, ?_⟩
      have halive := h.alive
      rcases asioStep_cases host lib c s completion with ⟨m, rest, huses, heq⟩ |
        ⟨-, -, heq⟩ | ⟨-, hstopped, harmed, heq⟩ | ⟨-, -, -, heq⟩
      all_goals rw [heq] at hstep
      · cases hstep
        rw [huses, List.forall_mem_cons] at halive
        exact halive.2
      · cases hstep
        exact halive
      · obtain ⟨app, -, rfl⟩ := Option.map_eq_some_iff.mp hstep
        exact fun m _ => h.orderly.alive hstopped harmed m
      · cases hstep
        exact halive

/-- A destruction that is not safe leaves the handler with a member that is gone. -/
theorem doomed_of_not_safeDestruction (s : ReceiveMain π κ) (step : ReceiveMainStep)
    (s' : ReceiveMain π κ) (hnot : ¬ SafeDestruction s step)
    (hstep : ((receiveMain host lib c).step s step).1 = some s') : s'.Doomed := by
  simp only [SafeDestruction, not_forall, not_not] at hnot
  obtain ⟨initialized, gone, m, rfl, hpc, hnext, hm⟩ := hnot
  cases hstep
  refine ⟨m, by rwa [uses_mainStep], ?_⟩
  rw [alive_mainStep]
  exact fun halive => halive.2 gone hpc hnext

/-- **A handler with a member that is gone** uses it or stays with it, in one step. -/
theorem doomed_receiveMain (s : ReceiveMain π κ) (step : ReceiveMainStep) (s' : ReceiveMain π κ)
    (hdoomed : s.Doomed)
    (hstep : ((receiveMain host lib c).step s step).1 = some s') :
    (∃ use ∈ ((receiveMain host lib c).step s step).2, use.alive = false) ∨ s'.Doomed := by
  obtain ⟨m, hm, hgone⟩ := hdoomed
  cases step with
  | main initialized =>
      cases hstep
      refine .inr ⟨m, by rwa [uses_mainStep], ?_⟩
      rw [alive_mainStep]
      exact fun halive => hgone halive.1
  | asio completion =>
      simp only [receiveMain] at hstep ⊢
      cases huses : s.uses with
      | nil => simp [huses] at hm
      | cons next rest =>
          simp only [asioStep, huses, Option.some.injEq] at hstep ⊢
          subst hstep
          rw [huses] at hm
          rcases List.mem_cons.mp hm with rfl | hrest
          · exact .inl ⟨_, List.mem_singleton_self _, by simpa using hgone⟩
          · exact .inr ⟨m, hrest, hgone⟩

/-- **When leaving the program is safe.**  No run in which members go only after the handler's last
use of them has a use of a member that is gone; and a run that ends between two handlers has none
exactly when it is of that kind. -/
theorem receiveMain_iff (host : Endian) (lib : AVCodec π κ) (c : ByteCast) (app : ReceiveState π κ)
    (steps : List ReceiveMainStep) :
    let s := ReceiveMain.launched app
    let uses := (receiveMain host lib c).outputs s steps
    ((receiveMain host lib c).Always SafeDestruction s steps → ∀ use ∈ uses, use.alive = true) ∧
    ∀ t, (receiveMain host lib c).final s steps = some t → t.uses = [] →
      ((∀ use ∈ uses, use.alive = true) ↔
        (receiveMain host lib c).Always SafeDestruction s steps) := by
  intro s uses
  have hintact : s.Intact := ⟨orderly_launched app, by simp [s, ReceiveMain.launched]⟩
  have hsafe : (receiveMain host lib c).Always SafeDestruction s steps →
      ∀ use ∈ uses, use.alive = true := by
    intro halways
    exact Machine.outputs_allowed_of_always safeDestruction_step steps s hintact halways
  refine ⟨hsafe, ?_⟩
  intro t ht hidle
  refine ⟨?_, hsafe⟩
  intro halive
  refine Machine.always_of_not_bad doomed_of_not_safeDestruction doomed_receiveMain steps ht ?_ ?_
  · rintro ⟨m, hm, -⟩
    simp [hidle] at hm
  · intro use huse
    simp [halive use huse]

/-- The window is closed while a handler runs, and its receiver is gone when the handler arms the
next receive. -/
example : ∃ use ∈ (receiveMain .little greedyParser .wrap).outputs
    (.launched (.started ⟨List.replicate 1600 0, List.length_replicate ..⟩, ⟨0, (), ()⟩, none))
    ([.main true, .main true, .asio (.error 4)] ++ List.replicate 6 (.main true) ++
      [.asio (.error 4)]), use.alive = false := by decide

/-! ## The return of `main` -/

/-- The steps that `main` has left at most, once it leaves and the thread has ended. -/
def ReceiveMainPC.stepsLeft : ReceiveMainPC → ℕ
  | destroying gone => WindowMember.destruction.length - gone + 2
  | joining => 1
  | _ => 0

theorem ReceiveMainPC.stepsLeft_le (pc : ReceiveMainPC) : pc.stepsLeft ≤ 8 := by
  cases pc <;> simp [stepsLeft, WindowMember.destruction]

theorem ReceiveMainPC.stepsLeft_eq_zero {pc : ReceiveMainPC} (hleaving : pc.Leaving)
    (h : pc.stepsLeft = 0) : pc = .returned := by
  cases pc <;> simp [stepsLeft, Leaving] at h hleaving ⊢

/-- A step of `main` on its way out: it returns only when the thread has ended, and then comes
nearer to it. -/
theorem mainStep_leaving {s : ReceiveMain π κ} (h : s.main.Leaving) (initialized : Bool) :
    ∃ pc, s.mainStep initialized = { s with main := pc } ∧ pc.Leaving ∧
      (s.running = true → s.main ≠ .returned → pc ≠ .returned) ∧
      (s.running = false → pc.stepsLeft ≤ s.main.stepsLeft - 1) := by
  cases hpc : s.main <;> rw [hpc] at h <;> simp only [ReceiveMain.mainStep, hpc]
  case destroying gone =>
    refine ⟨_, rfl, ?_⟩
    by_cases hmore : gone < WindowMember.destruction.length
    · simp only [hmore, if_true]
      exact ⟨trivial, by simp, by simp only [ReceiveMainPC.stepsLeft]; omega⟩
    · simp only [hmore, if_false]
      exact ⟨trivial, by simp, by simp [ReceiveMainPC.stepsLeft]⟩
  case joining =>
    refine ⟨_, rfl, ?_⟩
    by_cases hrunning : s.running = true
    · simp [hrunning, ReceiveMainPC.Leaving]
    · simp [hrunning, ReceiveMainPC.Leaving, ReceiveMainPC.stepsLeft]
  case returned =>
    exact ⟨.returned, by rw [← hpc], trivial, by simp, by simp [ReceiveMainPC.stepsLeft]⟩
  all_goals exact h.elim

/-- Nothing stops the event loop any more. -/
structure ReceiveMain.Hung (s : ReceiveMain π κ) : Prop where
  stopped : s.stopped = false
  armed : s.armed = false
  running : s.running = true
  leaving : s.main.Leaving
  main : s.main ≠ .returned

theorem hung_step (s : ReceiveMain π κ) (step : ReceiveMainStep) (s' : ReceiveMain π κ)
    (h : s.Hung) (hstep : ((receiveMain host lib c).step s step).1 = some s') : s'.Hung := by
  cases step with
  | main initialized =>
      cases hstep
      obtain ⟨pc, hnext, hleaving, hwaits, -⟩ := mainStep_leaving h.leaving initialized
      rw [hnext]
      exact ⟨h.stopped, h.armed, h.running, hleaving, hwaits h.running h.main⟩
  | asio completion =>
      simp only [receiveMain] at hstep
      rcases asioStep_cases host lib c s completion with ⟨m, rest, -, heq⟩ |
        ⟨-, hstopped, -⟩ | ⟨-, -, harmed, -⟩ | ⟨-, -, -, heq⟩
      · rw [heq] at hstep
        cases hstep
        exact ⟨h.stopped, h.armed, h.running, h.leaving, h.main⟩
      · simp [h.stopped] at hstopped
      · simp [h.armed] at harmed
      · rw [heq] at hstep
        cases hstep
        exact h

def ReceiveMainStep.ofMain : ReceiveMainStep → Bool
  | main _ => true
  | asio _ => false

def ReceiveMainStep.ofAsio : ReceiveMainStep → Bool
  | main _ => false
  | asio _ => true

/-- `main` leaves, and the event loop has been stopped. -/
structure ReceiveMain.Closing (s : ReceiveMain π κ) : Prop where
  leaving : s.main.Leaving
  stopped : s.stopped = true

/-- The steps that the thread has left in `ctx.run`, once it is stopped. -/
def ReceiveMain.usesLeft (s : ReceiveMain π κ) : ℕ := if s.running then s.uses.length + 1 else 0

theorem asioStep_closing {s : ReceiveMain π κ} (h : s.Closing) (completion : Completion) :
    ∃ s', (asioStep host lib c s completion).1 = some s' ∧ s'.Closing ∧ s'.main = s.main ∧
      (s.running = false → s'.running = false) ∧ s'.usesLeft ≤ s.usesLeft - 1 := by
  rcases asioStep_cases host lib c s completion with ⟨m, rest, huses, heq⟩ |
    ⟨-, -, heq⟩ | ⟨-, hstopped, -⟩ | ⟨-, hstopped, -⟩
  · refine ⟨{ s with uses := rest }, congrArg Prod.fst heq, ⟨h.leaving, h.stopped⟩, rfl, id, ?_⟩
    cases hrunning : s.running <;> simp [ReceiveMain.usesLeft, hrunning, huses]
  · exact ⟨{ s with running := false }, congrArg Prod.fst heq, ⟨h.leaving, h.stopped⟩, rfl,
      fun _ => rfl, by simp [ReceiveMain.usesLeft]⟩
  · simp [h.stopped] at hstopped
  · simp [h.stopped] at hstopped

/-- The thread comes nearer to its end, in one step. -/
theorem draining_step (s : ReceiveMain π κ) (step : ReceiveMainStep) (h : s.Closing) :
    ∃ s', ((receiveMain host lib c).step s step).1 = some s' ∧ s'.Closing ∧
      s'.usesLeft ≤ s.usesLeft ∧ (step.ofAsio = true → s'.usesLeft ≤ s.usesLeft - 1) := by
  cases step with
  | main initialized =>
      obtain ⟨pc, hnext, hleaving, -⟩ := mainStep_leaving h.leaving initialized
      refine ⟨_, rfl, ?_⟩
      rw [hnext]
      exact ⟨⟨hleaving, h.stopped⟩, Nat.le_refl _, by simp [ReceiveMainStep.ofAsio]⟩
  | asio completion =>
      obtain ⟨s', hstep, hclosing, -, -, hle⟩ := asioStep_closing h completion
      exact ⟨s', hstep, hclosing, by omega, fun _ => hle⟩

/-- `main` comes nearer to its end, in one step. -/
theorem leaving_step (s : ReceiveMain π κ) (step : ReceiveMainStep)
    (h : s.Closing ∧ s.running = false) :
    ∃ s', ((receiveMain host lib c).step s step).1 = some s' ∧
      (s'.Closing ∧ s'.running = false) ∧ s'.main.stepsLeft ≤ s.main.stepsLeft ∧
      (step.ofMain = true → s'.main.stepsLeft ≤ s.main.stepsLeft - 1) := by
  obtain ⟨hclosing, hrunning⟩ := h
  cases step with
  | main initialized =>
      obtain ⟨pc, hnext, hleaving, -, hle⟩ := mainStep_leaving hclosing.leaving initialized
      have hle := hle hrunning
      refine ⟨_, rfl, ?_⟩
      rw [hnext]
      exact ⟨⟨⟨hleaving, hclosing.stopped⟩, hrunning⟩, Nat.le_trans hle (Nat.sub_le ..),
        fun _ => hle⟩
  | asio completion =>
      obtain ⟨s', hstep, hclosing', hmain, hended, -⟩ := asioStep_closing hclosing completion
      refine ⟨s', hstep, ⟨hclosing', hended hrunning⟩, Nat.le_of_eq (by rw [hmain]), ?_⟩
      simp [ReceiveMainStep.ofMain]

theorem orderly_run {app : ReceiveState π κ} {steps : List ReceiveMainStep} {s : ReceiveMain π κ}
    (h : (receiveMain host lib c).final (.launched app) steps = some s) : s.Orderly := by
  refine Machine.final_keeps ?_ (orderly_launched app) h
  intro s step s' horderly hstep
  cases step with
  | main initialized =>
      cases hstep
      exact horderly.mainStep initialized
  | asio completion => exact horderly.asioStep hstep

/-- **When `main` returns.**  If `initialize` fails, it never does, in no order of the steps.  Once
it has stopped the event loop, it has returned after the handler's last use and eight more steps,
whatever steps there are in between. -/
theorem receiveMain_returns (host : Endian) (lib : AVCodec π κ) (c : ByteCast)
    (app : ReceiveState π κ) {steps : List ReceiveMainStep} {s : ReceiveMain π κ}
    (hs : (receiveMain host lib c).final (.launched app) steps = some s) :
    (s.main = .initializing → ∀ rest t,
      (receiveMain host lib c).final s (.main false :: rest) = some t → t.main ≠ .returned) ∧
    (s.stopped = true → ∀ mid post, s.uses.length + 1 ≤ mid.countP ReceiveMainStep.ofAsio →
      8 ≤ post.countP ReceiveMainStep.ofMain →
      ∃ t, (receiveMain host lib c).final s (mid ++ post) = some t ∧ t.main = .returned) := by
  have horderly := orderly_run hs
  refine ⟨?_, ?_⟩
  · intro hmain rest t ht
    have hstopped : s.stopped = false := by
      by_contra hstopped
      have hleaving := horderly.leaving (by simpa using hstopped)
      simp [hmain, ReceiveMainPC.Leaving] at hleaving
    have hhung : (s.mainStep false).Hung := by
      have harmed : s.armed = false := by
        by_contra harmed
        have hlater := horderly.armed (by simpa using harmed)
        simp [hmain, hstopped] at hlater
      have hrunning : s.running = true := by
        by_contra hended
        have hlater := horderly.running (by simpa using hended)
        simp [hstopped] at hlater
      simp only [ReceiveMain.mainStep, hmain]
      exact ⟨hstopped, harmed, hrunning, trivial, by simp⟩
    rw [Machine.final_cons rfl] at ht
    exact (Machine.final_keeps hung_step hhung ht).main
  · intro hstopped mid post hmid hpost
    obtain ⟨s₁, hfinal₁, hclosing, hrank₁⟩ := Machine.final_rank ReceiveMain.usesLeft
      ReceiveMainStep.ofAsio draining_step mid s ⟨horderly.leaving hstopped, hstopped⟩
    have hended : s₁.running = false := by
      by_contra hrunning
      have hle : s.usesLeft ≤ s.uses.length + 1 := by
        simp only [ReceiveMain.usesLeft]
        split <;> omega
      rw [ReceiveMain.usesLeft, if_pos (by simpa using hrunning)] at hrank₁
      omega
    obtain ⟨t, hfinal, ⟨hclosing', -⟩, hrank⟩ := Machine.final_rank (fun s => s.main.stepsLeft)
      ReceiveMainStep.ofMain leaving_step post s₁ ⟨hclosing, hended⟩
    refine ⟨t, by rw [Machine.final_append hfinal₁, hfinal], ?_⟩
    have hle := s₁.main.stepsLeft_le
    exact ReceiveMainPC.stepsLeft_eq_zero hclosing'.leaving (by omega)

end

/-- The window is closed while a handler runs. -/
theorem receiveMain_returns_closed :
    let m := receiveMain .little greedyParser .wrap
    let app : ReceiveState Unit Unit :=
      (.started ⟨List.replicate 1600 0, List.length_replicate ..⟩, ⟨0, (), ()⟩, none)
    let steps := [.main true, .main true, .asio (.error 4), .main true, .main true]
    let rest := List.replicate 2 (.asio (.error 4)) ++ List.replicate 8 (.main true)
    ∃ s, m.final (.launched app) steps = some s ∧
      ∃ t, m.final s rest = some t ∧ t.main = .returned := by
  intro m app steps rest
  refine ⟨_, rfl, ?_⟩
  exact (receiveMain_returns .little greedyParser .wrap app
    (show m.final (.launched app) steps = some _ from rfl)).2 rfl _ _ (by decide) (by decide)

end NaiveStreaming
