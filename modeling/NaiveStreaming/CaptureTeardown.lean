import NaiveStreaming.CaptureStop

/-!
# Taking a capture down

The owner of a `VideoCaptureImpl` may call `stop`, and then, or without it, destroys the capture.
The destructor closes the descriptor first, if it is still there; after that the members go, the
working thread before the others: it is requested to stop, and joined.  So where `stop` has not been
called, the order is the other way round than in `stop`, and there is a time in which the thread
finds the descriptor gone and its token unset.
-/

namespace NaiveStreaming
open Mealy

inductive OwnerPC
  /-- In `stop`, or between it and the destructor. -/
  | stopping
  | close
  /-- At the store of `-1`. -/
  | setFd
  /-- At the `request_stop` of `~jthread`. -/
  | requestStop
  | join
  | destroyed
  deriving DecidableEq, Repr

/-- The capture and where the owner is; `control` says where `stop` is. -/
structure Teardown where
  control : CaptureState
  owner : OwnerPC
  deriving DecidableEq, Repr

inductive TeardownEvent
  | use (access : Access)
  | close (fd : ℤ) (closed : Bool)
  deriving DecidableEq, Repr

/-- A step of `close_v4l_fd`, at the call of `close`. -/
def closeEvents (fd : ℤ) (closed : Bool) : List TeardownEvent :=
  if fd ≠ -1 then [.close fd closed] else []

/-- A step of the owner; `closed` is whether a `close` succeeds.  After `stop` the thread is not
joinable, and `~jthread` does nothing: neither do its two steps here, as the token is set and the
thread at its end. -/
def ownerStep (s : Teardown) (closed : Bool) : Teardown × List TeardownEvent :=
  match s.owner with
  | .stopping =>
    if s.control.stop = .returned then ({ s with owner := .close }, [])
    else ({ s with control := stopStep s.control closed },
      if s.control.stop = .close then closeEvents s.control.fd closed else [])
  | .close =>
    ({ s with owner := if s.control.fd ≠ -1 ∧ closed then .setFd else .requestStop },
      closeEvents s.control.fd closed)
  | .setFd => ({ control := { s.control with fd := -1 }, owner := .requestStop }, [])
  | .requestStop => ({ control := { s.control with stopRequested := true }, owner := .join }, [])
  | .join => ({ s with owner := if s.control.worker = .done then .destroyed else .join }, [])
  | .destroyed => (s, [])

inductive TeardownStep
  | worker (selected : SelectResult) (result : IoctlResult)
  | owner (closed : Bool)
  deriving DecidableEq, Repr

def teardown : Machine Teardown TeardownStep TeardownEvent where
  step s
    | .worker selected result =>
      (some { s with control := (workerStep s.control selected result).1 },
        (workerStep s.control selected result).2.map .use)
    | .owner closed => (some (ownerStep s closed).1, (ownerStep s closed).2)

/-! ## Uses of a dead descriptor -/

/-- A use of the descriptor when `m_v4l_fd` is `-1`. -/
def TeardownEvent.Dead : TeardownEvent → Prop
  | use access => access.fd = -1
  | close _ _ => False

/-- The owner is at a store of `-1`. -/
def Teardown.Storing (s : Teardown) : Prop :=
  s.owner = .setFd ∨ s.owner = .stopping ∧ s.control.stop = .setFd

/-- If the step stores `-1`, the thread is at a safe place; and the thread does not test its token
between the store and the request. -/
structure SafeTeardown (s : Teardown) (step : TeardownStep) : Prop where
  store : ∀ closed, step = .owner closed → s.Storing → s.control.worker.Safe
  test : ∀ selected result, step = .worker selected result → s.control.fd = -1 →
    s.control.worker = .testToken → s.control.stopRequested = true

def Teardown.Doomed (s : Teardown) : Prop := s.control.fd = -1 ∧ ¬ s.control.worker.Safe

/-- How many calls of `close` the owner can still get to. -/
def Teardown.closesLeft (s : Teardown) : ℕ :=
  match s.owner with
  | .stopping => if s.control.stop = .requestStop ∨ s.control.stop = .close then 2 else 1
  | .close => 1
  | _ => 0

theorem closesLeft_le (s : Teardown) : s.closesLeft ≤ 2 := by
  cases howner : s.owner with
  | stopping =>
      simp only [Teardown.closesLeft, howner]
      split <;> omega
  | _ => simp [Teardown.closesLeft, howner]

@[simp] theorem worker_ownerStep (s : Teardown) (closed : Bool) :
    (ownerStep s closed).1.control.worker = s.control.worker := by
  cases howner : s.owner <;> simp only [ownerStep, howner]
  split
  · rfl
  · exact worker_stopStep s.control closed

/-- What a step of the owner can do: nothing to the descriptor, store `-1`, or call `close`. -/
theorem ownerStep_cases (s : Teardown) (closed : Bool) :
    ((ownerStep s closed).2 = [] ∧ ¬ s.Storing ∧
      (ownerStep s closed).1.control.fd = s.control.fd ∧
      (ownerStep s closed).1.closesLeft ≤ s.closesLeft) ∨
    ((ownerStep s closed).2 = [] ∧ s.Storing ∧ (ownerStep s closed).1.control.fd = -1 ∧
      (ownerStep s closed).1.closesLeft ≤ s.closesLeft) ∨
    ((ownerStep s closed).2 = [.close s.control.fd closed] ∧ ¬ s.Storing ∧ s.control.fd ≠ -1 ∧
      (ownerStep s closed).1.control.fd = s.control.fd ∧
      (closed = true → (ownerStep s closed).1.Storing) ∧
      (ownerStep s closed).1.closesLeft + 1 ≤ s.closesLeft) := by
  cases howner : s.owner with
  | stopping =>
      cases hstop : s.control.stop with
      | close =>
          by_cases hfd : s.control.fd = -1 <;> cases closed <;>
            simp [ownerStep, stopStep, closeEvents, Teardown.Storing, Teardown.closesLeft, howner,
              hstop, hfd]
      | join =>
          by_cases hdone : s.control.worker = .done <;>
            simp [ownerStep, stopStep, Teardown.Storing, Teardown.closesLeft, howner, hstop, hdone]
      | _ => simp [ownerStep, stopStep, Teardown.Storing, Teardown.closesLeft, howner, hstop]
  | close =>
      by_cases hfd : s.control.fd = -1 <;> cases closed <;>
        simp [ownerStep, closeEvents, Teardown.Storing, Teardown.closesLeft, howner, hfd]
  | join =>
      by_cases hdone : s.control.worker = .done <;>
        simp [ownerStep, Teardown.Storing, Teardown.closesLeft, howner, hdone]
  | _ => simp [ownerStep, Teardown.Storing, Teardown.closesLeft, howner]

/-- Where the thread gets to from a safe place without a descriptor. -/
theorem workerStep_closing {s : CaptureState} (hfd : s.fd = -1) (hsafe : s.worker.Safe)
    (htest : s.worker = .testToken → s.stopRequested = true) (selected : SelectResult)
    (result : IoctlResult) : (workerStep s selected result).1.worker.Safe ∧
      (workerStep s selected result).2 = [] := by
  cases hpc : s.worker <;> rw [hpc] at hsafe
  case testToken => simp [workerStep, hpc, htest hpc, WorkerPC.Safe]
  case dqbufFailed => simp [workerStep, hpc, WorkerPC.Safe]
  case qbufFailed => simp [workerStep, hpc, WorkerPC.Safe]
  case readFailed => simp [workerStep, hpc, hfd, CaptureState.IsClosing, WorkerPC.Safe]
  case done => simp [workerStep, hpc, WorkerPC.Safe]
  all_goals exact hsafe.elim

@[simp] theorem fd_workerStep (s : CaptureState) (selected : SelectResult)
    (result : IoctlResult) : (workerStep s selected result).1.fd = s.fd := by
  obtain ⟨⟨pc, copy, hframe⟩, -⟩ := workerStep_frame s selected result
  rw [hframe]

theorem not_dead_ownerStep (s : Teardown) (closed : Bool) :
    ∀ event ∈ (ownerStep s closed).2, ¬ event.Dead := by
  rcases ownerStep_cases s closed with ⟨hout, -⟩ | ⟨hout, -⟩ | ⟨hout, -⟩ <;>
    simp [hout, TeardownEvent.Dead]

/-- **Safe steps keep the thread from the dead descriptor**, in one step. -/
theorem safeTeardown_step (s : Teardown) (step : TeardownStep)
    (h : s.control.fd = -1 → s.control.worker.Safe) (hstep : SafeTeardown s step) :
    ∃ s' out, teardown.step s step = (some s', out) ∧
      (s'.control.fd = -1 → s'.control.worker.Safe) ∧ ∀ event ∈ out, ¬ event.Dead := by
  cases step with
  | worker selected result =>
      refine ⟨_, _, rfl, ?_⟩
      by_cases hfd : s.control.fd = -1
      · obtain ⟨hsafe, hnone⟩ := workerStep_closing hfd (h hfd)
          (hstep.test selected result rfl hfd) selected result
        exact ⟨fun _ => hsafe, by simp [hnone]⟩
      · refine ⟨fun hdead => absurd ?_ hfd, ?_⟩
        · rwa [fd_workerStep] at hdead
        · intro event hevent
          obtain ⟨access, haccess, rfl⟩ := List.mem_map.mp hevent
          have huse := (workerStep_frame s.control selected result).2 access haccess
          exact fun hdead => hfd (huse.symm.trans hdead)
  | owner closed =>
      refine ⟨_, _, rfl, ?_, not_dead_ownerStep s closed⟩
      rw [worker_ownerStep]
      rcases ownerStep_cases s closed with ⟨-, -, hfd, -⟩ | ⟨-, hstoring, -⟩ | ⟨-, -, -, hfd, -⟩
      · rwa [hfd]
      · exact fun _ => hstep.store closed rfl hstoring
      · rwa [hfd]

theorem doomed_of_not_safeTeardown (s : Teardown) (step : TeardownStep) (s' : Teardown)
    (hnot : ¬ SafeTeardown s step) (h : (teardown.step s step).1 = some s') : s'.Doomed := by
  cases step with
  | worker selected result =>
      cases h
      by_contra hdoomed
      refine hnot ⟨by simp, ?_⟩
      intro _ _ _ hfd htest
      by_contra hrequested
      refine hdoomed ⟨by simpa using hfd, ?_⟩
      simp [workerStep, htest, hrequested, WorkerPC.Safe]
  | owner closed =>
      cases h
      by_contra hdoomed
      refine hnot ⟨?_, by simp⟩
      intro _ _ hstoring
      by_contra hsafe
      refine hdoomed ⟨?_, by rwa [worker_ownerStep]⟩
      rcases ownerStep_cases s closed with ⟨-, hquiet, -⟩ | ⟨-, -, hfd, -⟩ | ⟨-, hquiet, -⟩
      · exact absurd hstoring hquiet
      · exact hfd
      · exact absurd hstoring hquiet

/-- **A thread on its way to a dead use** makes it or stays on its way, whatever the owner does. -/
theorem teardown_doomed_step (s : Teardown) (step : TeardownStep) (s' : Teardown)
    (hdoomed : s.Doomed) (h : (teardown.step s step).1 = some s') :
    (∃ event ∈ (teardown.step s step).2, event.Dead) ∨ s'.Doomed := by
  obtain ⟨hfd, hsafe⟩ := hdoomed
  cases step with
  | worker selected result =>
      cases h
      rcases workerStep_not_safe hfd hsafe selected result with ⟨access, hmem, hdead⟩ | hsafe'
      · exact .inl ⟨.use access, List.mem_map_of_mem hmem, hdead⟩
      · exact .inr ⟨by simpa using hfd, hsafe'⟩
  | owner closed =>
      cases h
      right
      refine ⟨?_, by rwa [worker_ownerStep]⟩
      rcases ownerStep_cases s closed with ⟨-, -, hsame, -⟩ | ⟨-, -, hset, -⟩ | ⟨-, -, -, hsame, -⟩
      · rw [hsame, hfd]
      · exact hset
      · rw [hsame, hfd]

/-- **When taking a capture down is safe**, with `stop` or without.  In a run of the thread to its
end, it uses no dead descriptor exactly when `-1` is stored with the thread at a safe place, and the
thread does not test its token between that and the request. -/
theorem teardown_iff {s : Teardown} (hs : s.control.fd ≠ -1) (steps : List TeardownStep) :
    (teardown.Always SafeTeardown s steps →
      ∀ event ∈ teardown.outputs s steps, ¬ event.Dead) ∧
    ∀ t, teardown.final s steps = some t → t.control.worker = .done →
      ((∀ event ∈ teardown.outputs s steps, ¬ event.Dead) ↔
        teardown.Always SafeTeardown s steps) := by
  have hsafe : teardown.Always SafeTeardown s steps →
      ∀ event ∈ teardown.outputs s steps, ¬ event.Dead :=
    Machine.outputs_of_always safeTeardown_step steps s (fun hfd => absurd hfd hs)
  refine ⟨hsafe, ?_⟩
  intro t ht hdone
  refine ⟨?_, hsafe⟩
  have hend : ¬ t.Doomed := fun hdoomed => hdoomed.2 (by rw [hdone]; trivial)
  exact Machine.always_of_not_bad doomed_of_not_safeTeardown teardown_doomed_step steps ht hend

/-- A capture is destroyed without `stop`, and the thread tests its token between the store and the
request: it goes on to `FD_SET` with `-1`. -/
theorem teardown_iff_without_stop :
    let s : Teardown := { control := { fd := 3, worker := .qbuf }, owner := .close }
    let steps : List TeardownStep :=
      [.worker .ready .success, .owner true, .owner true, .worker .ready .success, .owner true,
        .worker .ready .success, .worker .failed .success]
    (teardown.Always SafeTeardown s steps →
      ∀ event ∈ teardown.outputs s steps, ¬ event.Dead) ∧
    ∀ t, teardown.final s steps = some t → t.control.worker = .done →
      ((∀ event ∈ teardown.outputs s steps, ¬ event.Dead) ↔
        teardown.Always SafeTeardown s steps) :=
  teardown_iff (by decide) _

/-! ## Calls of `close` -/

/-- A call of `close`, with what it comes to. -/
def TeardownEvent.close? : TeardownEvent → Option (ℤ × Bool)
  | use _ => none
  | close fd closed => some (fd, closed)

/-- The calls of `close` among the events, in order. -/
def closes (events : List TeardownEvent) : List (ℤ × Bool) := events.filterMap TeardownEvent.close?

@[simp] theorem closes_append (xs ys : List TeardownEvent) :
    closes (xs ++ ys) = closes xs ++ closes ys := List.filterMap_append

@[simp] theorem closes_map_use (accesses : List Access) :
    closes (accesses.map .use) = [] := by
  simp [closes, TeardownEvent.close?]

/-- What the calls of `close` so far leave of the capture. -/
structure Closed (fd : ℤ) (past : List TeardownEvent) (s : Teardown) : Prop where
  same : ∀ call ∈ closes past, call.1 = fd
  fd : s.control.fd = fd ∨ s.control.fd = -1
  last : (closes past).Pairwise fun first _ => first.2 = false
  /-- After one that succeeded the owner is at the store of `-1`, or past it. -/
  gone : (∃ call ∈ closes past, call.2 = true) → s.control.fd = -1 ∨ s.Storing
  count : (closes past).length + s.closesLeft ≤ 2

/-- A step that calls no `close`, and leaves the owner no more of them. -/
theorem Closed.quiet {fd : ℤ} {past : List TeardownEvent} {s s' : Teardown}
    (h : Closed fd past s) {out : List TeardownEvent} (hout : closes out = [])
    (hfd : s'.control.fd = s.control.fd ∨ s'.control.fd = -1)
    (hstoring : s.Storing → s'.control.fd = -1 ∨ s'.Storing)
    (hleft : s'.closesLeft ≤ s.closesLeft) : Closed fd (past ++ out) s' := by
  have hcloses : closes (past ++ out) = closes past := by
    rw [closes_append, hout, List.append_nil]
  have hcount := h.count
  refine ⟨?_, ?_, ?_, ?_, ?_⟩
  · rw [hcloses]
    exact h.same
  · rcases hfd with hkept | hgone
    · rw [hkept]
      exact h.fd
    · exact .inr hgone
  · rw [hcloses]
    exact h.last
  · rw [hcloses]
    intro hgone
    rcases h.gone hgone with hdead | hat
    · exact .inl (hfd.elim (fun hkept => hkept.trans hdead) id)
    · exact hstoring hat
  · rw [hcloses]
    omega

/-- A call of `close`: there was none that succeeded. -/
theorem Closed.call {fd : ℤ} {past : List TeardownEvent} {s s' : Teardown} {closed : Bool}
    (h : Closed fd past s) (hstoring : ¬ s.Storing) (hopen : s.control.fd ≠ -1)
    (hfd : s'.control.fd = s.control.fd) (hstore : closed = true → s'.Storing)
    (hleft : s'.closesLeft + 1 ≤ s.closesLeft) :
    Closed fd (past ++ [.close s.control.fd closed]) s' := by
  have hsame : s.control.fd = fd := h.fd.resolve_right hopen
  have hnone : ∀ call ∈ closes past, call.2 = false := by
    intro call hcall
    by_contra hclosed
    rcases h.gone ⟨call, hcall, by simpa using hclosed⟩ with hdead | hat
    · exact hopen hdead
    · exact hstoring hat
  have hcloses : closes (past ++ [.close s.control.fd closed]) = closes past ++ [(fd, closed)] := by
    rw [closes_append, hsame]
    rfl
  have hcount := h.count
  refine ⟨?_, .inl (hfd.trans hsame), ?_, ?_, ?_⟩ <;> rw [hcloses]
  · intro call hcall
    rcases List.mem_append.mp hcall with hpast | hnow
    · exact h.same call hpast
    · rw [List.mem_singleton.mp hnow]
  · rw [List.pairwise_append]
    exact ⟨h.last, List.pairwise_singleton _ _, fun call hcall _ _ => hnone call hcall⟩
  · rintro ⟨call, hcall, hclosed⟩
    rcases List.mem_append.mp hcall with hpast | hnow
    · exact absurd hclosed (by simp [hnone call hpast])
    · rw [List.mem_singleton.mp hnow] at hclosed
      exact .inr (hstore hclosed)
  · rw [List.length_append]
    simp only [List.length_singleton]
    omega

/-- **No step closes twice.** -/
theorem closed_step (fd : ℤ) (past : List TeardownEvent) (s : Teardown) (step : TeardownStep)
    (h : Closed fd past s) :
    ∃ s' out, teardown.step s step = (some s', out) ∧ Closed fd (past ++ out) s' := by
  cases step with
  | worker selected result =>
      obtain ⟨⟨pc, copy, hframe⟩, -⟩ := workerStep_frame s.control selected result
      refine ⟨_, _, rfl, h.quiet (closes_map_use _) (.inl (fd_workerStep ..)) ?_ ?_⟩
      · rw [hframe]
        exact .inr
      · rw [hframe]
        exact Nat.le_refl _
  | owner closed =>
      refine ⟨_, _, rfl, ?_⟩
      rcases ownerStep_cases s closed with ⟨hout, hstoring, hfd, hleft⟩ |
        ⟨hout, -, hfd, hleft⟩ | ⟨hout, hstoring, hopen, hfd, hstore, hleft⟩
      · rw [hout]
        exact h.quiet rfl (.inl hfd) (fun hat => absurd hat hstoring) hleft
      · rw [hout]
        exact h.quiet rfl (.inr hfd) (fun _ => .inl hfd) hleft
      · rw [hout]
        exact h.call hstoring hopen hfd hstore hleft

/-- **The descriptor is not closed twice.**  In every run, with `stop` or without, all calls of
`close` are for the descriptor that was opened, there are two at most, and none after one that
succeeded. -/
theorem teardown_closes (s : Teardown) (steps : List TeardownStep) :
    (∀ call ∈ closes (teardown.outputs s steps), call.1 = s.control.fd) ∧
      (closes (teardown.outputs s steps)).length ≤ 2 ∧
      (closes (teardown.outputs s steps)).Pairwise fun first _ => first.2 = false := by
  have hstart : Closed s.control.fd [] s := by
    refine ⟨?_, .inl rfl, List.Pairwise.nil, ?_, ?_⟩ <;> simp [closes, closesLeft_le]
  have halways : teardown.Always (fun _ _ => True) s steps :=
    Machine.always_of_forall (fun _ _ => trivial) s
  obtain ⟨t, -, hclosed⟩ := Machine.final_history
    (fun past s' step h _ => closed_step s.control.fd past s' step h) hstart halways
  rw [List.nil_append] at hclosed
  have hcount := hclosed.count
  exact ⟨hclosed.same, by omega, hclosed.last⟩

end NaiveStreaming
