import Mathlib.Data.Int.Notation
import Mathlib.Data.List.Basic

/-!
# Starting a capture

`VideoCaptureImpl::start` requests buffers from the driver, maps each of them, enqueues them,
turns the stream on and starts the working thread.  Every one of these calls can fail, in any
iteration of the loops; their outcomes are a parameter.  What the driver and the kernel hold on
behalf of the program is part of the state: mappings, enqueued buffers, and the stream.
-/

namespace NaiveStreaming

structure Errno where
  toInt : ℤ
  deriving DecidableEq, Repr

namespace Errno

def eintr : Errno := ⟨4⟩
def einval : Errno := ⟨22⟩

end Errno

/-- What an `ioctl` without an answer comes to. -/
inductive IoctlResult
  | success
  | failure (errno : Errno)
  deriving DecidableEq, Repr

/-- `xioctl`: the first result that is not `EINTR`, or nothing while there is none. -/
def xioctl : List IoctlResult → Option IoctlResult
  | [] => none
  | .success :: _ => some .success
  | .failure errno :: results => if errno = .eintr then xioctl results else some (.failure errno)

/-- `VIDIOC_QUERYBUF`, with the buffer's length and offset. -/
inductive QuerybufResult
  | success (length offset : ℕ)
  | failure (errno : Errno)
  deriving DecidableEq, Repr

/-- `mmap`, with the address. -/
inductive MmapResult
  | success (address : ℤ)
  | failure (errno : Errno)
  deriving DecidableEq, Repr

/-- The outcomes of the calls of one `start`. -/
structure StartOutcomes where
  /-- `VIDIOC_REQBUFS` -/
  reqbufs : IoctlResult
  /-- `reqbuf.count` after the request: the number granted, if it succeeded. -/
  count : ℕ
  /-- `VIDIOC_QUERYBUF` of each buffer. -/
  querybuf : ℕ → QuerybufResult
  /-- `mmap` of each buffer. -/
  mmap : ℕ → MmapResult
  /-- `VIDIOC_QBUF` of each buffer, with its retries. -/
  qbuf : ℕ → List IoctlResult
  /-- `VIDIOC_STREAMON`, with its retries. -/
  streamon : List IoctlResult

structure BufferView where
  start : ℤ := 0
  length : ℕ := 0
  deriving DecidableEq, Repr

def mapFailed : ℤ := -1

/-- The members of `VideoCaptureImpl` that `start` changes, and what the system holds: the
buffers granted, the indices of those that are mapped and enqueued, and whether the stream is
on. -/
structure VideoCaptureImpl where
  allocatedBuffersCount : ℕ := 0
  buffers : List BufferView := []
  workingThread : Bool := false
  granted : ℕ := 0
  mapped : List ℕ := []
  enqueued : List ℕ := []
  streaming : Bool := false
  deriving DecidableEq, Repr

/-! ## The calls -/

/-- The loop of `start` over the buffers: whether it got to the end. -/
def mapBuffers (os : StartOutcomes) : List ℕ → VideoCaptureImpl → Bool × VideoCaptureImpl
  | [], s => (true, s)
  | i :: rest, s =>
    match os.querybuf i with
    | .failure _ => (false, s)
    | .success length _ =>
      match os.mmap i with
      | .failure _ => (false, { s with buffers := s.buffers.set i ⟨mapFailed, length⟩ })
      | .success address =>
        mapBuffers os rest
          { s with buffers := s.buffers.set i ⟨address, length⟩, mapped := s.mapped ++ [i] }

/-- The loop of `start_capture`; nothing when an `xioctl` does not return. -/
def enqueueBuffers (os : StartOutcomes) :
    List ℕ → VideoCaptureImpl → Option (Bool × VideoCaptureImpl)
  | [], s => some (true, s)
  | i :: rest, s =>
    match xioctl (os.qbuf i) with
    | none => none
    | some (.failure _) => some (false, s)
    | some .success => enqueueBuffers os rest { s with enqueued := s.enqueued ++ [i] }

/-- `VideoCaptureImpl::start_capture`, which has no result. -/
def startCapture (os : StartOutcomes) (s : VideoCaptureImpl) : Option VideoCaptureImpl :=
  match enqueueBuffers os (List.range s.allocatedBuffersCount) s with
  | none => none
  | some (false, s) => some s
  | some (true, s) =>
    match xioctl os.streamon with
    | none => none
    | some (.failure _) => some s
    | some .success => some { s with streaming := true }

/-- `VideoCaptureImpl::start`; nothing when its assertion fails or a call does not return.  A
`VIDIOC_REQBUFS` that fails with `EINVAL` is logged, and `start` goes on. -/
def start (os : StartOutcomes) (s : VideoCaptureImpl) : Option VideoCaptureImpl :=
  if s.buffers ≠ [] then none
  else if os.reqbufs ≠ .success ∧ os.reqbufs ≠ .failure .einval then some s
  else
    let s := { s with granted := if os.reqbufs = .success then os.count else 0 }
    if os.count < 5 then some s
    else
      let s := { s with buffers := List.replicate os.count {} }
      match mapBuffers os (List.range os.count) s with
      | (false, s) => some s
      | (true, s) =>
        match startCapture os { s with allocatedBuffersCount := os.count } with
        | none => none
        | some s => some { s with workingThread := true }

/-- After any number of interruptions, the call succeeds. -/
def Succeeds (results : List IoctlResult) : Prop :=
  ∃ n rest, results = List.replicate n (.failure .eintr) ++ .success :: rest

theorem succeeds_cons (result : IoctlResult) (results : List IoctlResult) :
    Succeeds (result :: results) ↔
      result = .success ∨ (result = .failure .eintr ∧ Succeeds results) := by
  constructor
  · intro h
    obtain ⟨n, rest, hrest⟩ := h
    cases n with
    | zero => exact .inl (List.cons.inj hrest).1
    | succ n =>
        rw [List.replicate_succ, List.cons_append, List.cons.injEq] at hrest
        exact .inr ⟨hrest.1, n, rest, hrest.2⟩
  · intro h
    rcases h with hres | ⟨hres, n, rest, hrest⟩
    · exact ⟨0, results, by rw [hres]; rfl⟩
    · exact ⟨n + 1, rest, by rw [hres, hrest, List.replicate_succ, List.cons_append]⟩

theorem xioctl_eq_success_iff (results : List IoctlResult) :
    xioctl results = some .success ↔ Succeeds results := by
  induction results with
  | nil => simp [xioctl, Succeeds]
  | cons result results ih =>
      rw [succeeds_cons, ← ih]
      cases result with
      | success => simp [xioctl]
      | failure errno => by_cases hintr : errno = .eintr <;> simp [xioctl, hintr]

/-- The buffer can be queried and mapped. -/
def StartOutcomes.Maps (os : StartOutcomes) (i : ℕ) : Prop :=
  (∃ length offset, os.querybuf i = .success length offset) ∧
    ∃ address, os.mmap i = .success address

/-- **The mapping loop** changes the buffers and the mappings alone.  It gets to the end exactly
when every buffer can be mapped, and then all of them are. -/
theorem mapBuffers_eq (os : StartOutcomes) (is : List ℕ) (s : VideoCaptureImpl) :
    ∃ reached buffers mapped, mapBuffers os is s
        = (reached, { s with buffers := buffers, mapped := mapped }) ∧
      buffers.length = s.buffers.length ∧
      (reached = true ↔ ∀ i ∈ is, os.Maps i) ∧ (reached = true → mapped = s.mapped ++ is) := by
  induction is generalizing s with
  | nil => exact ⟨true, s.buffers, s.mapped, rfl, rfl, by simp, by simp⟩
  | cons i is ih =>
      cases hquery : os.querybuf i with
      | failure errno =>
          refine ⟨false, s.buffers, s.mapped, by simp only [mapBuffers, hquery], rfl, ?_, by simp⟩
          simp [StartOutcomes.Maps, hquery]
      | success length offset =>
          cases hmmap : os.mmap i with
          | failure errno =>
              refine ⟨false, s.buffers.set i ⟨mapFailed, length⟩, s.mapped,
                by simp only [mapBuffers, hquery, hmmap], List.length_set .., ?_, by simp⟩
              simp [StartOutcomes.Maps, hmmap]
          | success address =>
              obtain ⟨reached, buffers, mapped, hrest, hlen, hreached, hmapped⟩ := ih
                { s with buffers := s.buffers.set i ⟨address, length⟩, mapped := s.mapped ++ [i] }
              refine ⟨reached, buffers, mapped, ?_, by simpa using hlen, ?_, ?_⟩
              · simp only [mapBuffers, hquery, hmmap, hrest]
              · simp [hreached, StartOutcomes.Maps, hquery, hmmap]
              · intro h
                simpa using hmapped h

/-- What the driver and `mmap` say of a buffer. -/
def StartOutcomes.Views (os : StartOutcomes) (i : ℕ) (view : BufferView) : Prop :=
  (∃ offset, os.querybuf i = .success view.length offset) ∧ os.mmap i = .success view.start

/-- When the mapping loop gets to its end, it has stored the view of every buffer, and nothing
else. -/
theorem mapBuffers_views {os : StartOutcomes} {is : List ℕ} {s t : VideoCaptureImpl}
    (h : mapBuffers os is s = (true, t)) :
    (∀ i, i ∉ is → t.buffers[i]? = s.buffers[i]?) ∧
      ∀ i ∈ is, i < s.buffers.length → ∃ view, t.buffers[i]? = some view ∧ os.Views i view := by
  induction is generalizing s with
  | nil =>
      cases h
      exact ⟨fun _ _ => rfl, fun i hi => absurd hi List.not_mem_nil⟩
  | cons i is ih =>
      cases hquery : os.querybuf i with
      | failure errno => simp [mapBuffers, hquery] at h
      | success length offset =>
          cases hmmap : os.mmap i with
          | failure errno => simp [mapBuffers, hquery, hmmap] at h
          | success address =>
              simp only [mapBuffers, hquery, hmmap] at h
              obtain ⟨hothers, hviews⟩ := ih h
              simp only [List.length_set] at hviews
              constructor
              · intro j hj
                rw [List.mem_cons, not_or] at hj
                rw [hothers j hj.2, List.getElem?_set_ne (Ne.symm hj.1)]
              · intro j hj hlt
                by_cases hrest : j ∈ is
                · exact hviews j hrest hlt
                · have heq : j = i := (List.mem_cons.mp hj).resolve_right hrest
                  subst heq
                  rw [hothers j hrest, List.getElem?_set_self hlt]
                  exact ⟨_, rfl, ⟨offset, hquery⟩, hmmap⟩

/-- **The loop of `start_capture`** changes the queue alone, to which it adds the first of the
buffers.  It gets to the end exactly when every buffer can be enqueued, and then all of them
are. -/
theorem enqueueBuffers_eq {os : StartOutcomes} {is : List ℕ} {s : VideoCaptureImpl}
    {result : Bool × VideoCaptureImpl} (h : enqueueBuffers os is s = some result) :
    ∃ first, first <+: is ∧ result.2 = { s with enqueued := s.enqueued ++ first } ∧
      (result.1 = true ↔ ∀ i ∈ is, Succeeds (os.qbuf i)) ∧
      (result.1 = true → first = is) := by
  induction is generalizing s with
  | nil =>
      cases h
      exact ⟨[], List.prefix_refl [], by simp, by simp, by simp⟩
  | cons i is ih =>
      cases hqbuf : xioctl (os.qbuf i) with
      | none => simp [enqueueBuffers, hqbuf] at h
      | some outcome =>
          cases outcome with
          | failure errno =>
              simp only [enqueueBuffers, hqbuf, Option.some.injEq] at h
              subst h
              refine ⟨[], List.nil_prefix, by simp, ?_, by simp⟩
              simp [← xioctl_eq_success_iff, hqbuf]
          | success =>
              simp only [enqueueBuffers, hqbuf] at h
              obtain ⟨first, hfirst, hstate, hreached, hall⟩ := ih h
              refine ⟨i :: first, List.cons_prefix_cons.mpr ⟨rfl, hfirst⟩, ?_, ?_, ?_⟩
              · rw [hstate]
                simp
              · simp [hreached, ← xioctl_eq_success_iff, hqbuf]
              · intro htrue
                rw [hall htrue]

/-- **`start_capture`** enqueues the first of the buffers.  It turns the stream on exactly when
every call of it succeeds, and then all buffers are enqueued.  Either way it returns. -/
theorem startCapture_eq {os : StartOutcomes} {s s' : VideoCaptureImpl}
    (h : startCapture os s = some s') :
    ∃ first on, first <+: List.range s.allocatedBuffersCount ∧
      s' = { s with enqueued := s.enqueued ++ first, streaming := s.streaming || on } ∧
      (on = true ↔
        (∀ i < s.allocatedBuffersCount, Succeeds (os.qbuf i)) ∧ Succeeds os.streamon) ∧
      (on = true → first = List.range s.allocatedBuffersCount) := by
  simp only [startCapture] at h
  cases hloop : enqueueBuffers os (List.range s.allocatedBuffersCount) s with
  | none => simp [hloop] at h
  | some result =>
      obtain ⟨first, hfirst, hstate, hreached, hqueued⟩ := enqueueBuffers_eq hloop
      simp only [List.mem_range] at hreached
      obtain ⟨reached, t⟩ := result
      simp only at hstate hreached hqueued
      cases reached with
      | false =>
          simp only [hloop, Option.some.injEq] at h
          refine ⟨first, false, hfirst, ?_, ?_, by simp⟩
          · rw [← h, hstate, Bool.or_false]
          · simp only [Bool.false_eq_true, false_iff] at hreached ⊢
            exact fun hall => hreached hall.1
      | true =>
          have hall := hreached.mp rfl
          cases hon : xioctl os.streamon with
          | none => simp [hloop, hon] at h
          | some outcome =>
              cases outcome with
              | failure errno =>
                  simp only [hloop, hon, Option.some.injEq] at h
                  refine ⟨first, false, hfirst, ?_, ?_, by simp⟩
                  · rw [← h, hstate, Bool.or_false]
                  · simp [← xioctl_eq_success_iff, hon]
              | success =>
                  simp only [hloop, hon, Option.some.injEq] at h
                  refine ⟨first, true, hfirst, ?_, ?_, fun _ => hqueued rfl⟩
                  · rw [← h, hstate, Bool.or_true]
                  · simp only [true_iff]
                    exact ⟨hall, (xioctl_eq_success_iff _).mp hon⟩

/-! ## All or nothing -/

/-- Every granted buffer is mapped and enqueued, the stream is on and the thread runs. -/
def VideoCaptureImpl.Up (s : VideoCaptureImpl) : Prop :=
  (∀ i < s.granted, i ∈ s.mapped ∧ i ∈ s.enqueued) ∧ s.streaming = true ∧ s.workingThread = true

/-- No buffers, no mapping and no thread. -/
def VideoCaptureImpl.Down (s : VideoCaptureImpl) : Prop :=
  s.buffers = [] ∧ s.allocatedBuffersCount = 0 ∧ s.mapped = [] ∧ s.workingThread = false

def VideoCaptureImpl.AllOrNothing (s : VideoCaptureImpl) : Prop := s.Up ∨ s.Down

/-- Every call after `VIDIOC_REQBUFS` succeeds. -/
def StartOutcomes.AllSucceed (os : StartOutcomes) : Prop :=
  (∀ i < os.count, os.Maps i) ∧ (∀ i < os.count, Succeeds (os.qbuf i)) ∧ Succeeds os.streamon

/-- The outcomes after which `start` leaves nothing half done: the request fails with an error
other than `EINVAL`, or leaves a count below five, or every later call succeeds. -/
def StartOutcomes.Clean (os : StartOutcomes) : Prop :=
  (∃ errno, os.reqbufs = .failure errno ∧ errno ≠ .einval) ∨ os.count < 5 ∨ os.AllSucceed

/-- The outcomes for which `start` returns before it has buffers to map. -/
def StartOutcomes.NoBuffers (os : StartOutcomes) : Prop :=
  (∃ errno, os.reqbufs = .failure errno ∧ errno ≠ .einval) ∨ os.count < 5

/-- With buffers to map, neither of the early returns is taken. -/
theorem StartOutcomes.not_noBuffers_iff (os : StartOutcomes) : ¬ os.NoBuffers ↔
    ¬ (os.reqbufs ≠ .success ∧ os.reqbufs ≠ .failure .einval) ∧ ¬ os.count < 5 := by
  rw [NoBuffers, not_or]
  refine and_congr_left fun _ => not_congr ?_
  cases os.reqbufs with
  | success => simp
  | failure errno => simp

/-- `start` asserts that there are no buffers. -/
theorem buffers_eq_nil_of_start {os : StartOutcomes} {s s' : VideoCaptureImpl}
    (h : start os s = some s') : s.buffers = [] := by
  by_contra hbuffers
  simp [start, hbuffers] at h

/-- **Without buffers to map**, `start` leaves everything as it is, but for what the driver has
granted. -/
theorem start_noBuffers {os : StartOutcomes} {s s' : VideoCaptureImpl} (h : start os s = some s')
    (hno : os.NoBuffers) : ∃ granted, s' = { s with granted := granted } := by
  have hbuffers := buffers_eq_nil_of_start h
  simp only [start] at h
  rw [if_neg (not_not.mpr hbuffers)] at h
  by_cases hreq : os.reqbufs ≠ .success ∧ os.reqbufs ≠ .failure .einval
  · rw [if_pos hreq] at h
    cases h
    exact ⟨s.granted, rfl⟩
  · have hcount : os.count < 5 := by
      by_contra hcount
      exact os.not_noBuffers_iff.mpr ⟨hreq, hcount⟩ hno
    rw [if_neg hreq, if_pos hcount] at h
    cases h
    exact ⟨_, rfl⟩

/-- **With buffers to map**, `start` maps them; when all of them are mapped, it starts the capture
and the thread. -/
theorem start_buffers {os : StartOutcomes} {s s' : VideoCaptureImpl} (h : start os s = some s')
    (hno : ¬ os.NoBuffers) : ∃ granted ≤ os.count, ∃ reached t,
      mapBuffers os (List.range os.count)
        { s with granted := granted, buffers := List.replicate os.count {} } = (reached, t) ∧
      ((reached = false ∧ s' = t) ∨
        (reached = true ∧ ∃ u,
          startCapture os { t with allocatedBuffersCount := os.count } = some u ∧
            s' = { u with workingThread := true })) := by
  have hbuffers := buffers_eq_nil_of_start h
  obtain ⟨hreq, hcount⟩ := os.not_noBuffers_iff.mp hno
  generalize hg : (if os.reqbufs = .success then os.count else 0) = granted
  have hgranted : granted ≤ os.count := by
    rw [← hg]
    split <;> omega
  simp only [start] at h
  rw [if_neg (not_not.mpr hbuffers), if_neg hreq, if_neg hcount] at h
  simp only [hg] at h
  refine ⟨granted, hgranted, _, _, rfl, ?_⟩
  generalize mapBuffers os (List.range os.count) _ = mapped at h ⊢
  obtain ⟨reached, t⟩ := mapped
  cases reached with
  | false => exact .inl ⟨rfl, (Option.some.inj h).symm⟩
  | true =>
      right
      cases hcapture : startCapture os { t with allocatedBuffersCount := os.count } with
      | none => simp [hcapture] at h
      | some u =>
          simp only [hcapture, Option.some.injEq] at h
          exact ⟨rfl, u, rfl, h.symm⟩

/-- **When a buffer cannot be mapped**, `start` leaves views and mappings. -/
theorem start_unmapped {os : StartOutcomes} {s s' : VideoCaptureImpl} (h : start os s = some s')
    (hno : ¬ os.NoBuffers) (hmaps : ¬ ∀ i < os.count, os.Maps i) :
    ∃ granted ≤ os.count, ∃ buffers mapped, buffers.length = os.count ∧
      s' = { s with granted := granted, buffers := buffers, mapped := mapped } := by
  obtain ⟨granted, hgranted, reached, t, hmap, hend⟩ := start_buffers h hno
  obtain ⟨reached', buffers, mapped, hmap', hlen, hreached, -⟩ := mapBuffers_eq os
    (List.range os.count) { s with granted := granted, buffers := List.replicate os.count {} }
  rw [hmap, Prod.mk.injEq] at hmap'
  obtain ⟨rfl, rfl⟩ := hmap'
  simp only [List.mem_range] at hreached
  rcases hend with ⟨-, rfl⟩ | ⟨htrue, -⟩
  · exact ⟨granted, hgranted, buffers, mapped, by simpa using hlen, rfl⟩
  · exact absurd (hreached.mp htrue) hmaps

/-- **When all buffers can be mapped**, `start` leaves a view for each of them and the first of
them enqueued, and starts the thread. -/
theorem start_mapped {os : StartOutcomes} {s s' : VideoCaptureImpl} (h : start os s = some s')
    (hno : ¬ os.NoBuffers) (hmaps : ∀ i < os.count, os.Maps i) :
    ∃ granted ≤ os.count, ∃ buffers first on, buffers.length = os.count ∧
      (∀ i < os.count, ∃ view, buffers[i]? = some view ∧ os.Views i view) ∧
      first <+: List.range os.count ∧
      s' = { s with
        allocatedBuffersCount := os.count
        buffers := buffers
        workingThread := true
        granted := granted
        mapped := s.mapped ++ List.range os.count
        enqueued := s.enqueued ++ first
        streaming := s.streaming || on } ∧
      (on = true ↔ os.AllSucceed) ∧ (on = true → first = List.range os.count) := by
  obtain ⟨granted, hgranted, reached, t, hmap, hend⟩ := start_buffers h hno
  obtain ⟨reached', buffers, mapped, hmap', hlen, hreached, hmapped⟩ := mapBuffers_eq os
    (List.range os.count) { s with granted := granted, buffers := List.replicate os.count {} }
  rw [hmap, Prod.mk.injEq] at hmap'
  obtain ⟨rfl, rfl⟩ := hmap'
  have hall : reached = true := hreached.mpr fun i hi => hmaps i (List.mem_range.mp hi)
  rcases hend with ⟨hfalse, -⟩ | ⟨-, u, hcapture, rfl⟩
  · rw [hall] at hfalse
    cases hfalse
  · obtain ⟨first, on, hfirst, rfl, hon, hqueued⟩ := startCapture_eq hcapture
    obtain ⟨-, hviews⟩ := mapBuffers_views (hall ▸ hmap)
    simp only [List.length_replicate] at hlen hviews
    refine ⟨granted, hgranted, buffers, first, on, hlen, ?_, hfirst, by rw [hmapped hall], ?_,
      hqueued⟩
    · intro i hi
      exact hviews i (List.mem_range.mpr hi) hi
    · rw [hon, StartOutcomes.AllSucceed]
      exact (and_iff_right hmaps).symm

/-- On a fresh capture with buffers to map, the thread is started exactly when all of them are
mapped, and the stream is on exactly when every call succeeds. -/
theorem start_eq {os : StartOutcomes} {s : VideoCaptureImpl} (h : start os {} = some s)
    (hno : ¬ os.NoBuffers) :
    s.buffers.length = os.count ∧ s.granted ≤ os.count ∧
      (s.workingThread = true ↔ ∀ i < os.count, os.Maps i) ∧
      (s.streaming = true ↔ os.AllSucceed) ∧
      (s.streaming = true → s.mapped = List.range os.count ∧ s.enqueued = List.range os.count) := by
  by_cases hmaps : ∀ i < os.count, os.Maps i
  · obtain ⟨granted, hgranted, buffers, first, on, hlen, -, -, rfl, hon, hqueued⟩ :=
      start_mapped h hno hmaps
    refine ⟨hlen, hgranted, by simpa using hmaps, by simpa using hon, ?_⟩
    intro hstream
    exact ⟨by simp, by simpa using hqueued (by simpa using hstream)⟩
  · obtain ⟨granted, hgranted, buffers, mapped, hlen, rfl⟩ := start_unmapped h hno hmaps
    refine ⟨hlen, hgranted, by simpa using hmaps, ?_, by simp⟩
    simp only [Bool.false_eq_true, false_iff]
    exact fun hall => hmaps hall.1

/-- **The outcomes from which `start` leaves nothing half done.** -/
theorem allOrNothing_iff {os : StartOutcomes} {s : VideoCaptureImpl} (h : start os {} = some s) :
    s.AllOrNothing ↔ os.Clean := by
  have hclean : os.Clean ↔ os.NoBuffers ∨ os.AllSucceed := or_assoc.symm
  rw [hclean]
  by_cases hno : os.NoBuffers
  · obtain ⟨granted, rfl⟩ := start_noBuffers h hno
    exact ⟨fun _ => .inl hno, fun _ => .inr ⟨rfl, rfl, rfl, rfl⟩⟩
  · obtain ⟨hlen, hgranted, hthread, hstream, hall⟩ := start_eq h hno
    constructor
    · intro hs
      rcases hs with hup | hdown
      · exact .inr (hstream.mp hup.2.1)
      · have hcount := (os.not_noBuffers_iff.mp hno).2
        rw [hdown.1, List.length_nil] at hlen
        omega
    · intro hsucceed
      have hsucceed : os.AllSucceed := hsucceed.resolve_left hno
      have hon := hstream.mpr hsucceed
      obtain ⟨hmapped, henqueued⟩ := hall hon
      refine .inl ⟨?_, hon, hthread.mpr hsucceed.1⟩
      intro i hi
      rw [hmapped, henqueued]
      exact ⟨List.mem_range.mpr (by omega), List.mem_range.mpr (by omega)⟩

/-- A camera that grants five buffers, with every call as given for it. -/
def fiveBuffers (querybuf : ℕ → QuerybufResult) (streamon : List IoctlResult) : StartOutcomes where
  reqbufs := .success
  count := 5
  querybuf := querybuf
  mmap i := .success (4096 * i)
  qbuf _ := [.success]
  streamon := streamon

/-- A start that succeeds, after an interruption. -/
theorem allOrNothing_iff_healthy :
    let os := fiveBuffers (fun i => .success 1843200 (1843200 * i))
      [.failure .eintr, .success]
    ((start os {}).getD {}).AllOrNothing ↔ os.Clean :=
  allOrNothing_iff rfl

/-- When the third buffer cannot be queried, two stay mapped without a thread; when the stream
cannot be turned on, the thread is started all the same. -/
theorem start_half_done :
    let unqueried := fiveBuffers
      (fun i => if i < 2 then .success 1843200 (1843200 * i) else .failure .einval) [.success]
    let unstreamed := fiveBuffers (fun i => .success 1843200 (1843200 * i)) [.failure ⟨28⟩]
    (∃ s, start unqueried {} = some s ∧ s.mapped = [0, 1] ∧ s.workingThread = false ∧
      ¬ s.AllOrNothing) ∧
    ∃ s, start unstreamed {} = some s ∧ s.streaming = false ∧ s.workingThread = true ∧
      ¬ s.AllOrNothing := by
  refine ⟨⟨_, rfl, rfl, rfl, ?_⟩, _, rfl, rfl, rfl, ?_⟩
  · intro h
    rcases h with hup | hdown
    · exact absurd hup.2.2 (by decide)
    · exact absurd hdown.2.2.1 (by decide)
  · intro h
    rcases h with hup | hdown
    · exact absurd hup.2.1 (by decide)
    · exact absurd hdown.2.2.2 (by decide)

end NaiveStreaming
