import NaiveStreaming.UdpReceive

/-!
# Runs of the receiver

What holds along every run of the completion handler.  A runt, a datagram of 12 to 18
bytes that passes both header checks, ends defined behaviour, and nothing else does:
runs without one are safe.  On these the receiver, with the buffer it reuses, refines a
machine that parses each datagram alone and remembers one sequence number.
-/

namespace NaiveStreaming
open ByteOrder Mealy

/-- The number of bytes that a completion received. -/
def Completion.bytesReceived : Completion → ℕ
  | error _ => 0
  | datagram d => d.bytes.length

/-- Spans are in order and end within the bytes received.  A datagram too short for both
headers is turned away: the listener is not called, the sequence number is kept and one
receive is armed. -/
structure SafeStep (host : Endian) (s : UDPReceiveImpl) (c : Completion) : Prop where
  spans : ∀ first last, .span first last ∈ ((receiver host).step s c).2 →
    first ≤ last ∧ last ≤ c.bytesReceived
  short : ∀ d, c = .datagram d → d.bytes.length < 19 →
    (∀ packet, .onPacketReceived packet ∉ ((receiver host).step s c).2) ∧
    ∃ s', ((receiver host).step s c).1 = some s' ∧ s'.prevSeqNum = s.prevSeqNum ∧ s'.armed = 1

/-- The completion is no runt. -/
def Completion.Defined (c : Completion) : Prop := ∀ d, c = .datagram d → ¬ d.Runt

instance : DecidablePred Completion.Defined
  | .error _ => isTrue fun _ h => by cases h
  | .datagram d => decidable_of_iff (¬ d.Runt)
      ⟨fun h d' hd => by cases hd; exact h, fun h => h d rfl⟩

theorem Completion.forall_defined_iff {cs : List Completion} :
    (∀ c ∈ cs, c.Defined) ↔ ∀ d, .datagram d ∈ cs → ¬ d.Runt := by
  constructor
  · intro h d hd
    exact h _ hd d rfl
  · rintro h c hc d rfl
    exact h d hc

theorem Completion.Rejected.defined {c : Completion} (h : c.Rejected) : c.Defined := by
  rintro d rfl hrunt
  rcases h with hlt | hs
  · exact absurd hrunt.long (Nat.not_le.mpr hlt)
  · exact hs hrunt.supported

/-- Away from runts, a completion is rejected or parsed. -/
theorem Completion.Defined.cases {c : Completion} (host : Endian) (h : c.Defined) :
    c.Rejected ∨ ∃ d sequenceNum packet, c = .datagram d ∧ 19 ≤ d.bytes.length ∧
      parseDatagram host d.bytes = some (sequenceNum, packet) := by
  rcases c.cases with hr | ⟨d, rfl, hrunt⟩ | ⟨d, rfl, hlen, hs⟩
  · exact .inl hr
  · exact absurd hrunt (h d rfl)
  · obtain ⟨rtpHeader, payloadHeader, -, -, hparse⟩ := parseDatagram_supported host hlen hs
    exact .inr ⟨d, _, _, rfl, hlen, hparse⟩

/-- A step on a completion that is no runt is defined, and arms a receive again. -/
theorem step_defined (host : Endian) {s : UDPReceiveImpl} {c : Completion} (h : c.Defined) :
    ∃ s', ((receiver host).step s c).1 = some s' ∧ s'.armed = s.armed - 1 + 1 := by
  rcases h.cases host with hr | ⟨d, sequenceNum, packet, rfl, -, hparse⟩
  · obtain ⟨event, -, hstep⟩ := step_rejected host s hr
    rw [hstep]
    exact ⟨_, rfl, rfl⟩
  · rw [step_accepted host s hparse]
    exact ⟨_, rfl, rfl⟩

theorem final_defined (host : Endian) {s : UDPReceiveImpl} {cs : List Completion}
    (h : ∀ c ∈ cs, c.Defined) : ∃ s', (receiver host).final s cs = some s' := by
  have hstep : ∀ (t : UDPReceiveImpl) c, True → c.Defined →
      ∃ t', ((receiver host).step t c).1 = some t' ∧ True := by
    intro t c _ hc
    obtain ⟨t', ht', -⟩ := step_defined host (s := t) hc
    exact ⟨t', ht', trivial⟩
  obtain ⟨s', hs', -⟩ := Machine.final_invariant hstep h trivial
  exact ⟨s', hs'⟩

/-- A run that does not fail has met no runt. -/
theorem defined_of_final (host : Endian) {cs : List Completion} : ∀ {s t : UDPReceiveImpl},
    (receiver host).final s cs = some t → ∀ c ∈ cs, c.Defined := by
  induction cs with
  | nil => intro s t _ c hc; exact absurd hc List.not_mem_nil
  | cons first cs ih =>
      intro s t h
      obtain ⟨s', hstep, hrest⟩ := Machine.final_cons_eq_some h
      refine List.forall_mem_cons.mpr ⟨?_, ih hrest⟩
      intro d hdatagram hrunt
      rw [hdatagram, step_runt host s hrunt] at hstep
      cases hstep

/-- While one receive is armed, a step is safe exactly when it meets no runt. -/
theorem safeStep_iff (host : Endian) {s : UDPReceiveImpl} (harmed : s.armed = 1)
    (c : Completion) : SafeStep host s c ↔ c.Defined := by
  constructor
  · rintro ⟨hspans, -⟩ d rfl hrunt
    rw [step_runt host s hrunt] at hspans
    have hle := (hspans 19 d.bytes.length (by simp)).1
    exact absurd hrunt.short (Nat.not_lt.mpr hle)
  · intro h
    rcases h.cases host with hr | ⟨d, sequenceNum, packet, rfl, hlen, hparse⟩
    · obtain ⟨event, hevent, hstep⟩ := step_rejected host s hr
      constructor
      · intro first last hmem
        rw [hstep, List.mem_singleton] at hmem
        rw [← hmem] at hevent
        exact hevent.elim
      · intro d _ _
        rw [hstep]
        refine ⟨?_, _, rfl, rfl, by rw [harmed]⟩
        intro packet hmem
        rw [List.mem_singleton] at hmem
        rw [← hmem] at hevent
        exact hevent.elim
    · constructor
      · intro first last hmem
        rw [step_accepted host s hparse] at hmem
        simp only [List.mem_cons, List.mem_append, ReceiveEvent.span.injEq, mem_checkSeqNum,
          reduceCtorEq, and_false, List.not_mem_nil, or_false] at hmem
        rw [Completion.bytesReceived]
        omega
      · rintro d' hd hshort
        cases hd
        exact absurd hshort (Nat.not_lt.mpr hlen)

/-- **The runs that are safe.**  From `start` on, whatever `m_buffer` holds, every step of
a run is safe exactly when no datagram of the run is a runt. -/
theorem receiver_safe_iff (host : Endian) (buffer : ReceiveBuffer) (cs : List Completion) :
    (receiver host).Always (SafeStep host) (.started buffer) cs ↔
      ∀ d, .datagram d ∈ cs → ¬ d.Runt := by
  have hsafe : ∀ (s : UDPReceiveImpl) c, s.armed = 1 → (SafeStep host s c ↔ c.Defined) :=
    fun s c harmed => safeStep_iff host harmed c
  have hstep : ∀ (s : UDPReceiveImpl) c, s.armed = 1 → c.Defined →
      ∃ s', ((receiver host).step s c).1 = some s' ∧ s'.armed = 1 := by
    intro s c harmed hdefined
    obtain ⟨s', hs', harmed'⟩ := step_defined host (s := s) hdefined
    exact ⟨s', hs', by rw [harmed', harmed]⟩
  rw [← Completion.forall_defined_iff]
  exact Machine.always_iff_forall hsafe hstep cs _ rfl

/-- A datagram of an RTP header alone is not handled safely. -/
theorem receiver_unsafe_on_bare_header :
    ¬ (receiver .little).Always (SafeStep .little)
      (.started ⟨List.replicate 1600 0, List.length_replicate ..⟩)
      [.datagram ⟨0x80 :: List.replicate 11 0, by decide⟩] := by
  have hrunt : Datagram.Runt ⟨0x80 :: List.replicate 11 0, by decide⟩ := by decide
  rintro ⟨hsafe, -⟩
  have hdefined := (safeStep_iff .little rfl _).mp hsafe
  exact hdefined _ rfl hrunt

/-! ## The specification -/

/-- The event is one that the listener or the log of missed packets can see. -/
def ReceiveEvent.visible : ReceiveEvent → Bool
  | missedPacket _ | onPacketReceived _ => true
  | _ => false

/-- The packet of an event that delivers one. -/
def ReceiveEvent.packet? : ReceiveEvent → Option VideoPacket
  | onPacketReceived packet => some packet
  | _ => none

/-- The report that is due on a sequence number, given the one delivered last. -/
def gapReport (last : Option UInt16) (sequenceNum : UInt16) : List ReceiveEvent :=
  match last with
  | none => []
  | some last =>
    if last.toNat + 1 ≠ sequenceNum.toNat then [.missedPacket (last.toNat + 1)] else []

/-- The specification of the receiver: it parses each datagram alone, and its state is
the sequence number delivered last. -/
def parserMachine (host : Endian) : Machine (Option UInt16) Completion ReceiveEvent where
  step last c :=
    match c.parse host with
    | none => (some last, [])
    | some (sequenceNum, packet) =>
      (some (some sequenceNum), gapReport last sequenceNum ++ [.onPacketReceived packet])

/-- The value of `m_prev_seq_num` that stands for the sequence number delivered last. -/
def prevSeqNumOf (last : Option UInt16) : ℤ := last.elim (-1) fun sequenceNum => sequenceNum.toNat

/-- One receive is armed, and `m_prev_seq_num` is the sequence number delivered last. -/
structure Tracks (s : UDPReceiveImpl) (last : Option UInt16) : Prop where
  armed : s.armed = 1
  prevSeqNum : s.prevSeqNum = prevSeqNumOf last

@[simp] theorem prevSeqNumOf_eq_neg_one_iff (last : Option UInt16) :
    prevSeqNumOf last = -1 ↔ last = none := by
  cases last with
  | none => simp [prevSeqNumOf]
  | some sequenceNum => simp [prevSeqNumOf]

/-- The sentinel never collides with a sequence number, so the handler's check is the
report that is due. -/
theorem checkSeqNum_prevSeqNumOf (last : Option UInt16) (sequenceNum : UInt16) :
    checkSeqNum (prevSeqNumOf last) sequenceNum = gapReport last sequenceNum := by
  cases last with
  | none => rfl
  | some last =>
      have hne : prevSeqNumOf (some last) ≠ -1 := by simp
      rw [checkSeqNum, if_neg hne, gapReport]
      simp only [prevSeqNumOf, Option.elim_some, ne_eq]
      norm_cast

theorem filter_visible_checkSeqNum (prevSeqNum : ℤ) (sequenceNum : UInt16) :
    (checkSeqNum prevSeqNum sequenceNum).filter ReceiveEvent.visible
      = checkSeqNum prevSeqNum sequenceNum := by
  rw [List.filter_eq_self]
  intro event hevent
  rw [mem_checkSeqNum] at hevent
  rw [hevent.2.2]
  rfl

/-- **The receiver simulates its specification** on completions that are no runts. -/
theorem receiver_simulates (host : Endian) :
    Machine.Simulates (receiver host) (parserMachine host) Tracks
      (List.filter ReceiveEvent.visible) Completion.Defined where
  step s last c htracks hdefined := by
    have harmed : s.armed - 1 + 1 = 1 := by rw [htracks.armed]
    rcases hdefined.cases host with hr | ⟨d, sequenceNum, packet, rfl, -, hparse⟩
    · obtain ⟨event, hevent, hstep⟩ := step_rejected host s hr
      have hhidden : event.visible = false := by
        cases event <;> first | rfl | exact hevent.elim
      rw [hstep]
      refine ⟨_, last, rfl, ?_, ⟨harmed, htracks.prevSeqNum⟩⟩
      simp [parserMachine, c.parse_eq_none host hr, hhidden]
    · have hspec : (Completion.datagram d).parse host = some (sequenceNum, packet) := hparse
      rw [step_accepted host s hparse]
      refine ⟨_, some sequenceNum, rfl, ?_, ⟨harmed, rfl⟩⟩
      simp [parserMachine, hspec, htracks.prevSeqNum, ← checkSeqNum_prevSeqNumOf,
        filter_visible_checkSeqNum, List.filter, ReceiveEvent.visible]

/-- The packets passed to the listener. -/
def deliveries (events : List ReceiveEvent) : List VideoPacket :=
  events.filterMap ReceiveEvent.packet?

/-- The deliveries and the missed-packet reports. -/
def reports (events : List ReceiveEvent) : List ReceiveEvent :=
  events.filter ReceiveEvent.visible

theorem deliveries_append (xs ys : List ReceiveEvent) :
    deliveries (xs ++ ys) = deliveries xs ++ deliveries ys := List.filterMap_append

theorem deliveries_reports (events : List ReceiveEvent) :
    deliveries (reports events) = deliveries events := by
  rw [deliveries, reports, List.filterMap_filter, deliveries]
  congr 1
  ext event packet
  cases event <;> simp [ReceiveEvent.visible, ReceiveEvent.packet?]

@[simp] theorem deliveries_checkSeqNum (prevSeqNum : ℤ) (sequenceNum : UInt16) :
    deliveries (checkSeqNum prevSeqNum sequenceNum) = [] := by
  rw [deliveries, List.filterMap_eq_nil_iff]
  intro event hevent
  rw [mem_checkSeqNum] at hevent
  rw [hevent.2.2]
  rfl

/-- The specification delivers what the parser accepts, in order. -/
theorem deliveries_parserMachine (host : Endian) (cs : List Completion) (last : Option UInt16) :
    deliveries ((parserMachine host).outputs last cs)
      = (cs.filterMap (Completion.parse host)).map Prod.snd := by
  induction cs generalizing last with
  | nil => rfl
  | cons c cs ih =>
      cases hparse : c.parse host with
      | none =>
          have hstep : (parserMachine host).step last c = (some last, []) := by
            simp [parserMachine, hparse]
          rw [Machine.outputs_cons hstep, List.nil_append, ih, List.filterMap_cons_none hparse]
      | some delivery =>
          have hstep : (parserMachine host).step last c = (some (some delivery.1),
              gapReport last delivery.1 ++ [.onPacketReceived delivery.2]) := by
            simp [parserMachine, hparse]
          rw [Machine.outputs_cons hstep, deliveries_append, deliveries_append, ih,
            ← checkSeqNum_prevSeqNumOf, deliveries_checkSeqNum,
            List.filterMap_cons_some hparse, List.map_cons]
          rfl

theorem final_parserMachine (host : Endian) (cs : List Completion) (last : Option UInt16) :
    (parserMachine host).final last cs =
      some (((cs.filterMap (Completion.parse host)).map fun delivery => some delivery.1).getLastD
        last) := by
  induction cs generalizing last with
  | nil => rfl
  | cons c cs ih =>
      cases hparse : c.parse host with
      | none =>
          have hstep : ((parserMachine host).step last c).1 = some last := by
            simp [parserMachine, hparse]
          rw [Machine.final_cons hstep, ih, List.filterMap_cons_none hparse]
      | some delivery =>
          have hstep : ((parserMachine host).step last c).1 = some (some delivery.1) := by
            simp [parserMachine, hparse]
          rw [Machine.final_cons hstep, ih, List.filterMap_cons_some hparse, List.map_cons,
            List.getLastD_cons]

theorem silent_parserMachine (host : Endian) {c : Completion} (h : c.Rejected) :
    (parserMachine host).Silent c := by
  intro last
  simp [parserMachine, c.parse_eq_none host h]

/-! ## Refinement -/

/-- What the simulation gives for a run from `start`: the final states are related, and
the reports are those of the specification. -/
theorem receiver_run (host : Endian) (buffer : ReceiveBuffer) {cs : List Completion}
    (h : ∀ c ∈ cs, c.Defined) : ∃ s, (receiver host).final (.started buffer) cs = some s ∧
      Tracks s ((cs.filterMap (Completion.parse host)).getLast?.map Prod.fst) ∧
      reports ((receiver host).outputs (.started buffer) cs)
        = (parserMachine host).outputs none cs := by
  have hstart : Tracks (.started buffer) none := ⟨rfl, rfl⟩
  obtain ⟨s, last, hs, hlast, htracks, htrace⟩ := (receiver_simulates host).run h hstart
  rw [final_parserMachine, List.getLastD_eq_getLast?, Option.some_inj] at hlast
  refine ⟨s, hs, ?_, ?_⟩
  · convert htracks
    rw [← hlast, List.getLast?_map]
    cases (cs.filterMap (Completion.parse host)).getLast? <;> rfl
  · rw [Machine.outputs, Machine.outputs, htrace, reports, List.filter_flatten]

/-- The datagrams delivered in a run are those that the parser accepts. -/
theorem deliveries_receiver (host : Endian) (buffer : ReceiveBuffer) {cs : List Completion}
    (h : ∀ c ∈ cs, c.Defined) : deliveries ((receiver host).outputs (.started buffer) cs)
      = (cs.filterMap (Completion.parse host)).map Prod.snd := by
  obtain ⟨s, -, -, hreports⟩ := receiver_run host buffer h
  rw [← deliveries_reports, hreports, deliveries_parserMachine]

/-- **The receiver refines a parser of single datagrams.**  Its deliveries are what the
parser accepts, a rejected completion can be deleted without a trace, and after any part
of the run one receive is armed and `m_prev_seq_num` belongs to the last delivery. -/
theorem receiver_refines_parseDatagram (host : Endian) (buffer : ReceiveBuffer)
    (cs : List Completion) (h : ∀ d, Completion.datagram d ∈ cs → ¬ d.Runt) :
    deliveries ((receiver host).outputs (.started buffer) cs)
      = (cs.filterMap (Completion.parse host)).map Prod.snd ∧
    (∀ pre c post, cs = pre ++ c :: post → c.Rejected →
      reports ((receiver host).outputs (.started buffer) (pre ++ post))
        = reports ((receiver host).outputs (.started buffer) cs)) ∧
    ∀ pre post, cs = pre ++ post → ∃ s, (receiver host).final (.started buffer) pre = some s ∧
      s.armed = 1 ∧
      (s.prevSeqNum = -1 ↔ deliveries ((receiver host).outputs (.started buffer) pre) = []) ∧
      ∀ delivery, (pre.filterMap (Completion.parse host)).getLast? = some delivery →
        s.prevSeqNum = delivery.1.toNat := by
  rw [← Completion.forall_defined_iff] at h
  refine ⟨deliveries_receiver host buffer h, ?_, ?_⟩
  · rintro pre c post rfl hr
    have hrest : ∀ c ∈ pre ++ post, c.Defined := by
      intro x hx
      apply h x
      simp only [List.mem_append, List.mem_cons] at hx ⊢
      tauto
    obtain ⟨-, -, -, hreports⟩ := receiver_run host buffer h
    obtain ⟨-, -, -, hreports'⟩ := receiver_run host buffer hrest
    rw [hreports, hreports', (silent_parserMachine host hr).outputs_delete]
  · rintro pre post rfl
    have hpre : ∀ c ∈ pre, c.Defined := fun c hc => h c (List.mem_append_left _ hc)
    obtain ⟨s, hs, htracks, -⟩ := receiver_run host buffer hpre
    refine ⟨s, hs, htracks.armed, ?_, ?_⟩
    · rw [htracks.prevSeqNum, prevSeqNumOf_eq_neg_one_iff, deliveries_receiver host buffer hpre]
      simp
    · intro delivery hlast
      rw [htracks.prevSeqNum, hlast]
      rfl

/-- An error, a datagram too short for a header, and one byte of video. -/
theorem receiver_refines_parseDatagram_mixed :
    let buffer : ReceiveBuffer := ⟨List.replicate 1600 0xFF, List.length_replicate ..⟩
    let video : Datagram :=
      ⟨[0x80, 78, 0, 5, 0, 0, 0, 9, 0, 0, 0, 0, 1, 0, 2, 0, 3, 0, 0, 0xAB], by decide⟩
    deliveries ((receiver .little).outputs (.started buffer)
        [.error 4, .datagram ⟨[0x80, 78], by decide⟩, .datagram video])
      = [{ nalData := [0xAB]
           nalMeta := { timestamp := 9, nalType := ⟨1⟩, firstMacroblock := 2,
                        lastMacroblock := 3 } }] :=
  (receiver_refines_parseDatagram .little _ _
    (Completion.forall_defined_iff.mp (by decide))).1.trans (by decide)

end NaiveStreaming
