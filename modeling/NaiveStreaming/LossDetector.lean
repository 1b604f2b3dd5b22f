import NaiveStreaming.Lib.SerialNumber
import NaiveStreaming.Stream

/-!
# The loss detector

The receiver compares the sequence number of a packet with the unreduced successor of
the last one.  So it misses a gap only when a multiple of `2 ^ 16` packets is lost, and it
takes every wrap of the sixteen-bit field for a loss.
-/

namespace NaiveStreaming
open ByteOrder Mealy SerialNumber

/-- No branch that reports a missed packet is taken. -/
def NoAlarm (events : List ReceiveEvent) : Prop := ∀ seqNum, .missedPacket seqNum ∉ events

theorem noAlarm_append (xs ys : List ReceiveEvent) :
    NoAlarm (xs ++ ys) ↔ NoAlarm xs ∧ NoAlarm ys := by
  simp only [NoAlarm, List.mem_append, not_or, forall_and]

/-- The sequence check is silent exactly when the unreduced successor matches. -/
theorem noAlarm_checkSeqNum (prevSeqNum : ℤ) (sequenceNum : UInt16) :
    NoAlarm (checkSeqNum prevSeqNum sequenceNum) ↔
      prevSeqNum = -1 ∨ prevSeqNum + 1 = sequenceNum.toNat := by
  simp only [NoAlarm, mem_checkSeqNum, ReceiveEvent.missedPacket.injEq]
  constructor
  · intro h
    by_contra hnot
    rw [not_or] at hnot
    exact h _ ⟨hnot.1, hnot.2, rfl⟩
  · rintro h seqNum ⟨h₁, h₂, -⟩
    exact h.elim h₁ h₂

/-- A step on a packet that arrives is silent exactly when its sequence check is. -/
theorem noAlarm_step (prevSeqNum : ℤ) (sequenceNum : UInt16) (last : ℕ) (packet : VideoPacket) :
    NoAlarm (.span 12 19 :: .span 19 last ::
      (checkSeqNum prevSeqNum sequenceNum ++ [.onPacketReceived packet])) ↔
        prevSeqNum = -1 ∨ prevSeqNum + 1 = sequenceNum.toNat := by
  have hcons : ∀ events, NoAlarm (.span 12 19 :: .span 19 last :: events) ↔ NoAlarm events := by
    intro events
    simp [NoAlarm]
  rw [hcons, noAlarm_append, noAlarm_checkSeqNum]
  simp [NoAlarm]

theorem toNat_succ_mod (n : UInt32) : (n + 1).toNat % 65536 = (n.toNat + 1) % 65536 := by
  rw [UInt32.toNat_add]
  have hone : (1 : UInt32).toNat = 1 := rfl
  omega

/-- A run in which the receiver last delivered number `a` and the sender goes on with its
successor: it is silent exactly when no two neighbours are taken for a gap. -/
theorem noAlarm_run (host : Endian) (packets : List VideoPacket) :
    ∀ (counter : UDPTransmitImpl) (s : UDPReceiveImpl) (a : ℕ),
      s.prevSeqNum = (a % 65536 : ℕ) → counter.sequenceNum.toNat % 65536 = (a + 1) % 65536 →
      (NoAlarm ((receiver host).outputs s ((datagrams host counter packets).map arrive)) ↔
        ∀ i < packets.length, ¬ Missed 65536 (a + i) (a + i + 1)) := by
  induction packets with
  | nil => intro counter s a _ _; simp [NoAlarm, Machine.outputs]
  | cons packet packets ih =>
      intro counter s a hprev hcounter
      obtain ⟨s', last, hstep, hs'⟩ := step_arrive host s counter.sequenceNum.toUInt16 packet
      have hnum : counter.sequenceNum.toUInt16.toNat = (a + 1) % 65536 := by
        rw [UInt32.toNat_toUInt16, ← hcounter]
      have hrest := ih ⟨counter.sequenceNum + 1⟩ s' (a + 1) (by rw [hs', hnum])
        (by rw [toNat_succ_mod]; omega)
      have hfirst : (s.prevSeqNum = -1 ∨
          s.prevSeqNum + 1 = (counter.sequenceNum.toUInt16.toNat : ℤ)) ↔
            ¬ Missed 65536 a (a + 1) := by
        rw [hprev, hnum, Missed]
        omega
      rw [datagrams_cons, List.map_cons, Machine.outputs_cons hstep, noAlarm_append, noAlarm_step,
        hfirst, hrest, List.length_cons, Nat.forall_lt_succ_left']
      simp only [Nat.add_zero, Nat.add_assoc, Nat.add_comm 1]

/-- **When the loss detector raises no false alarm.**  A run that loses nothing is silent
exactly when the sixteen-bit sequence number does not wrap within it. -/
theorem noAlarm_iff (host : Endian) (buffer : ReceiveBuffer) (counter : UDPTransmitImpl)
    (packets : List VideoPacket) :
    NoAlarm ((receiver host).outputs (.started buffer)
        ((datagrams host counter packets).map arrive)) ↔
      counter.sequenceNum.toNat % 65536 + packets.length ≤ 65536 := by
  cases packets with
  | nil =>
      have hlt : counter.sequenceNum.toNat % 65536 < 65536 := Nat.mod_lt _ (by decide)
      simp only [NoAlarm, Machine.outputs, datagrams_nil, List.map_nil, Machine.trace_nil,
        List.flatten_nil, List.not_mem_nil, not_false_eq_true, implies_true, List.length_nil,
        true_iff]
      omega
  | cons packet packets =>
      obtain ⟨s', last, hstep, hs'⟩ :=
        step_arrive host (.started buffer) counter.sequenceNum.toUInt16 packet
      have hrest := noAlarm_run host packets ⟨counter.sequenceNum + 1⟩ s'
        counter.sequenceNum.toNat (by rw [hs', UInt32.toNat_toUInt16]) (toNat_succ_mod _)
      have hwrap := exists_wrap_iff (M := 65536) (by decide) counter.sequenceNum.toNat
        (packet :: packets).length
      rw [datagrams_cons, List.map_cons, Machine.outputs_cons hstep, noAlarm_append, noAlarm_step,
        hrest, ← Nat.not_lt, ← hwrap]
      have hmissed : ∀ a, Missed 65536 a (a + 1) ↔ a % 65536 + 1 = 65536 :=
        missed_succ_iff (by decide)
      simp only [hmissed, List.length_cons,
        Nat.add_lt_add_iff_right, not_exists, not_and]
      exact and_iff_right (.inl rfl)

/-- Two packets that the wrap separates. -/
theorem alarm_at_the_wrap :
    let packet : VideoPacket := ⟨[], { timestamp := 0 }⟩
    ¬ NoAlarm ((receiver .little).outputs
      (.started ⟨List.replicate 1600 0, List.length_replicate ..⟩)
      ((datagrams .little ⟨65535⟩ [packet, packet]).map arrive)) := by
  intro packet h
  exact h 65536 (by decide +kernel)

/-! ## A channel that loses some -/

/-- What reaches the receiver: one of the datagrams sent, or a completion that a check of
the handler turns away. -/
inductive Arrival (sent : List (List UInt8))
  | delivered (i : Fin sent.length)
  | noise (c : Completion) (rejected : c.Rejected)

namespace Arrival
variable {sent : List (List UInt8)}

def completion : Arrival sent → Completion
  | delivered i => arrive (sent.get i)
  | noise c _ => c

/-- The position of an arrival among the datagrams sent. -/
def index? : Arrival sent → Option (Fin sent.length)
  | delivered i => some i
  | noise _ _ => none

end Arrival

/-- A channel that keeps the order of what it keeps: the datagrams that arrive are a
subsequence of those sent, with noise anywhere between them. -/
structure LossyChannel (sent : List (List UInt8)) where
  arrivals : List (Arrival sent)
  inOrder : (arrivals.filterMap Arrival.index?).Pairwise (· < ·)

/-- The receiver's completions. -/
def LossyChannel.completions {sent : List (List UInt8)} (channel : LossyChannel sent) :
    List Completion :=
  channel.arrivals.map Arrival.completion

/-- Of two packets that arrive, the one sent first arrives first. -/
theorem LossyChannel.lt_of_arrivals {sent : List (List UInt8)} {channel : LossyChannel sent}
    {pre between post : List (Arrival sent)} {i j : Fin sent.length}
    (hrun : channel.arrivals = pre ++ .delivered i :: (between ++ .delivered j :: post)) :
    i < j := by
  have horder := channel.inOrder
  rw [hrun, List.filterMap_append, List.pairwise_append] at horder
  have htail := (List.pairwise_cons.mp horder.2.1).1
  exact htail j (List.mem_filterMap.mpr ⟨.delivered j, by simp, rfl⟩)

theorem toNat_sequenceNum (n : UInt32) (i : ℕ) :
    (n + UInt32.ofNat i).toUInt16.toNat = (n.toNat + i) % 65536 := by
  rw [UInt32.toNat_toUInt16, UInt32.toNat_add, UInt32.toNat_ofNat']
  omega

/-- Noise leaves the number delivered last as it is. -/
theorem final_noise (host : Endian) {s : UDPReceiveImpl} {cs : List Completion}
    (h : ∀ c ∈ cs, c.Rejected) :
    ∃ s', (receiver host).final s cs = some s' ∧ s'.prevSeqNum = s.prevSeqNum := by
  have hstep : ∀ (t : UDPReceiveImpl) c, t.prevSeqNum = s.prevSeqNum → c.Rejected →
      ∃ t', ((receiver host).step t c).1 = some t' ∧ t'.prevSeqNum = s.prevSeqNum := by
    intro t c ht hc
    obtain ⟨event, -, hstep⟩ := step_rejected host t hc
    exact ⟨_, congrArg Prod.fst hstep, ht⟩
  exact Machine.final_invariant hstep h rfl

section Lossy
variable (host : Endian) (counter : UDPTransmitImpl) (packets : List VideoPacket)

theorem get_datagrams (i : Fin (datagrams host counter packets).length) : ∃ packet,
      (datagrams host counter packets).get i =
        packetDatagram host (counter.sequenceNum + UInt32.ofNat i).toUInt16 packet := by
  have hget := getElem?_datagrams host counter packets i
  rw [List.getElem?_eq_getElem i.isLt] at hget
  obtain ⟨packet, -, hpacket⟩ := Option.map_eq_some_iff.mp hget.symm
  exact ⟨packet, hpacket.symm⟩

/-- A packet that arrives at a position leaves its number behind. -/
theorem step_delivered (s : UDPReceiveImpl) (i : Fin (datagrams host counter packets).length) :
    ∃ s', ((receiver host).step s (Arrival.delivered i).completion).1 = some s' ∧
      s'.prevSeqNum = ((counter.sequenceNum.toNat + i) % 65536 : ℕ) ∧
      (s.prevSeqNum ≠ -1 → s.prevSeqNum + 1 ≠ ((counter.sequenceNum.toNat + i) % 65536 : ℕ) →
        .missedPacket (s.prevSeqNum + 1) ∈
          ((receiver host).step s (Arrival.delivered i).completion).2) := by
  obtain ⟨packet, hget⟩ := get_datagrams host counter packets i
  obtain ⟨s', last, hstep, hs'⟩ :=
    step_arrive host s (counter.sequenceNum + UInt32.ofNat i).toUInt16 packet
  rw [Arrival.completion, hget, hstep]
  refine ⟨s', rfl, by rw [hs', toNat_sequenceNum], ?_⟩
  intro hfirst hgap
  have hmem := mem_checkSeqNum.mpr ⟨hfirst, by rwa [toNat_sequenceNum], rfl⟩
  exact List.mem_cons_of_mem _ (List.mem_cons_of_mem _ (List.mem_append_left _ hmem))

theorem defined_arrival (arrival : Arrival (datagrams host counter packets)) :
    arrival.completion.Defined := by
  cases arrival with
  | delivered i =>
      obtain ⟨packet, hget⟩ := get_datagrams host counter packets i
      rw [Arrival.completion, hget]
      exact defined_arrive host _ packet
  | noise c rejected => exact rejected.defined

/-- After a packet and the noise behind it, the packet's number is the one kept. -/
theorem final_delivered (s : UDPReceiveImpl)
    (pre : List (Arrival (datagrams host counter packets)))
    {between : List (Arrival (datagrams host counter packets))}
    (i : Fin (datagrams host counter packets).length)
    (hbetween : between.filterMap Arrival.index? = []) :
    ∃ s', (receiver host).final s ((pre ++ .delivered i :: between).map Arrival.completion)
        = some s' ∧ s'.prevSeqNum = ((counter.sequenceNum.toNat + i) % 65536 : ℕ) := by
  have hnoise : ∀ c ∈ between.map Arrival.completion, c.Rejected := by
    intro c hc
    obtain ⟨arrival, hmem, rfl⟩ := List.mem_map.mp hc
    have hindex := List.filterMap_eq_nil_iff.mp hbetween _ hmem
    cases arrival with
    | delivered l => cases hindex
    | noise c rejected => exact rejected
  have hpre : ∀ c ∈ pre.map Arrival.completion, c.Defined := by
    intro c hc
    obtain ⟨arrival, -, rfl⟩ := List.mem_map.mp hc
    exact defined_arrival host counter packets arrival
  obtain ⟨s₁, hs₁⟩ := final_defined host (s := s) hpre
  obtain ⟨s₂, hs₂, hprev₂, -⟩ := step_delivered host counter packets s₁ i
  obtain ⟨s₃, hs₃, hprev₃⟩ := final_noise host (s := s₂) hnoise
  refine ⟨s₃, ?_, by rw [hprev₃, hprev₂]⟩
  rw [List.map_append, Machine.final_append hs₁, List.map_cons, Machine.final_cons hs₂, hs₃]

/-- **The gaps that are reported.**  Of two packets with only noise between them, the second
is reported whenever the number of packets lost in between is no multiple of `2 ^ 16`. -/
theorem missed_reported (s : UDPReceiveImpl)
    (channel : LossyChannel (datagrams host counter packets))
    (pre between post : List (Arrival (datagrams host counter packets)))
    {i j : Fin (datagrams host counter packets).length}
    (hrun : channel.arrivals = pre ++ .delivered i :: (between ++ .delivered j :: post))
    (hbetween : between.filterMap Arrival.index? = [])
    (hlost : ¬ 65536 ∣ (j : ℕ) - i - 1) :
    ∃ events seqNum, ((receiver host).trace s channel.completions)[pre.length + 1 + between.length]?
      = some events ∧ .missedPacket seqNum ∈ events := by
  have hlt := Fin.lt_def.mp (LossyChannel.lt_of_arrivals hrun)
  obtain ⟨s', hfinal, hprev⟩ := final_delivered host counter packets s pre i hbetween
  obtain ⟨-, -, -, hreport⟩ := step_delivered host counter packets s' j
  have htrace := Machine.getElem?_trace hfinal (Arrival.delivered j).completion
    (post.map Arrival.completion)
  have hsplit : channel.completions = (pre ++ .delivered i :: between).map Arrival.completion ++
      (Arrival.delivered j).completion :: post.map Arrival.completion := by
    rw [LossyChannel.completions, hrun]
    simp
  have hlen : ((pre ++ .delivered i :: between).map Arrival.completion).length
      = pre.length + 1 + between.length := by
    simp only [List.length_map, List.length_append, List.length_cons]
    omega
  rw [hlen, ← hsplit] at htrace
  refine ⟨_, _, htrace, hreport ?_ ?_⟩
  · rw [hprev]
    omega
  · have hmissed := missed_of_not_dvd hlost (counter.sequenceNum.toNat + i)
    have hnum : counter.sequenceNum.toNat + i + 1 + (j - i - 1)
        = counter.sequenceNum.toNat + j := by omega
    rw [hnum, Missed] at hmissed
    rw [hprev]
    exact_mod_cast hmissed

end Lossy

/-- The second of three packets is lost, at the wrap and behind an error. -/
theorem missed_reported_one :
    let packet : VideoPacket := ⟨[], { timestamp := 0 }⟩
    let s : UDPReceiveImpl := .started ⟨List.replicate 1600 0, List.length_replicate ..⟩
    let channel : LossyChannel (datagrams .little ⟨65535⟩ [packet, packet, packet]) :=
      { arrivals := [.delivered ⟨0, by decide⟩, .noise (.error 4) trivial,
          .delivered ⟨2, by decide⟩]
        inOrder := by decide }
    ∃ events seqNum, ((receiver .little).trace s channel.completions)[2]? = some events ∧
      .missedPacket seqNum ∈ events := by
  intro packet s channel
  exact missed_reported .little ⟨65535⟩ _ s channel [] [.noise (.error 4) trivial] [] rfl rfl
    (by decide)

end NaiveStreaming
