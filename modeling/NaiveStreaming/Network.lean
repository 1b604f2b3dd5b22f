import Mathlib.Data.List.Chain
import NaiveStreaming.LossDetector

/-!
# An arbitrary network

A network may drop datagrams, repeat them, change their order and bring datagrams of others.  What
the receiver then does is a function of the packets that it accepts and of nothing else: each is
delivered as it was sent, and the log of missed packets has the number after every packet that is
not followed by its unreduced successor.
-/

namespace NaiveStreaming
open ByteOrder Mealy

/-- The number of a report. -/
def ReceiveEvent.missed? : ReceiveEvent → Option ℤ
  | missedPacket seqNum => some seqNum
  | _ => none

/-- The numbers that are reported missing, in order. -/
def missedNumbers (events : List ReceiveEvent) : List ℤ :=
  events.filterMap ReceiveEvent.missed?

/-- The number that is reported missing between two that follow each other. -/
def gap (previous next : UInt16) : Option ℤ :=
  if previous.toNat + 1 = next.toNat then none else some (previous.toNat + 1)

/-- What is reported missing in a list of sequence numbers. -/
def gaps (nums : List UInt16) : List ℤ :=
  (nums.zip nums.tail).filterMap fun pair => gap pair.1 pair.2

theorem missedNumbers_append (xs ys : List ReceiveEvent) :
    missedNumbers (xs ++ ys) = missedNumbers xs ++ missedNumbers ys := List.filterMap_append

theorem missedNumbers_reports (events : List ReceiveEvent) :
    missedNumbers (reports events) = missedNumbers events := by
  rw [missedNumbers, reports, List.filterMap_filter, missedNumbers]
  congr 1
  ext event seqNum
  cases event <;> simp [ReceiveEvent.visible, ReceiveEvent.missed?]

theorem noAlarm_iff_missedNumbers (events : List ReceiveEvent) :
    NoAlarm events ↔ missedNumbers events = [] := by
  rw [missedNumbers, List.filterMap_eq_nil_iff, NoAlarm]
  constructor
  · intro h event hevent
    cases event with
    | missedPacket seqNum => exact absurd hevent (h seqNum)
    | _ => rfl
  · intro h seqNum hmem
    exact absurd (h _ hmem) (by simp [ReceiveEvent.missed?])

theorem gaps_cons (previous : UInt16) (nums : List UInt16) : gaps (previous :: nums) =
    (nums.head?.bind (gap previous)).toList ++ gaps nums := by
  cases nums with
  | nil => rfl
  | cons next nums =>
      simp only [gaps, List.tail_cons, List.zip_cons_cons, List.head?_cons, Option.bind_some,
        List.filterMap_cons]
      cases gap previous next <;> rfl

/-- Nothing is missing exactly when every number is followed by its unreduced successor. -/
theorem gaps_eq_nil_iff (nums : List UInt16) :
    gaps nums = [] ↔ nums.IsChain fun a b => a.toNat + 1 = b.toNat := by
  induction nums with
  | nil => exact iff_of_true rfl .nil
  | cons previous nums ih =>
      cases nums with
      | nil => exact iff_of_true rfl (.singleton _)
      | cons next nums =>
          rw [gaps_cons, List.append_eq_nil_iff, ih, List.isChain_cons_cons]
          refine and_congr_left' ?_
          by_cases h : previous.toNat + 1 = next.toNat <;> simp [gap, h]

theorem missedNumbers_gapReport (last : Option UInt16) (sequenceNum : UInt16) :
    missedNumbers (gapReport last sequenceNum) = (last.bind (gap · sequenceNum)).toList := by
  cases last with
  | none => rfl
  | some last =>
      by_cases h : last.toNat + 1 = sequenceNum.toNat
      · simp [gapReport, gap, h, missedNumbers]
      · simp [gapReport, gap, h, missedNumbers, ReceiveEvent.missed?]

theorem missedNumbers_parserMachine (host : Endian) (cs : List Completion)
    (last : Option UInt16) : missedNumbers ((parserMachine host).outputs last cs) =
      gaps (last.toList ++ (cs.filterMap (Completion.parse host)).map Prod.fst) := by
  induction cs generalizing last with
  | nil => cases last <;> rfl
  | cons c cs ih =>
      cases hparse : c.parse host with
      | none =>
          have hstep : (parserMachine host).step last c = (some last, []) := by
            simp [parserMachine, hparse]
          rw [Machine.outputs_cons hstep, List.nil_append, ih, List.filterMap_cons_none hparse]
      | some delivery =>
          have hstep : (parserMachine host).step last c = (some (some delivery.1),
              gapReport last delivery.1 ++ [.onPacketReceived delivery.2]) := by
            simp [parserMachine, hparse]
          have hevent : missedNumbers [.onPacketReceived delivery.2] = [] := rfl
          rw [Machine.outputs_cons hstep, missedNumbers_append, missedNumbers_append, hevent,
            List.append_nil, missedNumbers_gapReport, ih, List.filterMap_cons_some hparse]
          cases last with
          | none => rfl
          | some last =>
              simp only [Option.toList_some, List.singleton_append, List.map_cons]
              rw [gaps_cons last]
              rfl

/-- The receiver reports the gaps of the numbers it accepts. -/
theorem missedNumbers_receiver (host : Endian) (buffer : ReceiveBuffer) {cs : List Completion}
    (h : ∀ c ∈ cs, c.Defined) : missedNumbers ((receiver host).outputs (.started buffer) cs)
      = gaps ((cs.filterMap (Completion.parse host)).map Prod.fst) := by
  obtain ⟨s, -, -, hreports⟩ := receiver_run host buffer h
  rw [← missedNumbers_reports, hreports, missedNumbers_parserMachine]
  rfl

/-- A number reported missing is the unreduced successor of a number. -/
theorem mem_gaps {nums : List UInt16} {seqNum : ℤ} (h : seqNum ∈ gaps nums) :
    1 ≤ seqNum ∧ seqNum ≤ 65536 := by
  obtain ⟨pair, -, hgap⟩ := List.mem_filterMap.mp h
  have hlt := pair.1.toNat_lt
  simp only [gap, Option.ite_none_left_eq_some, Option.some.injEq] at hgap
  omega

/-- **The log of missed packets is exact.**  Whatever arrives, runts apart, the numbers reported
are those after the accepted numbers that are not followed by their unreduced successor: at most
one for each delivery after the first, and each from 1 to 65536. -/
theorem missed_log_exact (host : Endian) (buffer : ReceiveBuffer) (cs : List Completion)
    (h : ∀ d, Completion.datagram d ∈ cs → ¬ d.Runt) :
    let events := (receiver host).outputs (.started buffer) cs
    missedNumbers events = gaps ((cs.filterMap (Completion.parse host)).map Prod.fst) ∧
      (missedNumbers events).length ≤ (deliveries events).length - 1 ∧
      ∀ seqNum ∈ missedNumbers events, 1 ≤ seqNum ∧ seqNum ≤ 65536 := by
  rw [← Completion.forall_defined_iff] at h
  intro events
  have hlog := missedNumbers_receiver host buffer h
  refine ⟨hlog, ?_, ?_⟩
  · rw [hlog, deliveries_receiver host buffer h, gaps]
    refine (List.length_filterMap_le ..).trans ?_
    simp
  · intro seqNum hmem
    rw [hlog] at hmem
    exact mem_gaps hmem

/-- Of the numbers 5, 5, 4 and 5, only the last one follows its predecessor. -/
theorem missed_log_exact_reordered :
    let datagram : UInt16 → Completion := fun sequenceNum =>
      arrive (packetDatagram .little sequenceNum ⟨[], { timestamp := 0 }⟩)
    let cs := [5, 5, 4, 5].map datagram
    let events := (receiver .little).outputs
      (.started ⟨List.replicate 1600 0, List.length_replicate ..⟩) cs
    missedNumbers events = gaps ((cs.filterMap (Completion.parse .little)).map Prod.fst) ∧
      (missedNumbers events).length ≤ (deliveries events).length - 1 ∧
      ∀ seqNum ∈ missedNumbers events, 1 ≤ seqNum ∧ seqNum ≤ 65536 := by
  intro datagram cs
  refine missed_log_exact .little _ cs ?_
  rw [← Completion.forall_defined_iff]
  intro c hc
  obtain ⟨sequenceNum, -, rfl⟩ := List.mem_map.mp hc
  exact defined_arrive .little sequenceNum _

example : gaps [5, 5, 4, 5] = [6, 6] := by decide

/-! ## Arrivals -/

section Arrivals
variable (host : Endian) (counter : UDPTransmitImpl) (packets : List VideoPacket)

/-- The packet that was sent at a position, as it arrives. -/
def received (i : Fin (datagrams host counter packets).length) : VideoPacket :=
  arrivedPacket (packets.get (i.cast (length_datagrams host counter packets)))

/-- The number that was sent at a position. -/
def sentNumber (i : Fin (datagrams host counter packets).length) : UInt16 :=
  (counter.sequenceNum + UInt32.ofNat i).toUInt16

/-- The parser recovers what was sent at the position of an arrival, and no noise. -/
theorem parse_arrival (arrival : Arrival (datagrams host counter packets)) :
    arrival.completion.parse host = arrival.index?.map fun i =>
      (sentNumber host counter packets i, received host counter packets i) := by
  cases arrival with
  | delivered i =>
      have hlt : i < packets.length := Nat.lt_of_lt_of_eq i.isLt (length_datagrams ..)
      have hget := getElem?_datagrams host counter packets i
      rw [List.getElem?_eq_getElem i.isLt, List.getElem?_eq_getElem hlt, Option.map_some,
        Option.some_inj] at hget
      rw [Arrival.completion, List.get_eq_getElem, hget, parse_arrive]
      rfl
  | noise c rejected => exact c.parse_eq_none host rejected

/-- **What the parser makes of any arrivals**: the packets sent at their positions, in the order
in which they arrive. -/
theorem parse_arrivals (arrivals : List (Arrival (datagrams host counter packets))) :
    (arrivals.map Arrival.completion).filterMap (Completion.parse host) =
      (arrivals.filterMap Arrival.index?).map fun i =>
        (sentNumber host counter packets i, received host counter packets i) := by
  rw [List.filterMap_map, List.map_filterMap]
  congr 1
  ext1 arrival
  exact parse_arrival host counter packets arrival

theorem defined_arrivals (arrivals : List (Arrival (datagrams host counter packets))) :
    ∀ c ∈ arrivals.map Arrival.completion, c.Defined := by
  intro c hc
  obtain ⟨arrival, -, rfl⟩ := List.mem_map.mp hc
  exact defined_arrival host counter packets arrival

/-- What an alarm-free pair of positions is: the later number has not wrapped to zero, and is the
successor modulo `2 ^ 16`. -/
theorem sentNumber_succ_iff (i j : Fin (datagrams host counter packets).length) :
    (sentNumber host counter packets i).toNat + 1 = (sentNumber host counter packets j).toNat ↔
      (counter.sequenceNum.toNat + i) % 65536 ≠ 65535 ∧ ((i : ℕ) + 1) % 65536 = j % 65536 := by
  rw [sentNumber, sentNumber, toNat_sequenceNum, toNat_sequenceNum]
  omega

/-- **The arrivals on which the detector stays silent.**  Whatever the network drops, repeats or
reorders, and whatever noise it adds, no packet is reported missing exactly when every packet is
followed by one sent a multiple of `2 ^ 16` after its successor, and only the last one can have
the number 65535. -/
theorem noAlarm_network (buffer : ReceiveBuffer)
    (arrivals : List (Arrival (datagrams host counter packets))) :
    NoAlarm ((receiver host).outputs (.started buffer) (arrivals.map Arrival.completion)) ↔
      (arrivals.filterMap Arrival.index?).IsChain
        fun i j : Fin (datagrams host counter packets).length =>
          (counter.sequenceNum.toNat + i) % 65536 ≠ 65535 ∧ ((i : ℕ) + 1) % 65536 = j % 65536 := by
  have hdefined := defined_arrivals host counter packets arrivals
  rw [noAlarm_iff_missedNumbers, missedNumbers_receiver host buffer hdefined,
    gaps_eq_nil_iff, parse_arrivals, List.map_map,
    List.isChain_map]
  simp only [Function.comp_apply, sentNumber_succ_iff]

end Arrivals

end NaiveStreaming
