import Mathlib.Data.List.Dedup
import NaiveStreaming.ConcurrentTransmit
import NaiveStreaming.Network

/-!
# Concurrent calls and the receiver

Calls of `transmit` may return in another order than the one in which they drew their numbers.  The
channel keeps the order of the datagrams, which is the order of return; so the receiver delivers
every packet once, and yet takes each overtaking for a loss.
-/

namespace NaiveStreaming
open ByteOrder Mealy

def SenderEvent.returned? : SenderEvent → Option ℕ
  | returned call _ => some call
  | drew _ => none

def SenderEvent.datagram? : SenderEvent → Option (List UInt8)
  | returned _ event => event.datagram?
  | drew _ => none

/-- The calls that have returned, in the order in which they handed their datagrams over. -/
def sendOrder (events : List SenderEvent) : List ℕ := events.filterMap SenderEvent.returned?

/-- The datagrams handed over, in order. -/
def wire (events : List SenderEvent) : List (List UInt8) :=
  events.filterMap SenderEvent.datagram?

/-- The place of a call among the draws, which is the number it drew before it is cut to sixteen
bits. -/
def drawNumber (events : List SenderEvent) (call : ℕ) : ℕ := (draws events).idxOf call

theorem forall₂_filterMap {α β : Type*} {f : α → Option β} {xs : List α}
    (h : ∀ x ∈ xs, ∃ y, f x = some y) :
    List.Forall₂ (fun x y => f x = some y) xs (xs.filterMap f) := by
  induction xs with
  | nil => exact .nil
  | cons x xs ih =>
      obtain ⟨⟨y, hy⟩, hrest⟩ := List.forall_mem_cons.mp h
      rw [List.filterMap_cons_some hy]
      exact .cons hy (ih hrest)

/-- A call has returned as often as it came to something. -/
theorem count_sendOrder (call : ℕ) (events : List SenderEvent) :
    (sendOrder events).count call = (results call events).length := by
  induction events with
  | nil => rfl
  | cons event events ih =>
      cases event with
      | drew call' => exact ih
      | returned call' event =>
          have hreturned : sendOrder (.returned call' event :: events)
              = call' :: sendOrder events := rfl
          rw [hreturned, List.count_cons, ih]
          by_cases hcall : call' = call <;> simp [results, SenderEvent.result?, hcall]

section Account
variable {host : Endian} {steps : List SenderStep} {events : List SenderEvent} {s : Senders}

/-- A call that has returned drew a number, and sent its packet under it. -/
theorem Consistent.of_returned (h : Consistent host steps events s) {call : ℕ}
    {event : TransmitEvent} (hmem : .returned call event ∈ events) :
    ∃ packet, (packets steps)[call]? = some packet ∧ event =
      .sendTo (packetDatagram host (UInt16.ofNat (drawNumber events call)) packet) := by
  have hevent : event ∈ results call events :=
    List.mem_filterMap.mpr ⟨_, hmem, by simp [SenderEvent.result?]⟩
  have hagrees := h.agrees call
  rcases hc : s.calls[call]? with _ | packet | ⟨sequenceNum, packet⟩ | _ <;> rw [hc] at hagrees
  · exact absurd (hagrees.2 ▸ hevent) List.not_mem_nil
  · exact absurd (hagrees.2.2 ▸ hevent) List.not_mem_nil
  · exact absurd (hagrees.2.1 ▸ hevent) List.not_mem_nil
  · obtain ⟨n, packet, hpacket, hn, hres⟩ := hagrees
    obtain ⟨hlt, hget⟩ := List.getElem?_eq_some_iff.mp hn
    have hnumber : drawNumber events call = n := by
      rw [drawNumber, ← hget]
      exact h.nodup.idxOf_getElem n hlt
    rw [hres, List.mem_singleton, transmitWith_eq] at hevent
    rw [hnumber]
    exact ⟨packet, hpacket, hevent⟩

theorem Consistent.nodup_sendOrder (h : Consistent host steps events s) :
    (sendOrder events).Nodup := by
  rw [List.nodup_iff_count_le_one]
  intro call
  rw [count_sendOrder]
  have hagrees := h.agrees call
  rcases hc : s.calls[call]? with _ | packet | ⟨sequenceNum, packet⟩ | _ <;> rw [hc] at hagrees
  · simp [hagrees.2]
  · simp [hagrees.2.2]
  · simp [hagrees.2.1]
  · obtain ⟨n, packet, -, -, hres⟩ := hagrees
    simp [hres]

theorem Consistent.mem_sendOrder_iff (h : Consistent host steps events s) (call : ℕ) :
    call ∈ sendOrder events ↔ s.calls[call]? = some .returned := by
  rw [← List.count_pos_iff, count_sendOrder, List.length_pos_iff]
  have hagrees := h.agrees call
  rcases hc : s.calls[call]? with _ | packet | ⟨sequenceNum, packet⟩ | _ <;> rw [hc] at hagrees
  · simp [hagrees.2]
  · simp [hagrees.2.2]
  · simp [hagrees.2.1]
  · obtain ⟨n, packet, -, -, hres⟩ := hagrees
    simp [hres]

/-- **The wire** carries, in the order of return, the packet of each call under the number that
the call drew. -/
theorem Consistent.wire_eq (h : Consistent host steps events s) : wire events =
    (sendOrder events).filterMap fun call => (packets steps)[call]?.map
      (packetDatagram host (UInt16.ofNat (drawNumber events call))) := by
  rw [wire, sendOrder, List.filterMap_filterMap]
  refine List.filterMap_congr ?_
  intro event hmem
  cases event with
  | drew call => rfl
  | returned call event =>
      obtain ⟨packet, hpacket, rfl⟩ := h.of_returned hmem
      simp [SenderEvent.datagram?, SenderEvent.returned?, TransmitEvent.datagram?, hpacket]

theorem Consistent.parse_wire (h : Consistent host steps events s) :
    ((wire events).map arrive).filterMap (Completion.parse host) =
      (sendOrder events).filterMap fun call => (packets steps)[call]?.map fun packet =>
        (UInt16.ofNat (drawNumber events call), arrivedPacket packet) := by
  rw [h.wire_eq, List.map_filterMap, List.filterMap_filterMap]
  refine List.filterMap_congr ?_
  intro call _
  cases (packets steps)[call]? with
  | none => rfl
  | some packet => exact parse_arrive ..

theorem Consistent.exists_packet (h : Consistent host steps events s) {call : ℕ}
    (hcall : call ∈ sendOrder events) : ∃ packet, (packets steps)[call]? = some packet := by
  obtain ⟨event, hmem, hreturned⟩ := List.mem_filterMap.mp hcall
  cases event with
  | drew _ => cases hreturned
  | returned call' event =>
      cases hreturned
      obtain ⟨packet, hpacket, -⟩ := h.of_returned hmem
      exact ⟨packet, hpacket⟩

theorem Consistent.numbers_wire (h : Consistent host steps events s) :
    (((wire events).map arrive).filterMap (Completion.parse host)).map Prod.fst =
      (sendOrder events).map fun call => UInt16.ofNat (drawNumber events call) := by
  rw [h.parse_wire, List.map_filterMap, ← List.filterMap_eq_map]
  refine List.filterMap_congr ?_
  intro call hcall
  obtain ⟨packet, hpacket⟩ := h.exists_packet hcall
  simp [hpacket]

theorem Consistent.packets_wire (h : Consistent host steps events s) :
    (((wire events).map arrive).filterMap (Completion.parse host)).map Prod.snd =
      (sendOrder events).filterMap fun call => (packets steps)[call]?.map arrivedPacket := by
  rw [h.parse_wire, List.map_filterMap]
  refine List.filterMap_congr ?_
  intro call _
  cases (packets steps)[call]? <;> rfl

theorem Consistent.defined_wire (h : Consistent host steps events s) :
    ∀ c ∈ (wire events).map arrive, c.Defined := by
  intro c hc
  obtain ⟨bytes, hbytes, rfl⟩ := List.mem_map.mp hc
  rw [h.wire_eq, List.mem_filterMap] at hbytes
  obtain ⟨call, -, hbytes⟩ := hbytes
  obtain ⟨packet, -, rfl⟩ := Option.map_eq_some_iff.mp hbytes
  exact defined_arrive host _ packet

end Account

/-- Two numbers follow each other on the wire without an alarm exactly when the second is the
successor of the first, modulo `2 ^ 16`, and has not wrapped around. -/
theorem ofNat_succ_iff (m n : ℕ) : (UInt16.ofNat m).toNat + 1 = (UInt16.ofNat n).toNat ↔
    m % 65536 ≠ 65535 ∧ (m + 1) % 65536 = n % 65536 := by
  rw [UInt16.toNat_ofNat', UInt16.toNat_ofNat']
  omega

/-- **Concurrent calls on a channel that loses nothing.**  In any interleaving of any calls, the
receiver delivers the packet of every call that has returned, once, in the order of return.  The
loss detector stays silent exactly when the calls returned in the order in which they drew their
numbers, without leaving one out, and no number before the last is 65535. -/
theorem concurrent_stream (host : Endian) (buffer : ReceiveBuffer) (steps : List SenderStep) :
    ∃ s, (senders host).final {} steps = some s ∧
      let events := (senders host).outputs {} steps
      let seen := (receiver host).outputs (.started buffer) ((wire events).map arrive)
      (sendOrder events).Nodup ∧
      (∀ call, call ∈ sendOrder events ↔ s.calls[call]? = some .returned) ∧
      List.Forall₂ (fun call packet => (packets steps)[call]?.map arrivedPacket = some packet)
        (sendOrder events) (deliveries seen) ∧
      (NoAlarm seen ↔ (sendOrder events).IsChain fun call next : ℕ =>
        drawNumber events call % 65536 ≠ 65535 ∧
          (drawNumber events call + 1) % 65536 = drawNumber events next % 65536) := by
  obtain ⟨s, hfinal, h⟩ := consistent_run host steps (consistent_init host)
  rw [List.nil_append, List.nil_append] at h
  have hdefined := h.defined_wire
  refine ⟨s, hfinal, h.nodup_sendOrder, h.mem_sendOrder_iff, ?_, ?_⟩
  · rw [deliveries_receiver host buffer hdefined, h.packets_wire]
    refine forall₂_filterMap ?_
    intro call hcall
    obtain ⟨packet, hpacket⟩ := h.exists_packet hcall
    exact ⟨arrivedPacket packet, by rw [hpacket, Option.map_some]⟩
  · rw [noAlarm_iff_missedNumbers, missedNumbers_receiver host buffer hdefined, h.numbers_wire,
      gaps_eq_nil_iff, List.isChain_map]
    simp only [ofNat_succ_iff]

end NaiveStreaming
