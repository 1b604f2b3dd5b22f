import NaiveStreaming.UdpTransmit

/-!
# Concurrent calls of `transmit`

`m_sequence_num` is the only thing that calls of `transmit` share, and its increment is
one atomic step.  Each call is therefore three steps: it is entered, it draws its number,
and it does the rest on its own variables and returns.  Steps of any number of calls
interleave in any order.
-/

namespace NaiveStreaming
open ByteOrder ByteWord Mealy

/-- `UDP_TransmitImpl::transmit` after the increment of `m_sequence_num`. -/
def transmitWith (host : Endian) (sequenceNum : UInt16) (packet : VideoPacket) : TransmitEvent :=
  match serializeRtpHeaderTo host (transmitHeader sequenceNum packet)
      (List.replicate RTPPacketHeader.size 0) with
  | (some ec, _) => .headerFailed ec
  | (none, headerBuff) =>
    match serializePayloadHeader host (transmitPayloadHeader packet)
        (List.replicate RTPPayloadHeader.size 0) with
    | (some ec, _) => .payloadHeaderFailed ec
    | (none, payloadHeaderBuff) => .sendTo (headerBuff ++ payloadHeaderBuff ++ packet.nalData)

/-- A call run without interruption increments the counter and does the rest. -/
theorem transmit_eq_transmitWith (host : Endian) (s : UDPTransmitImpl) (packet : VideoPacket) :
    transmit host s packet
      = (⟨s.sequenceNum + 1⟩, transmitWith host s.sequenceNum.toUInt16 packet) := by
  simp only [transmit, transmitWith]
  rcases serializeRtpHeaderTo host (transmitHeader s.sequenceNum.toUInt16 packet)
    (List.replicate RTPPacketHeader.size 0) with ⟨_ | ec, headerBuff⟩
  · rcases serializePayloadHeader host (transmitPayloadHeader packet)
      (List.replicate RTPPayloadHeader.size 0) with ⟨_ | ec, payloadHeaderBuff⟩ <;> rfl
  · rfl

/-- **Neither early return is taken**, whatever the number. -/
theorem transmitWith_eq (host : Endian) (sequenceNum : UInt16) (packet : VideoPacket) :
    transmitWith host sequenceNum packet = .sendTo (packetDatagram host sequenceNum packet) := by
  have hnum : sequenceNum.toUInt32.toUInt16 = sequenceNum := UInt16.toUInt16_toUInt32 _
  have h := congrArg Prod.snd (transmit_eq host ⟨sequenceNum.toUInt32⟩ packet)
  rw [transmit_eq_transmitWith, hnum] at h
  exact h

/-- How far a call has come. -/
inductive Call
  /-- Before `m_sequence_num++`. -/
  | entered (packet : VideoPacket)
  /-- With the number in `header.sequence_num`. -/
  | drawn (sequenceNum : UInt16) (packet : VideoPacket)
  | returned
  deriving DecidableEq, Repr

/-- The sender and its calls, in the order they were entered. -/
structure Senders where
  impl : UDPTransmitImpl := {}
  calls : List Call := []
  deriving DecidableEq, Repr

inductive SenderStep
  | enter (packet : VideoPacket)
  | draw (call : ℕ)
  | finish (call : ℕ)
  deriving DecidableEq, Repr

inductive SenderEvent
  | drew (call : ℕ)
  | returned (call : ℕ) (event : TransmitEvent)
  deriving DecidableEq, Repr

/-- Any number of threads that call `transmit`.  A step that no thread can take does
nothing. -/
def senders (host : Endian) : Machine Senders SenderStep SenderEvent where
  step s
    | .enter packet => (some { s with calls := s.calls ++ [.entered packet] }, [])
    | .draw call =>
      match s.calls[call]? with
      | some (.entered packet) =>
        (some { impl := ⟨s.impl.sequenceNum + 1⟩
                calls := s.calls.set call (.drawn s.impl.sequenceNum.toUInt16 packet) },
          [.drew call])
      | _ => (some s, [])
    | .finish call =>
      match s.calls[call]? with
      | some (.drawn sequenceNum packet) =>
        (some { s with calls := s.calls.set call .returned },
          [.returned call (transmitWith host sequenceNum packet)])
      | _ => (some s, [])

/-! ## The history of a run -/

def SenderStep.packet? : SenderStep → Option VideoPacket
  | enter packet => some packet
  | _ => none

def SenderEvent.drew? : SenderEvent → Option ℕ
  | drew call => some call
  | _ => none

def SenderEvent.result? (call : ℕ) : SenderEvent → Option TransmitEvent
  | returned call' event => if call' = call then some event else none
  | _ => none

/-- The packets of the calls, in the order they were entered. -/
def packets (steps : List SenderStep) : List VideoPacket := steps.filterMap SenderStep.packet?

/-- The calls that drew a number, in the order they drew. -/
def draws (events : List SenderEvent) : List ℕ := events.filterMap SenderEvent.drew?

/-- What a call came to: nothing yet, or the one way it returned. -/
def results (call : ℕ) (events : List SenderEvent) : List TransmitEvent :=
  events.filterMap (SenderEvent.result? call)

@[simp] theorem packets_append (xs ys : List SenderStep) :
    packets (xs ++ ys) = packets xs ++ packets ys := List.filterMap_append ..

@[simp] theorem draws_append (xs ys : List SenderEvent) :
    draws (xs ++ ys) = draws xs ++ draws ys := List.filterMap_append ..

@[simp] theorem results_append (call : ℕ) (xs ys : List SenderEvent) :
    results call (xs ++ ys) = results call xs ++ results call ys := List.filterMap_append ..

/-- What a call's state says about its packet, its place among the draws and its result. -/
def Call.Agrees (host : Endian) (packet? : Option VideoPacket) (drawn : List ℕ)
    (results : List TransmitEvent) (i : ℕ) : Option Call → Prop
  | none => i ∉ drawn ∧ results = []
  | some (.entered packet) => packet? = some packet ∧ i ∉ drawn ∧ results = []
  | some (.drawn sequenceNum packet) => packet? = some packet ∧ results = [] ∧
      ∃ n, drawn[n]? = some i ∧ sequenceNum = UInt16.ofNat n
  | some .returned => ∃ n packet, packet? = some packet ∧ drawn[n]? = some i ∧
      results = [transmitWith host (UInt16.ofNat n) packet]

/-- What holds of the sender after a run: `steps` were taken, `events` were observed. -/
structure Consistent (host : Endian) (steps : List SenderStep) (events : List SenderEvent)
    (s : Senders) : Prop where
  counter : s.impl.sequenceNum = UInt32.ofNat (draws events).length
  length : s.calls.length = (packets steps).length
  nodup : (draws events).Nodup
  agrees : ∀ i, Call.Agrees host (packets steps)[i]? (draws events) (results i events) i s.calls[i]?

theorem consistent_init (host : Endian) : Consistent host [] [] {} := by
  refine ⟨rfl, rfl, List.nodup_nil, ?_⟩
  intro i
  exact ⟨List.not_mem_nil, rfl⟩

/-- A call that is not the one taking the step agrees with a history that is longer by other
calls. -/
theorem Call.Agrees.of_append {host : Endian} {packet? packet?' : Option VideoPacket}
    {drawn drawn' : List ℕ} {results results' : List TransmitEvent} {i : ℕ} {call? : Option Call}
    (h : Call.Agrees host packet? drawn results i call?)
    (hpacket : ∀ packet, packet? = some packet → packet?' = some packet)
    (hdrawn : i ∉ drawn') (hresults : results' = []) :
    Call.Agrees host packet?' (drawn ++ drawn') (results ++ results') i call? := by
  have hmem : i ∉ drawn → i ∉ drawn ++ drawn' := by
    intro hi
    exact fun hmem => (List.mem_append.mp hmem).elim hi hdrawn
  have hget : ∀ n : ℕ, drawn[n]? = some i → (drawn ++ drawn')[n]? = some i := by
    intro n hn
    have hlt : n < drawn.length := (List.getElem?_eq_some_iff.mp hn).1
    rw [List.getElem?_append_left hlt, hn]
  subst hresults
  rw [List.append_nil]
  match call?, h with
  | none, ⟨hi, hres⟩ => exact ⟨hmem hi, hres⟩
  | some (.entered packet), ⟨hp, hi, hres⟩ => exact ⟨hpacket _ hp, hmem hi, hres⟩
  | some (.drawn sequenceNum packet), ⟨hp, hres, n, hn, hnum⟩ =>
      exact ⟨hpacket _ hp, hres, n, hget n hn, hnum⟩
  | some .returned, ⟨n, packet, hp, hn, hres⟩ => exact ⟨n, packet, hpacket _ hp, hget n hn, hres⟩

section Step
variable {host : Endian} {steps : List SenderStep} {events : List SenderEvent} {s : Senders}

theorem Consistent.idle (h : Consistent host steps events s) {step : SenderStep}
    (hstep : step.packet? = none) : Consistent host (steps ++ [step]) (events ++ []) s := by
  have hpackets : packets (steps ++ [step]) = packets steps := by
    have hnone : packets [step] = [] := List.filterMap_cons_none hstep
    rw [packets_append, hnone, List.append_nil]
  rw [List.append_nil]
  exact ⟨h.counter, by rw [hpackets, h.length], h.nodup, by rw [hpackets]; exact h.agrees⟩

theorem Consistent.enter (h : Consistent host steps events s) (packet : VideoPacket) :
    Consistent host (steps ++ [.enter packet]) (events ++ [])
      { s with calls := s.calls ++ [.entered packet] } := by
  have hpackets : packets (steps ++ [.enter packet]) = packets steps ++ [packet] :=
    packets_append ..
  rw [List.append_nil]
  refine ⟨h.counter, ?_, h.nodup, ?_⟩
  · rw [hpackets, List.length_append, List.length_append, h.length]
    rfl
  · intro i
    rw [hpackets]
    by_cases hi : i = s.calls.length
    · have hold := h.agrees i
      rw [List.getElem?_eq_none (Nat.le_of_eq hi.symm)] at hold
      subst hi
      rw [List.getElem?_concat_length, h.length, List.getElem?_concat_length, ← h.length]
      exact ⟨rfl, hold⟩
    · have hcall : (s.calls ++ [Call.entered packet])[i]? = s.calls[i]? := by
        rcases Nat.lt_or_gt_of_ne hi with hlt | hgt
        · exact List.getElem?_append_left hlt
        · rw [List.getElem?_eq_none (Nat.le_of_lt hgt), List.getElem?_eq_none]
          rw [List.length_append]
          exact hgt
      have hfresh : ∀ p, (packets steps)[i]? = some p →
          (packets steps ++ [packet])[i]? = some p := by
        intro p hp
        rw [List.getElem?_append_left (List.getElem?_eq_some_iff.mp hp).1, hp]
      rw [hcall]
      have hsame := (h.agrees i).of_append hfresh (List.not_mem_nil (a := i)) rfl
      simpa only [List.append_nil] using hsame

/-- The increment: the call joins the draws at the place that its number says. -/
theorem Consistent.draw (h : Consistent host steps events s) {call : ℕ} {packet : VideoPacket}
    (hcall : s.calls[call]? = some (.entered packet)) :
    Consistent host (steps ++ [.draw call]) (events ++ [.drew call])
      { impl := ⟨s.impl.sequenceNum + 1⟩
        calls := s.calls.set call (.drawn s.impl.sequenceNum.toUInt16 packet) } := by
  have hlt : call < s.calls.length := (List.getElem?_eq_some_iff.mp hcall).1
  have hold := h.agrees call
  rw [hcall] at hold
  obtain ⟨hpacket, hnew, hres⟩ := hold
  have hpackets : packets (steps ++ [.draw call]) = packets steps := by
    rw [packets_append]
    exact List.append_nil _
  have hdraws : draws (events ++ [.drew call]) = draws events ++ [call] := draws_append ..
  have hresults : ∀ i, results i (events ++ [.drew call]) = results i events ++ [] :=
    fun i => results_append ..
  refine ⟨?_, ?_, ?_, ?_⟩
  · rw [hdraws, List.length_append, UInt32.ofNat_add, ← h.counter]
    rfl
  · rw [hpackets, List.length_set, h.length]
  · rw [hdraws]
    exact List.concat_eq_append ▸ h.nodup.concat hnew
  · intro i
    rw [hpackets, hdraws, hresults]
    by_cases hi : i = call
    · subst hi
      rw [List.getElem?_set_self hlt, List.append_nil]
      refine ⟨hpacket, hres, (draws events).length, List.getElem?_concat_length, ?_⟩
      rw [h.counter]
      apply UInt16.toNat_inj.mp
      simp
    · rw [List.getElem?_set_ne (Ne.symm hi)]
      exact (h.agrees i).of_append (fun p hp => hp)
        (fun hmem => hi (List.mem_singleton.mp hmem)) rfl

/-- The rest of a call: it returns with the number it drew. -/
theorem Consistent.finish (h : Consistent host steps events s) {call : ℕ}
    {sequenceNum : UInt16} {packet : VideoPacket}
    (hcall : s.calls[call]? = some (.drawn sequenceNum packet)) :
    Consistent host (steps ++ [.finish call])
      (events ++ [.returned call (transmitWith host sequenceNum packet)])
      { s with calls := s.calls.set call .returned } := by
  have hlt : call < s.calls.length := (List.getElem?_eq_some_iff.mp hcall).1
  have hold := h.agrees call
  rw [hcall] at hold
  obtain ⟨hpacket, hres, n, hn, hnum⟩ := hold
  have hpackets : packets (steps ++ [.finish call]) = packets steps := by
    rw [packets_append]
    exact List.append_nil _
  have hdraws : draws (events ++ [.returned call (transmitWith host sequenceNum packet)])
      = draws events ++ [] := draws_append ..
  refine ⟨?_, ?_, ?_, ?_⟩
  · rw [hdraws, List.append_nil, h.counter]
  · rw [hpackets, List.length_set, h.length]
  · rw [hdraws, List.append_nil]
    exact h.nodup
  · intro i
    rw [hpackets, hdraws, results_append]
    by_cases hi : i = call
    · subst hi
      rw [List.getElem?_set_self hlt, hres, List.append_nil]
      refine ⟨n, packet, hpacket, hn, ?_⟩
      simp [results, SenderEvent.result?, hnum]
    · rw [List.getElem?_set_ne (Ne.symm hi)]
      refine (h.agrees i).of_append (fun p hp => hp) List.not_mem_nil ?_
      simp [results, SenderEvent.result?, Ne.symm hi]

/-- **Every step keeps the account.** -/
theorem Consistent.step (h : Consistent host steps events s) (step : SenderStep) :
    ∃ s' out, (senders host).step s step = (some s', out) ∧
      Consistent host (steps ++ [step]) (events ++ out) s' := by
  cases step with
  | enter packet => exact ⟨_, _, rfl, h.enter packet⟩
  | draw call =>
      rcases hcall : s.calls[call]? with _ | _ | _ | _
      case some.entered packet =>
        exact ⟨_, _, by simp only [senders, hcall], h.draw hcall⟩
      all_goals exact ⟨_, _, by simp only [senders, hcall], h.idle rfl⟩
  | finish call =>
      rcases hcall : s.calls[call]? with _ | _ | _ | _
      case some.drawn sequenceNum packet =>
        exact ⟨_, _, by simp only [senders, hcall], h.finish hcall⟩
      all_goals exact ⟨_, _, by simp only [senders, hcall], h.idle rfl⟩

end Step

/-- **Any interleaving keeps the account.** -/
theorem consistent_run (host : Endian) (rest : List SenderStep) :
    ∀ {steps events s}, Consistent host steps events s →
      ∃ s', (senders host).final s rest = some s' ∧
        Consistent host (steps ++ rest) (events ++ (senders host).outputs s rest) s' := by
  induction rest with
  | nil =>
      intro steps events s h
      refine ⟨s, rfl, ?_⟩
      rw [List.append_nil]
      exact (List.append_nil events).symm ▸ h
  | cons step rest ih =>
      intro steps events s h
      obtain ⟨s₁, out, hstep, h₁⟩ := h.step step
      obtain ⟨s', hfinal, h'⟩ := ih h₁
      rw [Machine.final_cons (congrArg Prod.fst hstep), Machine.outputs_cons hstep]
      refine ⟨s', hfinal, ?_⟩
      rwa [List.append_assoc, List.append_assoc] at h'

/-! ## The numbers on the wire -/

/-- A datagram that carries a packet under the number `n`. -/
structure Numbered (host : Endian) (n : ℕ) (packet : VideoPacket) (datagram : List UInt8) :
    Prop where
  length : datagram.length = 19 + packet.nalData.length
  sequenceNum : ∃ v : UInt16, v.toNat = n % 65536 ∧
    (datagram.drop 2).take 2 = toBytes (hton host v)
  networkOrder : host = .little →
    (datagram.drop 2).take 2 = [UInt8.ofNat (n % 65536 / 256), UInt8.ofNat (n % 65536 % 256)]

theorem take_drop_packetDatagram (host : Endian) (sequenceNum : UInt16) (packet : VideoPacket) :
    ((packetDatagram host sequenceNum packet).drop 2).take 2 = toBytes (hton host sequenceNum) := by
  simp [packetDatagram, rtpHeaderBytes, transmitHeader, toBytes_uint16]

theorem numbered_packetDatagram (host : Endian) (n : ℕ) (packet : VideoPacket) :
    Numbered host n packet (packetDatagram host (UInt16.ofNat n) packet) := by
  refine ⟨length_packetDatagram .., ⟨UInt16.ofNat n, UInt16.toNat_ofNat', ?_⟩, ?_⟩
  · exact take_drop_packetDatagram ..
  · intro hhost
    subst hhost
    rw [take_drop_packetDatagram]
    have hswap : toBytes (hton Endian.little (UInt16.ofNat n)) = bigEndian (UInt16.ofNat n) :=
      toBytes_byteSwap _
    rw [hswap, bigEndian, toBytes_uint16]
    simp [← UInt8.toNat_inj, Nat.shiftRight_eq_div_pow]

/-- Fewer than 65536 draws apart, two datagrams carry different numbers. -/
theorem Numbered.ne_of_lt {host : Endian} {m n : ℕ} {packet packet' : VideoPacket}
    {datagram datagram' : List UInt8} (h : Numbered host m packet datagram)
    (h' : Numbered host n packet' datagram') (hlt : m < n) (hspan : n < m + 65536) :
    (datagram.drop 2).take 2 ≠ (datagram'.drop 2).take 2 := by
  obtain ⟨v, hv, hbytes⟩ := h.sequenceNum
  obtain ⟨v', hv', hbytes'⟩ := h'.sequenceNum
  rw [hbytes, hbytes']
  intro heq
  have hwire : hton host v = hton host v' := toBytes_injective heq
  have hnum : v = v' := by
    have hback := congrArg (host.toNetwork ·) hwire
    simpa only [hton, Endian.toNetwork_toNetwork] using hback
  rw [hnum, hv'] at hv
  omega

/-- **The rest of a call** that has drawn its number sends one datagram, which carries it. -/
theorem finish_drawn {host : Endian} {s : Senders} {n call : ℕ} {packet : VideoPacket}
    (hcall : s.calls[call]? = some (.drawn (UInt16.ofNat n) packet)) : ∃ datagram,
      (senders host).step s (.finish call) = (some { s with calls := s.calls.set call .returned },
        [.returned call (.sendTo datagram)]) ∧ Numbered host n packet datagram := by
  refine ⟨packetDatagram host (UInt16.ofNat n) packet, ?_, numbered_packetDatagram host n packet⟩
  simp only [senders, hcall, transmitWith_eq]

section Account
variable {host : Endian} {steps : List SenderStep} {events : List SenderEvent} {s : Senders}

theorem Consistent.place (h : Consistent host steps events s) {m n call : ℕ}
    (hm : (draws events)[m]? = some call) (hn : (draws events)[n]? = some call) : m = n :=
  (List.getElem?_inj (List.getElem?_eq_some_iff.mp hm).1 h.nodup).mp (hm.trans hn.symm)

theorem Consistent.undrawn (h : Consistent host steps events s) {call : ℕ}
    (hcall : call ∉ draws events) : results call events = [] := by
  have hagrees := h.agrees call
  rcases hc : s.calls[call]? with _ | packet | ⟨sequenceNum, packet⟩ | _ <;> rw [hc] at hagrees
  · exact hagrees.2
  · exact hagrees.2.2
  · exact hagrees.2.1
  · obtain ⟨n, -, -, hn, -⟩ := hagrees
    exact absurd (List.mem_of_getElem? hn) hcall

/-- **The call that drew the `n`-th number** holds it, or has sent it once. -/
theorem Consistent.drawn (h : Consistent host steps events s) {n call : ℕ}
    (hn : (draws events)[n]? = some call) : ∃ packet, (packets steps)[call]? = some packet ∧
      (s.calls[call]? = some (.drawn (UInt16.ofNat n) packet) ∧ results call events = [] ∨
        ∃ datagram, results call events = [.sendTo datagram] ∧
          Numbered host n packet datagram) := by
  have hmem := List.mem_of_getElem? hn
  have hagrees := h.agrees call
  rcases hc : s.calls[call]? with _ | packet | ⟨sequenceNum, packet⟩ | _ <;> rw [hc] at hagrees
  · exact absurd hmem hagrees.1
  · exact absurd hmem hagrees.2.1
  · obtain ⟨hpacket, hres, m, hm, hnum⟩ := hagrees
    rw [h.place hm hn] at hnum
    exact ⟨packet, hpacket, .inl ⟨by rw [hnum], hres⟩⟩
  · obtain ⟨m, packet, hpacket, hm, hres⟩ := hagrees
    rw [h.place hm hn, transmitWith_eq] at hres
    exact ⟨packet, hpacket, .inr ⟨_, hres, numbered_packetDatagram host n packet⟩⟩

/-- What a call came to is a datagram with the number it drew. -/
theorem Consistent.numbered (h : Consistent host steps events s) {n call : ℕ}
    {event : TransmitEvent} (hn : (draws events)[n]? = some call)
    (hevent : event ∈ results call events) :
    ∃ packet datagram, event = .sendTo datagram ∧ Numbered host n packet datagram := by
  obtain ⟨packet, -, ⟨-, hnone⟩ | ⟨datagram, hres, hnum⟩⟩ := h.drawn hn
  · rw [hnone] at hevent
    exact absurd hevent List.not_mem_nil
  · rw [hres, List.mem_singleton] at hevent
    exact ⟨packet, datagram, hevent, hnum⟩

theorem Consistent.sent (h : Consistent host steps events s) {call : ℕ} {event : TransmitEvent}
    (hevent : event ∈ results call events) : ∃ datagram, event = .sendTo datagram := by
  by_cases hcall : call ∈ draws events
  · obtain ⟨n, hn⟩ := List.getElem?_of_mem hcall
    obtain ⟨packet, datagram, heq, -⟩ := h.numbered hn hevent
    exact ⟨datagram, heq⟩
  · rw [h.undrawn hcall] at hevent
    exact absurd hevent List.not_mem_nil

end Account

/-- **The sender's numbering.**  From a fresh sender, in any interleaving of any calls, no call
draws twice; the call that draws the `n`-th number sends, once it has returned, one datagram
that carries `n`; a call that has not returned yet sends its datagram when it goes on; and no
65536 consecutive draws repeat a number. -/
theorem sequence_numbering (host : Endian) (steps : List SenderStep) :
    ∃ s, (senders host).final {} steps = some s ∧
      let events := (senders host).outputs {} steps
      (draws events).Nodup ∧
      (∀ call ec, .headerFailed ec ∉ results call events ∧
        .payloadHeaderFailed ec ∉ results call events) ∧
      (∀ call, call ∉ draws events → results call events = []) ∧
      (∀ n call, (draws events)[n]? = some call →
        ∃ packet, (packets steps)[call]? = some packet ∧
          (s.calls[call]? = some (.drawn (UInt16.ofNat n) packet) ∧ results call events = [] ∨
            ∃ datagram, results call events = [.sendTo datagram] ∧
              Numbered host n packet datagram)) ∧
      (∀ n call packet, s.calls[call]? = some (.drawn (UInt16.ofNat n) packet) → ∃ datagram,
        (senders host).step s (.finish call) =
          (some { s with calls := s.calls.set call .returned },
            [.returned call (.sendTo datagram)]) ∧ Numbered host n packet datagram) ∧
      (∀ m n call call' datagram datagram', (draws events)[m]? = some call →
        (draws events)[n]? = some call' → .sendTo datagram ∈ results call events →
        .sendTo datagram' ∈ results call' events → m < n → n < m + 65536 →
          (datagram.drop 2).take 2 ≠ (datagram'.drop 2).take 2) := by
  obtain ⟨s, hfinal, h⟩ := consistent_run host steps (consistent_init host)
  rw [List.nil_append, List.nil_append] at h
  refine ⟨s, hfinal, h.nodup, ?_, fun call => h.undrawn, fun n call => h.drawn,
    fun n call packet => finish_drawn, ?_⟩
  · intro call ec
    refine ⟨?_, ?_⟩ <;> intro hmem <;> obtain ⟨_, heq⟩ := h.sent hmem <;> cases heq
  · intro m n call call' datagram datagram' hm hn hsend hsend' hlt hspan
    obtain ⟨packet, d, heq, hnum⟩ := h.numbered hm hsend
    obtain ⟨packet', d', heq', hnum'⟩ := h.numbered hn hsend'
    cases heq
    cases heq'
    exact hnum.ne_of_lt hnum' hlt hspan

/-- Two calls, of which the second draws first and returns last. -/
theorem sequence_numbering_two :
    let first : VideoPacket := ⟨[0x67, 0x42], { timestamp := 0, nalType := .sps }⟩
    let second : VideoPacket := ⟨[0x68], { timestamp := 0, nalType := .pps }⟩
    let steps : List SenderStep :=
      [.enter first, .enter second, .draw 1, .draw 0, .finish 0, .finish 1]
    let events := (senders .little).outputs {} steps
    draws events = [1, 0] ∧
      (∃ datagram, results 1 events = [.sendTo datagram] ∧ Numbered .little 0 second datagram) ∧
      ∃ datagram, results 0 events = [.sendTo datagram] ∧ Numbered .little 1 first datagram := by
  intro first second steps events
  obtain ⟨s, hfinal, -, -, -, hdrawn, -⟩ := sequence_numbering .little steps
  cases hfinal
  refine ⟨rfl, ?_, ?_⟩
  · obtain ⟨packet, hpacket, ⟨hcall, -⟩ | hsent⟩ := hdrawn 0 1 rfl
    · cases hcall
    · cases hpacket
      exact hsent
  · obtain ⟨packet, hpacket, ⟨hcall, -⟩ | hsent⟩ := hdrawn 1 0 rfl
    · cases hcall
    · cases hpacket
      exact hsent

end NaiveStreaming
