import NaiveStreaming.Lib.Loop
import NaiveStreaming.ReceiveApp

/-!
# The receive loop of the decoder

`decode_packet_impl` calls `avcodec_receive_frame` in a loop until it fails, with whatever error,
and hands every frame over before it asks for the next one.  The decoder of the other modules has
this loop in one piece, `receiveFrames`.  Here it is a loop over single calls, which need not end:
it comes to the same when the codec has no more frames at some time, and goes on for ever otherwise.
-/

namespace NaiveStreaming
open Loop Mealy

section
variable {π κ : Type}

/-- What `avcodec_receive_frame` comes to. -/
inductive ReceiveFrameResult
  /-- `AVERROR(EAGAIN)`, `AVERROR_EOF` or another negative value. -/
  | failed (ret : ℤ)
  | frame (frame : AVFrame)
  deriving DecidableEq, Repr

/-- libavcodec, with parser contexts of type `π` and codec contexts of type `κ`. -/
structure AVCodecCalls (π κ : Type) where
  /-- `av_parser_parse2` -/
  parse : π → (data : List UInt8) → Parsed π data
  /-- `avcodec_send_packet`: the context, if the packet was taken. -/
  sendPacket : κ → List UInt8 → Option κ
  /-- `avcodec_receive_frame` -/
  receiveFrame : κ → κ × ReceiveFrameResult

/-- A turn of `while (ret >= 0)`, with what was seen so far.  The loop is left with the context,
or with nothing when an assertion fails. -/
def receiveTurn (calls : AVCodecCalls π κ) (s : κ × List DecoderEvent) :
    Option ((κ × List DecoderEvent) ⊕ (Option κ × List DecoderEvent)) :=
  match calls.receiveFrame s.1 with
  | (codecCtx, .failed _) => some (.inr (some codecCtx, s.2))
  | (codecCtx, .frame frame) =>
    if frame.Asserted then some (.inl (codecCtx, s.2 ++ [.onFrame frame.toVideoFrame]))
    else some (.inr (none, s.2))

/-- `DecoderImpl::decode_packet_impl`; nothing when the loop has not ended after `fuel` turns. -/
def decodePacketCalls (fuel : ℕ) (calls : AVCodecCalls π κ) (s : DecoderImpl π κ)
    (p : VideoPacket) : Option (Option (DecoderImpl π κ × Bool) × List DecoderEvent) :=
  let parsed := calls.parse s.parserCtx p.nalData
  let fed : DecoderEvent := .consumed (p.nalData.take parsed.ret)
  if parsed.packet.length = 0 then some (some (⟨parsed.state, s.codecCtx⟩, false), [fed])
  else
    match calls.sendPacket s.codecCtx parsed.packet with
    | none => some (some (⟨parsed.state, s.codecCtx⟩, false), [fed])
    | some codecCtx =>
      (loop (receiveTurn calls) fuel (codecCtx, [fed])).map fun (codecCtx?, events) =>
        (codecCtx?.map fun codecCtx => (⟨parsed.state, codecCtx⟩, true), events)

/-- Successive calls of `decode_packet`; a call that does not return shows nothing. -/
def decoderCalls (fuel : ℕ) (calls : AVCodecCalls π κ) :
    Machine (DecoderImpl π κ) VideoPacket DecoderEvent where
  step s p :=
    match decodePacketCalls fuel calls s p with
    | none => (none, [])
    | some (result?, events) => (result?.map Prod.fst, events)

/-- Successive calls of `avcodec_receive_frame` return these frames. -/
inductive AVCodecCalls.Yields (calls : AVCodecCalls π κ) : κ → List AVFrame → κ → Prop
  | nil (codecCtx : κ) : calls.Yields codecCtx [] codecCtx
  | cons {codecCtx next last : κ} {frame : AVFrame} {frames : List AVFrame}
    (hcall : calls.receiveFrame codecCtx = (next, .frame frame))
    (hrest : calls.Yields next frames last) : calls.Yields codecCtx (frame :: frames) last

/-- The calls return these frames, and then one fails. -/
def AVCodecCalls.Drained (calls : AVCodecCalls π κ) (codecCtx : κ) (frames : List AVFrame)
    (last : κ) : Prop :=
  ∃ before ret, calls.Yields codecCtx frames before ∧
    calls.receiveFrame before = (last, .failed ret)

/-- The library in one piece is this one: every context runs out of frames. -/
structure AVCodecCalls.Implements (calls : AVCodecCalls π κ) (lib : AVCodec π κ) : Prop where
  parse : calls.parse = lib.parse
  sendPacket : calls.sendPacket = lib.sendPacket
  drained : ∀ codecCtx,
    calls.Drained codecCtx (lib.receiveFrames codecCtx).2 (lib.receiveFrames codecCtx).1

/-! ## When the loop ends -/

theorem receiveTurn_failed {calls : AVCodecCalls π κ} {codecCtx next : κ} {ret : ℤ}
    (h : calls.receiveFrame codecCtx = (next, .failed ret)) (events : List DecoderEvent) :
    receiveTurn calls (codecCtx, events) = some (.inr (some next, events)) := by
  simp only [receiveTurn, h]

theorem receiveTurn_asserted {calls : AVCodecCalls π κ} {codecCtx next : κ} {frame : AVFrame}
    (h : calls.receiveFrame codecCtx = (next, .frame frame)) (hframe : frame.Asserted)
    (events : List DecoderEvent) : receiveTurn calls (codecCtx, events) =
      some (.inl (next, events ++ [.onFrame frame.toVideoFrame])) := by
  simp only [receiveTurn, h, if_pos hframe]

theorem receiveTurn_aborted {calls : AVCodecCalls π κ} {codecCtx next : κ} {frame : AVFrame}
    (h : calls.receiveFrame codecCtx = (next, .frame frame)) (hframe : ¬ frame.Asserted)
    (events : List DecoderEvent) :
    receiveTurn calls (codecCtx, events) = some (.inr (none, events)) := by
  simp only [receiveTurn, h, if_neg hframe]

/-- **The loop over a context that runs out of frames** hands over what `receiveFrames` returns, up
to a frame on which an assertion fails, within one more turn than there are frames. -/
theorem receiveLoop_drained {calls : AVCodecCalls π κ} {codecCtx before last : κ}
    {frames : List AVFrame} {ret : ℤ} (hyields : calls.Yields codecCtx frames before)
    (hfailed : calls.receiveFrame before = (last, .failed ret)) :
    ∀ {fuel}, frames.length < fuel → ∀ events,
      loop (receiveTurn calls) fuel (codecCtx, events) =
        some (if (handOver frames).1 then some last else none, events ++ (handOver frames).2) := by
  induction hyields with
  | nil codecCtx =>
      intro fuel hfuel events
      obtain ⟨n, rfl⟩ := Nat.exists_eq_succ_of_ne_zero (Nat.ne_of_gt hfuel)
      simp [loop, receiveTurn_failed hfailed, handOver]
  | @cons codecCtx next before frame frames hcall _ ih =>
      intro fuel hfuel events
      obtain ⟨n, rfl⟩ := Nat.exists_eq_succ_of_ne_zero (Nat.ne_of_gt (Nat.zero_lt_of_lt hfuel))
      by_cases hframe : frame.Asserted
      · simp only [loop, receiveTurn_asserted hcall hframe, handOver, if_pos hframe]
        rw [ih hfailed (Nat.lt_of_succ_lt_succ hfuel), List.append_assoc]
        rfl
      · simp [loop, receiveTurn_aborted hcall hframe, handOver, hframe]

theorem AVCodecCalls.Yields.concat {calls : AVCodecCalls π κ} {codecCtx before next : κ}
    {frames : List AVFrame} {frame : AVFrame} (h : calls.Yields codecCtx frames before)
    (hcall : calls.receiveFrame before = (next, .frame frame)) :
    calls.Yields codecCtx (frames ++ [frame]) next := by
  induction h with
  | nil codecCtx => exact .cons hcall (.nil next)
  | cons hfirst _ ih => exact .cons hfirst (ih hcall)

/-- After any number of frames on which the assertions hold, a call fails or returns one on which
they do not. -/
def AVCodecCalls.Stops (calls : AVCodecCalls π κ) (codecCtx : κ) : Prop :=
  ∃ frames before, calls.Yields codecCtx frames before ∧ (∀ frame ∈ frames, frame.Asserted) ∧
    ∀ next frame, calls.receiveFrame before = (next, .frame frame) → ¬ frame.Asserted

theorem receiveLoop_ends {calls : AVCodecCalls π κ} {codecCtx before : κ} {frames : List AVFrame}
    (h : calls.Yields codecCtx frames before) (hasserted : ∀ frame ∈ frames, frame.Asserted)
    (hstop : ∀ next frame, calls.receiveFrame before = (next, .frame frame) → ¬ frame.Asserted) :
    ∀ events, ∃ result,
      loop (receiveTurn calls) (frames.length + 1) (codecCtx, events) = some result := by
  induction h with
  | nil codecCtx =>
      intro events
      rcases hcall : calls.receiveFrame codecCtx with ⟨next, ret | frame⟩
      · exact ⟨(some next, events), by simp [loop, receiveTurn_failed hcall]⟩
      · exact ⟨(none, events),
          by simp [loop, receiveTurn_aborted hcall (hstop next frame hcall)]⟩
  | @cons codecCtx next before frame frames hcall _ ih =>
      intro events
      obtain ⟨hframe, hframes⟩ := List.forall_mem_cons.mp hasserted
      obtain ⟨result, hresult⟩ := ih hframes hstop (events ++ [.onFrame frame.toVideoFrame])
      refine ⟨result, ?_⟩
      simpa only [List.length_cons, loop, receiveTurn_asserted hcall hframe] using hresult

/-- **The loop goes on for ever** when the codec does not stop returning frames. -/
theorem receiveLoop_never_ends {calls : AVCodecCalls π κ} {codecCtx : κ}
    (h : ¬ calls.Stops codecCtx) (fuel : ℕ) (events : List DecoderEvent) :
    loop (receiveTurn calls) fuel (codecCtx, events) = none := by
  -- So far, the codec has returned frames on which the assertions held.
  refine loop_eq_none (fun s => ∃ frames, calls.Yields codecCtx frames s.1 ∧
    ∀ frame ∈ frames, frame.Asserted) ?_ fuel _ ⟨[], .nil codecCtx, by simp⟩
  rintro ⟨before, events⟩ ⟨frames, hyields, hasserted⟩
  have hmore : ∃ next frame, calls.receiveFrame before = (next, .frame frame) ∧
      frame.Asserted := by
    by_contra hnone
    refine h ⟨frames, before, hyields, hasserted, ?_⟩
    intro next frame hcall hframe
    exact hnone ⟨next, frame, hcall, hframe⟩
  obtain ⟨next, frame, hcall, hframe⟩ := hmore
  refine .inr ⟨_, receiveTurn_asserted hcall hframe events, frames ++ [frame],
    hyields.concat hcall, ?_⟩
  intro f hf
  rcases List.mem_append.mp hf with hold | hnew
  · exact hasserted f hold
  · rwa [List.mem_singleton.mp hnew]

/-- **When a call of `decode_packet` ends**: it has no packet for the codec, or the codec does not
take it, or stops returning frames. -/
theorem decodePacketCalls_ends_iff (calls : AVCodecCalls π κ) (s : DecoderImpl π κ)
    (p : VideoPacket) :
    (∃ fuel result, decodePacketCalls fuel calls s p = some result) ↔
      ∀ codecCtx, (calls.parse s.parserCtx p.nalData).packet ≠ [] →
        calls.sendPacket s.codecCtx (calls.parse s.parserCtx p.nalData).packet = some codecCtx →
          calls.Stops codecCtx := by
  simp only [decodePacketCalls, List.length_eq_zero_iff]
  by_cases hempty : (calls.parse s.parserCtx p.nalData).packet = []
  · simp [hempty]
  · cases hsend : calls.sendPacket s.codecCtx (calls.parse s.parserCtx p.nalData).packet with
    | none => simp [hempty]
    | some codecCtx =>
        simp only [hempty, if_false, ne_eq, not_false_eq_true, forall_const, Option.some.injEq,
          forall_eq']
        constructor
        · rintro ⟨fuel, result, hresult⟩
          by_contra hgoes
          rw [receiveLoop_never_ends hgoes] at hresult
          cases hresult
        · rintro ⟨frames, before, hyields, hasserted, hstop⟩
          obtain ⟨result, hresult⟩ := receiveLoop_ends hyields hasserted hstop
            [.consumed (p.nalData.take (calls.parse s.parserCtx p.nalData).ret)]
          exact ⟨frames.length + 1, _, by rw [hresult]; rfl⟩

/-- A call of `decode_packet` comes to what it does with the library in one piece. -/
theorem decodePacketCalls_eq {calls : AVCodecCalls π κ} {lib : AVCodec π κ}
    (h : calls.Implements lib) (s : DecoderImpl π κ) (p : VideoPacket) : ∃ enough,
      ∀ fuel ≥ enough, decodePacketCalls fuel calls s p = some (decodePacketImpl lib s p) := by
  simp only [decodePacketCalls, decodePacketImpl, h.parse, h.sendPacket]
  by_cases hempty : (lib.parse s.parserCtx p.nalData).packet.length = 0
  · exact ⟨0, fun fuel _ => by simp only [hempty, if_true]⟩
  · simp only [hempty, if_false]
    cases lib.sendPacket s.codecCtx (lib.parse s.parserCtx p.nalData).packet with
    | none => exact ⟨0, fun fuel _ => rfl⟩
    | some codecCtx =>
        obtain ⟨before, ret, hyields, hfailed⟩ := h.drained codecCtx
        refine ⟨(lib.receiveFrames codecCtx).2.length + 1, ?_⟩
        intro fuel hfuel
        simp only [receiveLoop_drained hyields hfailed hfuel]
        by_cases hheld : (handOver (lib.receiveFrames codecCtx).2).1 = true <;> simp [hheld]

/-- **Runs of the decoder.**  If every context runs out of frames, then with turns enough for the
run the decoder that calls `avcodec_receive_frame` one by one shows what the one does that has the
loop in one piece, and ends in the same state or fails with it. -/
theorem decoderCalls_refines {calls : AVCodecCalls π κ} {lib : AVCodec π κ}
    (h : calls.Implements lib) (packets : List VideoPacket) : ∀ s : DecoderImpl π κ, ∃ enough,
      ∀ fuel ≥ enough,
        (decoderCalls fuel calls).outputs s packets = (decoder lib).outputs s packets ∧
        (decoderCalls fuel calls).final s packets = (decoder lib).final s packets := by
  induction packets with
  | nil => intro s; exact ⟨0, fun fuel _ => ⟨rfl, rfl⟩⟩
  | cons p packets ih =>
      intro s
      obtain ⟨first, hfirst⟩ := decodePacketCalls_eq h s p
      have hstep : ∀ fuel ≥ first, (decoderCalls fuel calls).step s p = (decoder lib).step s p := by
        intro fuel hfuel
        simp only [decoderCalls, hfirst fuel hfuel]
        rfl
      cases hnext : ((decoder lib).step s p).1 with
      | none =>
          refine ⟨first, fun fuel hfuel => ?_⟩
          rw [Machine.outputs_cons_eq, Machine.outputs_cons_eq, hstep fuel hfuel]
          simp [Machine.final, hstep fuel hfuel, hnext]
      | some s' =>
          obtain ⟨rest, hrest⟩ := ih s'
          refine ⟨max first rest, fun fuel hfuel => ?_⟩
          have hs := hstep fuel (Nat.le_trans (Nat.le_max_left ..) hfuel)
          have hr := hrest fuel (Nat.le_trans (Nat.le_max_right ..) hfuel)
          rw [Machine.outputs_cons_eq, Machine.outputs_cons_eq (decoder lib)]
          simp only [Machine.final, hs, hnext, Option.elim_some, Option.bind_some, hr, and_self]

end

/-- A picture of one pixel. -/
def onePixel (y : UInt8) : AVFrame where
  format := .yuv422p
  width := 1
  height := 1
  linesize0 := 1
  linesize1 := 1
  linesize2 := 1
  data0 := some [y]
  data1 := some [128]
  data2 := some [128]
  data3 := none

/-- A codec that makes a picture of every byte, and keeps those that were not asked for; the parser
passes every packet on. -/
def queueingCalls : AVCodecCalls Unit (List UInt8) where
  parse _ data := { greedyParser.parse () data with packet := data }
  sendPacket queued packet := some (queued ++ packet)
  receiveFrame queued :=
    (queued.tail, queued.head?.elim (.failed (-11)) fun y => .frame (onePixel y))

/-- Its codec, with the receive loop in one piece. -/
def queueingCodec : AVCodec Unit (List UInt8) where
  parse := queueingCalls.parse
  sendPacket := queueingCalls.sendPacket
  receiveFrames queued := ([], queued.map onePixel)

/-- Two packets, of which the second one leads to two frames. -/
theorem decoderCalls_refines_queueing : ∃ enough, ∀ fuel ≥ enough,
    let packets : List VideoPacket := [⟨[16], { timestamp := 0 }⟩, ⟨[32, 48], { timestamp := 0 }⟩]
    (decoderCalls fuel queueingCalls).outputs ⟨(), []⟩ packets
        = (decoder queueingCodec).outputs ⟨(), []⟩ packets ∧
      (decoderCalls fuel queueingCalls).final ⟨(), []⟩ packets
        = (decoder queueingCodec).final ⟨(), []⟩ packets := by
  have hdrained : ∀ queued, queueingCalls.Drained queued (queued.map onePixel) [] := by
    intro queued
    refine ⟨[], -11, ?_, rfl⟩
    induction queued with
    | nil => exact .nil []
    | cons y queued ih => exact .cons rfl ih
  exact decoderCalls_refines ⟨rfl, rfl, hdrained⟩ _ _

end NaiveStreaming
