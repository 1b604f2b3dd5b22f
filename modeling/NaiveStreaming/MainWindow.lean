import Mathlib.Data.List.TakeDrop
import NaiveStreaming.Decoder
import NaiveStreaming.Lib.Mealy

/-!
# The packets of the receiving window

`MainWindow::on_packet_received` passes every packet to the decoder, and a slice that begins
a picture a second time: when the parser meets the begin of a picture it hands out the
picture before, and expects the data it did not consume to be presented again.
-/

namespace NaiveStreaming
open Mealy

/-- The members of `MainWindow` that packets change.  An `int` that overflows has no defined
behaviour; here the count, which nothing reads, wraps around. -/
structure MainWindow (π κ : Type) where
  packetsReceived : Int32 := 0
  decoder : DecoderImpl π κ
  deriving DecidableEq, Repr

/-- The packets that are passed to the decoder twice. -/
def VideoPacket.BeginsPicture (p : VideoPacket) : Prop :=
  p.nalMeta.nalType = .slice ∧ p.nalMeta.firstMacroblock = 0

instance : DecidablePred VideoPacket.BeginsPicture := fun p => by
  unfold VideoPacket.BeginsPicture
  infer_instance

section
variable {π κ : Type}

/-- `MainWindow::on_packet_received`. -/
def onPacketReceived (lib : AVCodec π κ) (s : MainWindow π κ) (p : VideoPacket) :
    Option (MainWindow π κ) × List DecoderEvent :=
  match decodePacket lib s.decoder p with
  | (none, events) => (none, events)
  | (some decoder, events) =>
    if p.BeginsPicture then
      let (decoder?, events') := decodePacket lib decoder p
      (decoder?.map (⟨s.packetsReceived + 1, ·⟩), events ++ events')
    else (some ⟨s.packetsReceived + 1, decoder⟩, events)

/-- Successive calls of `on_packet_received`; an assertion that fails ends the run. -/
def mainWindow (lib : AVCodec π κ) : Machine (MainWindow π κ) VideoPacket DecoderEvent where
  step := onPacketReceived lib

/-- Whenever a call has returned, the parser has consumed the data received so far, in order. -/
def FedExactlyOnce (lib : AVCodec π κ) (s : MainWindow π κ) (packets : List VideoPacket) : Prop :=
  ∀ received s', received <+: packets → (mainWindow lib).final s received = some s' →
    consumed ((mainWindow lib).outputs s received) = received.flatMap (·.nalData)

/-- In this state the parser takes a packet's data once: all of it when it is presented once,
and when it is presented twice, the second time what was left the first time. -/
def TakesOnce (lib : AVCodec π κ) (parserCtx : π) (p : VideoPacket) : Prop :=
  let first := lib.parse parserCtx p.nalData
  if p.BeginsPicture then
    p.nalData.take first.ret ++ p.nalData.take (lib.parse first.state p.nalData).ret = p.nalData
  else first.ret = p.nalData.length

/-- **One call** that returns feeds the packet once exactly when the parser takes it once. -/
theorem consumed_onPacketReceived {lib : AVCodec π κ} {s s' : MainWindow π κ} {p : VideoPacket}
    (h : (onPacketReceived lib s p).1 = some s') :
    consumed (onPacketReceived lib s p).2 = p.nalData ↔ TakesOnce lib s.decoder.parserCtx p := by
  have hfirst := consumed_decodePacket lib s.decoder p
  have hstate : ∀ decoder, (decodePacket lib s.decoder p).1 = some decoder →
      decoder.parserCtx = (lib.parse s.decoder.parserCtx p.nalData).state :=
    fun _ => parserCtx_decodePacket
  simp only [onPacketReceived] at h ⊢
  rcases hcall : decodePacket lib s.decoder p with ⟨_ | decoder, events⟩
  · rw [hcall] at h
    cases h
  · rw [hcall] at hfirst hstate
    have hctx := hstate decoder rfl
    by_cases hpic : p.BeginsPicture
    · simp only [hpic, if_true, consumed_append, TakesOnce]
      rw [hfirst, consumed_decodePacket, hctx]
    · simp only [hpic, if_false, TakesOnce]
      rw [hfirst, List.take_eq_self_iff]
      have hle := (lib.parse s.decoder.parserCtx p.nalData).ret_le
      omega

/-- **The runs that feed the parser exactly once**: those in which the parser takes every packet
of a call that returns once. -/
theorem fedExactlyOnce_iff (lib : AVCodec π κ) (s : MainWindow π κ) (packets : List VideoPacket) :
    FedExactlyOnce lib s packets ↔
      (mainWindow lib).Always (fun s p => ∀ s', (onPacketReceived lib s p).1 = some s' →
        TakesOnce lib s.decoder.parserCtx p) s packets := by
  have hcall : ∀ (s : MainWindow π κ) (p : VideoPacket) (s' : MainWindow π κ),
      (onPacketReceived lib s p).1 = some s' →
        (consumed (onPacketReceived lib s p).2 = p.nalData ↔
          TakesOnce lib s.decoder.parserCtx p) := fun _ _ _ => consumed_onPacketReceived
  have haccount := (mainWindow lib).observed_iff_always consumed rfl
    consumed_append (·.nalData) packets s
  have hsteps : (fun (s : MainWindow π κ) (p : VideoPacket) => ∀ s',
      ((mainWindow lib).step s p).1 = some s' →
        consumed ((mainWindow lib).step s p).2 = p.nalData)
      = fun s p => ∀ s', (onPacketReceived lib s p).1 = some s' →
        TakesOnce lib s.decoder.parserCtx p := by
    ext s p
    exact forall_congr' fun s' => imp_congr_right (hcall s p s')
  rw [hsteps] at haccount
  exact haccount

end

/-- A parser that takes what it is given, and one that stops at the first byte of it; neither
has a packet yet. -/
def greedyParser : AVCodec Unit Unit where
  parse _ data := ⟨data.length, Nat.le_refl _, (), []⟩
  sendPacket _ _ := none
  receiveFrames _ := ((), [])

def haltingParser : AVCodec Unit Unit where
  parse _ data := ⟨min 1 data.length, Nat.min_le_right .., (), []⟩
  sendPacket _ _ := none
  receiveFrames _ := ((), [])

/-- The slice that begins the first picture is fed twice to the one, and any packet of two
bytes loses its second to the other. -/
theorem fed_twice_and_dropped :
    ¬ FedExactlyOnce greedyParser ⟨0, (), ()⟩
      [⟨[0x41, 0x9A], { timestamp := 0, nalType := .slice }⟩] ∧
    ¬ FedExactlyOnce haltingParser ⟨0, (), ()⟩
      [⟨[0x67, 0x42], { timestamp := 0, nalType := .sps }⟩] := by
  constructor
  · intro h
    exact absurd (h _ _ (List.prefix_refl _) rfl) (by decide)
  · intro h
    exact absurd (h _ _ (List.prefix_refl _) rfl) (by decide)

end NaiveStreaming
