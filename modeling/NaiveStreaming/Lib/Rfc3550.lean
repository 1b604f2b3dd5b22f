import Mathlib.Data.List.Basic

/-!
# The layout of an RTP packet

A reference parser for the layout of RFC 3550, section 5.1: twelve fixed octets, `CC`
words of CSRC list, a header extension if the extension bit is set, the payload, and
padding if the padding bit is set.

The last octet of the padding counts the padding octets, itself included, so a count of
zero is malformed.  Some readers take it for no padding instead; `allowZero` is their
rule.

## Main definitions

* `payloadStart`, `paddingOctets` — where the payload starts, and what follows it.
* `parse` — payload and padding of a packet.
-/

namespace Rfc3550

def version (packet : List UInt8) : UInt8 := packet.headD 0 >>> 6

def padding (packet : List UInt8) : Bool := packet.headD 0 &&& 0x20 != 0

def extension (packet : List UInt8) : Bool := packet.headD 0 &&& 0x10 != 0

def csrcCount (packet : List UInt8) : ℕ := (packet.headD 0 &&& 0x0F).toNat

/-- The words of a header extension after its own first word, whose second half counts
them.  `start` is where the extension starts. -/
def extensionWords (packet : List UInt8) (start : ℕ) : ℕ :=
  256 * (packet[start + 2]?.getD 0).toNat + (packet[start + 3]?.getD 0).toNat

/-- The first octet of the payload. -/
def payloadStart (packet : List UInt8) : ℕ :=
  let start := 12 + 4 * csrcCount packet
  if extension packet then start + 4 * (1 + extensionWords packet start) else start

/-- The number of padding octets, or `none` for a count that is malformed. -/
def paddingOctets (allowZero : Bool) (packet : List UInt8) : Option ℕ :=
  if padding packet then
    if packet.getLastD 0 = 0 ∧ !allowZero then none else some (packet.getLastD 0).toNat
  else some 0

/-- What a packet carries behind its headers. -/
structure Parts where
  payload : List UInt8
  padding : List UInt8
  deriving DecidableEq

/-- The payload and the padding of a well-formed packet. -/
def parse (allowZero : Bool) (packet : List UInt8) : Option Parts :=
  if packet.length < 12 ∨ version packet ≠ 2 then none else
  match paddingOctets allowZero packet with
  | none => none
  | some n =>
    if payloadStart packet + n ≤ packet.length then
      some
        { payload := (packet.take (packet.length - n)).drop (payloadStart packet)
          padding := packet.drop (packet.length - n) }
    else none

theorem paddingOctets_of_not_padding {packet : List UInt8} (h : padding packet = false)
    (allowZero : Bool) : paddingOctets allowZero packet = some 0 := by
  simp [paddingOctets, h]

/-- No octet is padding when the padding bit is clear, or when a count of zero is allowed. -/
theorem paddingOctets_eq_zero_iff (allowZero : Bool) (packet : List UInt8) :
    paddingOctets allowZero packet = some 0 ↔
      padding packet = false ∨ allowZero = true ∧ packet.getLastD 0 = 0 := by
  cases hp : padding packet with
  | false => simp [paddingOctets_of_not_padding hp]
  | true =>
      by_cases hz : packet.getLastD 0 = 0
      · cases allowZero <;> simp [paddingOctets, hp, hz, -List.getLastD_eq_getLast?]
      · have hne : (packet.getLastD 0).toNat ≠ 0 := fun h => hz (UInt8.toNat_inj.mp h)
        simp [paddingOctets, hp, hz, hne, -List.getLastD_eq_getLast?]

/-- **Acceptance.**  A packet is well formed when its headers and its padding fit, and the
payload is what lies between them. -/
theorem parse_eq_some_iff {allowZero : Bool} {packet : List UInt8} {parts : Parts} :
    parse allowZero packet = some parts ↔ 12 ≤ packet.length ∧ version packet = 2 ∧
      ∃ n, paddingOctets allowZero packet = some n ∧
        payloadStart packet + n ≤ packet.length ∧
        parts.payload = (packet.take (packet.length - n)).drop (payloadStart packet) ∧
        parts.padding = packet.drop (packet.length - n) := by
  unfold parse
  by_cases hhead : packet.length < 12 ∨ version packet ≠ 2
  · simp only [hhead, if_true, reduceCtorEq, false_iff, not_and]
    intro hlen hversion
    exact absurd hhead (by simp [hversion, Nat.not_lt.mpr hlen])
  · rw [not_or, not_not, Nat.not_lt] at hhead
    simp only [hhead, Nat.not_lt.mpr hhead.1, not_true_eq_false, ne_eq, or_self, if_false, true_and]
    cases paddingOctets allowZero packet with
    | none => simp
    | some n =>
        by_cases hfit : payloadStart packet + n ≤ packet.length
        · cases parts
          simp [hfit, eq_comm]
        · simp [hfit]

/-- **Nothing is lost.**  Payload and padding are the packet behind its headers. -/
theorem payload_append_padding {allowZero : Bool} {packet : List UInt8} {parts : Parts}
    (h : parse allowZero packet = some parts) :
    parts.payload ++ parts.padding = packet.drop (payloadStart packet) := by
  obtain ⟨-, -, n, -, hfit, hpayload, hpadding⟩ := parse_eq_some_iff.mp h
  have hle : payloadStart packet ≤ (packet.take (packet.length - n)).length := by
    rw [List.length_take]
    omega
  rw [hpayload, hpadding, ← List.drop_append_of_le_length hle, List.take_append_drop]

theorem length_padding {allowZero : Bool} {packet : List UInt8} {parts : Parts}
    (h : parse allowZero packet = some parts) :
    paddingOctets allowZero packet = some parts.padding.length := by
  obtain ⟨-, -, n, hn, hfit, -, hpadding⟩ := parse_eq_some_iff.mp h
  rw [hn, hpadding, List.length_drop]
  congr 1
  omega

/-- **Packets without padding.**  One is accepted when its headers fit and its count, if
it has one, is an allowed zero. -/
theorem exists_parse_padding_nil_iff (allowZero : Bool) (packet : List UInt8) :
    (∃ parts, parse allowZero packet = some parts ∧ parts.padding = []) ↔
      12 ≤ packet.length ∧ version packet = 2 ∧ paddingOctets allowZero packet = some 0 ∧
        payloadStart packet ≤ packet.length := by
  constructor
  · rintro ⟨parts, hparse, hnone⟩
    have hcount := length_padding hparse
    obtain ⟨hlen, hversion, n, -, hfit, -, -⟩ := parse_eq_some_iff.mp hparse
    rw [hnone, List.length_nil] at hcount
    exact ⟨hlen, hversion, hcount, by omega⟩
  · rintro ⟨hlen, hversion, hcount, hfit⟩
    refine ⟨⟨_, _⟩, parse_eq_some_iff.mpr ⟨hlen, hversion, 0, hcount, hfit, rfl, rfl⟩, ?_⟩
    rw [Nat.sub_zero, List.drop_length]

end Rfc3550
