import Mathlib.Data.Nat.Bitwise
import Mathlib.Tactic.Ring

/-!
# Byte order of machine words

A machine word is a fixed number of bytes.  `ByteWord` names the least significant
byte first layout, from which the other order and the byte swap follow; every law
below is proved once, for words of any width.

The point of the module is the interplay between a *host-dependent* conversion (the
byte swap on a little-endian host, the identity on a big-endian one) and a
*host-independent* extraction of bytes by shifts and masks.  Composing the two is
right on exactly one kind of host, and `toBytes_toNetwork_eq_iff` says which.

## Main definitions

* `ByteWord α n` — the words of type `α` are `n` bytes long.
* `byteSwap`, `bigEndian` — the reversed word, and the network-order bytes.
* `Endian.toNetwork` — the host-to-network conversion of a host.
-/

namespace ByteOrder

/-- The words of type `α` are exactly the strings of `n` bytes, least significant
byte first. -/
class ByteWord (α : Type) (n : outParam ℕ) where
  /-- The bytes of a word, least significant first. -/
  toBytes : α → List UInt8
  /-- The word with the given bytes, least significant first. -/
  ofBytes : List UInt8 → α
  length_toBytes : ∀ v, (toBytes v).length = n
  ofBytes_toBytes : ∀ v, ofBytes (toBytes v) = v
  toBytes_ofBytes : ∀ bs, bs.length = n → toBytes (ofBytes bs) = bs

open ByteWord
attribute [simp] length_toBytes ofBytes_toBytes

section ByteWord
variable {α : Type} {n : ℕ} [ByteWord α n]

theorem toBytes_injective : Function.Injective (toBytes : α → List UInt8) :=
  Function.LeftInverse.injective ofBytes_toBytes

/-- The word with its bytes in the opposite order. -/
def byteSwap (v : α) : α := ofBytes (toBytes v).reverse

/-- The bytes of a word in network order, most significant first. -/
def bigEndian (v : α) : List UInt8 := (toBytes v).reverse

@[simp] theorem toBytes_byteSwap (v : α) : toBytes (byteSwap v) = bigEndian v :=
  toBytes_ofBytes _ (by simp)

@[simp] theorem bigEndian_byteSwap (v : α) : bigEndian (byteSwap v) = toBytes v := by
  simp [bigEndian]

@[simp] theorem byteSwap_byteSwap (v : α) : byteSwap (byteSwap v) = v :=
  toBytes_injective (by simp)

/-- A word reads the same in both orders exactly when it is its own byte swap. -/
theorem toBytes_eq_bigEndian_iff (v : α) : toBytes v = bigEndian v ↔ byteSwap v = v := by
  rw [← toBytes_byteSwap, toBytes_injective.eq_iff, eq_comm]

end ByteWord

/-! ## Hosts -/

/-- The order in which a host stores the bytes of a word. -/
inductive Endian
  /-- Least significant byte first. -/
  | little
  /-- Most significant byte first, which is network order. -/
  | big
  deriving DecidableEq, Repr

namespace Endian
variable {α : Type} {n : ℕ} [ByteWord α n]

/-- The conversion between host and network order, its own inverse: a byte swap on a
little-endian host and nothing on a big-endian one. -/
def toNetwork (e : Endian) (v : α) : α :=
  match e with
  | little => byteSwap v
  | big => v

@[simp] theorem toNetwork_little (v : α) : little.toNetwork v = byteSwap v := rfl
@[simp] theorem toNetwork_big (v : α) : big.toNetwork v = v := rfl

@[simp] theorem toNetwork_toNetwork (e : Endian) (v : α) :
    e.toNetwork (e.toNetwork v) = v := by
  cases e <;> simp

/-- **Extracting the bytes of a converted word** yields network order exactly on a
little-endian host, a word that is its own byte swap apart. -/
theorem toBytes_toNetwork_eq_iff (e : Endian) (v : α) :
    toBytes (e.toNetwork v) = bigEndian v ↔ e = little ∨ byteSwap v = v := by
  cases e with
  | little => simp
  | big => simpa using toBytes_eq_bigEndian_iff v

/-- **A word converted on one host and converted back on another** survives exactly
when the two hosts agree, a word that is its own byte swap apart. -/
theorem toNetwork_cross_iff (w r : Endian) (v : α) :
    r.toNetwork (w.toNetwork v) = v ↔ w = r ∨ byteSwap v = v := by
  cases w <;> cases r <;> simp

end Endian

/-! ## Sixteen and thirty-two bits -/

/-- The word of two bytes, as the shift-and-or expression builds it. -/
def join16 (b₀ b₁ : UInt8) : UInt16 := b₀.toUInt16 ||| b₁.toUInt16 <<< 8

/-- The word of four bytes, as the shift-and-or expression builds it. -/
def join32 (b₀ b₁ b₂ b₃ : UInt8) : UInt32 :=
  b₀.toUInt32 ||| b₁.toUInt32 <<< 8 ||| b₂.toUInt32 <<< 16 ||| b₃.toUInt32 <<< 24

/-- Or-ing a byte string above the bits of a smaller number adds it. -/
private theorem lor_shiftLeft_eq_add {a b i : ℕ} (h : a < 2 ^ i) :
    a ||| b <<< i = a + 2 ^ i * b := by
  rw [Nat.lor_comm, ← Nat.shiftLeft_add_eq_or_of_lt h, Nat.shiftLeft_eq]
  ring

/-- A byte shifted to a higher place still fits the word. -/
private theorem shiftLeft_mod (b : UInt8) {i w : ℕ} (h : i + 8 ≤ w) :
    b.toNat <<< i % 2 ^ w = b.toNat <<< i := by
  apply Nat.mod_eq_of_lt
  have hb := b.toNat_lt
  rw [Nat.shiftLeft_eq]
  calc b.toNat * 2 ^ i < 2 ^ 8 * 2 ^ i := Nat.mul_lt_mul_of_pos_right hb (Nat.two_pow_pos i)
    _ = 2 ^ (i + 8) := by ring
    _ ≤ 2 ^ w := Nat.pow_le_pow_right (by omega) h

theorem toNat_join16 (b₀ b₁ : UInt8) :
    (join16 b₀ b₁).toNat = b₀.toNat + 256 * b₁.toNat := by
  have h₀ := b₀.toNat_lt
  simp only [join16, UInt16.toNat_or, UInt16.toNat_shiftLeft, UInt8.toNat_toUInt16]
  rw [show (8 : UInt16).toNat % 16 = 8 from rfl, shiftLeft_mod b₁ (by omega),
    lor_shiftLeft_eq_add h₀]
  omega

theorem toNat_join32 (b₀ b₁ b₂ b₃ : UInt8) :
    (join32 b₀ b₁ b₂ b₃).toNat
      = b₀.toNat + 256 * b₁.toNat + 65536 * b₂.toNat + 16777216 * b₃.toNat := by
  have h₀ := b₀.toNat_lt
  have h₁ := b₁.toNat_lt
  have h₂ := b₂.toNat_lt
  simp only [join32, UInt32.toNat_or, UInt32.toNat_shiftLeft, UInt8.toNat_toUInt32]
  rw [show (8 : UInt32).toNat % 32 = 8 from rfl, show (16 : UInt32).toNat % 32 = 16 from rfl,
    show (24 : UInt32).toNat % 32 = 24 from rfl, shiftLeft_mod b₁ (by omega),
    shiftLeft_mod b₂ (by omega), shiftLeft_mod b₃ (by omega)]
  -- The bytes are added from the least significant one up.
  have e₁ : b₀.toNat ||| b₁.toNat <<< 8 = b₀.toNat + 2 ^ 8 * b₁.toNat :=
    lor_shiftLeft_eq_add h₀
  have e₂ : b₀.toNat + 2 ^ 8 * b₁.toNat ||| b₂.toNat <<< 16
      = b₀.toNat + 2 ^ 8 * b₁.toNat + 2 ^ 16 * b₂.toNat :=
    lor_shiftLeft_eq_add (by omega)
  rw [e₁, e₂, lor_shiftLeft_eq_add (by omega)]
  omega

/-- Sixteen-bit words: the low byte, then the byte above it. -/
instance : ByteWord UInt16 2 where
  toBytes v := [v.toUInt8, (v >>> 8).toUInt8]
  ofBytes bs := join16 (bs.getD 0 0) (bs.getD 1 0)
  length_toBytes _ := rfl
  ofBytes_toBytes v := by
    apply UInt16.toNat_inj.mp
    have hv := v.toNat_lt
    rw [toNat_join16]
    simp [Nat.shiftRight_eq_div_pow]
    omega
  toBytes_ofBytes bs h := by
    obtain ⟨b₀, b₁, rfl⟩ : ∃ b₀ b₁, bs = [b₀, b₁] := by
      match bs, h with
      | [b₀, b₁], _ => exact ⟨b₀, b₁, rfl⟩
    have h₀ := b₀.toNat_lt
    have h₁ := b₁.toNat_lt
    simp [← UInt8.toNat_inj, toNat_join16, Nat.shiftRight_eq_div_pow]
    omega

theorem toBytes_uint16 (v : UInt16) : toBytes v = [v.toUInt8, (v >>> 8).toUInt8] := rfl

@[simp] theorem join16_toUInt8 (v : UInt16) : join16 v.toUInt8 (v >>> 8).toUInt8 = v :=
  ofBytes_toBytes v

@[simp] theorem toBytes_join16 (b₀ b₁ : UInt8) : toBytes (join16 b₀ b₁) = [b₀, b₁] :=
  toBytes_ofBytes [b₀, b₁] rfl

/-- Thirty-two-bit words: the four bytes from the lowest up. -/
instance : ByteWord UInt32 4 where
  toBytes v := [v.toUInt8, (v >>> 8).toUInt8, (v >>> 16).toUInt8, (v >>> 24).toUInt8]
  ofBytes bs := join32 (bs.getD 0 0) (bs.getD 1 0) (bs.getD 2 0) (bs.getD 3 0)
  length_toBytes _ := rfl
  ofBytes_toBytes v := by
    apply UInt32.toNat_inj.mp
    have hv := v.toNat_lt
    rw [toNat_join32]
    simp [Nat.shiftRight_eq_div_pow]
    omega
  toBytes_ofBytes bs h := by
    obtain ⟨b₀, b₁, b₂, b₃, rfl⟩ : ∃ b₀ b₁ b₂ b₃, bs = [b₀, b₁, b₂, b₃] := by
      match bs, h with
      | [b₀, b₁, b₂, b₃], _ => exact ⟨b₀, b₁, b₂, b₃, rfl⟩
    have h₀ := b₀.toNat_lt
    have h₁ := b₁.toNat_lt
    have h₂ := b₂.toNat_lt
    have h₃ := b₃.toNat_lt
    simp [← UInt8.toNat_inj, toNat_join32, Nat.shiftRight_eq_div_pow]
    omega

theorem toBytes_uint32 (v : UInt32) :
    toBytes v = [v.toUInt8, (v >>> 8).toUInt8, (v >>> 16).toUInt8, (v >>> 24).toUInt8] := rfl

@[simp] theorem join32_toUInt8 (v : UInt32) :
    join32 v.toUInt8 (v >>> 8).toUInt8 (v >>> 16).toUInt8 (v >>> 24).toUInt8 = v :=
  ofBytes_toBytes v

@[simp] theorem toBytes_join32 (b₀ b₁ b₂ b₃ : UInt8) :
    toBytes (join32 b₀ b₁ b₂ b₃) = [b₀, b₁, b₂, b₃] :=
  toBytes_ofBytes [b₀, b₁, b₂, b₃] rfl

/-! ## Masks

Masking off the bytes above the one extracted changes nothing. -/

theorem toUInt8_and_low (v : UInt16) : (v &&& 0x00FF).toUInt8 = v.toUInt8 := by
  apply UInt8.toNat_inj.mp
  have h := Nat.and_two_pow_sub_one_eq_mod v.toNat 8
  simp only [UInt16.toNat_toUInt8, UInt16.toNat_and]
  rw [show (0x00FF : UInt16).toNat = 2 ^ 8 - 1 from rfl, h, Nat.mod_mod]

/-- The byte at bit `i` of a thirty-two-bit word, masked to its low `i + 8` bits. -/
theorem toUInt8_and_shiftRight (v m i : UInt32) (hi : i.toNat ≤ 24)
    (hm : m.toNat = 2 ^ (i.toNat + 8) - 1) :
    ((v &&& m) >>> i).toUInt8 = (v >>> i).toUInt8 := by
  apply UInt8.toNat_inj.mp
  have hmod : i.toNat % 32 = i.toNat := Nat.mod_eq_of_lt (by omega)
  simp only [UInt32.toNat_toUInt8, UInt32.toNat_shiftRight, UInt32.toNat_and, hm, hmod]
  rw [Nat.and_two_pow_sub_one_eq_mod, Nat.shiftRight_eq_div_pow, Nat.shiftRight_eq_div_pow,
    pow_add, Nat.mod_mul_right_div_self, Nat.mod_mod]

end ByteOrder
