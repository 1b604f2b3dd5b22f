import Mathlib.Data.Nat.ModEq

/-!
# Serial numbers that wrap

A sender numbers its messages `0, 1, 2, …` and puts only the residue modulo `M` on the
wire.  A receiver that remembers the last residue `p` and expects exactly `p + 1` — the
successor taken *before* reduction — reports a gap between the numbers `a` and `b` when
`a % M + 1 ≠ b % M`.  This module says when it does: at every gap whose length is no
multiple of `M`, and also, with nothing lost, at each wrap.

## Main definitions

* `Missed M a b` — the receiver reports a gap on receiving `b` after `a`.
* `missed_succ_iff`, `missed_of_not_dvd` — when it does, with nothing lost and with a loss.
* `exists_wrap_iff` — when a run of consecutive numbers meets a wrap.
-/

namespace SerialNumber

/-- The residue of `b` is not the unreduced successor of the residue of `a`. -/
def Missed (M a b : ℕ) : Prop := a % M + 1 ≠ b % M

instance (M a b : ℕ) : Decidable (Missed M a b) := inferInstanceAs (Decidable (_ ≠ _))

/-- With no message lost, the only false report is at the wrap. -/
theorem missed_succ_iff {M : ℕ} (hM : 0 < M) (a : ℕ) : Missed M a (a + 1) ↔ a % M + 1 = M := by
  have hlt := Nat.mod_lt a hM
  have hsucc : (a + 1) % M = (a % M + 1) % M := by rw [Nat.mod_add_mod]
  rw [Missed, hsucc]
  constructor
  · intro h
    by_contra hne
    exact h (Nat.mod_eq_of_lt (by omega)).symm
  · intro h
    rw [h, Nat.mod_self]
    omega

/-- Losing a number of messages that `M` does not divide is always reported. -/
theorem missed_of_not_dvd {M k : ℕ} (hk : ¬ M ∣ k) (a : ℕ) : Missed M a (a + 1 + k) := by
  intro h
  apply hk
  have hmod : (a + 1) % M = (a + 1 + k) % M := by
    rw [← Nat.mod_add_mod a M 1, h, Nat.mod_mod]
  exact (Nat.modEq_iff_dvd' (Nat.le_add_right _ _)).mp hmod |>.trans (by simp)

/-- Among `n` consecutive numbers from `c` on, one is followed by a wrap exactly when
the residue of `c` leaves room for fewer than `n`. -/
theorem exists_wrap_iff {M : ℕ} (hM : 0 < M) (c n : ℕ) :
    (∃ i, i + 1 < n ∧ (c + i) % M + 1 = M) ↔ M < c % M + n := by
  have hlt := Nat.mod_lt c hM
  constructor
  · rintro ⟨i, hi, hwrap⟩
    have hle : (c + i) % M ≤ c % M + i := by
      rw [← Nat.mod_add_mod]
      exact Nat.mod_le ..
    omega
  · intro h
    refine ⟨M - 1 - c % M, by omega, ?_⟩
    have hsum : c % M + (M - 1 - c % M) = M - 1 := by omega
    rw [← Nat.mod_add_mod, hsum, Nat.mod_eq_of_lt (by omega)]
    omega

end SerialNumber
