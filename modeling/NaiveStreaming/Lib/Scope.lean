import Mathlib.Data.List.TakeDrop

/-!
# Objects that go in order

A scope that is left destroys its objects one after the other, in an order that is fixed beforehand;
the members of an object go in the same way.  How far that has come is a number.

## Main definitions

* `Alive` — the object is still there, when so many have been destroyed.
-/

namespace Scope

variable {α : Type*} {order : List α} {n : ℕ} {x : α}

/-- The object is none of the first `n` in the order of destruction. -/
def Alive (order : List α) (n : ℕ) (x : α) : Prop := x ∉ order.take n

instance [DecidableEq α] (order : List α) (n : ℕ) (x : α) : Decidable (Alive order n x) :=
  inferInstanceAs (Decidable (¬ _))

@[simp] theorem alive_zero : Alive order 0 x := by simp [Alive]

/-- The next object goes, and no other. -/
theorem alive_succ_iff : Alive order (n + 1) x ↔ Alive order n x ∧ order[n]? ≠ some x := by
  rw [Alive, Alive, List.take_add_one, List.mem_append, not_or, Option.mem_toList]

/-- Once all objects are gone, there is nothing more to destroy. -/
theorem alive_iff_of_length_le (h : order.length ≤ n) :
    Alive order n x ↔ Alive order order.length x := by
  rw [Alive, Alive, List.take_of_length_le h, List.take_length]

end Scope
