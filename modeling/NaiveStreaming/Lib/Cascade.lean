import NaiveStreaming.Lib.Mealy

/-!
# Machines in sequence

A cascade passes what one machine outputs on to another.  Each output of the first becomes any
number of inputs of the second, and the cascade ends where either of them leaves defined
behaviour.  So a chain of components is one machine, whose runs are the runs of its parts.

## Main definitions

* `Machine.cascade` — two machines in sequence.
* `Machine.expand` — a machine that passes several inputs at once to another.
* `Machine.Projects` — a machine that is another one on a part of its state.

## Main results

* `outputs_cascade`, `final_cascade` — the runs of a cascade.
* `run_expand` — the runs of an expansion.
* `Projects.outputs`, `Projects.final` — the runs of a machine with more state.
-/

namespace Mealy

universe u
variable {σ τ ι ω κ ο : Type u}

namespace Machine

theorem final_append_eq_bind (m : Machine σ ι ω) (s : σ) (xs ys : List ι) :
    m.final s (xs ++ ys) = (m.final s xs).bind fun s' => m.final s' ys := by
  induction xs generalizing s with
  | nil => rfl
  | cons x xs ih =>
      cases hstep : (m.step s x).1 with
      | none => simp [final, hstep]
      | some s' => simp [final, hstep, ih]

theorem outputs_append_eq (m : Machine σ ι ω) (s : σ) (xs ys : List ι) :
    m.outputs s (xs ++ ys) =
      m.outputs s xs ++ (m.final s xs).elim [] fun s' => m.outputs s' ys := by
  induction xs generalizing s with
  | nil => rfl
  | cons x xs ih =>
      cases hstep : (m.step s x).1 with
      | none => simp [outputs, trace, final, hstep]
      | some s' =>
          have hcons : ∀ is, m.outputs s (x :: is) = (m.step s x).2 ++ m.outputs s' is :=
            outputs_cons (Prod.ext hstep rfl)
          rw [List.cons_append, hcons, hcons, final_cons hstep, ih, List.append_assoc]

theorem outputs_cons_eq (m : Machine σ ι ω) (s : σ) (i : ι) (is : List ι) :
    m.outputs s (i :: is) =
      (m.step s i).2 ++ (m.step s i).1.elim [] fun s' => m.outputs s' is := by
  cases hstep : (m.step s i).1 with
  | none => simp [outputs, trace, hstep]
  | some s' => rw [outputs_cons (Prod.ext hstep rfl), Option.elim_some]

/-! ## Cascades -/

/-- What `m` outputs in a step becomes input of `n`. -/
def cascade (m : Machine σ ι ω) (feed : ω → List κ) (n : Machine τ κ ο) :
    Machine (σ × τ) ι ο where
  step s i :=
    let inputs := (m.step s.1 i).2.flatMap feed
    ((m.step s.1 i).1.bind fun s' => (n.final s.2 inputs).map fun t' => (s', t'),
      n.outputs s.2 inputs)

variable (m : Machine σ ι ω) (feed : ω → List κ) (n : Machine τ κ ο)

/-- **The state of a cascade**: both parts run, the second one on what the first one outputs. -/
theorem final_cascade (is : List ι) (s : σ) (t : τ) : (m.cascade feed n).final (s, t) is =
    (m.final s is).bind fun s' =>
      (n.final t ((m.outputs s is).flatMap feed)).map fun t' => (s', t') := by
  induction is generalizing s t with
  | nil => rfl
  | cons i is ih =>
      rw [outputs_cons_eq, List.flatMap_append, final_append_eq_bind]
      simp only [final, cascade]
      cases hm : (m.step s i).1 with
      | none => rfl
      | some s' =>
          cases hn : n.final t ((m.step s i).2.flatMap feed) with
          | none => simp
          | some t' =>
              simp only [Option.bind_some, Option.map_some, Option.elim_some]
              exact ih s' t'

/-- **The outputs of a cascade** are those of the second part, run on what the first one
outputs. -/
theorem outputs_cascade (is : List ι) (s : σ) (t : τ) : (m.cascade feed n).outputs (s, t) is =
    n.outputs t ((m.outputs s is).flatMap feed) := by
  induction is generalizing s t with
  | nil => rfl
  | cons i is ih =>
      rw [outputs_cons_eq, outputs_cons_eq m, List.flatMap_append, outputs_append_eq]
      simp only [cascade]
      cases hm : (m.step s i).1 with
      | none =>
          cases n.final t ((m.step s i).2.flatMap feed) with
          | none => rfl
          | some t' => rfl
      | some s' =>
          cases hn : n.final t ((m.step s i).2.flatMap feed) with
          | none => rfl
          | some t' =>
              simp only [Option.bind_some, Option.map_some, Option.elim_some]
              rw [← ih s' t']
              rfl

/-- A machine that makes of each input any number of inputs of `n`. -/
def expand (f : ι → List κ) (n : Machine τ κ ο) : Machine τ ι ο where
  step t i := (n.final t (f i), n.outputs t (f i))

/-- The runs of an expansion are runs of the machine below. -/
theorem run_expand (f : ι → List κ) (is : List ι) (t : τ) :
    (n.expand f).final t is = n.final t (is.flatMap f) ∧
      (n.expand f).outputs t is = n.outputs t (is.flatMap f) := by
  induction is generalizing t with
  | nil => exact ⟨rfl, rfl⟩
  | cons i is ih =>
      rw [outputs_cons_eq, List.flatMap_cons, final_append_eq_bind, outputs_append_eq]
      simp only [final, expand]
      cases n.final t (f i) with
      | none => exact ⟨rfl, rfl⟩
      | some t' => exact ⟨(ih t').1, congrArg _ (ih t').2⟩

/-- On the part `proj` of its state, `m` is `n`. -/
def Projects (m : Machine σ ι ω) (n : Machine τ ι ω) (proj : σ → τ) : Prop :=
  ∀ s i, n.step (proj s) i = ((m.step s i).1.map proj, (m.step s i).2)

variable {m} {n : Machine τ ι ω} {proj : σ → τ}

/-- The rest of the state has no influence on the part. -/
theorem Projects.final (h : m.Projects n proj) (is : List ι) (s : σ) :
    n.final (proj s) is = (m.final s is).map proj := by
  induction is generalizing s with
  | nil => rfl
  | cons i is ih =>
      simp only [Machine.final, h s i]
      cases (m.step s i).1 with
      | none => rfl
      | some s' => exact ih s'

/-- Nor on what is seen. -/
theorem Projects.outputs (h : m.Projects n proj) (is : List ι) (s : σ) :
    n.outputs (proj s) is = m.outputs s is := by
  induction is generalizing s with
  | nil => rfl
  | cons i is ih =>
      rw [outputs_cons_eq, outputs_cons_eq, h s i]
      cases (m.step s i).1 with
      | none => rfl
      | some s' => exact congrArg _ (ih s')

end Machine
end Mealy
