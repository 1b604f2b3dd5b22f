import Mathlib.Data.List.Basic

/-!
# Machines with outputs that may leave defined behaviour

A machine reads one input at a time; a step produces a list of outputs and either a
next state or, where the modelled program has no defined behaviour, no state at all.
This module has the run of such a machine, the invariant rules its users need, and
simulation of one machine by another.

## Main definitions

* `Machine.final`, `Machine.trace` — the state a run ends in, and its outputs by step.
* `Machine.Always` — a property of every step that a run takes.
* `Machine.Simulates` — one machine computes, step by step, what another specifies.
* `Machine.Silent`, `Machine.Alike` — an input that a machine ignores, and inputs that it treats
  alike.
-/

namespace Mealy

universe u
variable {σ τ ι ω ο : Type u}

/-- One step reads an input in a state; `none` is the end of defined behaviour. -/
structure Machine (σ ι ω : Type u) where
  /-- The next state, if there is one, and the outputs of the step. -/
  step : σ → ι → Option σ × List ω

namespace Machine

/-- The state after a run, if every step of it is defined. -/
def final (m : Machine σ ι ω) : σ → List ι → Option σ
  | s, [] => some s
  | s, i :: is => (m.step s i).1.bind fun s' => m.final s' is

/-- The outputs of a run, one list for each step taken. -/
def trace (m : Machine σ ι ω) : σ → List ι → List (List ω)
  | _, [] => []
  | s, i :: is =>
      (m.step s i).2 :: match (m.step s i).1 with
        | none => []
        | some s' => m.trace s' is

/-- All outputs of a run, in order. -/
def outputs (m : Machine σ ι ω) (s : σ) (is : List ι) : List ω := (m.trace s is).flatten

@[simp] theorem trace_nil (m : Machine σ ι ω) (s : σ) : m.trace s [] = [] := rfl

theorem final_cons {m : Machine σ ι ω} {s s' : σ} {i : ι} (h : (m.step s i).1 = some s')
    (is : List ι) : m.final s (i :: is) = m.final s' is := by
  simp [final, h]

theorem trace_cons {m : Machine σ ι ω} {s s' : σ} {i : ι} (h : (m.step s i).1 = some s')
    (is : List ι) : m.trace s (i :: is) = (m.step s i).2 :: m.trace s' is := by
  simp [trace, h]

theorem outputs_cons {m : Machine σ ι ω} {s s' : σ} {i : ι} {out : List ω}
    (h : m.step s i = (some s', out)) (is : List ι) :
    m.outputs s (i :: is) = out ++ m.outputs s' is := by
  simp [outputs, trace, h]

theorem final_cons_eq_some {m : Machine σ ι ω} {s t : σ} {i : ι} {is : List ι}
    (h : m.final s (i :: is) = some t) :
    ∃ s', (m.step s i).1 = some s' ∧ m.final s' is = some t :=
  Option.bind_eq_some_iff.mp h

theorem final_append {m : Machine σ ι ω} {s s' : σ} {xs : List ι} (h : m.final s xs = some s')
    (ys : List ι) : m.final s (xs ++ ys) = m.final s' ys := by
  induction xs generalizing s with
  | nil => cases h; rfl
  | cons x xs ih =>
      obtain ⟨t, ht, hrest⟩ := final_cons_eq_some h
      rw [List.cons_append, final_cons ht, ih hrest]

theorem trace_append {m : Machine σ ι ω} {s s' : σ} {xs : List ι} (h : m.final s xs = some s')
    (ys : List ι) : m.trace s (xs ++ ys) = m.trace s xs ++ m.trace s' ys := by
  induction xs generalizing s with
  | nil => cases h; rfl
  | cons x xs ih =>
      obtain ⟨t, ht, hrest⟩ := final_cons_eq_some h
      rw [List.cons_append, trace_cons ht, trace_cons ht, ih hrest, List.cons_append]

theorem length_trace {m : Machine σ ι ω} {s s' : σ} {xs : List ι} (h : m.final s xs = some s') :
    (m.trace s xs).length = xs.length := by
  induction xs generalizing s with
  | nil => rfl
  | cons x xs ih =>
      obtain ⟨t, ht, hrest⟩ := final_cons_eq_some h
      rw [trace_cons ht, List.length_cons, ih hrest, List.length_cons]

/-- A run that leaves defined behaviour has a shorter trace. -/
theorem length_trace_le (m : Machine σ ι ω) (s : σ) (is : List ι) :
    (m.trace s is).length ≤ is.length := by
  induction is generalizing s with
  | nil => simp
  | cons i is ih =>
      cases h : (m.step s i).1 with
      | none => simp [trace, h]
      | some s' => simpa [trace, h] using ih s'

/-- The outputs of one step, read off the trace of the whole run. -/
theorem getElem?_trace {m : Machine σ ι ω} {s s' : σ} {pre : List ι}
    (h : m.final s pre = some s') (i : ι) (post : List ι) :
    (m.trace s (pre ++ i :: post))[pre.length]? = some (m.step s' i).2 := by
  rw [trace_append h, List.getElem?_append_right (Nat.le_of_eq (length_trace h)), length_trace h]
  simp [trace]

/-! ## Properties of every step -/

/-- `P` holds of every step the run takes: of the first one, and of those after it when
the first one is defined. -/
def Always (m : Machine σ ι ω) (P : σ → ι → Prop) : σ → List ι → Prop
  | _, [] => True
  | s, i :: is => P s i ∧ ∀ s', (m.step s i).1 = some s' → m.Always P s' is

instance decidableAlways (m : Machine σ ι ω) (P : σ → ι → Prop) [∀ s i, Decidable (P s i)] :
    ∀ s is, Decidable (m.Always P s is)
  | _, [] => .isTrue trivial
  | s, i :: is =>
    match h : (m.step s i).1 with
    | none => decidable_of_iff (P s i) (by simp [Always, h])
    | some s' =>
      have := decidableAlways m P s' is
      decidable_of_iff (P s i ∧ m.Always P s' is) (by simp [Always, h])

/-- Every step of a run is a step of its first part, or one of the rest. -/
theorem always_append {m : Machine σ ι ω} {P : σ → ι → Prop} {xs ys : List ι} : ∀ {s : σ},
    m.Always P s (xs ++ ys) ↔ m.Always P s xs ∧ ∀ t, m.final s xs = some t → m.Always P t ys := by
  induction xs with
  | nil => intro s; simp [Always, final]
  | cons i xs ih =>
      intro s
      cases hs' : (m.step s i).1 with
      | none => simp [Always, final, hs']
      | some s' => simp [Always, final, hs', ih, and_assoc]

/-- **Runs whose inputs decide the property.**  Under an invariant `Inv`, suppose `P`
depends on the input alone and a step with `P` is defined and keeps the invariant.
Then `P` holds along a run exactly when every input of the run is good. -/
theorem always_iff_forall {m : Machine σ ι ω} {P : σ → ι → Prop} {Good : ι → Prop}
    {Inv : σ → Prop} (hP : ∀ s i, Inv s → (P s i ↔ Good i))
    (hstep : ∀ s i, Inv s → Good i → ∃ s', (m.step s i).1 = some s' ∧ Inv s')
    (is : List ι) : ∀ s, Inv s → (m.Always P s is ↔ ∀ i ∈ is, Good i) := by
  induction is with
  | nil => intro s _; simp [Always]
  | cons i is ih =>
      intro s hs
      simp only [Always, List.forall_mem_cons, hP s i hs]
      refine and_congr_right fun hg => ?_
      obtain ⟨s', hs', hi'⟩ := hstep s i hs hg
      simpa [hs'] using ih s' hi'

/-- **What a guarded run can output.**  If under an invariant a step with `P` is defined, keeps
the invariant and outputs only what is allowed, then so does a run with `P` all along. -/
theorem outputs_of_always {m : Machine σ ι ω} {P : σ → ι → Prop} {Inv : σ → Prop}
    {Allowed : ω → Prop}
    (hstep : ∀ s i, Inv s → P s i → ∃ s' out, m.step s i = (some s', out) ∧ Inv s' ∧
      ∀ o ∈ out, Allowed o) (is : List ι) :
    ∀ s, Inv s → m.Always P s is → ∀ o ∈ m.outputs s is, Allowed o := by
  induction is with
  | nil => intro s _ _ o ho; exact absurd ho List.not_mem_nil
  | cons i is ih =>
      intro s hs halways o ho
      obtain ⟨s', out, heq, hs', hout⟩ := hstep s i hs halways.1
      rw [outputs_cons heq] at ho
      rcases List.mem_append.mp ho with hfirst | hrest
      · exact hout o hfirst
      · exact ih s' hs' (halways.2 s' (by rw [heq])) o hrest

/-- **A budget for the outputs.**  Let `budget` be what a state has left of some kind of outputs.
If under an invariant no step spends more than it has, and the next state has what is left, then no
run spends more than its first state has. -/
theorem outputs_budget {m : Machine σ ι ω} {Inv : σ → Prop} (cost : ω → Bool) (budget : σ → ℕ)
    (hspend : ∀ s i, Inv s → (m.step s i).2.countP cost ≤ budget s)
    (hleft : ∀ s i s', Inv s → (m.step s i).1 = some s' →
      Inv s' ∧ (m.step s i).2.countP cost + budget s' ≤ budget s) (is : List ι) :
    ∀ s, Inv s → (m.outputs s is).countP cost ≤ budget s := by
  induction is with
  | nil => intro s _; exact Nat.zero_le _
  | cons i is ih =>
      intro s hs
      cases hs' : (m.step s i).1 with
      | none => simpa [outputs, trace, hs'] using hspend s i hs
      | some s' =>
          obtain ⟨hinv, hle⟩ := hleft s i s' hs hs'
          have hrest := ih s' hinv
          have hstep : m.step s i = (some s', (m.step s i).2) := Prod.ext hs' rfl
          rw [outputs_cons hstep, List.countP_append]
          omega

/-- **What a run outputs as a whole.**  Let `Q` hold of no outputs, and of the outputs of two parts
of a run together.  If a step with `P` from the invariant has outputs of the kind `Q`, and keeps
the invariant when it is defined, then so does a run with `P` all along. -/
theorem outputs_and_final_of_always {m : Machine σ ι ω} {P : σ → ι → Prop} {Inv : σ → Prop}
    {Q : List ω → Prop} (hnil : Q []) (happend : ∀ xs ys, Q xs → Q ys → Q (xs ++ ys))
    (hstep : ∀ s i, Inv s → P s i →
      Q (m.step s i).2 ∧ ∀ s', (m.step s i).1 = some s' → Inv s') (is : List ι) :
    ∀ s, Inv s → m.Always P s is →
      Q (m.outputs s is) ∧ ∀ t, m.final s is = some t → Inv t := by
  induction is with
  | nil =>
      intro s hs _
      refine ⟨hnil, ?_⟩
      intro t ht
      cases ht
      exact hs
  | cons i is ih =>
      intro s hs halways
      obtain ⟨hout, hnext⟩ := hstep s i hs halways.1
      cases hs' : (m.step s i).1 with
      | none =>
          refine ⟨?_, fun t ht => by simp [final, hs'] at ht⟩
          simpa [outputs, trace, hs'] using hout
      | some s' =>
          obtain ⟨hrest, hfinal⟩ := ih s' (hnext s' hs') (halways.2 s' hs')
          rw [outputs_cons (Prod.ext hs' rfl), final_cons hs']
          exact ⟨happend _ _ hout hrest, hfinal⟩

/-- Where a step may leave defined behaviour, its outputs count all the same. -/
theorem outputs_allowed_of_always {m : Machine σ ι ω} {P : σ → ι → Prop} {Inv : σ → Prop}
    {Allowed : ω → Prop}
    (hstep : ∀ s i, Inv s → P s i → (∀ o ∈ (m.step s i).2, Allowed o) ∧
      ∀ s', (m.step s i).1 = some s' → Inv s') (is : List ι) (s : σ) (hs : Inv s)
    (halways : m.Always P s is) : ∀ o ∈ m.outputs s is, Allowed o := by
  refine (outputs_and_final_of_always (Q := fun out => ∀ o ∈ out, Allowed o) ?_ ?_ hstep is s hs
    halways).1
  · exact fun o ho => absurd ho List.not_mem_nil
  · exact fun xs ys hxs hys => List.forall_mem_append.mpr ⟨hxs, hys⟩

/-- An invariant that every step on a good input keeps holds at the end of the run. -/
theorem final_invariant {m : Machine σ ι ω} {Inv : σ → Prop} {Good : ι → Prop}
    (hstep : ∀ s i, Inv s → Good i → ∃ s', (m.step s i).1 = some s' ∧ Inv s')
    {is : List ι} (hg : ∀ i ∈ is, Good i) :
    ∀ {s}, Inv s → ∃ s', m.final s is = some s' ∧ Inv s' := by
  induction is with
  | nil => intro s hs; exact ⟨s, rfl, hs⟩
  | cons i is ih =>
      intro s hs
      obtain ⟨s', hs', hi'⟩ := hstep s i hs (hg i (List.mem_cons_self ..))
      obtain ⟨t, ht, hit⟩ := ih (fun j hj => hg j (List.mem_cons_of_mem _ hj)) hi'
      exact ⟨t, by rw [final_cons hs', ht], hit⟩

/-- An invariant that every defined step keeps holds wherever a run gets to. -/
theorem final_keeps {m : Machine σ ι ω} {Inv : σ → Prop}
    (hstep : ∀ s i s', Inv s → (m.step s i).1 = some s' → Inv s') {is : List ι} :
    ∀ {s t}, Inv s → m.final s is = some t → Inv t := by
  induction is with
  | nil =>
      intro s t hs ht
      cases ht
      exact hs
  | cons i is ih =>
      intro s t hs ht
      obtain ⟨s', hs', hrest⟩ := final_cons_eq_some ht
      exact ih (hstep s i s' hs hs') hrest

theorem always_of_forall {m : Machine σ ι ω} {Good : ι → Prop} {is : List ι}
    (h : ∀ i ∈ is, Good i) : ∀ s, m.Always (fun _ i => Good i) s is := by
  induction is with
  | nil => intro s; trivial
  | cons i is ih =>
      intro s
      exact ⟨h i (List.mem_cons_self ..),
        fun s' _ => ih (fun j hj => h j (List.mem_cons_of_mem _ hj)) s'⟩

/-- **An invariant that speaks of the past.**  Let `Inv` relate the outputs so far to a state.  If
a step with `P` is defined and keeps `Inv`, then so does a run with `P` all along. -/
theorem final_history {m : Machine σ ι ω} {P : σ → ι → Prop} {Inv : List ω → σ → Prop}
    (hstep : ∀ past s i, Inv past s → P s i → ∃ s' out, m.step s i = (some s', out) ∧
      Inv (past ++ out) s') {is : List ι} : ∀ {past s}, Inv past s → m.Always P s is →
        ∃ s', m.final s is = some s' ∧ Inv (past ++ m.outputs s is) s' := by
  induction is with
  | nil =>
      intro past s hs _
      exact ⟨s, rfl, (List.append_nil past).symm ▸ hs⟩
  | cons i is ih =>
      intro past s hs halways
      obtain ⟨s₁, out, heq, hs₁⟩ := hstep past s i hs halways.1
      obtain ⟨s', hs', hinv⟩ := ih hs₁ (halways.2 s₁ (by rw [heq]))
      rw [final_cons (congrArg Prod.fst heq), outputs_cons heq, ← List.append_assoc]
      exact ⟨s', hs', hinv⟩

/-- **A rank that productive inputs lower.**  If under an invariant no step raises the rank, and a
step on a productive input lowers it unless it is zero, then a run with as many productive inputs
as the rank takes it to zero. -/
theorem final_rank {m : Machine σ ι ω} {Inv : σ → Prop} (rank : σ → ℕ) (productive : ι → Bool)
    (hstep : ∀ s i, Inv s → ∃ s', (m.step s i).1 = some s' ∧ Inv s' ∧ rank s' ≤ rank s ∧
      (productive i = true → rank s' ≤ rank s - 1)) (is : List ι) : ∀ s, Inv s →
        ∃ s', m.final s is = some s' ∧ Inv s' ∧ rank s' ≤ rank s - is.countP productive := by
  induction is with
  | nil => intro s hs; exact ⟨s, rfl, hs, Nat.le_refl _⟩
  | cons i is ih =>
      intro s hs
      obtain ⟨s₁, hs₁, hinv₁, hle, hlower⟩ := hstep s i hs
      obtain ⟨s', hs', hinv', hrank⟩ := ih s₁ hinv₁
      refine ⟨s', by rw [final_cons hs₁, hs'], hinv', ?_⟩
      cases hi : productive i with
      | true =>
          have hlower := hlower hi
          rw [List.countP_cons_of_pos hi]
          omega
      | false =>
          rw [List.countP_cons_of_neg (by simp [hi])]
          omega

/-- A run that cannot raise the rank lowers it, or takes no step that changes the state. -/
theorem final_lower_or_stay {m : Machine σ ι ω} {Inv : σ → Prop} {Due : ι → Prop} {rank : σ → ℕ}
    (hstep : ∀ s i, Inv s → Due i → ∃ s', (m.step s i).1 = some s' ∧ Inv s' ∧
      (s' = s ∨ rank s' < rank s)) (is : List ι) : ∀ s, Inv s → (∀ i ∈ is, Due i) →
        ∃ s', m.final s is = some s' ∧ Inv s' ∧
          (rank s' < rank s ∨ s' = s ∧ ∀ i ∈ is, (m.step s i).1 = some s) := by
  induction is with
  | nil =>
      intro s hs _
      exact ⟨s, rfl, hs, .inr ⟨rfl, fun i hi => by cases hi⟩⟩
  | cons i is ih =>
      intro s hs hdue
      obtain ⟨s₁, hs₁, hinv₁, hmove⟩ := hstep s i hs (hdue i List.mem_cons_self)
      obtain ⟨s', hs', hinv', hrest⟩ := ih s₁ hinv₁ fun j hj => hdue j (List.mem_cons_of_mem i hj)
      refine ⟨s', by rw [final_cons hs₁, hs'], hinv', ?_⟩
      rcases hmove with rfl | hlower
      · rcases hrest with hlower | ⟨rfl, hstay⟩
        · exact .inl hlower
        · exact .inr ⟨rfl, List.forall_mem_cons.mpr ⟨hs₁, hstay⟩⟩
      · rcases hrest with hlower' | ⟨rfl, -⟩
        · exact .inl (Nat.lt_trans hlower' hlower)
        · exact .inl hlower

/-- **Rounds that are fair lower the rank.**  Let every due input either change nothing or lower the
rank, and let one of them lower it as long as it is not zero.  Then as many rounds as the rank, each
of which has every due input and no other, take it to zero, in whatever order the inputs stand in a
round and however often. -/
theorem final_rounds {m : Machine σ ι ω} {Inv : σ → Prop} {Due : ι → Prop} (rank : σ → ℕ)
    (hstep : ∀ s i, Inv s → Due i → ∃ s', (m.step s i).1 = some s' ∧ Inv s' ∧
      (s' = s ∨ rank s' < rank s))
    (hlower : ∀ s, Inv s → 0 < rank s → ∃ i, Due i ∧ (m.step s i).1 ≠ some s)
    (rounds : List (List ι)) : ∀ s, Inv s → (∀ round ∈ rounds, ∀ i, i ∈ round ↔ Due i) →
      ∃ s', m.final s rounds.flatten = some s' ∧ Inv s' ∧ rank s' ≤ rank s - rounds.length := by
  induction rounds with
  | nil =>
      intro s hs _
      exact ⟨s, rfl, hs, Nat.le_refl _⟩
  | cons round rounds ih =>
      intro s hs hfair
      have hround := hfair round List.mem_cons_self
      obtain ⟨s₁, hs₁, hinv₁, hmove⟩ :=
        final_lower_or_stay hstep round s hs fun i hi => (hround i).mp hi
      have hrank₁ : rank s₁ ≤ rank s - 1 := by
        rcases hmove with hless | ⟨rfl, hstay⟩
        · omega
        · rcases Nat.eq_zero_or_pos (rank s₁) with hzero | hpos
          · omega
          · obtain ⟨i, hi, hmoves⟩ := hlower s₁ hs hpos
            exact absurd (hstay i ((hround i).mpr hi)) hmoves
      obtain ⟨s', hs', hinv', hrank⟩ :=
        ih s₁ hinv₁ fun later hlater => hfair later (List.mem_cons_of_mem round hlater)
      refine ⟨s', by rw [List.flatten_cons, final_append hs₁, hs'], hinv', ?_⟩
      rw [List.length_cons]
      omega

/-- A run from a doomed state outputs something bad or ends in one, if every defined step does. -/
theorem bad_or_doomed {m : Machine σ ι ω} {Doomed : σ → Prop} {Bad : ω → Prop}
    (hdoomed : ∀ s i s', Doomed s → (m.step s i).1 = some s' →
      (∃ o ∈ (m.step s i).2, Bad o) ∨ Doomed s') (is : List ι) : ∀ {s t}, Doomed s →
        m.final s is = some t → (∃ o ∈ m.outputs s is, Bad o) ∨ Doomed t := by
  induction is with
  | nil =>
      intro s t hs ht
      cases ht
      exact .inr hs
  | cons i is ih =>
      intro s t hs ht
      obtain ⟨s', hs', hrest⟩ := final_cons_eq_some ht
      have hstep : m.step s i = (some s', (m.step s i).2) := Prod.ext hs' rfl
      rw [outputs_cons hstep]
      rcases hdoomed s i s' hs hs' with ⟨o, ho, hbad⟩ | hnext
      · exact .inl ⟨o, List.mem_append_left _ ho, hbad⟩
      · refine (ih hnext hrest).imp_left ?_
        rintro ⟨o, ho, hbad⟩
        exact ⟨o, List.mem_append_right _ ho, hbad⟩

/-- **A point of no return.**  If every step without `P` leads to a doomed state, and a doomed run
outputs something bad or stays doomed, then `P` holds along every run that outputs nothing bad and
does not end doomed. -/
theorem always_of_not_bad {m : Machine σ ι ω} {P : σ → ι → Prop} {Doomed : σ → Prop}
    {Bad : ω → Prop}
    (hleave : ∀ s i s', ¬ P s i → (m.step s i).1 = some s' → Doomed s')
    (hdoomed : ∀ s i s', Doomed s → (m.step s i).1 = some s' →
      (∃ o ∈ (m.step s i).2, Bad o) ∨ Doomed s') (is : List ι) : ∀ {s t}, m.final s is = some t →
        ¬ Doomed t → (∀ o ∈ m.outputs s is, ¬ Bad o) → m.Always P s is := by
  induction is with
  | nil => intro s t _ _ _; trivial
  | cons i is ih =>
      intro s t ht hend hnone
      obtain ⟨s', hs', hrest⟩ := final_cons_eq_some ht
      have hstep : m.step s i = (some s', (m.step s i).2) := Prod.ext hs' rfl
      rw [outputs_cons hstep] at hnone
      have hlater : ∀ o ∈ m.outputs s' is, ¬ Bad o :=
        fun o ho => hnone o (List.mem_append_right _ ho)
      refine ⟨?_, ?_⟩
      · by_contra hp
        rcases bad_or_doomed hdoomed is (hleave s i s' hp hs') hrest with ⟨o, ho, hbad⟩ | hdoom
        · exact hlater o ho hbad
        · exact hend hdoom
      · intro s'' hs''
        rw [hs'] at hs''
        cases hs''
        exact ih hrest hend hlater

/-- **An account kept step by step.**  What is observed of every part of a run that is defined
is what its inputs owe, in order, exactly when every defined step observes what its input
owes. -/
theorem observed_iff_always {β : Type*} (m : Machine σ ι ω) (observe : List ω → List β)
    (hnil : observe [] = []) (happend : ∀ xs ys, observe (xs ++ ys) = observe xs ++ observe ys)
    (owed : ι → List β) (is : List ι) : ∀ s,
      (∀ pre s', pre <+: is → m.final s pre = some s' →
        observe (m.outputs s pre) = pre.flatMap owed) ↔
      m.Always (fun s i => ∀ s', (m.step s i).1 = some s' →
        observe (m.step s i).2 = owed i) s is := by
  induction is with
  | nil =>
      intro s
      simp only [Always, iff_true]
      intro pre s' hpre _
      rw [List.prefix_nil.mp hpre]
      exact hnil
  | cons i is ih =>
      intro s
      have hstep : ∀ s', (m.step s i).1 = some s' → ∀ pre,
          m.outputs s (i :: pre) = (m.step s i).2 ++ m.outputs s' pre := by
        intro s' hs' pre
        exact outputs_cons (Prod.ext hs' rfl) pre
      constructor
      · intro h
        have hfirst : ∀ s', (m.step s i).1 = some s' → observe (m.step s i).2 = owed i := by
          intro s' hs'
          have hone := h [i] s' (List.prefix_append [i] is) (by simp [final, hs'])
          rw [hstep s' hs'] at hone
          simpa [outputs] using hone
        refine ⟨hfirst, ?_⟩
        intro s' hs'
        refine (ih s').mp ?_
        intro pre t hpre ht
        have hrun := h (i :: pre) t (List.cons_prefix_cons.mpr ⟨rfl, hpre⟩)
          (by rw [final_cons hs', ht])
        rw [hstep s' hs', happend, hfirst s' hs', List.flatMap_cons] at hrun
        exact List.append_cancel_left hrun
      · intro h pre t hpre ht
        cases pre with
        | nil => exact hnil
        | cons j pre =>
            obtain ⟨rfl, hrest⟩ := List.cons_prefix_cons.mp hpre
            obtain ⟨s', hs', hpre'⟩ := final_cons_eq_some ht
            rw [hstep s' hs', happend, h.1 s' hs', List.flatMap_cons,
              (ih s').mpr (h.2 s' hs') pre t hrest hpre']

/-! ## Simulation -/

/-- `m` simulates `n` on the inputs `Ok`: from related states both step, into related
states, and the observed outputs of `m` are the outputs of `n`. -/
structure Simulates (m : Machine σ ι ω) (n : Machine τ ι ο) (R : σ → τ → Prop)
    (observe : List ω → List ο) (Ok : ι → Prop) : Prop where
  step : ∀ s t i, R s t → Ok i → ∃ s' t', (m.step s i).1 = some s' ∧
    n.step t i = (some t', observe (m.step s i).2) ∧ R s' t'

/-- **A simulation lifts to runs**: both machines reach related states and the observed
trace of `m` is the trace of `n`, step for step. -/
theorem Simulates.run {m : Machine σ ι ω} {n : Machine τ ι ο} {R : σ → τ → Prop}
    {observe : List ω → List ο} {Ok : ι → Prop} (h : Simulates m n R observe Ok) {is : List ι}
    (hok : ∀ i ∈ is, Ok i) : ∀ {s t}, R s t → ∃ s' t', m.final s is = some s' ∧
      n.final t is = some t' ∧ R s' t' ∧ n.trace t is = (m.trace s is).map observe := by
  induction is with
  | nil => intro s t hR; exact ⟨s, t, rfl, rfl, hR, rfl⟩
  | cons i is ih =>
      intro s t hR
      obtain ⟨s₁, t₁, hs₁, ht₁, hR₁⟩ := h.step s t i hR (hok i (List.mem_cons_self ..))
      obtain ⟨s₂, t₂, hs₂, ht₂, hR₂, htr⟩ :=
        ih (fun j hj => hok j (List.mem_cons_of_mem _ hj)) hR₁
      have hn : (n.step t i).1 = some t₁ := by rw [ht₁]
      refine ⟨s₂, t₂, by rw [final_cons hs₁, hs₂], by rw [final_cons hn, ht₂], hR₂, ?_⟩
      rw [trace_cons hs₁, trace_cons hn, List.map_cons, htr, ht₁]

/-- The machine ignores the input: no output, and no change of state. -/
def Silent (m : Machine σ ι ω) (i : ι) : Prop := ∀ s, m.step s i = (some s, [])

/-- Deleting an ignored input from a run changes none of its outputs. -/
theorem Silent.outputs_delete {m : Machine σ ι ω} {i : ι} (h : m.Silent i) (xs ys : List ι) :
    ∀ s, m.outputs s (xs ++ i :: ys) = m.outputs s (xs ++ ys) := by
  induction xs with
  | nil => intro s; simp [outputs, trace, h s]
  | cons x xs ih =>
      intro s
      simp only [outputs, List.cons_append, trace, List.flatten_cons, List.append_cancel_left_eq]
      cases (m.step s x).1 with
      | none => rfl
      | some s' => exact ih s'

/-- The machine does the same on both inputs. -/
def Alike (m : Machine σ ι ω) (i j : ι) : Prop := ∀ s, m.step s i = m.step s j

/-- The one in place of the other changes none of the outputs. -/
theorem Alike.outputs_replace {m : Machine σ ι ω} {i j : ι} (h : m.Alike i j) (xs ys : List ι) :
    ∀ s, m.outputs s (xs ++ i :: ys) = m.outputs s (xs ++ j :: ys) := by
  induction xs with
  | nil => intro s; simp [outputs, trace, h s]
  | cons x xs ih =>
      intro s
      simp only [outputs, List.cons_append, trace, List.flatten_cons, List.append_cancel_left_eq]
      cases (m.step s x).1 with
      | none => rfl
      | some s' => exact ih s'

end Machine
end Mealy
