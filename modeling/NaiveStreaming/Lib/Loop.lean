import Mathlib.Data.List.Forall2

/-!
# Loops that may not end, and loops whose turns may be undefined

A `while` loop is a turn on a state, which goes on with another state, exits with a result, or
does not end because a loop inside it does not.  `loop` runs it for a number of turns; that the
loop ends means that some number is enough.  A loop over a list is `List.mapM` or
`List.foldlM` in `Option`, where `none` stands for a turn without defined behaviour.

## Main definitions

* `loop` — a `while` loop, run for at most so many turns.

## Main results

* `loop_ends` — the rule of the variant.
* `loop_eq_none` — a loop that never exits.
* `counting_ends`, `counting_eq_none` — the two rules for a loop that counts up.
* `mapM_eq_some_iff`, `exists_results`, `foldlM_invariant` — loops over a list.
-/

namespace Loop

variable {σ ρ α β : Type*}

/-- At most `fuel` turns of a loop. -/
def loop (turn : σ → Option (σ ⊕ ρ)) : ℕ → σ → Option ρ
  | 0, _ => none
  | fuel + 1, s =>
    match turn s with
    | none => none
    | some (.inl s') => loop turn fuel s'
    | some (.inr result) => some result

/-- **The variant.**  If from every state of the invariant a turn exits as promised, or keeps
the invariant and makes the variant smaller, then the loop ends as promised, within any number
of turns above the variant. -/
theorem loop_ends {turn : σ → Option (σ ⊕ ρ)} (Inv : σ → Prop) (Post : ρ → Prop)
    (variant : σ → ℕ)
    (hturn : ∀ s, Inv s → (∃ s', turn s = some (.inl s') ∧ Inv s' ∧ variant s' < variant s) ∨
      ∃ result, turn s = some (.inr result) ∧ Post result) :
    ∀ fuel s, Inv s → variant s < fuel →
      ∃ result, loop turn fuel s = some result ∧ Post result := by
  intro fuel
  induction fuel with
  | zero => intro s _ hfuel; omega
  | succ fuel ih =>
      intro s hs hfuel
      rcases hturn s hs with ⟨s', hstep, hs', hlt⟩ | ⟨result, hstep, hpost⟩
      · simpa only [loop, hstep] using ih s' hs' (by omega)
      · exact ⟨result, by simp only [loop, hstep], hpost⟩

/-- **A loop that never exits.**  If from every state of the invariant a turn does not end, or
goes on and keeps the invariant, then no number of turns is enough. -/
theorem loop_eq_none {turn : σ → Option (σ ⊕ ρ)} (Inv : σ → Prop)
    (hturn : ∀ s, Inv s → turn s = none ∨ ∃ s', turn s = some (.inl s') ∧ Inv s') :
    ∀ fuel s, Inv s → loop turn fuel s = none := by
  intro fuel
  induction fuel with
  | zero => intro s _; rfl
  | succ fuel ih =>
      intro s hs
      rcases hturn s hs with hstep | ⟨s', hstep, hs'⟩
      · simp only [loop, hstep]
      · simpa only [loop, hstep] using ih s' hs'

/-- **Counting up.**  A loop that goes on to the next index below `n`, and exits as promised
there, ends within any number of turns above `n`. -/
theorem counting_ends {turn : σ → Option (σ ⊕ ρ)} (Inv : σ → Prop) (Post : ρ → Prop)
    (index : σ → ℕ) {n : ℕ}
    (hnext : ∀ s, Inv s → index s < n →
      ∃ s', turn s = some (.inl s') ∧ Inv s' ∧ index s' = index s + 1)
    (hexit : ∀ s, Inv s → n ≤ index s → ∃ result, turn s = some (.inr result) ∧ Post result)
    {fuel : ℕ} (hfuel : n < fuel) {s : σ} (hs : Inv s) :
    ∃ result, loop turn fuel s = some result ∧ Post result := by
  refine loop_ends Inv Post (n - index ·) ?_ fuel s hs (by omega)
  intro s hs
  by_cases hlt : index s < n
  · left
    obtain ⟨s', hstep, hs', hindex⟩ := hnext s hs hlt
    exact ⟨s', hstep, hs', by omega⟩
  · right
    exact hexit s hs (Nat.le_of_not_lt hlt)

/-- **Counting up to a turn that does not end.**  A loop that goes on at most to the next index
below `last`, and does not end its turn there, never exits. -/
theorem counting_eq_none {turn : σ → Option (σ ⊕ ρ)} (index : σ → ℕ) {last : ℕ}
    (hnext : ∀ s, index s < last →
      turn s = none ∨ ∃ s', turn s = some (.inl s') ∧ index s' = index s + 1)
    (hlast : ∀ s, index s = last → turn s = none) (fuel : ℕ) {s : σ} (hs : index s ≤ last) :
    loop turn fuel s = none := by
  refine loop_eq_none (index · ≤ last) ?_ fuel s hs
  intro s hle
  by_cases heq : index s = last
  · exact .inl (hlast s heq)
  · rcases hnext s (Nat.lt_of_le_of_ne hle heq) with hnone | ⟨s', hstep, hindex⟩
    · exact .inl hnone
    · exact .inr ⟨s', hstep, by omega⟩

/-! ## Loops over a list -/

/-- The loop is defined when every turn is, and its results are those of the turns. -/
theorem mapM_eq_some_iff {f : α → Option β} {as : List α} {bs : List β} :
    as.mapM f = some bs ↔ List.Forall₂ (fun a b => f a = some b) as bs := by
  induction as generalizing bs with
  | nil =>
      rw [List.forall₂_nil_left_iff]
      simp [eq_comm]
  | cons a as ih =>
      rw [List.forall₂_cons_left_iff]
      cases hfa : f a with
      | none => simp [hfa]
      | some b =>
          cases hrest : as.mapM f with
          | none =>
              have hnone : ∀ u, ¬ List.Forall₂ (fun a b => f a = some b) as u := by
                intro u hu
                rw [ih.mpr hu] at hrest
                cases hrest
              simp [hfa, hrest, hnone]
          | some rest =>
              simp only [List.mapM_cons, hfa, hrest, ← ih]
              simp [eq_comm]

/-- A loop whose turns are all defined has results. -/
theorem exists_results {f : α → Option β} {as : List α} (h : ∀ a ∈ as, ∃ b, f a = some b) :
    ∃ bs, List.Forall₂ (fun a b => f a = some b) as bs := by
  induction as with
  | nil => exact ⟨[], .nil⟩
  | cons a as ih =>
      obtain ⟨b, hturn⟩ := h a (List.mem_cons_self ..)
      obtain ⟨bs, hrest⟩ := ih fun x hx => h x (List.mem_cons_of_mem _ hx)
      exact ⟨b :: bs, .cons hturn hrest⟩

theorem exists_turn {f : α → Option β} {as : List α} {bs : List β}
    (h : List.Forall₂ (fun a b => f a = some b) as bs) {a : α} (ha : a ∈ as) :
    ∃ b ∈ bs, f a = some b := by
  induction h with
  | nil => exact absurd ha List.not_mem_nil
  | cons hturn _ ih =>
      rcases List.mem_cons.mp ha with heq | hrest
      · exact ⟨_, List.mem_cons_self .., heq ▸ hturn⟩
      · obtain ⟨b, hb, hfb⟩ := ih hrest
        exact ⟨b, List.mem_cons_of_mem _ hb, hfb⟩

theorem exists_source {f : α → Option β} {as : List α} {bs : List β}
    (h : List.Forall₂ (fun a b => f a = some b) as bs) {b : β} (hb : b ∈ bs) :
    ∃ a ∈ as, f a = some b := by
  induction h with
  | nil => exact absurd hb List.not_mem_nil
  | cons hturn _ ih =>
      rcases List.mem_cons.mp hb with heq | hrest
      · exact ⟨_, List.mem_cons_self .., heq ▸ hturn⟩
      · obtain ⟨a, ha, hfa⟩ := ih hrest
        exact ⟨a, List.mem_cons_of_mem _ ha, hfa⟩

/-- An invariant under which every turn is defined holds when the loop ends. -/
theorem foldlM_invariant {f : σ → α → Option σ} (Inv : σ → Prop) {as : List α}
    (h : ∀ s, ∀ a ∈ as, Inv s → ∃ s', f s a = some s' ∧ Inv s') :
    ∀ {s}, Inv s → ∃ s', as.foldlM f s = some s' ∧ Inv s' := by
  induction as with
  | nil => intro s hs; exact ⟨s, rfl, hs⟩
  | cons a as ih =>
      intro s hs
      obtain ⟨s', hstep, hs'⟩ := h s a (List.mem_cons_self ..) hs
      obtain ⟨t, hrest, ht⟩ := ih (fun s b hb => h s b (List.mem_cons_of_mem _ hb)) hs'
      exact ⟨t, by simp [List.foldlM_cons, hstep, hrest], ht⟩

end Loop
