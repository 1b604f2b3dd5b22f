import Mathlib.Data.List.Nodup
import Mathlib.Data.List.Perm.Basic
import Mathlib.Data.List.ProdSigma
import Mathlib.Tactic.Ring

/-!
# Grids in row-major order, and stores into a list

A grid of `width` columns and `height` rows is laid out row by row: the cell `(x, y)` is at
`y * width + x`.  An array is filled by stores, each to an index.

## Main definitions

* `stored` — an array after a sequence of stores.

## Main results

* `rowMajor_lt`, `rowMajor_inj`, `rowMajor_perm` — the layout is a bijection.
* `blocks_perm` — cells of a fixed number of elements cover the array.
* `getElem?_stored_of_mem` — an index that is stored to once holds what was stored.
-/

namespace Raster

theorem rowMajor_lt {width height x y : ℕ} (hx : x < width) (hy : y < height) :
    y * width + x < width * height := by
  calc y * width + x < y * width + width := by omega
    _ = (y + 1) * width := by ring
    _ ≤ height * width := Nat.mul_le_mul_right width hy
    _ = width * height := Nat.mul_comm ..

theorem rowMajor_mod {width x : ℕ} (hx : x < width) (y : ℕ) : (y * width + x) % width = x := by
  rw [Nat.add_comm, Nat.add_mul_mod_self_right, Nat.mod_eq_of_lt hx]

theorem rowMajor_div {width x : ℕ} (hx : x < width) (y : ℕ) : (y * width + x) / width = y := by
  rw [Nat.add_comm, Nat.add_mul_div_right x y (by omega), Nat.div_eq_of_lt hx, Nat.zero_add]

/-- Different cells have different offsets. -/
theorem rowMajor_inj {width x y x' y' : ℕ} (hx : x < width) (hx' : x' < width) :
    y * width + x = y' * width + x' ↔ y = y' ∧ x = x' := by
  constructor
  · intro h
    constructor
    · rw [← rowMajor_div hx y, h, rowMajor_div hx']
    · rw [← rowMajor_mod hx y, h, rowMajor_mod hx']
  · intro h
    rw [h.1, h.2]

/-- **The offsets of a grid**, taken column by column, are all indices, each once. -/
theorem rowMajor_perm (width height : ℕ) :
    (((List.range width).product (List.range height)).map fun p => p.2 * width + p.1).Perm
      (List.range (width * height)) := by
  have hnodup : (((List.range width).product (List.range height)).map
      fun p => p.2 * width + p.1).Nodup := by
    refine List.Nodup.map_on ?_ (List.nodup_range.product List.nodup_range)
    intro p hp q hq heq
    obtain ⟨hpx, -⟩ := List.mem_product.mp hp
    obtain ⟨hqx, -⟩ := List.mem_product.mp hq
    obtain ⟨hy, hx⟩ := (rowMajor_inj (List.mem_range.mp hpx) (List.mem_range.mp hqx)).mp heq
    exact Prod.ext hx hy
  rw [List.perm_ext_iff_of_nodup hnodup List.nodup_range]
  intro offset
  simp only [List.mem_map, List.mem_range]
  constructor
  · intro h
    obtain ⟨p, hp, rfl⟩ := h
    obtain ⟨hx, hy⟩ := List.mem_product.mp hp
    exact rowMajor_lt (List.mem_range.mp hx) (List.mem_range.mp hy)
  · intro hlt
    have hwidth : 0 < width := Nat.pos_of_mul_pos_right (Nat.zero_lt_of_lt hlt)
    refine ⟨(offset % width, offset / width), ?_, Nat.div_add_mod' offset width⟩
    refine List.mem_product.mpr ⟨List.mem_range.mpr (Nat.mod_lt offset hwidth), ?_⟩
    exact List.mem_range.mpr (Nat.div_lt_of_lt_mul hlt)

/-- The indices up to `n * k` are those of `n` blocks of `k`. -/
theorem range_mul_eq_flatMap (n k : ℕ) :
    List.range (n * k) =
      (List.range n).flatMap fun block => (List.range k).map (block * k + ·) := by
  induction n with
  | zero => simp
  | succ n ih =>
      rw [Nat.succ_mul, List.range_add, ih, List.range_succ, List.flatMap_append]
      simp

/-- **Blocks of `k` elements** at all indices up to `n` cover the indices up to `n * k`, each
once, in whatever order the elements of a block are. -/
theorem blocks_perm {indices : List ℕ} {n k : ℕ} {block : ℕ → List ℕ}
    (hindices : indices.Perm (List.range n))
    (hblock : ∀ i, (block i).Perm ((List.range k).map (i * k + ·))) :
    (indices.flatMap block).Perm (List.range (n * k)) := by
  rw [range_mul_eq_flatMap]
  exact hindices.flatMap fun i _ => hblock i

/-! ## Stores -/

section
variable {α : Type*}

/-- An array after stores, each of an element to an index. -/
def stored (buffer : List α) (stores : List (ℕ × α)) : List α :=
  stores.foldl (fun buffer store => buffer.set store.1 store.2) buffer

@[simp] theorem stored_cons (buffer : List α) (store : ℕ × α) (stores : List (ℕ × α)) :
    stored buffer (store :: stores) = stored (buffer.set store.1 store.2) stores := rfl

@[simp] theorem length_stored (buffer : List α) (stores : List (ℕ × α)) :
    (stored buffer stores).length = buffer.length := by
  induction stores generalizing buffer with
  | nil => rfl
  | cons store stores ih => rw [stored_cons, ih, List.length_set]

theorem getElem?_stored_of_not_mem (buffer : List α) {stores : List (ℕ × α)} {i : ℕ}
    (h : i ∉ stores.map Prod.fst) : (stored buffer stores)[i]? = buffer[i]? := by
  induction stores generalizing buffer with
  | nil => rfl
  | cons store stores ih =>
      rw [List.map_cons, List.mem_cons, not_or] at h
      rw [stored_cons, ih _ h.2, List.getElem?_set_ne (Ne.symm h.1)]

/-- **An index that is stored to once** holds what was stored. -/
theorem getElem?_stored_of_mem {buffer : List α} {stores : List (ℕ × α)}
    (hnodup : (stores.map Prod.fst).Nodup) {store : ℕ × α} (hmem : store ∈ stores)
    (hlt : store.1 < buffer.length) : (stored buffer stores)[store.1]? = some store.2 := by
  induction stores generalizing buffer with
  | nil => exact absurd hmem List.not_mem_nil
  | cons first rest ih =>
      rw [List.map_cons, List.nodup_cons] at hnodup
      rcases List.mem_cons.mp hmem with heq | hrest
      · subst heq
        rw [stored_cons, getElem?_stored_of_not_mem _ hnodup.1, List.getElem?_set_self hlt]
      · exact ih hnodup.2 hrest (by rwa [List.length_set])

/-- A slice of a list, by its elements. -/
theorem take_drop_eq {l : List α} (block : List α) {i : ℕ}
    (h : ∀ j < block.length, l[i + j]? = block[j]?) : (l.drop i).take block.length = block := by
  refine List.ext_getElem? fun j => ?_
  by_cases hlt : j < block.length
  · rw [List.getElem?_take_of_lt hlt, List.getElem?_drop, h j hlt]
  · have hge := Nat.not_lt.mp hlt
    have hshort := (List.length_take_le block.length (l.drop i)).trans hge
    rw [List.getElem?_eq_none hshort, List.getElem?_eq_none hge]

end

end Raster
