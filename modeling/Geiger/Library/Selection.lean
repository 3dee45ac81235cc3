import Mathlib.Data.List.Perm.Basic
import Mathlib.Data.List.ProdSigma
import Mathlib.Order.Lattice

/-!
# The last best of a list

Selection by an iterator's `max_by`: of equally good elements the last one wins.
Any element of a list, and any combination of a product, can be moved to the end.
-/

namespace Geiger.Selection

variable {α β K : Type*} [LinearOrder K]

section LastMax

variable (key : α → K)

def lastMax : List α → Option α
  | [] => none
  | x :: xs => some (xs.foldl (fun best y ↦ if key best ≤ key y then y else best) x)

variable {key} {xs : List α} {x : α}

theorem lastMax_eq_none_iff : lastMax key xs = none ↔ xs = [] := by
  cases xs <;> simp [lastMax]

theorem foldl_lastMax (x : α) (xs : List α) :
    xs.foldl (fun best y ↦ if key best ≤ key y then y else best) x ∈ x :: xs ∧
      ∀ y ∈ x :: xs,
        key y ≤ key (xs.foldl (fun best y ↦ if key best ≤ key y then y else best) x) := by
  induction xs generalizing x with
  | nil => simp
  | cons y xs ih =>
      rw [List.foldl_cons]
      by_cases hle : key x ≤ key y
      · obtain ⟨hmem, hmax⟩ := ih y
        rw [if_pos hle]
        refine ⟨List.mem_cons_of_mem x hmem, List.forall_mem_cons.mpr ⟨?_, hmax⟩⟩
        exact hle.trans (hmax y List.mem_cons_self)
      · obtain ⟨hmem, hmax⟩ := ih x
        obtain ⟨hfirst, hrest⟩ := List.forall_mem_cons.mp hmax
        rw [if_neg hle]
        refine ⟨?_, List.forall_mem_cons.mpr ⟨hfirst, List.forall_mem_cons.mpr ⟨?_, hrest⟩⟩⟩
        · rcases List.mem_cons.mp hmem with heq | hmem
          · rw [heq]
            exact List.mem_cons_self
          · exact List.mem_cons_of_mem x (List.mem_cons_of_mem y hmem)
        · exact (le_of_not_ge hle).trans hfirst

theorem lastMax_spec (h : lastMax key xs = some x) : x ∈ xs ∧ ∀ y ∈ xs, key y ≤ key x := by
  cases xs with
  | nil => cases h
  | cons y ys =>
      obtain rfl := Option.some.inj h
      exact foldl_lastMax y ys

/-- A best element wins from the last place. -/
theorem lastMax_concat (h : ∀ y ∈ xs, key y ≤ key x) : lastMax key (xs ++ [x]) = some x := by
  cases xs with
  | nil => rfl
  | cons y ys =>
      rw [List.cons_append, lastMax, List.foldl_append, List.foldl_cons, List.foldl_nil,
        if_pos (h _ (foldl_lastMax y ys).1)]

end LastMax

theorem exists_perm_concat {x : α} {xs : List α} (h : x ∈ xs) : ∃ ys, (ys ++ [x]).Perm xs := by
  obtain ⟨before, after, rfl⟩ := List.append_of_mem h
  exact ⟨before ++ after, (List.perm_append_singleton x _).trans List.perm_middle.symm⟩

theorem map_product {γ : Type*} (f : α × β → γ) (xs : List α) (ys : List β) :
    (xs ×ˢ ys).map f = (xs.map fun x ↦ ys.map fun y ↦ f (x, y)).flatten := by
  induction xs with
  | nil => rfl
  | cons x xs ih =>
      rw [List.product_cons, List.map_append, ih, List.map_map, List.map_cons, List.flatten_cons]
      rfl

theorem product_concat (xs : List α) (x : α) (ys : List β) (y : β) :
    ∃ cells, (xs ++ [x]) ×ˢ (ys ++ [y]) = cells ++ [(x, y)] := by
  induction xs with
  | nil => exact ⟨ys.map (Prod.mk x), by simp [List.product_cons]⟩
  | cons z xs ih =>
      obtain ⟨cells, hcells⟩ := ih
      refine ⟨(ys ++ [y]).map (Prod.mk z) ++ cells, ?_⟩
      rw [List.cons_append, List.product_cons, hcells, List.append_assoc]

end Geiger.Selection
