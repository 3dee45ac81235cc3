import Mathlib.Algebra.BigOperators.Group.List.Basic
import Mathlib.Tactic.Ring

/-!
# The potential method

Items are taken one after the other, each at a cost that depends on a state.  If
every item is worth its credit, up to its own debt and the drop of a potential,
then so are all items together.
-/

namespace Geiger.Potential

variable {σ ι : Type*}

def costs (next : σ → ι → σ) (cost : σ → ι → ℕ) : σ → List ι → List ℕ
  | _, [] => []
  | s, i :: is => cost s i :: costs next cost (next s i) is

variable {next : σ → ι → σ} {cost : σ → ι → ℕ}

@[simp] theorem length_costs (s : σ) (is : List ι) :
    (costs next cost s is).length = is.length := by
  induction is generalizing s with
  | nil => rfl
  | cons i is ih => simp [costs, ih]

theorem costs_append (s : σ) (is js : List ι) :
    costs next cost s (is ++ js) = costs next cost s is ++ costs next cost (is.foldl next s) js := by
  induction is generalizing s with
  | nil => rfl
  | cons i is ih => simp [costs, ih]

theorem sum_costs_affine {unit : ℕ} {excess : σ → ι → ℕ}
    (h : ∀ s i, cost s i = unit * (excess s i + 1)) (s : σ) (is : List ι) :
    (costs next cost s is).sum = unit * ((costs next excess s is).sum + is.length) := by
  induction is generalizing s with
  | nil => rfl
  | cons i is ih =>
      simp only [costs, List.sum_cons, List.length_cons, ih, h]
      ring

/-- The bound of the potential method, from below. -/
theorem credit_le_sum_costs {potential : σ → ℕ} {credit debt : ι → ℕ}
    (h : ∀ s i, credit i + potential (next s i) ≤ cost s i + debt i + potential s)
    (s : σ) (is : List ι) :
    (is.map credit).sum + potential (is.foldl next s) ≤
      (costs next cost s is).sum + (is.map debt).sum + potential s := by
  induction is generalizing s with
  | nil => simp [costs]
  | cons i is ih =>
      have hstep := h s i
      have hrest := ih (next s i)
      simp only [costs, List.map_cons, List.sum_cons, List.foldl_cons]
      omega

end Geiger.Potential
