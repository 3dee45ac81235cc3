import Mathlib.Algebra.Order.BigOperators.Group.List
import Mathlib.Algebra.BigOperators.Ring.List
import Mathlib.Algebra.Order.Field.Basic
import Mathlib.Order.Interval.Set.Defs

/-!
# Ratios of sums

The total of the numerators over the total of the positive weights lies
between the smallest and the largest individual ratio.
-/

namespace Geiger.RatioOfSums

variable {K : Type*} [Field K]

def ratio (ps : List (K × K)) : K := (ps.map Prod.fst).sum / (ps.map Prod.snd).sum

/-- A common factor of all pairs cancels. -/
theorem ratio_map_mul {s : K} (hs : s ≠ 0) (ps : List (K × K)) :
    ratio (ps.map fun p ↦ (s * p.1, s * p.2)) = ratio ps := by
  have hfst : ((ps.map fun p ↦ (s * p.1, s * p.2)).map Prod.fst).sum =
      s * (ps.map Prod.fst).sum := by
    rw [List.map_map, ← List.sum_map_mul_left]
    rfl
  have hsnd : ((ps.map fun p ↦ (s * p.1, s * p.2)).map Prod.snd).sum =
      s * (ps.map Prod.snd).sum := by
    rw [List.map_map, ← List.sum_map_mul_left]
    rfl
  rw [ratio, hfst, hsnd, mul_div_mul_left _ _ hs, ratio]

variable [LinearOrder K] [IsStrictOrderedRing K]

theorem sum_weights_pos {ps : List (K × K)} (hne : ps ≠ []) (hpos : ∀ p ∈ ps, 0 < p.2) :
    0 < (ps.map Prod.snd).sum := by
  apply List.sum_pos
  · intro w hw
    obtain ⟨p, hp, rfl⟩ := List.mem_map.mp hw
    exact hpos p hp
  · simpa using hne

theorem le_ratio {ps : List (K × K)} {lo : K} (hne : ps ≠ []) (hpos : ∀ p ∈ ps, 0 < p.2)
    (hlo : ∀ p ∈ ps, lo ≤ p.1 / p.2) : lo ≤ ratio ps := by
  unfold ratio
  rw [le_div_iff₀ (sum_weights_pos hne hpos), ← List.sum_map_mul_left]
  apply List.sum_le_sum
  intro p hp
  exact (le_div_iff₀ (hpos p hp)).mp (hlo p hp)

theorem ratio_le {ps : List (K × K)} {hi : K} (hne : ps ≠ []) (hpos : ∀ p ∈ ps, 0 < p.2)
    (hhi : ∀ p ∈ ps, p.1 / p.2 ≤ hi) : ratio ps ≤ hi := by
  unfold ratio
  rw [div_le_iff₀ (sum_weights_pos hne hpos), ← List.sum_map_mul_left]
  apply List.sum_le_sum
  intro p hp
  exact (div_le_iff₀ (hpos p hp)).mp (hhi p hp)

/-- The mediant inequality for a nonempty list of positively weighted pairs. -/
theorem ratio_mem_Icc {ps : List (K × K)} {lo hi : K} (hne : ps ≠ [])
    (hpos : ∀ p ∈ ps, 0 < p.2) (h : ∀ p ∈ ps, p.1 / p.2 ∈ Set.Icc lo hi) :
    ratio ps ∈ Set.Icc lo hi :=
  ⟨le_ratio hne hpos fun p hp ↦ (h p hp).1, ratio_le hne hpos fun p hp ↦ (h p hp).2⟩

end Geiger.RatioOfSums
