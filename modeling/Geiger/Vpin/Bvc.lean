import Mathlib.Algebra.Order.Field.Basic
import Mathlib.Analysis.Real.Sqrt

/-!
# Bulk volume classification

The normal distribution function and the square root come from outside the
exact field and are parameters of the model.
-/

namespace Geiger

/-- The functions on floats that are not field operations. -/
structure Libm (K : Type*) where
  sqrt : K → K
  standardNormalCdf : K → K

/-- Exact reals, with an arbitrary distribution function into the unit interval. -/
noncomputable def Libm.exact (Φ : ℝ → Set.Icc (0 : ℝ) 1) : Libm ℝ where
  sqrt := Real.sqrt
  standardNormalCdf x := Φ x

namespace Bvc

variable {K : Type} [Field K] [LinearOrder K]

/-- Buy-side fraction of a bucket's volume; refused unless sigma is positive. -/
def buyFraction (m : Libm K) (deltaP sigma : K) : Option K :=
  if 0 < sigma then some (m.standardNormalCdf (deltaP / sigma)) else none

def classify (m : Libm K) (deltaP sigma volume : K) : Option (K × K) := do
  let frac ← buyFraction m deltaP sigma
  let buy := volume * frac
  return (buy, volume - buy)

theorem classify_of_pos (m : Libm K) (deltaP volume : K) {sigma : K} (h : 0 < sigma) :
    classify m deltaP sigma volume =
      some (volume * m.standardNormalCdf (deltaP / sigma),
        volume - volume * m.standardNormalCdf (deltaP / sigma)) := by
  simp [classify, buyFraction, h]

theorem classify_of_not_pos (m : Libm K) (deltaP volume : K) {sigma : K} (h : ¬ 0 < sigma) :
    classify m deltaP sigma volume = none := by
  simp [classify, buyFraction, h]

end Bvc

end Geiger
