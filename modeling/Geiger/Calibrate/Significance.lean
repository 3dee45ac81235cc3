import Geiger.Vpin.Bvc
import Mathlib.Analysis.SpecialFunctions.Sigmoid
import Mathlib.Data.UInt

/-!
# The two-proportion test

The standard error vanishes at the four corners of the unit square, and two of them
are far from the diagonal.
-/

namespace Geiger.Calibrate

section Test

variable {K : Type} [Field K] [LinearOrder K]

def minCompared : UInt64 := 30

def standardError (m : Libm K) (p1 : K) (n1 : UInt64) (p2 : K) (n2 : UInt64) : K :=
  m.sqrt (p1 * (1 - p1) / (n1.toNat : K) + p2 * (1 - p2) / (n2.toNat : K))

def twoProportionPValue (m : Libm K) (p1 : Option K) (n1 : UInt64) (p2 : Option K)
    (n2 : UInt64) : Option K := do
  if n1 < minCompared ∨ n2 < minCompared then none
  let p1 ← p1
  let p2 ← p2
  let se := standardError m p1 n1 p2 n2
  if se = 0 then return 1
  let z := (p1 - p2) / se
  return ((2 : ℕ) : K) * (1 - m.standardNormalCdf |z|)

theorem twoProportionPValue_of_le (m : Libm K) (p1 p2 : K) {n1 n2 : UInt64}
    (hn1 : minCompared ≤ n1) (hn2 : minCompared ≤ n2) :
    twoProportionPValue m (some p1) n1 (some p2) n2 =
      if standardError m p1 n1 p2 n2 = 0 then some 1
      else some (((2 : ℕ) : K) *
        (1 - m.standardNormalCdf |(p1 - p2) / standardError m p1 n1 p2 n2|)) := by
  have hcompared : ¬ (n1 < minCompared ∨ n2 < minCompared) :=
    not_or.mpr ⟨UInt64.not_lt.mpr hn1, UInt64.not_lt.mpr hn2⟩
  simp only [twoProportionPValue, if_neg hcompared]
  split <;> simp_all

end Test

/-- What the test relies on of the normal distribution function. -/
structure NormalShape (Φ : ℝ → ℝ) : Prop where
  strictMono : StrictMono Φ
  zero : Φ 0 = 0.5
  neg : ∀ x, Φ (-x) = 1 - Φ x
  mem_Ioo : ∀ x, Φ x ∈ Set.Ioo (0 : ℝ) 1

structure TellsApart (m : Libm ℝ) (p1 : ℝ) (n1 : UInt64) (p2 : ℝ) (n2 : UInt64) : Prop where
  one_iff : twoProportionPValue m (some p1) n1 (some p2) n2 = some 1 ↔ p1 = p2
  shortcut : standardError m p1 n1 p2 n2 = 0 → p1 = p2
  mem_Icc : ∃ r ∈ Set.Icc (0 : ℝ) 1, twoProportionPValue m (some p1) n1 (some p2) n2 = some r
  swap : twoProportionPValue m (some p1) n1 (some p2) n2 =
    twoProportionPValue m (some p2) n2 (some p1) n1

/-- One side always right, the other never. -/
def Opposite (p1 p2 : ℝ) : Prop := p1 = 0 ∧ p2 = 1 ∨ p1 = 1 ∧ p2 = 0

section Real

variable {Φ : ℝ → ℝ}

theorem NormalShape.twoTailed_mem_Ioc (hΦ : NormalShape Φ) (z : ℝ) :
    2 * (1 - Φ |z|) ∈ Set.Ioc (0 : ℝ) 1 := by
  have hhalf : 0.5 ≤ Φ |z| := hΦ.zero ▸ hΦ.strictMono.monotone (abs_nonneg z)
  have hone := (hΦ.mem_Ioo |z|).2
  norm_num at hhalf
  constructor <;> linarith

theorem NormalShape.twoTailed_eq_one_iff (hΦ : NormalShape Φ) (z : ℝ) :
    2 * (1 - Φ |z|) = 1 ↔ z = 0 := by
  have hhalf : 2 * (1 - Φ |z|) = 1 ↔ Φ |z| = Φ 0 := by
    rw [hΦ.zero]
    constructor <;> intro h <;> norm_num at h ⊢ <;> linarith
  rw [hhalf, hΦ.strictMono.injective.eq_iff, abs_eq_zero]

variable {p1 p2 : ℝ} {n1 n2 : UInt64}

theorem variance_nonneg {p : ℝ} (hp : p ∈ Set.Icc (0 : ℝ) 1) (n : UInt64) :
    0 ≤ p * (1 - p) / (n.toNat : ℝ) :=
  div_nonneg (mul_nonneg hp.1 (sub_nonneg.mpr hp.2)) (Nat.cast_nonneg _)

theorem variance_eq_zero_iff {p : ℝ} {n : UInt64} (hn : minCompared ≤ n) :
    p * (1 - p) / (n.toNat : ℝ) = 0 ↔ p = 0 ∨ p = 1 := by
  have hne : (n.toNat : ℝ) ≠ 0 := by
    have hle : 30 ≤ n.toNat := UInt64.le_iff_toNat_le.mp hn
    exact Nat.cast_ne_zero.mpr (Nat.ne_zero_of_lt hle)
  rw [div_eq_zero_iff, or_iff_left hne, mul_eq_zero, sub_eq_zero, eq_comm (a := (1 : ℝ))]

/-- The standard error vanishes exactly at the corners. -/
theorem standardError_eq_zero_iff (Φ : ℝ → ℝ) (h1 : p1 ∈ Set.Icc (0 : ℝ) 1)
    (h2 : p2 ∈ Set.Icc (0 : ℝ) 1) (hn1 : minCompared ≤ n1) (hn2 : minCompared ≤ n2) :
    standardError ⟨Real.sqrt, Φ⟩ p1 n1 p2 n2 = 0 ↔
      (p1 = 0 ∨ p1 = 1) ∧ (p2 = 0 ∨ p2 = 1) := by
  have hv1 := variance_nonneg h1 n1
  have hv2 := variance_nonneg h2 n2
  rw [standardError, Real.sqrt_eq_zero (add_nonneg hv1 hv2), add_eq_zero_iff_of_nonneg hv1 hv2,
    variance_eq_zero_iff hn1, variance_eq_zero_iff hn2]

theorem standardError_comm (m : Libm ℝ) :
    standardError m p1 n1 p2 n2 = standardError m p2 n2 p1 n1 := by
  rw [standardError, standardError, add_comm]

theorem twoProportionPValue_comm (m : Libm ℝ) (hn1 : minCompared ≤ n1)
    (hn2 : minCompared ≤ n2) : twoProportionPValue m (some p1) n1 (some p2) n2 =
      twoProportionPValue m (some p2) n2 (some p1) n1 := by
  rw [twoProportionPValue_of_le m p1 p2 hn1 hn2, twoProportionPValue_of_le m p2 p1 hn2 hn1,
    standardError_comm, abs_div, abs_div, abs_sub_comm]

/-- Away from the corners the standard error settles nothing. -/
theorem tellsApart_of_standardError_ne_zero (hΦ : NormalShape Φ) (hn1 : minCompared ≤ n1)
    (hn2 : minCompared ≤ n2) (hse : standardError ⟨Real.sqrt, Φ⟩ p1 n1 p2 n2 ≠ 0) :
    TellsApart ⟨Real.sqrt, Φ⟩ p1 n1 p2 n2 := by
  have hvalue := twoProportionPValue_of_le ⟨Real.sqrt, Φ⟩ p1 p2 hn1 hn2
  rw [if_neg hse, Nat.cast_two] at hvalue
  refine ⟨?_, fun h ↦ absurd h hse, ?_, twoProportionPValue_comm _ hn1 hn2⟩
  · rw [hvalue, Option.some_inj, hΦ.twoTailed_eq_one_iff, div_eq_zero_iff, or_iff_left hse,
      sub_eq_zero]
  · exact ⟨_, Set.Ioc_subset_Icc_self (hΦ.twoTailed_mem_Ioc _), hvalue⟩

theorem tellsApart_of_standardError_eq_zero (hn1 : minCompared ≤ n1) (hn2 : minCompared ≤ n2)
    (hse : standardError ⟨Real.sqrt, Φ⟩ p1 n1 p2 n2 = 0) :
    TellsApart ⟨Real.sqrt, Φ⟩ p1 n1 p2 n2 ↔ p1 = p2 := by
  have hvalue := twoProportionPValue_of_le ⟨Real.sqrt, Φ⟩ p1 p2 hn1 hn2
  rw [if_pos hse] at hvalue
  constructor
  · intro hapart
    exact hapart.shortcut hse
  · intro heq
    exact ⟨iff_of_true hvalue heq, fun _ ↦ heq, ⟨1, ⟨zero_le_one, le_rfl⟩, hvalue⟩,
      twoProportionPValue_comm _ hn1 hn2⟩

/-- The test tells different proportions apart, except a side that is always right from
one that never is. -/
theorem tellsApart_iff (Φ : ℝ → ℝ) (hΦ : NormalShape Φ) (h1 : p1 ∈ Set.Icc (0 : ℝ) 1)
    (h2 : p2 ∈ Set.Icc (0 : ℝ) 1) (hn1 : minCompared ≤ n1) (hn2 : minCompared ≤ n2) :
    TellsApart ⟨Real.sqrt, Φ⟩ p1 n1 p2 n2 ↔ ¬ Opposite p1 p2 := by
  by_cases hse : standardError ⟨Real.sqrt, Φ⟩ p1 n1 p2 n2 = 0
  · rw [tellsApart_of_standardError_eq_zero hn1 hn2 hse]
    obtain ⟨hp1, hp2⟩ := (standardError_eq_zero_iff Φ h1 h2 hn1 hn2).mp hse
    rcases hp1 with rfl | rfl <;> rcases hp2 with rfl | rfl <;> simp [Opposite]
  · refine iff_of_true (tellsApart_of_standardError_ne_zero hΦ hn1 hn2 hse) ?_
    rw [standardError_eq_zero_iff Φ h1 h2 hn1 hn2] at hse
    rintro (⟨rfl, rfl⟩ | ⟨rfl, rfl⟩) <;> simp at hse

theorem normalShape_sigmoid : NormalShape Real.sigmoid where
  strictMono := Real.sigmoid_strictMono
  zero := by norm_num [Real.sigmoid_zero]
  neg := Real.sigmoid_neg
  mem_Ioo x := ⟨Real.sigmoid_pos x, Real.sigmoid_lt_one x⟩

theorem tellsApart_iff_sigmoid :
    TellsApart ⟨Real.sqrt, Real.sigmoid⟩ 0.95 200 0.6 200 ↔ ¬ Opposite 0.95 0.6 :=
  tellsApart_iff Real.sigmoid normalShape_sigmoid (by norm_num) (by norm_num) (by decide)
    (by decide)

/-- Thirty buckets without a hit against thirty with nothing else: the p-value is one. -/
theorem opposite_called_equal :
    twoProportionPValue ⟨Real.sqrt, Real.sigmoid⟩ (some 0) 30 (some 1) 30 = some 1 ∧
      ¬ TellsApart ⟨Real.sqrt, Real.sigmoid⟩ 0 30 1 30 := by
  have hse : standardError ⟨Real.sqrt, Real.sigmoid⟩ 0 30 1 30 = 0 := by simp [standardError]
  constructor
  · rw [twoProportionPValue_of_le _ 0 1 (by decide) (by decide), if_pos hse]
  · rw [tellsApart_of_standardError_eq_zero (by decide) (by decide) hse]
    exact zero_ne_one

/-! ## The sample of the reference -/

variable {n2' : UInt64}

theorem twoProportionPValue_eq_none_iff (m : Libm ℝ) :
    twoProportionPValue m (some p1) n1 (some p2) n2 = none ↔
      n1 < minCompared ∨ n2 < minCompared := by
  by_cases hfew : n1 < minCompared ∨ n2 < minCompared
  · rw [twoProportionPValue, if_pos hfew]
    exact iff_of_true rfl hfew
  · refine iff_of_false ?_ hfew
    rw [not_or, UInt64.not_lt, UInt64.not_lt] at hfew
    rw [twoProportionPValue_of_le _ p1 p2 hfew.1 hfew.2]
    split <;> exact Option.some_ne_none _

/-- The sample sizes between which a test against `p2` cannot tell. -/
def AlikeFor (p2 : ℝ) (n2 n2' : UInt64) : Prop :=
  n2 = n2' ∨ (n2 < minCompared ∧ n2' < minCompared) ∨
    (minCompared ≤ n2 ∧ minCompared ≤ n2' ∧ p2 = 1)

theorem eq_of_div_eq_div {a b c : ℝ} (ha : a ≠ 0) (h : a / b = a / c) : b = c := by
  rw [div_eq_mul_inv, div_eq_mul_inv] at h
  exact inv_inj.mp (mul_left_cancel₀ ha h)

/-- Off the corners a proportion's share of the standard error gives away its sample. -/
theorem standardError_inj (h1 : p1 ∈ Set.Icc (0 : ℝ) 1) (h2 : p2 ∈ Set.Ioo (0 : ℝ) 1)
    (h : standardError ⟨Real.sqrt, Φ⟩ p1 n1 p2 n2 =
      standardError ⟨Real.sqrt, Φ⟩ p1 n1 p2 n2') : n2 = n2' := by
  have hp2 := Set.Ioo_subset_Icc_self h2
  have hv1 := variance_nonneg h1 n1
  have hsum := (Real.sqrt_inj (add_nonneg hv1 (variance_nonneg hp2 n2))
    (add_nonneg hv1 (variance_nonneg hp2 n2'))).mp h
  have hne : p2 * (1 - p2) ≠ 0 := (mul_pos h2.1 (sub_pos.mpr h2.2)).ne'
  have hcast := eq_of_div_eq_div hne (add_left_cancel hsum)
  exact UInt64.toNat_inj.mp (Nat.cast_injective hcast)

theorem twoProportionPValue_inj (hΦ : StrictMono Φ) (h1 : 0 ≤ p1) (hlt : p1 < p2) (h2 : p2 < 1)
    (hn1 : minCompared ≤ n1) (hn2 : minCompared ≤ n2) (hn2' : minCompared ≤ n2')
    (h : twoProportionPValue ⟨Real.sqrt, Φ⟩ (some p1) n1 (some p2) n2 =
      twoProportionPValue ⟨Real.sqrt, Φ⟩ (some p1) n1 (some p2) n2') : n2 = n2' := by
  have hp1 : p1 ∈ Set.Icc (0 : ℝ) 1 := ⟨h1, (hlt.trans h2).le⟩
  have hp2 : p2 ∈ Set.Ioo (0 : ℝ) 1 := ⟨h1.trans_lt hlt, h2⟩
  have hnonneg (n : UInt64) : 0 ≤ standardError ⟨Real.sqrt, Φ⟩ p1 n1 p2 n := Real.sqrt_nonneg _
  have hse {n : UInt64} (hn : minCompared ≤ n) :
      standardError ⟨Real.sqrt, Φ⟩ p1 n1 p2 n ≠ 0 := by
    rw [ne_eq, standardError_eq_zero_iff Φ hp1 (Set.Ioo_subset_Icc_self hp2) hn1 hn]
    rintro ⟨-, hzero | hone⟩
    · exact hp2.1.ne' hzero
    · exact h2.ne hone
  rw [twoProportionPValue_of_le _ p1 p2 hn1 hn2, twoProportionPValue_of_le _ p1 p2 hn1 hn2',
    if_neg (hse hn2), if_neg (hse hn2'), Option.some_inj] at h
  have htwo : ((2 : ℕ) : ℝ) ≠ 0 := Nat.cast_ne_zero.mpr two_ne_zero
  have habs := hΦ.injective (sub_right_injective (mul_left_cancel₀ htwo h))
  rw [abs_div, abs_div] at habs
  have hdiff : |p1 - p2| ≠ 0 := abs_ne_zero.mpr (sub_ne_zero.mpr hlt.ne)
  have hsame := eq_of_div_eq_div hdiff habs
  rw [abs_of_nonneg (hnonneg n2), abs_of_nonneg (hnonneg n2')] at hsame
  exact standardError_inj hp1 hp2 hsame

/-- What the p-value of a lower proportion says about the sample of the higher one. -/
theorem twoProportionPValue_eq_iff (hΦ : StrictMono Φ) (h1 : 0 ≤ p1) (hlt : p1 < p2)
    (h2 : p2 ≤ 1) (hn1 : minCompared ≤ n1) :
    twoProportionPValue ⟨Real.sqrt, Φ⟩ (some p1) n1 (some p2) n2 =
        twoProportionPValue ⟨Real.sqrt, Φ⟩ (some p1) n1 (some p2) n2' ↔ AlikeFor p2 n2 n2' := by
  have hnone (n : UInt64) : twoProportionPValue ⟨Real.sqrt, Φ⟩ (some p1) n1 (some p2) n = none ↔
      n < minCompared := by
    rw [twoProportionPValue_eq_none_iff, or_iff_right (UInt64.not_lt.mpr hn1)]
  constructor
  · intro h
    by_cases hn2 : n2 < minCompared
    · have hn2' := (hnone n2').mp (h ▸ (hnone n2).mpr hn2)
      exact .inr (.inl ⟨hn2, hn2'⟩)
    · have hn2' : ¬ n2' < minCompared := fun hlt ↦ hn2 ((hnone n2).mp (h ▸ (hnone n2').mpr hlt))
      rw [UInt64.not_lt] at hn2 hn2'
      rcases h2.lt_or_eq with h2 | h2
      · exact .inl (twoProportionPValue_inj hΦ h1 hlt h2 hn1 hn2 hn2' h)
      · exact .inr (.inr ⟨hn2, hn2', h2⟩)
  · rintro (rfl | ⟨hn2, hn2'⟩ | ⟨hn2, hn2', rfl⟩)
    · rfl
    · rw [(hnone n2).mpr hn2, (hnone n2').mpr hn2']
    · have hse : standardError ⟨Real.sqrt, Φ⟩ p1 n1 1 n2 =
          standardError ⟨Real.sqrt, Φ⟩ p1 n1 1 n2' := by simp [standardError]
      rw [twoProportionPValue_of_le _ p1 1 hn1 hn2, twoProportionPValue_of_le _ p1 1 hn1 hn2', hse]

end Real

end Geiger.Calibrate
