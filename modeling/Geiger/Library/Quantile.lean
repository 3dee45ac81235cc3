import Mathlib.Algebra.Order.Floor.Semiring
import Mathlib.Data.List.GetD
import Mathlib.Data.List.Sort
import Mathlib.Order.Interval.Set.Defs
import Mathlib.Tactic.Linarith
import Mathlib.Tactic.Ring

/-!
# Interpolated quantiles of a sorted list

The value at a fractional rank is interpolated linearly between the entries at
the two nearest whole ranks.  It stays between any bounds of the list and is
monotone in the rank.
-/

namespace Geiger.Quantile

variable {K : Type*}

theorem getD_mem {xs : List K} {i : ℕ} {d : K} (h : i < xs.length) : xs.getD i d ∈ xs := by
  rw [List.getD_eq_getElem _ _ h]
  exact List.getElem_mem h

theorem getD_le_getD [Preorder K] {xs : List K} {d : K} (hsorted : xs.Pairwise (· ≤ ·))
    {i j : ℕ} (hij : i ≤ j) (hj : j < xs.length) : xs.getD i d ≤ xs.getD j d := by
  rw [List.getD_eq_getElem _ _ (hij.trans_lt hj), List.getD_eq_getElem _ _ hj]
  rcases hij.eq_or_lt with rfl | hlt
  · exact le_rfl
  · exact List.pairwise_iff_getElem.mp hsorted i j (hij.trans_lt hj) hj hlt

variable [Field K] [LinearOrder K]

theorem lerp_mem_Icc [IsStrictOrderedRing K] {lo hi a b t : K} (ha : a ∈ Set.Icc lo hi)
    (hb : b ∈ Set.Icc lo hi) (ht : t ∈ Set.Icc (0 : K) 1) :
    a * (1 - t) + b * t ∈ Set.Icc lo hi := by
  have ht' : 0 ≤ 1 - t := by linarith [ht.2]
  constructor
  · calc
      lo = lo * (1 - t) + lo * t := by ring
      _ ≤ a * (1 - t) + b * t :=
        add_le_add (mul_le_mul_of_nonneg_right ha.1 ht') (mul_le_mul_of_nonneg_right hb.1 ht.1)
  · calc
      a * (1 - t) + b * t ≤ hi * (1 - t) + hi * t :=
        add_le_add (mul_le_mul_of_nonneg_right ha.2 ht') (mul_le_mul_of_nonneg_right hb.2 ht.1)
      _ = hi := by ring

variable [FloorSemiring K]

/-- The entry at rank `r`, interpolated between the whole ranks around it. -/
def quantile (xs : List K) (r : K) : K :=
  xs.getD ⌊r⌋₊ 0 * (1 - (r - ⌊r⌋₊)) + xs.getD ⌈r⌉₊ 0 * (r - ⌊r⌋₊)

theorem ceil_lt_length {xs : List K} {r : K} (hlen : 0 < xs.length)
    (hr : r ≤ ((xs.length - 1 : ℕ) : K)) : ⌈r⌉₊ < xs.length := by
  have h : ⌈r⌉₊ ≤ xs.length - 1 := Nat.ceil_le.mpr hr
  omega

variable [IsStrictOrderedRing K]

theorem quantile_natCast (xs : List K) (i : ℕ) : quantile xs (i : K) = xs.getD i 0 := by
  simp [quantile]

theorem eq_floor_of_ceil_le {r : K} (hr : 0 ≤ r) (h : ⌈r⌉₊ ≤ ⌊r⌋₊) : r = (⌊r⌋₊ : K) := by
  apply le_antisymm _ (Nat.floor_le hr)
  exact (Nat.le_ceil r).trans (by exact_mod_cast h)

theorem sub_floor_mem_Icc {r : K} (hr : 0 ≤ r) : r - (⌊r⌋₊ : K) ∈ Set.Icc (0 : K) 1 := by
  have hlo := Nat.floor_le hr
  have hhi := Nat.lt_floor_add_one r
  constructor <;> linarith

theorem quantile_mem_Icc {xs : List K} {r lo hi : K} (hlen : 0 < xs.length) (hr : 0 ≤ r)
    (hrlen : r ≤ ((xs.length - 1 : ℕ) : K)) (h : ∀ x ∈ xs, x ∈ Set.Icc lo hi) :
    quantile xs r ∈ Set.Icc lo hi := by
  have hceil := ceil_lt_length hlen hrlen
  have hfloor : ⌊r⌋₊ < xs.length := (Nat.floor_le_ceil r).trans_lt hceil
  exact lerp_mem_Icc (h _ (getD_mem hfloor)) (h _ (getD_mem hceil)) (sub_floor_mem_Icc hr)

theorem quantile_mem_Icc_getD {xs : List K} (hsorted : xs.Pairwise (· ≤ ·)) {r : K}
    (hr : 0 ≤ r) (hceil : ⌈r⌉₊ < xs.length) :
    quantile xs r ∈ Set.Icc (xs.getD ⌊r⌋₊ 0) (xs.getD ⌈r⌉₊ 0) := by
  have hle : xs.getD ⌊r⌋₊ 0 ≤ xs.getD ⌈r⌉₊ 0 :=
    getD_le_getD hsorted (Nat.floor_le_ceil r) hceil
  exact lerp_mem_Icc ⟨le_rfl, hle⟩ ⟨hle, le_rfl⟩ (sub_floor_mem_Icc hr)

/-- Inside one segment of the interpolation the quantile grows with the rank. -/
theorem quantile_mono_of_floor_eq {xs : List K} (hsorted : xs.Pairwise (· ≤ ·)) {r s : K}
    (hrs : r ≤ s) (hfloor : ⌊r⌋₊ = ⌊s⌋₊) (hfrac : ⌊r⌋₊ < ⌈r⌉₊) (hceil : ⌈s⌉₊ < xs.length) :
    quantile xs r ≤ quantile xs s := by
  have hr : ⌈r⌉₊ = ⌊r⌋₊ + 1 := le_antisymm (Nat.ceil_le_floor_add_one r) hfrac
  have hs : ⌈s⌉₊ = ⌊r⌋₊ + 1 := by
    apply le_antisymm
    · rw [hfloor]
      exact Nat.ceil_le_floor_add_one s
    · exact hr ▸ Nat.ceil_mono hrs
  have hstep : xs.getD ⌊r⌋₊ 0 ≤ xs.getD (⌊r⌋₊ + 1) 0 :=
    getD_le_getD hsorted (Nat.le_succ _) (by omega)
  have hslope := mul_le_mul_of_nonneg_left (sub_le_sub_right hrs (⌊r⌋₊ : K))
    (sub_nonneg.mpr hstep)
  rw [quantile, quantile, hr, hs, ← hfloor]
  linarith

/-- Quantiles of a sorted list grow with the rank, also across the segment
boundaries of the interpolation. -/
theorem quantile_mono {xs : List K} (hsorted : xs.Pairwise (· ≤ ·)) {r s : K}
    (hr : 0 ≤ r) (hrs : r ≤ s) (hceil : ⌈s⌉₊ < xs.length) :
    quantile xs r ≤ quantile xs s := by
  have hs : 0 ≤ s := hr.trans hrs
  have hrceil : ⌈r⌉₊ < xs.length := (Nat.ceil_mono hrs).trans_lt hceil
  have hlow := (quantile_mem_Icc_getD hsorted hs hceil).1
  rcases (Nat.floor_mono hrs).eq_or_lt with hfloor | hfloor
  · rcases lt_or_ge ⌊r⌋₊ ⌈r⌉₊ with hfrac | hwhole
    · exact quantile_mono_of_floor_eq hsorted hrs hfloor hfrac hceil
    · rw [eq_floor_of_ceil_le hr hwhole, quantile_natCast, hfloor]
      exact hlow
  · -- the whole rank `⌈r⌉₊` separates the two segments
    have hmid : ⌈r⌉₊ ≤ ⌊s⌋₊ := (Nat.ceil_le_floor_add_one r).trans hfloor
    calc
      quantile xs r ≤ xs.getD ⌈r⌉₊ 0 := (quantile_mem_Icc_getD hsorted hr hrceil).2
      _ ≤ xs.getD ⌊s⌋₊ 0 :=
        getD_le_getD hsorted hmid ((Nat.floor_le_ceil s).trans_lt hceil)
      _ ≤ quantile xs s := hlow

end Geiger.Quantile
