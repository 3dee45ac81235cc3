import Geiger.Library.Quantile
import Geiger.Library.RatioOfSums

/-!
# The bootstrap confidence interval

Indexing and the divisions of the resampling loop are partial: the model returns
a fault where the source would index out of bounds or divide by zero.
-/

namespace Geiger

inductive Fault where
  | indexOutOfBounds
  | divisionByZero
  deriving DecidableEq, Repr

variable {K : Type}

def index {α : Type*} (xs : List α) (i : ℕ) : Except Fault α :=
  match xs[i]? with
  | some x => .ok x
  | none => .error .indexOutOfBounds

theorem index_of_lt {α : Type*} {xs : List α} {i : ℕ} (d : α) (h : i < xs.length) :
    index xs i = .ok (xs.getD i d) := by
  simp [index, h]

def divide [Field K] [DecidableEq K] (a b : K) : Except Fault K :=
  if b = 0 then .error .divisionByZero else .ok (a / b)

theorem divide_of_ne [Field K] [DecidableEq K] (a : K) {b : K} (h : b ≠ 0) :
    divide a b = .ok (a / b) := if_neg h

structure SplitMix64 where
  state : UInt64
  deriving DecidableEq

namespace SplitMix64

def new (seed : UInt64) : SplitMix64 := ⟨seed⟩

def mix (state : UInt64) : UInt64 :=
  let z := (state ^^^ (state >>> 30)) * 0xBF58476D1CE4E5B9
  let z := (z ^^^ (z >>> 27)) * 0x94D049BB133111EB
  z ^^^ (z >>> 31)

def advance (rng : SplitMix64) : SplitMix64 := ⟨rng.state + 0x9E3779B97F4A7C15⟩

def nextU64 (rng : SplitMix64) : UInt64 × SplitMix64 := (mix rng.advance.state, rng.advance)

def nextIndex (rng : SplitMix64) (n : ℕ) : Except Fault (ℕ × SplitMix64) :=
  let (z, rng) := rng.nextU64
  if n = 0 then .error .divisionByZero else .ok (z.toNat % n, rng)

def drawn (rng : SplitMix64) (n : ℕ) : ℕ := (mix rng.advance.state).toNat % n

theorem nextIndex_of_pos (rng : SplitMix64) {n : ℕ} (h : 0 < n) :
    rng.nextIndex n = .ok (rng.drawn n, rng.advance) := by
  simp [nextIndex, nextU64, drawn, h.ne']

theorem drawn_lt (rng : SplitMix64) {n : ℕ} (h : 0 < n) : rng.drawn n < n := Nat.mod_lt _ h

end SplitMix64

structure ConfidenceIntervalConfig (K : Type*) where
  confidenceLevel : K
  bootstrapSamples : ℕ
  seed : UInt64

structure ConfidenceIntervalConfig.Valid [Field K] [LinearOrder K]
    (c : ConfidenceIntervalConfig K) : Prop where
  level_pos : 0 < c.confidenceLevel
  level_lt_one : c.confidenceLevel < 1
  two_le_samples : 2 ≤ c.bootstrapSamples

section Code

variable [Field K] [LinearOrder K]

/-- The inner loop: `k` more pairs are drawn and added to the running sums. -/
def drawSums (pairs : List (K × K)) :
    ℕ → SplitMix64 → K → K → Except Fault ((K × K) × SplitMix64)
  | 0, rng, imbSum, volSum => .ok ((imbSum, volSum), rng)
  | k + 1, rng, imbSum, volSum => do
    let (i, rng) ← rng.nextIndex pairs.length
    let (imb, vol) ← index pairs i
    drawSums pairs k rng (imbSum + imb) (volSum + vol)

/-- The outer loop: one ratio of sums for each resample. -/
def drawSamples (pairs : List (K × K)) : ℕ → SplitMix64 → Except Fault (List K × SplitMix64)
  | 0, rng => .ok ([], rng)
  | k + 1, rng => do
    let ((imbSum, volSum), rng) ← drawSums pairs pairs.length rng 0 0
    let sample ← divide imbSum volSum
    let (samples, rng) ← drawSamples pairs k rng
    return (sample :: samples, rng)

variable [FloorSemiring K]

/-- Linear interpolation between the two nearest ranks. -/
def percentile (sorted : List K) (p : K) : Except Fault K :=
  let n := sorted.length
  if n = 1 then index sorted 0
  else
    let rank := p * ((n - 1 : ℕ) : K)
    let lo := ⌊rank⌋₊
    let hi := ⌈rank⌉₊
    if lo = hi then index sorted lo
    else do
      let frac := rank - (lo : K)
      let low ← index sorted lo
      let high ← index sorted hi
      return low * (1 - frac) + high * frac

def bootstrapCi (window : List (K × K)) (cfg : ConfidenceIntervalConfig K) (rng : SplitMix64) :
    Except Fault ((K × K) × SplitMix64) := do
  let (samples, rng) ← drawSamples window cfg.bootstrapSamples rng
  let samples := samples.mergeSort fun a b ↦ decide (a ≤ b)
  let alpha := 1 - cfg.confidenceLevel
  let low ← percentile samples (alpha / 2)
  let high ← percentile samples (1 - alpha / 2)
  return ((low, high), rng)

end Code

/-! ## What the loops compute -/

namespace Bootstrap

open RatioOfSums Quantile

variable [Field K]

def resample (pairs : List (K × K)) : ℕ → SplitMix64 → List (K × K)
  | 0, _ => []
  | k + 1, rng => pairs.getD (rng.drawn pairs.length) (0, 0) :: resample pairs k rng.advance

@[simp] theorem length_resample (pairs : List (K × K)) (k : ℕ) (rng : SplitMix64) :
    (resample pairs k rng).length = k := by
  induction k generalizing rng with
  | zero => rfl
  | succ k ih => simp [resample, ih]

theorem resample_ne_nil {pairs : List (K × K)} (hne : pairs ≠ []) (rng : SplitMix64) :
    resample pairs pairs.length rng ≠ [] := by
  apply List.ne_nil_of_length_pos
  rw [length_resample]
  exact List.length_pos_iff.mpr hne

theorem mem_of_mem_resample {pairs : List (K × K)} (hne : pairs ≠ []) {k : ℕ}
    {rng : SplitMix64} {p : K × K} (h : p ∈ resample pairs k rng) : p ∈ pairs := by
  induction k generalizing rng with
  | zero => cases h
  | succ k ih =>
      rcases List.mem_cons.mp h with rfl | h
      · exact getD_mem (rng.drawn_lt (List.length_pos_iff.mpr hne))
      · exact ih h

def ratios (pairs : List (K × K)) : ℕ → SplitMix64 → List K
  | 0, _ => []
  | k + 1, rng =>
      ratio (resample pairs pairs.length rng) ::
        ratios pairs k (SplitMix64.advance^[pairs.length] rng)

@[simp] theorem length_ratios (pairs : List (K × K)) (k : ℕ) (rng : SplitMix64) :
    (ratios pairs k rng).length = k := by
  induction k generalizing rng with
  | zero => rfl
  | succ k ih => simp [ratios, ih]

theorem drawSums_succ {pairs : List (K × K)} (hne : pairs ≠ []) (k : ℕ) (rng : SplitMix64)
    (imbSum volSum : K) :
    drawSums pairs (k + 1) rng imbSum volSum =
      drawSums pairs k rng.advance
        (imbSum + (pairs.getD (rng.drawn pairs.length) (0, 0)).1)
        (volSum + (pairs.getD (rng.drawn pairs.length) (0, 0)).2) := by
  have hpos : 0 < pairs.length := List.length_pos_iff.mpr hne
  have hlt := rng.drawn_lt hpos
  rw [drawSums, rng.nextIndex_of_pos hpos]
  generalize rng.drawn pairs.length = i at hlt
  generalize rng.advance = rng
  simp only [bind, Except.bind, index_of_lt (0, 0) hlt]

theorem drawSums_eq {pairs : List (K × K)} (hne : pairs ≠ []) (k : ℕ) (rng : SplitMix64)
    (imbSum volSum : K) :
    drawSums pairs k rng imbSum volSum =
      .ok ((imbSum + ((resample pairs k rng).map Prod.fst).sum,
        volSum + ((resample pairs k rng).map Prod.snd).sum), SplitMix64.advance^[k] rng) := by
  induction k generalizing rng imbSum volSum with
  | zero => simp [drawSums, resample]
  | succ k ih =>
      rw [drawSums_succ hne, ih, resample, Function.iterate_succ_apply]
      simp only [List.map_cons, List.sum_cons, add_assoc]

variable [LinearOrder K]

variable [IsStrictOrderedRing K]

theorem drawSamples_eq {pairs : List (K × K)} (hne : pairs ≠ []) (hpos : ∀ p ∈ pairs, 0 < p.2)
    (k : ℕ) (rng : SplitMix64) :
    drawSamples pairs k rng =
      .ok (ratios pairs k rng, SplitMix64.advance^[k * pairs.length] rng) := by
  induction k generalizing rng with
  | zero => simp [drawSamples, ratios]
  | succ k ih =>
      have hvol : ((resample pairs pairs.length rng).map Prod.snd).sum ≠ 0 :=
        (sum_weights_pos (resample_ne_nil hne rng)
          fun p hp ↦ hpos p (mem_of_mem_resample hne hp)).ne'
      rw [drawSamples, drawSums_eq hne]
      simp only [bind, Except.bind, zero_add, divide_of_ne _ hvol, ih, pure, Except.pure, ratios,
        ratio]
      rw [← Function.iterate_add_apply, Nat.succ_mul]

theorem ratios_mem_Icc {pairs : List (K × K)} (hne : pairs ≠ []) (hpos : ∀ p ∈ pairs, 0 < p.2)
    {lo hi : K} (h : ∀ p ∈ pairs, p.1 / p.2 ∈ Set.Icc lo hi) {k : ℕ} {rng : SplitMix64}
    {x : K} (hx : x ∈ ratios pairs k rng) : x ∈ Set.Icc lo hi := by
  induction k generalizing rng with
  | zero => cases hx
  | succ k ih =>
      rcases List.mem_cons.mp hx with rfl | hx
      · apply ratio_mem_Icc (resample_ne_nil hne rng)
        · exact fun p hp ↦ hpos p (mem_of_mem_resample hne hp)
        · exact fun p hp ↦ h p (mem_of_mem_resample hne hp)
      · exact ih hx

variable [FloorSemiring K]

/-- `percentile` never faults on a nonempty list and a level of the unit
interval, and reads the interpolated quantile. -/
theorem percentile_eq {sorted : List K} (hlen : 0 < sorted.length) {p : K}
    (hp : p ∈ Set.Icc (0 : K) 1) :
    percentile sorted p = .ok (quantile sorted (p * ((sorted.length - 1 : ℕ) : K))) := by
  unfold percentile
  by_cases hone : sorted.length = 1
  · simp [hone, index_of_lt 0 hlen, quantile]
  · have hrank : p * ((sorted.length - 1 : ℕ) : K) ≤ ((sorted.length - 1 : ℕ) : K) :=
      mul_le_of_le_one_left (Nat.cast_nonneg _) hp.2
    have hnonneg : 0 ≤ p * ((sorted.length - 1 : ℕ) : K) := mul_nonneg hp.1 (Nat.cast_nonneg _)
    have hhi := ceil_lt_length hlen hrank
    have hlo := (Nat.floor_le_ceil _).trans_lt hhi
    simp only [if_neg hone]
    split
    · rename_i heq
      rw [index_of_lt 0 hlo, ← quantile_natCast, ← eq_floor_of_ceil_le hnonneg heq.ge]
    · simp only [index_of_lt 0 hlo, index_of_lt 0 hhi, bind, Except.bind, pure, Except.pure,
        quantile]

def sortedRatios (window : List (K × K)) (samples : ℕ) (rng : SplitMix64) : List K :=
  (ratios window samples rng).mergeSort fun a b ↦ decide (a ≤ b)

def interval (window : List (K × K)) (cfg : ConfidenceIntervalConfig K) (rng : SplitMix64) :
    K × K :=
  let samples := sortedRatios window cfg.bootstrapSamples rng
  let top := ((cfg.bootstrapSamples - 1 : ℕ) : K)
  let alpha := 1 - cfg.confidenceLevel
  (quantile samples (alpha / 2 * top), quantile samples ((1 - alpha / 2) * top))

omit [FloorSemiring K] [IsStrictOrderedRing K] in
@[simp] theorem length_sortedRatios (window : List (K × K)) (samples : ℕ) (rng : SplitMix64) :
    (sortedRatios window samples rng).length = samples := by
  simp [sortedRatios]

omit [FloorSemiring K] [IsStrictOrderedRing K] in
theorem sorted_sortedRatios (window : List (K × K)) (samples : ℕ) (rng : SplitMix64) :
    (sortedRatios window samples rng).Pairwise (· ≤ ·) :=
  List.pairwise_mergeSort' (· ≤ ·) _

/-- Levels of the unit interval read the sorted ratios in order. -/
theorem quantile_sortedRatios_mono {samples : ℕ} (hpos : 0 < samples) (window : List (K × K))
    (rng : SplitMix64) {p q : K} (hp : 0 ≤ p) (hpq : p ≤ q) (hq : q ≤ 1) :
    quantile (sortedRatios window samples rng) (p * ((samples - 1 : ℕ) : K)) ≤
      quantile (sortedRatios window samples rng) (q * ((samples - 1 : ℕ) : K)) := by
  have htop : (0 : K) ≤ ((samples - 1 : ℕ) : K) := Nat.cast_nonneg _
  have hlen : 0 < (sortedRatios window samples rng).length := by rwa [length_sortedRatios]
  apply quantile_mono (sorted_sortedRatios _ _ _)
  · exact mul_nonneg hp htop
  · exact mul_le_mul_of_nonneg_right hpq htop
  · apply ceil_lt_length hlen
    rw [length_sortedRatios]
    exact mul_le_of_le_one_left htop hq

section Levels

variable {cfg : ConfidenceIntervalConfig K} (hcfg : cfg.Valid)

include hcfg

omit [FloorSemiring K] in
theorem lowLevel_mem : (1 - cfg.confidenceLevel) / 2 ∈ Set.Icc (0 : K) 1 := by
  have h₁ := hcfg.level_pos
  have h₂ := hcfg.level_lt_one
  constructor <;> linarith

omit [FloorSemiring K] in
theorem highLevel_mem : 1 - (1 - cfg.confidenceLevel) / 2 ∈ Set.Icc (0 : K) 1 := by
  have h₁ := hcfg.level_pos
  have h₂ := hcfg.level_lt_one
  constructor <;> linarith

omit [FloorSemiring K] in
theorem lowLevel_le_highLevel :
    (1 - cfg.confidenceLevel) / 2 ≤ 1 - (1 - cfg.confidenceLevel) / 2 := by
  have := hcfg.level_pos
  linarith

/-- With validated settings and a nonempty window of positive volumes the
bootstrap runs without a fault. -/
theorem bootstrapCi_eq {window : List (K × K)} (hne : window ≠ [])
    (hpos : ∀ p ∈ window, 0 < p.2) (rng : SplitMix64) :
    bootstrapCi window cfg rng =
      .ok (interval window cfg rng,
        SplitMix64.advance^[cfg.bootstrapSamples * window.length] rng) := by
  have hlen : 0 < (sortedRatios window cfg.bootstrapSamples rng).length := by
    rw [length_sortedRatios]
    exact Nat.lt_of_lt_of_le Nat.zero_lt_two hcfg.two_le_samples
  have hlow := percentile_eq hlen (lowLevel_mem hcfg)
  have hhigh := percentile_eq hlen (highLevel_mem hcfg)
  rw [length_sortedRatios] at hlow hhigh
  unfold bootstrapCi
  rw [drawSamples_eq hne hpos]
  simp only [bind, Except.bind, pure, Except.pure]
  rw [← sortedRatios, hlow, hhigh]
  rfl

theorem interval_mem_Icc {window : List (K × K)} (hne : window ≠ [])
    (hpos : ∀ p ∈ window, 0 < p.2) (rng : SplitMix64) {lo hi : K}
    (h : ∀ p ∈ window, p.1 / p.2 ∈ Set.Icc lo hi) :
    (interval window cfg rng).1 ∈ Set.Icc lo hi ∧
      (interval window cfg rng).2 ∈ Set.Icc lo hi := by
  have hlen : 0 < (sortedRatios window cfg.bootstrapSamples rng).length := by
    rw [length_sortedRatios]
    exact Nat.lt_of_lt_of_le Nat.zero_lt_two hcfg.two_le_samples
  have hmem : ∀ x ∈ sortedRatios window cfg.bootstrapSamples rng, x ∈ Set.Icc lo hi := by
    intro x hx
    exact ratios_mem_Icc hne hpos h ((List.mergeSort_perm _ _).mem_iff.mp hx)
  have hrank : ∀ {p : K}, p ∈ Set.Icc (0 : K) 1 →
      quantile (sortedRatios window cfg.bootstrapSamples rng)
        (p * ((cfg.bootstrapSamples - 1 : ℕ) : K)) ∈ Set.Icc lo hi := by
    intro p hp
    apply quantile_mem_Icc hlen (mul_nonneg hp.1 (Nat.cast_nonneg _)) _ hmem
    rw [length_sortedRatios]
    exact mul_le_of_le_one_left (Nat.cast_nonneg _) hp.2
  exact ⟨hrank (lowLevel_mem hcfg), hrank (highLevel_mem hcfg)⟩

theorem interval_fst_le_snd (window : List (K × K)) (rng : SplitMix64) :
    (interval window cfg rng).1 ≤ (interval window cfg rng).2 := by
  have hpos : 0 < cfg.bootstrapSamples := Nat.lt_of_lt_of_le Nat.zero_lt_two hcfg.two_le_samples
  exact quantile_sortedRatios_mono hpos window rng (lowLevel_mem hcfg).1
    (lowLevel_le_highLevel hcfg) (highLevel_mem hcfg).2

end Levels

end Bootstrap

end Geiger
