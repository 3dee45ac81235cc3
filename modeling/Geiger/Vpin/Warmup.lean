import Geiger.Vpin.Refinement

/-!
# Warmup and flat stretches

A bucket is refused when sigma is zero, which happens after warmup exactly when
all price changes of the sigma window are equal.
-/

namespace Geiger.Warmup

open Batch

def Flat (xs : List ℝ) : Prop := ∃ d, ∀ x ∈ xs, x = d

theorem mean_of_flat {xs : List ℝ} {d : ℝ} (hne : xs ≠ []) (h : ∀ x ∈ xs, x = d) :
    xs.sum / (xs.length : ℝ) = d := by
  have hlen : (xs.length : ℝ) ≠ 0 := by simpa using hne
  rw [List.sum_eq_card_nsmul xs d h, nsmul_eq_mul, mul_div_cancel_left₀ d hlen]

theorem squares_pos_iff {xs : List ℝ} (hne : xs ≠ []) :
    0 < (xs.map fun x ↦ (x - xs.sum / (xs.length : ℝ)) ^ 2).sum ↔ ¬ Flat xs := by
  have hnonneg : ∀ y ∈ xs.map fun x ↦ (x - xs.sum / (xs.length : ℝ)) ^ 2, (0 : ℝ) ≤ y := by
    intro y hy
    obtain ⟨x, _, rfl⟩ := List.mem_map.mp hy
    exact sq_nonneg _
  constructor
  · rintro hpos ⟨d, hd⟩
    rw [mean_of_flat hne hd] at hpos
    have hzero : (xs.map fun x ↦ (x - d) ^ 2).sum = 0 := by
      apply List.sum_eq_zero
      intro y hy
      obtain ⟨x, hx, rfl⟩ := List.mem_map.mp hy
      rw [hd x hx, sub_self, zero_pow two_ne_zero]
    exact hpos.ne' hzero
  · intro hflat
    apply lt_of_le_of_ne (List.sum_nonneg hnonneg)
    intro hzero
    apply hflat
    refine ⟨xs.sum / (xs.length : ℝ), ?_⟩
    intro x hx
    have := List.all_zero_of_le_zero_le_of_sum_eq_zero hnonneg hzero.symm
      (List.mem_map_of_mem hx)
    exact sub_eq_zero.mp (pow_eq_zero_iff two_ne_zero |>.mp this)

theorem sampleStd_pos_iff (Φ : ℝ → Set.Icc (0 : ℝ) 1) {xs : List ℝ} (h : 2 ≤ xs.length) :
    0 < sampleStd (Libm.exact Φ) xs ↔ ¬ Flat xs := by
  have hne : xs ≠ [] := by
    rintro rfl
    simp at h
  have hdof : (0 : ℝ) < ((xs.length - 1 : ℕ) : ℝ) := by
    exact_mod_cast Nat.sub_pos_of_lt h
  rw [← squares_pos_iff hne]
  simp only [sampleStd, Libm.exact, Real.sqrt_pos]
  exact div_pos_iff_of_pos_right hdof

section Warm

variable {Φ : ℝ → Set.Icc (0 : ℝ) 1} {cfg : VpinEngineConfig ℝ} {bs : List (ClosedBucket ℝ)}

def sigmaSample (cfg : VpinEngineConfig ℝ) (bs : List (ClosedBucket ℝ)) (k : ℕ) : List ℝ :=
  ((deltas bs).take k).drop (k - cfg.sigmaWindow)

theorem length_sigmaSample {k : ℕ} (hk : k ≤ bs.length) (hwindow : cfg.sigmaWindow ≤ k) :
    (sigmaSample cfg bs k).length = cfg.sigmaWindow := by
  simp only [sigmaSample, deltas, List.length_drop, List.length_take, List.length_map]
  omega

theorem classified_iff {k : ℕ} (htwo : 2 ≤ cfg.sigmaWindow) (hk : k ≤ bs.length) :
    Classified (Libm.exact Φ) cfg bs k ↔
      cfg.sigmaWindow ≤ k ∧ ¬ Flat (sigmaSample cfg bs k) := by
  unfold Classified
  constructor
  · rintro ⟨hwindow, hpos⟩
    refine ⟨hwindow, (sampleStd_pos_iff Φ ?_).mp hpos⟩
    exact htwo.trans_eq (length_sigmaSample hk hwindow).symm
  · rintro ⟨hwindow, hflat⟩
    refine ⟨hwindow, (sampleStd_pos_iff Φ ?_).mpr hflat⟩
    exact htwo.trans_eq (length_sigmaSample hk hwindow).symm

theorem vpin_isSome_iff {k : ℕ} :
    (vpin (Libm.exact Φ) cfg bs k).isSome ↔
      Classified (Libm.exact Φ) cfg bs k ∧
        cfg.vpinWindow ≤ (classifiedBefore (Libm.exact Φ) cfg bs (k + 1)).length := by
  unfold vpin
  split <;> simp_all

theorem length_classifiedBefore_mono {j k : ℕ} (h : j ≤ k) :
    (classifiedBefore (Libm.exact Φ) cfg bs j).length ≤
      (classifiedBefore (Libm.exact Φ) cfg bs k).length := by
  exact ((List.range_sublist.mpr h).filter _).length_le

/-- After the first VPIN value only a flat sigma window suppresses one. -/
theorem vpin_eq_none_iff {i j : ℕ} (htwo : 2 ≤ cfg.sigmaWindow) (hij : i < j)
    (hj : j ≤ bs.length) (hwarm : (vpin (Libm.exact Φ) cfg bs i).isSome) :
    vpin (Libm.exact Φ) cfg bs j = none ↔ Flat (sigmaSample cfg bs j) := by
  obtain ⟨hclassified, hfull⟩ := vpin_isSome_iff.mp hwarm
  have hfull' := hfull.trans (length_classifiedBefore_mono (Nat.succ_le_succ hij.le))
  have hwindow : cfg.sigmaWindow ≤ j := hclassified.1.trans hij.le
  rw [← Option.not_isSome_iff_eq_none, vpin_isSome_iff, classified_iff htwo hj]
  simp [hfull', hwindow]

end Warm

/-! ## Runs of the engine -/

open Refinement

/-- Once a reading has a VPIN value, so has every later one. -/
def StaysWarm (rs : List (VpinReading ℝ)) : Prop :=
  rs.Pairwise fun r s ↦ r.vpin.isSome → s.vpin.isSome

/-- In every run, after the first VPIN value a reading lacks one exactly when the
price changes of its sigma window are all equal. -/
theorem vpin_eq_none_iff_flat (Φ : ℝ → Set.Icc (0 : ℝ) 1) (cfg : VpinEngineConfig ℝ)
    (e : VpinEngine ℝ) (hnew : VpinEngine.new cfg = .ok e) (tape : List (Trade ℝ)) :
    ∃ rs e', VpinEngine.feed (Libm.exact Φ) e tape = .ok (rs, e') ∧
      ∀ i j r s, i < j → rs[i]? = some r → rs[j]? = some s → r.vpin.isSome →
        (s.vpin = none ↔ Flat (sigmaSample cfg (buckets cfg.bucketVolume tape) j)) := by
  obtain ⟨e', hrun, _⟩ := feed_eq_readings (m := Libm.exact Φ) hnew tape
  have htwo := (RollingSigma.new_eq_ok (VpinEngine.fresh_of_new hnew).sigma).1
  refine ⟨_, e', hrun, ?_⟩
  intro i j r s hij hr hs hwarm
  simp only [readings, List.getElem?_mapIdx, Option.map_eq_some_iff] at hr hs
  obtain ⟨_, _, rfl⟩ := hr
  obtain ⟨b, hb, rfl⟩ := hs
  exact vpin_eq_none_iff htwo hij (List.getElem?_eq_some_iff.mp hb).1.le hwarm

/-- Unit trades at 1, 2, 2, 2, 2 close one bucket each. -/
theorem deltas_unitTape : deltas (buckets 1 (unitTape [1, 2, 2, 2, 2])) = [0, 1, 0, 0, 0] := by
  norm_num [deltas, buckets, unitTape, cut, closeToClose, totalVolume]

theorem classified_unitTape_two :
    Classified (Libm.exact stepCdf) unitConfig (buckets 1 (unitTape [1, 2, 2, 2, 2])) 2 := by
  have hlen := congrArg List.length deltas_unitTape
  rw [classified_iff le_rfl (by simp only [deltas, List.length_map] at hlen; simp [hlen])]
  refine ⟨le_rfl, ?_⟩
  rintro ⟨d, hd⟩
  have hsample : sigmaSample unitConfig (buckets 1 (unitTape [1, 2, 2, 2, 2])) 2 = [0, 1] := by
    simp [sigmaSample, deltas_unitTape, unitConfig]
  rw [hsample] at hd
  have hzero : (0 : ℝ) = d := hd 0 (by simp)
  have hone : (1 : ℝ) = d := hd 1 (by simp)
  exact zero_ne_one (hzero.trans hone.symm)

theorem vpin_unitTape_two :
    (vpin (Libm.exact stepCdf) unitConfig (buckets 1 (unitTape [1, 2, 2, 2, 2])) 2).isSome := by
  rw [vpin_isSome_iff]
  refine ⟨classified_unitTape_two, List.length_pos_of_mem (a := 2) ?_⟩
  simp [classifiedBefore, classified_unitTape_two]

theorem vpin_unitTape_four :
    vpin (Libm.exact stepCdf) unitConfig (buckets 1 (unitTape [1, 2, 2, 2, 2])) 4 = none := by
  have hlen := congrArg List.length deltas_unitTape
  simp only [deltas, List.length_map] at hlen
  rw [vpin_eq_none_iff le_rfl (by omega) (by simp [hlen]) vpin_unitTape_two]
  exact ⟨0, by simp [sigmaSample, deltas_unitTape, unitConfig]⟩

theorem vpin_eq_none_iff_flat_unit :
    ∃ e, VpinEngine.new unitConfig = .ok e ∧
      ∃ rs e', VpinEngine.feed (Libm.exact stepCdf) e (unitTape [1, 2, 2, 2, 2]) =
          .ok (rs, e') ∧
        ∀ i j r s, i < j → rs[i]? = some r → rs[j]? = some s → r.vpin.isSome →
          (s.vpin = none ↔
            Flat (sigmaSample unitConfig (buckets 1 (unitTape [1, 2, 2, 2, 2])) j)) := by
  obtain ⟨e, he⟩ := VpinEngine.new_of_valid unitConfig_valid
  exact ⟨e, he, vpin_eq_none_iff_flat stepCdf unitConfig e he _⟩

/-- The third reading of that tape has a VPIN value and the fifth has none. -/
theorem unitTape_not_staysWarm :
    ∃ e rs e', VpinEngine.new unitConfig = .ok e ∧
      (∀ t ∈ unitTape [1, 2, 2, 2, 2], t.Positive) ∧
      VpinEngine.feed (Libm.exact stepCdf) e (unitTape [1, 2, 2, 2, 2]) = .ok (rs, e') ∧
      ¬ StaysWarm rs := by
  obtain ⟨e, he⟩ := VpinEngine.new_of_valid unitConfig_valid
  obtain ⟨e', hrun, _⟩ :=
    feed_eq_readings (m := Libm.exact stepCdf) he (unitTape [1, 2, 2, 2, 2])
  refine ⟨e, _, e', he, ?_, hrun, ?_⟩
  · intro t ht
    simp only [unitTape, List.map_cons, List.map_nil, List.mem_cons, List.not_mem_nil,
      or_false] at ht
    rcases ht with rfl | rfl | rfl | rfl | rfl <;> constructor <;> norm_num
  · have hlen := congrArg List.length deltas_unitTape
    simp only [deltas, List.length_map] at hlen
    intro hwarm
    have hkeep := List.pairwise_iff_getElem.mp hwarm 2 4 (by simp [readings, unitConfig, hlen])
      (by simp [readings, unitConfig, hlen]) (by norm_num)
    simp only [readings, List.getElem_mapIdx, reading] at hkeep
    have hsome := hkeep vpin_unitTape_two
    rw [show unitConfig.bucketVolume = 1 from rfl, vpin_unitTape_four] at hsome
    cases hsome

end Geiger.Warmup
