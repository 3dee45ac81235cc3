import Geiger.Vpin.Refinement

/-!
# Confidence levels

Two engines that differ in their confidence level draw the same resamples, so the
interval at the higher level contains the other one.  Nothing else in a reading
depends on the level, or on an interval being computed at all.
-/

namespace Geiger

variable {K : Type} [Field K] [LinearOrder K] [IsStrictOrderedRing K] [FloorSemiring K]

section Configuration

omit [Field K] [LinearOrder K] [IsStrictOrderedRing K] [FloorSemiring K]

def VpinEngineConfig.withInterval (cfg : VpinEngineConfig K)
    (ci : Option (ConfidenceIntervalConfig K)) : VpinEngineConfig K :=
  { cfg with confidenceInterval := ci }

def VpinReading.withoutInterval (r : VpinReading K) : VpinReading K :=
  { r with vpinCiLow := none, vpinCiHigh := none }

end Configuration

/-- The second reading is the first one with a wider interval, or both have none. -/
structure VpinReading.Nested (r r' : VpinReading K) : Prop where
  same : r.withoutInterval = r'.withoutInterval
  low : Option.Rel (fun low low' ↦ low' ≤ low) r.vpinCiLow r'.vpinCiLow
  high : Option.Rel (fun high high' ↦ high ≤ high') r.vpinCiHigh r'.vpinCiHigh

namespace Levels

open Batch

theorem interval_nested {c c' : ConfidenceIntervalConfig K} (hc : c.Valid) (hc' : c'.Valid)
    (hlevel : c.confidenceLevel ≤ c'.confidenceLevel)
    (hsamples : c'.bootstrapSamples = c.bootstrapSamples) (window : List (K × K))
    (rng : SplitMix64) :
    (Bootstrap.interval window c' rng).1 ≤ (Bootstrap.interval window c rng).1 ∧
      (Bootstrap.interval window c rng).2 ≤ (Bootstrap.interval window c' rng).2 := by
  have hlow : (1 - c'.confidenceLevel) / 2 ≤ (1 - c.confidenceLevel) / 2 := by linarith
  have hpos : 0 < c.bootstrapSamples := Nat.lt_of_lt_of_le Nat.zero_lt_two hc.two_le_samples
  simp only [Bootstrap.interval, hsamples]
  constructor
  · apply Bootstrap.quantile_sortedRatios_mono hpos _ _ (Bootstrap.lowLevel_mem hc').1 hlow
    exact (Bootstrap.lowLevel_mem hc).2
  · apply Bootstrap.quantile_sortedRatios_mono hpos _ _ (Bootstrap.highLevel_mem hc).1
    · exact sub_le_sub_left hlow 1
    · exact (Bootstrap.highLevel_mem hc').2

variable (m : Libm K) (cfg : VpinEngineConfig K)

section Readings

variable (bs : List (ClosedBucket K)) (k : ℕ) (b : ClosedBucket K)

omit [IsStrictOrderedRing K] in
theorem withoutInterval_reading (ci : Option (ConfidenceIntervalConfig K)) :
    (reading m (cfg.withInterval ci) bs k b).withoutInterval =
      reading m (cfg.withInterval none) bs k b := rfl

omit [IsStrictOrderedRing K] in
/-- The interval is there when the VPIN is, from draws that no level changes. -/
theorem vpinCi_withInterval (c : ConfidenceIntervalConfig K) :
    vpinCi m (cfg.withInterval (some c)) bs k =
      (vpin m cfg bs k).map fun _ ↦
        Bootstrap.interval ((window m cfg bs k).map (pair m cfg bs)) c
          (SplitMix64.advance^[(scoresBefore m cfg bs k).length *
            (c.bootstrapSamples * cfg.vpinWindow)] (SplitMix64.new c.seed)) := by
  have hvpin : vpin m (cfg.withInterval (some c)) bs k = vpin m cfg bs k := rfl
  unfold vpinCi
  rw [hvpin]
  cases vpin m cfg bs k <;> rfl

theorem nested_reading {c : ConfidenceIntervalConfig K} {level : K}
    (hc : c.Valid) (hc' : { c with confidenceLevel := level }.Valid)
    (hlevel : c.confidenceLevel ≤ level) :
    (reading m (cfg.withInterval (some c)) bs k b).Nested
      (reading m (cfg.withInterval (some { c with confidenceLevel := level })) bs k b) := by
  have hnested := interval_nested hc hc' hlevel rfl
    ((window m cfg bs k).map (pair m cfg bs))
    (SplitMix64.advance^[(scoresBefore m cfg bs k).length *
      (c.bootstrapSamples * cfg.vpinWindow)] (SplitMix64.new c.seed))
  refine ⟨rfl, ?_, ?_⟩
  · simp only [reading, vpinCi_withInterval]
    cases vpin m cfg bs k with
    | none => exact .none
    | some v => exact .some hnested.1
  · simp only [reading, vpinCi_withInterval]
    cases vpin m cfg bs k with
    | none => exact .none
    | some v => exact .some hnested.2

end Readings

variable (tape : List (Trade K))

omit [IsStrictOrderedRing K] in
theorem readings_eq_map (ci : Option (ConfidenceIntervalConfig K)) :
    readings m (cfg.withInterval ci) tape =
      (buckets cfg.bucketVolume tape).zipIdx.map fun p ↦
        reading m (cfg.withInterval ci) (buckets cfg.bucketVolume tape) p.2 p.1 :=
  List.mapIdx_eq_zipIdx_map

theorem nested_readings {c : ConfidenceIntervalConfig K} {level : K}
    (hc : c.Valid) (hc' : { c with confidenceLevel := level }.Valid)
    (hlevel : c.confidenceLevel ≤ level) :
    List.Forall₂ VpinReading.Nested (readings m (cfg.withInterval (some c)) tape)
      (readings m (cfg.withInterval (some { c with confidenceLevel := level })) tape) := by
  rw [readings_eq_map, readings_eq_map, List.forall₂_map_left_iff, List.forall₂_map_right_iff,
    List.forall₂_same]
  intro p _
  exact nested_reading m cfg _ _ _ hc hc' hlevel

omit [IsStrictOrderedRing K] in
theorem readings_withInterval (ci : Option (ConfidenceIntervalConfig K)) :
    (readings m (cfg.withInterval ci) tape).map VpinReading.withoutInterval =
      readings m (cfg.withInterval none) tape := by
  rw [readings_eq_map, readings_eq_map, List.map_map]
  apply List.map_congr_left
  intro p _
  exact withoutInterval_reading m cfg _ _ _ ci

/-- On every tape the interval of the higher level contains that of the lower one,
reading by reading, and all other fields are those of the engine without intervals. -/
theorem intervals_nested_and_inert {c : ConfidenceIntervalConfig K} {level : K}
    (hlevel : c.confidenceLevel ≤ level) {e e' : VpinEngine K}
    (hnew : VpinEngine.new (cfg.withInterval (some c)) = .ok e)
    (hnew' : VpinEngine.new (cfg.withInterval (some { c with confidenceLevel := level })) =
      .ok e') :
    ∃ rs rs' e₀, (e.feed m tape).map Prod.fst = .ok rs ∧ (e'.feed m tape).map Prod.fst = .ok rs' ∧
      List.Forall₂ VpinReading.Nested rs rs' ∧
      VpinEngine.new (cfg.withInterval none) = .ok e₀ ∧
      (e₀.feed m tape).map Prod.fst = .ok (rs.map VpinReading.withoutInterval) := by
  have hvalid := VpinEngine.valid_of_new hnew
  have hvalid' := VpinEngine.valid_of_new hnew'
  have hplain : (cfg.withInterval none).Valid :=
    { hvalid with confidenceInterval := by rintro _ ⟨⟩ }
  obtain ⟨e₀, hnew₀⟩ := VpinEngine.new_of_valid hplain
  obtain ⟨_, hfeed, _⟩ := Refinement.feed_eq_readings (m := m) hnew tape
  obtain ⟨_, hfeed', _⟩ := Refinement.feed_eq_readings (m := m) hnew' tape
  obtain ⟨_, hfeed₀, _⟩ := Refinement.feed_eq_readings (m := m) hnew₀ tape
  refine ⟨_, _, e₀, by rw [hfeed]; rfl, by rw [hfeed']; rfl, ?_, hnew₀, ?_⟩
  · exact nested_readings m cfg tape (hvalid.confidenceInterval c rfl)
      (hvalid'.confidenceInterval _ rfl) hlevel
  · rw [hfeed₀, readings_withInterval]
    rfl

open Refinement in
theorem intervals_nested_and_inert_unit :
    ∃ e e' rs rs', VpinEngine.new unitConfig = .ok e ∧
      VpinEngine.new (unitConfig.withInterval (some ⟨0.9, 2, 7⟩)) = .ok e' ∧
      (e.feed (Libm.exact stepCdf) (unitTape [1, 2, 2, 3])).map Prod.fst = .ok rs ∧
      (e'.feed (Libm.exact stepCdf) (unitTape [1, 2, 2, 3])).map Prod.fst = .ok rs' ∧
      List.Forall₂ VpinReading.Nested rs rs' := by
  have hvalid : (unitConfig.withInterval (some ⟨0.9, 2, 7⟩)).Valid :=
    { unitConfig_valid with
      confidenceInterval := by
        rintro c ⟨rfl⟩
        exact ⟨by norm_num, by norm_num, le_rfl⟩ }
  obtain ⟨e, hnew⟩ := VpinEngine.new_of_valid unitConfig_valid
  obtain ⟨e', hnew'⟩ := VpinEngine.new_of_valid hvalid
  have hlevel : (0.5 : ℝ) ≤ 0.9 := by norm_num
  obtain ⟨rs, rs', _, hfeed, hfeed', hnested, -, -⟩ :=
    intervals_nested_and_inert (Libm.exact stepCdf) unitConfig (unitTape [1, 2, 2, 3])
      (c := ⟨0.5, 2, 7⟩) hlevel hnew hnew'
  exact ⟨e, e', rs, rs', hnew, hnew', hfeed, hfeed', hnested⟩

end Levels

end Geiger
