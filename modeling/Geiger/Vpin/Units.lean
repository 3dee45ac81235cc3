import Geiger.Vpin.Refinement
import Mathlib.Data.Real.Sign

/-!
# Independence of units and direction

A change of units maps prices affinely, possibly reversing them, and volumes by a
positive factor.  Every stage before the imbalance ratios carries the factors
along, and they cancel there.
-/

namespace Geiger

/-- `price ↦ tick * price + origin` and `volume ↦ lot * volume`. -/
structure Units where
  tick : ℝ
  tick_ne_zero : tick ≠ 0
  origin : ℝ
  lot : ℝ
  lot_pos : 0 < lot

namespace Units

open Batch RatioOfSums

variable (u : Units)

def trade (t : Trade ℝ) : Trade ℝ :=
  { t with price := u.tick * t.price + u.origin, volume := u.lot * t.volume }

def config (cfg : VpinEngineConfig ℝ) : VpinEngineConfig ℝ :=
  { cfg with bucketVolume := u.lot * cfg.bucketVolume }

def run (r : Run ℝ) : Run ℝ := ⟨r.before.map u.trade, u.trade r.closing⟩

def bucket (b : ClosedBucket ℝ) : ClosedBucket ℝ :=
  { b with
    deltaP := u.tick * b.deltaP
    volume := u.lot * b.volume
    lastPrice := u.tick * b.lastPrice + u.origin }

def pair (p : ℝ × ℝ) : ℝ × ℝ := (u.lot * p.1, u.lot * p.2)

/-! ## Buckets -/

theorem totalVolume_map (ts : List (Trade ℝ)) :
    totalVolume (ts.map u.trade) = u.lot * totalVolume ts := by
  simp only [totalVolume, List.map_map, ← List.sum_map_mul_left]
  rfl

theorem cut_map (target : ℝ) (pending tape : List (Trade ℝ)) :
    cut (u.lot * target) (pending.map u.trade) (tape.map u.trade) =
      (cut target pending tape).map u.run := by
  induction tape generalizing pending with
  | nil => rfl
  | cons t tape ih =>
      have hpending : pending.map u.trade ++ [u.trade t] = (pending ++ [t]).map u.trade := by simp
      have hfull : totalVolume ((pending ++ [t]).map u.trade) < u.lot * target ↔
          totalVolume (pending ++ [t]) < target := by
        rw [totalVolume_map, mul_lt_mul_iff_right₀ u.lot_pos]
      simp only [List.map_cons, cut, hpending, hfull]
      split
      · exact ih _
      · rw [List.map_cons, ← ih []]
        rfl

theorem closeToClose_map (id : ℕ) (prevClose : ℝ) (runs : List (Run ℝ)) :
    closeToClose id (u.tick * prevClose + u.origin) (runs.map u.run) =
      (closeToClose id prevClose runs).map u.bucket := by
  induction runs generalizing id prevClose with
  | nil => rfl
  | cons r runs ih =>
      have htrades : (u.run r).trades = r.trades.map u.trade := by simp [Run.trades, run]
      have hdelta : (u.run r).closing.price - (u.tick * prevClose + u.origin) =
          u.tick * (r.closing.price - prevClose) := by
        simp only [run, trade]
        ring
      simp only [List.map_cons, closeToClose, htrades, hdelta, totalVolume_map, List.length_map]
      rw [← ih]
      rfl

theorem buckets_map (target : ℝ) (tape : List (Trade ℝ)) :
    buckets (u.lot * target) (tape.map u.trade) = (buckets target tape).map u.bucket := by
  cases tape with
  | nil => rfl
  | cons t tape =>
      have hcut := u.cut_map target [] (t :: tape)
      rw [List.map_nil, List.map_cons] at hcut
      rw [List.map_cons, buckets, buckets, hcut]
      exact u.closeToClose_map 0 t.price _

/-! ## Sigma -/

theorem sampleStd_map (Φ : ℝ → ℝ) (xs : List ℝ) :
    sampleStd ⟨Real.sqrt, Φ⟩ (xs.map (u.tick * ·)) = |u.tick| * sampleStd ⟨Real.sqrt, Φ⟩ xs := by
  have hmean : (xs.map (u.tick * ·)).sum / (xs.length : ℝ) =
      u.tick * (xs.sum / (xs.length : ℝ)) := by
    rw [List.sum_map_mul_left, List.map_id', mul_div_assoc]
  have hsquares : ((xs.map (u.tick * ·)).map fun x ↦
      (x - u.tick * (xs.sum / (xs.length : ℝ))) ^ 2).sum =
        u.tick ^ 2 * (xs.map fun x ↦ (x - xs.sum / (xs.length : ℝ)) ^ 2).sum := by
    rw [List.map_map, ← List.sum_map_mul_left]
    congr 1
    apply List.map_congr_left
    intro x _
    simp only [Function.comp_apply]
    ring
  simp only [sampleStd, List.length_map, hmean, hsquares]
  rw [mul_div_assoc, Real.sqrt_mul (sq_nonneg _), Real.sqrt_sq_eq_abs]

section Quantities

variable (Φ : ℝ → ℝ) (cfg : VpinEngineConfig ℝ) (bs : List (ClosedBucket ℝ))

theorem deltas_map : deltas (bs.map u.bucket) = (deltas bs).map (u.tick * ·) := by
  simp only [deltas, List.map_map]
  rfl

theorem sigma_map (k : ℕ) :
    sigma ⟨Real.sqrt, Φ⟩ (u.config cfg) (bs.map u.bucket) k =
      |u.tick| * sigma ⟨Real.sqrt, Φ⟩ cfg bs k := by
  simp only [sigma, deltas_map, ← List.map_take, ← List.map_drop, sampleStd_map]
  rfl

theorem classified_map (k : ℕ) :
    Classified ⟨Real.sqrt, Φ⟩ (u.config cfg) (bs.map u.bucket) k ↔
      Classified ⟨Real.sqrt, Φ⟩ cfg bs k := by
  unfold Classified
  rw [sigma_map, mul_pos_iff_of_pos_left (abs_pos.mpr u.tick_ne_zero)]
  rfl

theorem volume_map (k : ℕ) : volume (bs.map u.bucket) k = u.lot * volume bs k := by
  simp only [volume, List.map_map, List.getD_eq_getElem?_getD, List.getElem?_map]
  cases bs[k]? <;> simp [bucket]

/-- Reversing the direction swaps the two sides of the split. -/
theorem imbalance_map (hΦ : ∀ x, Φ (-x) = 1 - Φ x) (k : ℕ) :
    imbalance ⟨Real.sqrt, Φ⟩ (u.config cfg) (bs.map u.bucket) k =
      u.lot * imbalance ⟨Real.sqrt, Φ⟩ cfg bs k := by
  have hdelta : (deltas (bs.map u.bucket)).getD k 0 = u.tick * (deltas bs).getD k 0 := by
    simp only [deltas_map, List.getD_eq_getElem?_getD, List.getElem?_map]
    cases (deltas bs)[k]? <;> simp
  simp only [imbalance, hdelta, sigma_map, volume_map]
  rcases lt_or_gt_of_ne u.tick_ne_zero with hneg | hpos
  · rw [abs_of_neg hneg, neg_mul, div_neg, mul_div_mul_left _ _ u.tick_ne_zero, hΦ,
      ← abs_neg (2 • Φ _ - 1), mul_left_comm]
    congr 3
    simp only [two_nsmul]
    ring
  · rw [abs_of_pos hpos, mul_div_mul_left _ _ u.tick_ne_zero, mul_left_comm]

theorem classifiedBefore_map (k : ℕ) :
    classifiedBefore ⟨Real.sqrt, Φ⟩ (u.config cfg) (bs.map u.bucket) k =
      classifiedBefore ⟨Real.sqrt, Φ⟩ cfg bs k := by
  simp only [classifiedBefore, classified_map]

theorem window_map (k : ℕ) :
    window ⟨Real.sqrt, Φ⟩ (u.config cfg) (bs.map u.bucket) k =
      window ⟨Real.sqrt, Φ⟩ cfg bs k := by
  simp only [window, classifiedBefore_map]
  rfl

/-! ## Scores -/

variable {Φ} (hΦ : ∀ x, Φ (-x) = 1 - Φ x)

include hΦ

theorem pair_map (k : ℕ) :
    Batch.pair ⟨Real.sqrt, Φ⟩ (u.config cfg) (bs.map u.bucket) k =
      u.pair (Batch.pair ⟨Real.sqrt, Φ⟩ cfg bs k) := by
  simp only [Batch.pair, pair, imbalance_map u Φ cfg bs hΦ, volume_map]

theorem pairs_map (ks : List ℕ) :
    ks.map (Batch.pair ⟨Real.sqrt, Φ⟩ (u.config cfg) (bs.map u.bucket)) =
      (ks.map (Batch.pair ⟨Real.sqrt, Φ⟩ cfg bs)).map u.pair := by
  rw [List.map_map]
  apply List.map_congr_left
  intro k _
  exact u.pair_map cfg bs hΦ k

theorem vpin_map (k : ℕ) :
    vpin ⟨Real.sqrt, Φ⟩ (u.config cfg) (bs.map u.bucket) k = vpin ⟨Real.sqrt, Φ⟩ cfg bs k := by
  have hratio : ∀ ps, ratio (ps.map u.pair) = ratio ps := ratio_map_mul u.lot_pos.ne'
  simp only [vpin, ← Refinement.ratio_pairs, classified_map, classifiedBefore_map, window_map,
    pairs_map u cfg bs hΦ, hratio]
  rfl

theorem scoresBefore_map (k : ℕ) :
    scoresBefore ⟨Real.sqrt, Φ⟩ (u.config cfg) (bs.map u.bucket) k =
      scoresBefore ⟨Real.sqrt, Φ⟩ cfg bs k := by
  simp only [scoresBefore, vpin_map u cfg bs hΦ]

theorem vpinCdf_map (k : ℕ) :
    vpinCdf ⟨Real.sqrt, Φ⟩ (u.config cfg) (bs.map u.bucket) k =
      vpinCdf ⟨Real.sqrt, Φ⟩ cfg bs k := by
  simp only [vpinCdf, vpin_map u cfg bs hΦ, scoresBefore_map u cfg bs hΦ]
  rfl

end Quantities

/-! ## The bootstrap -/

theorem resample_map (pairs : List (ℝ × ℝ)) (k : ℕ) (rng : SplitMix64) :
    Bootstrap.resample (pairs.map u.pair) k rng =
      (Bootstrap.resample pairs k rng).map u.pair := by
  induction k generalizing rng with
  | zero => rfl
  | succ k ih =>
      have hzero : u.pair (0, 0) = (0, 0) := by simp [pair]
      rw [Bootstrap.resample, Bootstrap.resample, List.map_cons, ih, List.length_map,
        List.getD_eq_getElem?_getD, List.getD_eq_getElem?_getD, List.getElem?_map]
      cases pairs[rng.drawn pairs.length]? <;> simp [hzero]

theorem ratios_map (pairs : List (ℝ × ℝ)) (k : ℕ) (rng : SplitMix64) :
    Bootstrap.ratios (pairs.map u.pair) k rng = Bootstrap.ratios pairs k rng := by
  induction k generalizing rng with
  | zero => rfl
  | succ k ih =>
      rw [Bootstrap.ratios, Bootstrap.ratios, List.length_map, ih, resample_map]
      congr 1
      exact ratio_map_mul u.lot_pos.ne' _

theorem interval_map (pairs : List (ℝ × ℝ)) (cfg : ConfidenceIntervalConfig ℝ)
    (rng : SplitMix64) :
    Bootstrap.interval (pairs.map u.pair) cfg rng = Bootstrap.interval pairs cfg rng := by
  simp only [Bootstrap.interval, Bootstrap.sortedRatios, ratios_map]

/-! ## Readings -/

section Readings

variable {Φ : ℝ → ℝ} (hΦ : ∀ x, Φ (-x) = 1 - Φ x) (cfg : VpinEngineConfig ℝ)

include hΦ

theorem vpinCi_map (bs : List (ClosedBucket ℝ)) (k : ℕ) :
    vpinCi ⟨Real.sqrt, Φ⟩ (u.config cfg) (bs.map u.bucket) k =
      vpinCi ⟨Real.sqrt, Φ⟩ cfg bs k := by
  simp only [vpinCi, vpin_map u cfg bs hΦ, scoresBefore_map u cfg bs hΦ, window_map,
    pairs_map u cfg bs hΦ, interval_map]
  rfl

theorem readings_map (tape : List (Trade ℝ)) :
    readings ⟨Real.sqrt, Φ⟩ (u.config cfg) (tape.map u.trade) =
      readings ⟨Real.sqrt, Φ⟩ cfg tape := by
  have hbuckets : buckets (u.config cfg).bucketVolume (tape.map u.trade) =
      (buckets cfg.bucketVolume tape).map u.bucket := u.buckets_map _ tape
  simp only [readings, hbuckets]
  rw [List.mapIdx_eq_iff]
  intro k
  rw [List.getElem?_mapIdx, List.getElem?_map, Option.map_map]
  congr 1
  funext b
  simp only [Function.comp_apply, reading, vpin_map u cfg _ hΦ, vpinCdf_map u cfg _ hΦ,
    vpinCi_map u hΦ cfg]
  rfl

/-- The engine of the scaled configuration reads the transformed tape as the engine
of the original one reads the tape. -/
theorem feed_map {engine : VpinEngine ℝ} (hnew : VpinEngine.new cfg = .ok engine)
    (tape : List (Trade ℝ)) :
    ∃ engine', VpinEngine.new (u.config cfg) = .ok engine' ∧
      (engine'.feed ⟨Real.sqrt, Φ⟩ (tape.map u.trade)).map Prod.fst =
        .ok (readings ⟨Real.sqrt, Φ⟩ cfg tape) := by
  have hvalid := VpinEngine.valid_of_new hnew
  have hvalid' : (u.config cfg).Valid :=
    { hvalid with bucketVolume_pos := mul_pos u.lot_pos hvalid.bucketVolume_pos }
  obtain ⟨engine', hnew'⟩ := VpinEngine.new_of_valid hvalid'
  obtain ⟨_, hfeed, _⟩ :=
    Refinement.feed_eq_readings (m := ⟨Real.sqrt, Φ⟩) hnew' (tape.map u.trade)
  refine ⟨engine', hnew', ?_⟩
  rw [hfeed, ← u.readings_map hΦ cfg tape]
  rfl

/-- With volumes unchanged it is the same engine. -/
theorem feed_map_same {engine : VpinEngine ℝ} (hnew : VpinEngine.new cfg = .ok engine)
    (hlot : u.lot = 1) (tape : List (Trade ℝ)) :
    (engine.feed ⟨Real.sqrt, Φ⟩ (tape.map u.trade)).map Prod.fst =
      .ok (readings ⟨Real.sqrt, Φ⟩ cfg tape) := by
  have hcfg : u.config cfg = cfg := by simp [config, hlot]
  obtain ⟨engine', hnew', hfeed⟩ := u.feed_map hΦ cfg hnew tape
  rw [hcfg, hnew] at hnew'
  obtain rfl := Except.ok.inj hnew'
  exact hfeed

end Readings

end Units

/-- For every accepted configuration and every tape the readings stay the same when
all prices are scaled, shifted or reflected, or all volumes are scaled together with
the bucket volume. -/
theorem readings_unit_free (Φ : ℝ → ℝ) (hΦ : ∀ x, Φ (-x) = 1 - Φ x)
    (cfg : VpinEngineConfig ℝ) (engine : VpinEngine ℝ) (hnew : VpinEngine.new cfg = .ok engine)
    (tape : List (Trade ℝ)) :
    ∃ rs : List (VpinReading ℝ),
      (engine.feed ⟨Real.sqrt, Φ⟩ tape).map Prod.fst = .ok rs ∧
      (∀ d > 0, (engine.feed ⟨Real.sqrt, Φ⟩ (tape.map fun t ↦
        { t with price := t.price * d })).map Prod.fst = .ok rs) ∧
      (∀ c, (engine.feed ⟨Real.sqrt, Φ⟩ (tape.map fun t ↦
        { t with price := t.price + c })).map Prod.fst = .ok rs) ∧
      (∀ c, (engine.feed ⟨Real.sqrt, Φ⟩ (tape.map fun t ↦
        { t with price := c - t.price })).map Prod.fst = .ok rs) ∧
      ∀ s > 0, ∃ engine',
        VpinEngine.new { cfg with bucketVolume := cfg.bucketVolume * s } = .ok engine' ∧
        (engine'.feed ⟨Real.sqrt, Φ⟩ (tape.map fun t ↦
          { t with volume := t.volume * s })).map Prod.fst = .ok rs := by
  have hprice : ∀ (tick : ℝ) (htick : tick ≠ 0) (origin : ℝ) (f : Trade ℝ → Trade ℝ),
      (∀ t, f t = { t with price := tick * t.price + origin }) →
      (engine.feed ⟨Real.sqrt, Φ⟩ (tape.map f)).map Prod.fst =
        .ok (Batch.readings ⟨Real.sqrt, Φ⟩ cfg tape) := by
    intro tick htick origin f hf
    have hfeed := Units.feed_map_same ⟨tick, htick, origin, 1, one_pos⟩ hΦ cfg hnew rfl tape
    have htrade : f = (Units.mk tick htick origin 1 one_pos).trade := by
      funext t
      rw [hf, Units.trade, one_mul]
    rw [htrade]
    exact hfeed
  refine ⟨Batch.readings ⟨Real.sqrt, Φ⟩ cfg tape, ?_, ?_, ?_, ?_, ?_⟩
  · have hid := hprice 1 one_ne_zero 0 id (by simp)
    rwa [List.map_id] at hid
  · intro d hd
    exact hprice d hd.ne' 0 _ fun t ↦ by rw [add_zero, mul_comm]
  · intro c
    exact hprice 1 one_ne_zero c _ fun t ↦ by rw [one_mul]
  · intro c
    exact hprice (-1) (neg_ne_zero.mpr one_ne_zero) c _ fun t ↦ by rw [neg_one_mul, neg_add_eq_sub]
  · intro s hs
    obtain ⟨engine', hnew', hfeed⟩ :=
      Units.feed_map ⟨1, one_ne_zero, 0, s, hs⟩ hΦ cfg hnew tape
    have hcfg : (Units.mk 1 one_ne_zero 0 s hs).config cfg =
        { cfg with bucketVolume := cfg.bucketVolume * s } := by
      rw [Units.config, mul_comm]
    have htrade : (Units.mk 1 one_ne_zero 0 s hs).trade =
        fun t ↦ { t with volume := t.volume * s } := by
      funext t
      rw [Units.trade, one_mul, add_zero, mul_comm]
    rw [hcfg] at hnew'
    rw [htrade] at hfeed
    exact ⟨engine', hnew', hfeed⟩

/-- A distribution function of three values, symmetric about the origin. -/
noncomputable def signCdf (x : ℝ) : ℝ := 0.5 + 0.5 * Real.sign x

theorem signCdf_neg (x : ℝ) : signCdf (-x) = 1 - signCdf x := by
  rw [signCdf, signCdf, Real.sign_neg]
  norm_num
  ring

open Refinement in
/-- The two classified buckets of this tape have a price change of zero. -/
theorem readings_unit_free_unit :
    ∃ engine rs, VpinEngine.new unitConfig = .ok engine ∧
      (engine.feed ⟨Real.sqrt, signCdf⟩ (unitTape [1, 2, 2, 2])).map Prod.fst = .ok rs ∧
      (engine.feed ⟨Real.sqrt, signCdf⟩ ((unitTape [1, 2, 2, 2]).map fun t ↦
        { t with price := 5 - t.price })).map Prod.fst = .ok rs ∧
      ∃ engine', VpinEngine.new { unitConfig with bucketVolume := unitConfig.bucketVolume * 3 } =
          .ok engine' ∧
        (engine'.feed ⟨Real.sqrt, signCdf⟩ ((unitTape [1, 2, 2, 2]).map fun t ↦
          { t with volume := t.volume * 3 })).map Prod.fst = .ok rs := by
  obtain ⟨engine, hnew⟩ := VpinEngine.new_of_valid unitConfig_valid
  obtain ⟨rs, hfeed, -, -, hreflect, hscale⟩ := readings_unit_free signCdf signCdf_neg unitConfig
    engine hnew (unitTape [1, 2, 2, 2])
  exact ⟨engine, rs, hnew, hfeed, hreflect 5, hscale 3 three_pos⟩

end Geiger
