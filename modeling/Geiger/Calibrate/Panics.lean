import Geiger.Calibrate.Sweep
import Geiger.Vpin.Panics

/-!
# Panics of a sweep

The sweep again in a given build, with the constructors and the pushes that can panic.
-/

namespace Geiger.Calibrate

open Fallible Runs

section Code

variable {K : Type} [Field K] [LinearOrder K] (build : Build) (m : Libm K)

/-- The side of the trade, counted before the push, cannot panic. -/
def BvcPass.pushTradeIn (p : BvcPass K) (t : Trade K) : Except Panic (BvcPass K) := do
  p.bucketer.asserts build t.price t.volume
  VpinEngine.arithmetic (p.pushTrade m t)

variable (trades : List (Trade K))

def bvcAccuracyStatsIn (bucketVolume : K) (sigmaWindow : ℕ) : Construction K (BvcStats K) := do
  let bucketer ← VolumeBucketer.create (.finite bucketVolume)
  let sigma ← RollingSigma.create sigmaWindow
  let pass ← attempt (trades.foldlM (BvcPass.pushTradeIn build m) (BvcPass.new bucketer sigma))
  return pass.stats

variable [FloorSemiring K]

def calibrateOneIn (bucketVolume : K) (sigmaWindow vpinWindow : ℕ) (cdfWindow : Option ℕ)
    (bvc : BvcStats K) : Construction K (Stats K) := do
  let engine ← VpinEngine.create
    (engineConfig bucketVolume sigmaWindow vpinWindow cdfWindow).raw
  let (readings, _) ← attempt (engine.feedIn build m (trades.map Trade.toTrade))
  return statsOf m bucketVolume sigmaWindow vpinWindow bvc readings

/-- The volumes of the grid are finite, and so is the float in an error. -/
def sweepCellIn (cdfWindow : Option ℕ) (bucketVolume : K) (sigmaWindow vpinWindow : ℕ) :
    Except (VpinError (RawFloat K)) (BvcStats K) → Except Panic (SweepResult K)
  | .ok bvc => do
    let stats ←
      (calibrateOneIn build m trades bucketVolume sigmaWindow vpinWindow cdfWindow bvc).run
    return {
      bucketVolume
      sigmaWindow
      vpinWindow
      stats := stats.mapError (VpinError.map (RawFloat.getD bucketVolume)) }
  | .error e =>
    .ok {
      bucketVolume
      sigmaWindow
      vpinWindow
      stats := .error (e.map (RawFloat.getD bucketVolume)) }

def sweepGridIn (bucketVolumes : List K) (sigmaWindows vpinWindows : List ℕ)
    (cdfWindow : Option ℕ) : Except Panic (List (SweepResult K)) := do
  let rows ← bucketVolumes.mapM fun bv ↦ do
    let row ← sigmaWindows.mapM fun sw ↦ do
      let bvc ← (bvcAccuracyStatsIn build m trades bv sw).run
      vpinWindows.mapM fun vw ↦ sweepCellIn build m trades cdfWindow bv sw vw bvc
    return row.flatten
  return rows.flatten

def runSweepIn (bucketVolumes : List K) (sigmaWindows vpinWindows : List ℕ)
    (cdfWindow : Option ℕ) : Except Panic (List (SweepResult K)) := do
  let out ← sweepGridIn build m trades bucketVolumes sigmaWindows vpinWindows cdfWindow
  return fillPValues m out

/-- The loops panic at this volume and this window: a buffer would be too large, or in a
debug build the bucketer does not take the tape. -/
def PanicsAt (vpinWindows : List ℕ) (cdfWindow : Option ℕ) (bucketVolume : K)
    (sigmaWindow : ℕ) : Prop :=
  0 < bucketVolume ∧ 2 ≤ sigmaWindow ∧
    (2 ^ 60 ≤ sigmaWindow ∨ ¬ TakesAll build bucketVolume (trades.map Trade.toTrade) ∨
      ∃ vw ∈ vpinWindows, 1 ≤ vw ∧ (2 ^ 59 ≤ vw ∨ ∃ n ∈ cdfWindow, 2 ^ 60 ≤ n))

/-- The loops panic nowhere on this grid. -/
def Passes (bucketVolumes : List K) (sigmaWindows vpinWindows : List ℕ)
    (cdfWindow : Option ℕ) : Prop :=
  ∀ bv ∈ bucketVolumes, ∀ sw ∈ sigmaWindows,
    ¬ PanicsAt build trades vpinWindows cdfWindow bv sw

end Code

variable {K : Type} [Field K] [LinearOrder K] {build : Build} {m : Libm K}
  {trades : List (Trade K)}

/-! ## A sweep that does not panic -/

section Versions

theorem approximates_pushTradeIn (p : BvcPass K) (t : Trade K) :
    Approximates (p.pushTradeIn build m t) (p.pushTrade m t) := by
  intro p' h
  obtain ⟨_, -, h⟩ := ok_of_bind h
  exact mapError_eq_ok.mp h

theorem implements_bvcAccuracyStatsIn (bucketVolume : K) (sigmaWindow : ℕ) :
    Implements (VpinError.map .finite) (bvcAccuracyStatsIn build m trades bucketVolume sigmaWindow)
      (bvcAccuracyStats m trades bucketVolume sigmaWindow) :=
  (VpinEngine.implements_checkFinite _).bind fun _ ↦
    (VpinEngine.implements_createSigma _).bind fun _ ↦
      ((Approximates.foldlM approximates_pushTradeIn trades _).attempt _).bind fun pass ↦
        implements_pure _ pass.stats

variable [FloorSemiring K]

theorem implements_calibrateOneIn (bucketVolume : K) (sigmaWindow vpinWindow : ℕ)
    (cdfWindow : Option ℕ) (bvc : BvcStats K) :
    Implements (VpinError.map .finite)
      (calibrateOneIn build m trades bucketVolume sigmaWindow vpinWindow cdfWindow bvc)
      (calibrateOne m trades bucketVolume sigmaWindow vpinWindow cdfWindow bvc) :=
  (VpinEngine.implements_create_raw _).bind fun engine ↦
    ((VpinEngine.approximates_feedIn build m engine _).attempt _).bind fun out ↦
      implements_pure _ (statsOf m bucketVolume sigmaWindow vpinWindow bvc out.1)

omit [Field K] [LinearOrder K] [FloorSemiring K] in
theorem mapError_finite {α : Type} (default : K) (r : Except (VpinError K) α) :
    (r.mapError (VpinError.map .finite)).mapError (VpinError.map (RawFloat.getD default)) = r := by
  cases r <;> simp [Except.mapError]

theorem approximates_sweepCellIn (cdfWindow : Option ℕ) (bucketVolume : K)
    (sigmaWindow vpinWindow : ℕ) (bvc : Except (VpinError K) (BvcStats K)) :
    Approximates (sweepCellIn build m trades cdfWindow bucketVolume sigmaWindow vpinWindow
        (bvc.mapError (VpinError.map .finite)))
      (sweepCell m trades cdfWindow bucketVolume sigmaWindow vpinWindow bvc) := by
  intro r hr
  cases bvc with
  | error e =>
      obtain rfl := Except.ok.inj hr
      simp [sweepCell]
  | ok bvc =>
      obtain ⟨stats, hstats, hr⟩ := ok_of_bind hr
      obtain ⟨stats', hstats', rfl⟩ := implements_calibrateOneIn _ _ _ _ _ stats hstats
      rw [mapError_finite] at hr
      obtain rfl := Except.ok.inj hr
      exact bind_eq_ok.mpr ⟨stats', hstats', rfl⟩

theorem approximates_sweepGridIn (bucketVolumes : List K) (sigmaWindows vpinWindows : List ℕ)
    (cdfWindow : Option ℕ) :
    Approximates (sweepGridIn build m trades bucketVolumes sigmaWindows vpinWindows cdfWindow)
      (sweepGrid m trades bucketVolumes sigmaWindows vpinWindows cdfWindow) := by
  have hpair (bv : K) (sw : ℕ) : Approximates
      (do
        let bvc ← (bvcAccuracyStatsIn build m trades bv sw).run
        vpinWindows.mapM fun vw ↦ sweepCellIn build m trades cdfWindow bv sw vw bvc)
      (do
        let bvc ← (bvcAccuracyStats m trades bv sw).run
        vpinWindows.mapM fun vw ↦ sweepCell m trades cdfWindow bv sw vw bvc) := by
    intro row hrow
    obtain ⟨bvc, hbvc, hrow⟩ := ok_of_bind hrow
    obtain ⟨bvc', hbvc', rfl⟩ := implements_bvcAccuracyStatsIn bv sw bvc hbvc
    refine bind_eq_ok.mpr ⟨bvc', hbvc', ?_⟩
    exact Approximates.mapM (fun vw ↦ approximates_sweepCellIn _ _ _ vw bvc') vpinWindows row hrow
  have hrow (bv : K) := (Approximates.mapM (hpair bv) sigmaWindows).bind fun row ↦
    approximates_pure row.flatten
  exact (Approximates.mapM hrow bucketVolumes).bind fun rows ↦ approximates_pure rows.flatten

theorem approximates_runSweepIn (bucketVolumes : List K) (sigmaWindows vpinWindows : List ℕ)
    (cdfWindow : Option ℕ) :
    Approximates (runSweepIn build m trades bucketVolumes sigmaWindows vpinWindows cdfWindow)
      (runSweep m trades bucketVolumes sigmaWindows vpinWindows cdfWindow) :=
  (approximates_sweepGridIn _ _ _ _).bind fun out ↦ approximates_pure (fillPValues m out)

end Versions

/-! ## When a sweep panics -/

section Panics

theorem BvcPass.Balanced.pushTrade {p : BvcPass K} (h : p.Balanced) (m : Libm K) (t : Trade K) :
    ∃ p', p.pushTrade m t = .ok p' ∧ p'.Balanced ∧
      p.bucketer.next t.toTrade = some p'.bucketer := by
  cases hpush : (p.bucketer.push t.price t.volume t.tsNs).1 with
  | none =>
      have hp := pushTrade_open (m := m) hpush
      exact ⟨_, hp, h.push hp, rfl⟩
  | some closed =>
      have hp := pushTrade_close (m := m) hpush h
      refine ⟨_, hp, h.push hp, ?_⟩
      simp only [judge_bucketer]
      rfl

theorem BvcPass.foldlM_isOk_iff {p : BvcPass K} (h : p.Balanced) :
    (∃ p', trades.foldlM (BvcPass.pushTradeIn build m) p = .ok p') ↔
      Along VolumeBucketer.next (VolumeBucketer.Takes build) p.bucketer
        (trades.map Trade.toTrade) := by
  induction trades generalizing p with
  | nil => exact ⟨fun _ ↦ trivial, fun _ ↦ ⟨p, rfl⟩⟩
  | cons t trades ih =>
      obtain ⟨p', hpush, h', hnext⟩ := h.pushTrade m t
      have hasserts := @VpinEngine.asserts_eq_ok K _ _ build p.bucketer t.toTrade
      have hstep : p.pushTradeIn build m t = .ok p' ↔ p.bucketer.Takes build t.toTrade := by
        rw [VolumeBucketer.Takes, ← hasserts, pushTradeIn, hpush]
        cases p.bucketer.asserts build t.price t.volume <;>
          simp [bind, Except.bind, VpinEngine.arithmetic, Except.mapError]
      simp only [List.map_cons, Along, hnext, Option.mem_def, Option.some.injEq, forall_eq',
        ← hstep, ← ih h', List.foldlM_cons, bind_eq_ok]
      constructor
      · rintro ⟨q, p'', hp'', hq⟩
        obtain rfl := Except.ok.inj (hpush.symm.trans (approximates_pushTradeIn p t p'' hp''))
        exact ⟨hp'', q, hq⟩
      · rintro ⟨hp', q, hq⟩
        exact ⟨q, p', hp', hq⟩

theorem panics_bvcAccuracyStatsIn {bucketVolume : K} {sigmaWindow : ℕ} :
    Panics (bvcAccuracyStatsIn build m trades bucketVolume sigmaWindow) ↔
      0 < bucketVolume ∧ 2 ≤ sigmaWindow ∧ (2 ^ 60 ≤ sigmaWindow ∨
        ¬ TakesAll build bucketVolume (trades.map Trade.toTrade)) := by
  have hbucketer : (∃ b, VolumeBucketer.new bucketVolume = .ok b) ↔ 0 < bucketVolume := by
    by_cases hpos : 0 < bucketVolume <;> simp [VolumeBucketer.new, hpos]
  have hsigma : (∃ s : RollingSigma K, RollingSigma.new sigmaWindow = .ok s) ↔ 2 ≤ sigmaWindow :=
    exists_newSigma
  simp only [bvcAccuracyStatsIn, panics_bind, not_panics_checkFinite, VolumeBucketer.create,
    returns_checkFinite, panics_createSigma, returns_createSigma, panics_attempt,
    exists_error_iff, not_panics_pure, and_false, exists_false, or_false, false_or]
  constructor
  · rintro ⟨b, hb, hlarge | ⟨sigma, ⟨hs, -⟩, hfold⟩⟩
    · exact ⟨hbucketer.mp ⟨b, hb⟩, by omega, .inl hlarge⟩
    · refine ⟨hbucketer.mp ⟨b, hb⟩, hsigma.mp ⟨sigma, hs⟩, .inr fun htakes ↦ hfold ?_⟩
      exact (BvcPass.foldlM_isOk_iff (BvcPass.balanced_new sigma hb)).mpr (htakes b hb)
  · rintro ⟨hpos, htwo, hcause⟩
    obtain ⟨b, hb⟩ := hbucketer.mpr hpos
    obtain ⟨sigma, hs⟩ := hsigma.mpr htwo
    refine ⟨b, hb, ?_⟩
    by_cases hlarge : 2 ^ 60 ≤ sigmaWindow
    · exact .inl hlarge
    · refine .inr ⟨sigma, ⟨hs, not_le.mp hlarge⟩, fun hfold ↦ ?_⟩
      refine hcause.resolve_left hlarge fun b' hb' ↦ ?_
      obtain rfl := Except.ok.inj (hb.symm.trans hb')
      exact (BvcPass.foldlM_isOk_iff (BvcPass.balanced_new sigma hb)).mp hfold

theorem exists_returns_bvcAccuracyStatsIn {bucketVolume : K} {sigmaWindow : ℕ} :
    (∃ bvc, Returns (bvcAccuracyStatsIn build m trades bucketVolume sigmaWindow) bvc) ↔
      (0 < bucketVolume ∧ 2 ≤ sigmaWindow) ∧ sigmaWindow < 2 ^ 60 ∧
        TakesAll build bucketVolume (trades.map Trade.toTrade) := by
  simp only [bvcAccuracyStatsIn, returns_bind, VolumeBucketer.create, returns_checkFinite,
    returns_createSigma, returns_attempt, returns_pure]
  constructor
  · rintro ⟨_, b, hb, sigma, ⟨hs, hsize⟩, pass, hfold, -⟩
    refine ⟨⟨(VolumeBucketer.new_eq_ok hb).1, (RollingSigma.new_eq_ok hs).1⟩, hsize, ?_⟩
    intro b' hb'
    obtain rfl := Except.ok.inj (hb.symm.trans hb')
    exact (BvcPass.foldlM_isOk_iff (BvcPass.balanced_new sigma hb)).mp ⟨pass, hfold⟩
  · rintro ⟨⟨hpos, htwo⟩, hsize, htakes⟩
    obtain ⟨b, hb⟩ : ∃ b, VolumeBucketer.new bucketVolume = .ok b := by
      simp [VolumeBucketer.new, hpos]
    obtain ⟨sigma, hs⟩ := exists_newSigma.mpr htwo
    obtain ⟨pass, hfold⟩ :=
      (BvcPass.foldlM_isOk_iff (BvcPass.balanced_new sigma hb)).mpr (htakes b hb)
    exact ⟨_, b, hb, sigma, ⟨hs, hsize⟩, pass, hfold, rfl⟩

variable [FloorSemiring K] [IsStrictOrderedRing K] {cdfWindow : Option ℕ}

omit [FloorSemiring K] [IsStrictOrderedRing K] in
theorem passesChecks_engineConfig {bucketVolume : K} {sigmaWindow vpinWindow : ℕ} :
    PassesChecks (engineConfig bucketVolume sigmaWindow vpinWindow cdfWindow).raw ↔
      0 < bucketVolume ∧ 2 ≤ sigmaWindow ∧ 1 ≤ vpinWindow := by
  constructor
  · rintro ⟨hvpin, -, ⟨v, hv, hpos⟩, hsigma⟩
    obtain rfl := RawFloat.finite.inj hv
    exact ⟨hpos, hsigma, hvpin⟩
  · rintro ⟨hpos, hsigma, hvpin⟩
    refine ⟨hvpin, fun c hc ↦ ?_, ⟨_, rfl, hpos⟩, hsigma⟩
    cases hc

/-- The engine takes every tape that the pass over the true sides takes. -/
theorem panics_calibrateOneIn {bucketVolume : K} {sigmaWindow vpinWindow : ℕ} {bvc : BvcStats K}
    (htakes : TakesAll build bucketVolume (trades.map Trade.toTrade)) :
    Panics (calibrateOneIn build m trades bucketVolume sigmaWindow vpinWindow cdfWindow bvc) ↔
      (0 < bucketVolume ∧ 2 ≤ sigmaWindow ∧ 1 ≤ vpinWindow) ∧
        (2 ^ 60 ≤ sigmaWindow ∨ 2 ^ 59 ≤ vpinWindow ∨ ∃ n ∈ cdfWindow, 2 ^ 60 ≤ n) := by
  rw [← @passesChecks_engineConfig K _ _ cdfWindow]
  simp only [calibrateOneIn, panics_bind, VpinEngine.panics_create, panics_attempt,
    exists_error_iff, not_panics_pure, and_false, exists_false, or_false]
  refine or_iff_left ?_
  rintro ⟨e, hcreate, hfeed⟩
  have huse := VpinEngine.inUse_of_create hcreate
  have hfresh := VpinEngine.fresh_of_new (VpinEngine.returns_create_raw.mp hcreate).1
  have hci : e.ci = none := (Except.ok.inj hfresh.ci).symm
  exact hfeed ((VpinEngine.feedIn_isOk_iff_takes huse hci _).mpr (htakes _ hfresh.bucketer))

omit [IsStrictOrderedRing K] in
theorem exists_sweepCellIn_error {bucketVolume : K} {sigmaWindow vpinWindow : ℕ}
    {bvc : Except (VpinError (RawFloat K)) (BvcStats K)} :
    (∃ p, sweepCellIn build m trades cdfWindow bucketVolume sigmaWindow vpinWindow bvc =
        .error p) ↔
      ∃ stats, bvc = .ok stats ∧ Panics
        (calibrateOneIn build m trades bucketVolume sigmaWindow vpinWindow cdfWindow stats) := by
  cases bvc with
  | error e => simp [sweepCellIn]
  | ok stats =>
      simp only [sweepCellIn, exists_bind_error, Panics, Except.ok.injEq, exists_eq_left']
      simp [pure, Except.pure]

theorem exists_pair_error {bucketVolume : K} {sigmaWindow : ℕ} {vpinWindows : List ℕ} :
    (∃ p, (do
        let bvc ← (bvcAccuracyStatsIn build m trades bucketVolume sigmaWindow).run
        vpinWindows.mapM fun vw ↦
          sweepCellIn build m trades cdfWindow bucketVolume sigmaWindow vw bvc) = .error p) ↔
      PanicsAt build trades vpinWindows cdfWindow bucketVolume sigmaWindow := by
  rw [exists_bind_error]
  simp only [exists_mapM_error, exists_sweepCellIn_error]
  change Panics _ ∨ _ ↔ _
  constructor
  · rintro (hpanics | ⟨_, hbvc, vw, hvw, stats, rfl, hpanics⟩)
    · obtain ⟨hpos, htwo, hcause⟩ := panics_bvcAccuracyStatsIn.mp hpanics
      exact ⟨hpos, htwo, hcause.imp_right .inl⟩
    · obtain ⟨-, hsize, htakes⟩ := exists_returns_bvcAccuracyStatsIn.mp ⟨stats, hbvc⟩
      obtain ⟨⟨hpos, htwo, hone⟩, hlarge⟩ := (panics_calibrateOneIn htakes).mp hpanics
      exact ⟨hpos, htwo, .inr (.inr ⟨vw, hvw, hone, hlarge.resolve_left (not_le.mpr hsize)⟩)⟩
  · rintro ⟨hpos, htwo, hcause⟩
    by_cases hpass : 2 ^ 60 ≤ sigmaWindow ∨
        ¬ TakesAll build bucketVolume (trades.map Trade.toTrade)
    · exact .inl (panics_bvcAccuracyStatsIn.mpr ⟨hpos, htwo, hpass⟩)
    · obtain ⟨hsize, htakes⟩ := not_or.mp hpass
      obtain ⟨vw, hvw, hone, hlarge⟩ := (hcause.resolve_left hsize).resolve_left htakes
      rw [not_not] at htakes
      obtain ⟨stats, hbvc⟩ := exists_returns_bvcAccuracyStatsIn (m := m).mpr
        ⟨⟨hpos, htwo⟩, not_le.mp hsize, htakes⟩
      exact .inr ⟨_, hbvc, vw, hvw, stats, rfl,
        (panics_calibrateOneIn htakes).mpr ⟨⟨hpos, htwo, hone⟩, .inr hlarge⟩⟩

omit [FloorSemiring K] [IsStrictOrderedRing K] in
theorem passes_of_small {bucketVolumes : List K} {sigmaWindows vpinWindows : List ℕ}
    (hsigma : ∀ sw ∈ sigmaWindows, sw < 2 ^ 60) (hvpin : ∀ vw ∈ vpinWindows, vw < 2 ^ 59)
    (hcdf : ∀ n ∈ cdfWindow, n < 2 ^ 60)
    (htakes : ∀ bv ∈ bucketVolumes, TakesAll build bv (trades.map Trade.toTrade)) :
    Passes build trades bucketVolumes sigmaWindows vpinWindows cdfWindow := by
  rintro bv hbv sw hsw ⟨-, -, hlarge | hnot | ⟨vw, hvw, -, hlarge | ⟨n, hn, hlarge⟩⟩⟩
  · exact not_le.mpr (hsigma sw hsw) hlarge
  · exact hnot (htakes bv hbv)
  · exact not_le.mpr (hvpin vw hvw) hlarge
  · exact not_le.mpr (hcdf n hn) hlarge

/-- A sweep panics exactly when it does so at one of its volumes and windows. -/
theorem exists_runSweepIn_error {bucketVolumes : List K} {sigmaWindows vpinWindows : List ℕ} :
    (∃ p, runSweepIn build m trades bucketVolumes sigmaWindows vpinWindows cdfWindow =
        .error p) ↔
      ∃ bv ∈ bucketVolumes, ∃ sw ∈ sigmaWindows,
        PanicsAt build trades vpinWindows cdfWindow bv sw := by
  unfold runSweepIn sweepGridIn
  rw [exists_bind_pure_error, exists_bind_pure_error, exists_mapM_error]
  refine exists_congr fun bv ↦ and_congr_right' ?_
  rw [exists_bind_pure_error, exists_mapM_error]
  exact exists_congr fun sw ↦ and_congr_right' exists_pair_error

theorem exists_runSweepIn_ok {bucketVolumes : List K} {sigmaWindows vpinWindows : List ℕ}
    (h : Passes build trades bucketVolumes sigmaWindows vpinWindows cdfWindow) :
    ∃ out, runSweepIn build m trades bucketVolumes sigmaWindows vpinWindows cdfWindow =
        .ok out ∧
      runSweep m trades bucketVolumes sigmaWindows vpinWindows cdfWindow = .ok out := by
  cases hrun : runSweepIn build m trades bucketVolumes sigmaWindows vpinWindows cdfWindow with
  | error p =>
      obtain ⟨bv, hbv, sw, hsw, hpanics⟩ := exists_runSweepIn_error.mp ⟨p, hrun⟩
      exact absurd hpanics (h bv hbv sw hsw)
  | ok out => exact ⟨out, rfl, approximates_runSweepIn _ _ _ _ out hrun⟩

end Panics

end Geiger.Calibrate
