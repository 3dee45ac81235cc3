import Geiger.Calibrate.Panics
import Geiger.Capture.Tool
import Geiger.Service.Builds
import Geiger.Service.Precondition
import Geiger.Service.Restart

/-!
# The sweep and the service

What the calibration tool says about a configuration, from a recording, against what a
worker with that configuration has announced on the same trades.
-/

namespace Geiger

namespace ServerMessage

variable {F : Type*}

def vpin? : ServerMessage F → Option F
  | reading _ _ _ _ _ vpin _ => vpin
  | _ => none

def tsCloseNs? : ServerMessage F → Option UInt64
  | reading _ _ _ tsCloseNs _ _ _ => some tsCloseNs
  | _ => none

end ServerMessage

namespace Calibrate

open Runs Fallible Capture

variable {K : Type} [Field K] [LinearOrder K]

/-- The statistics of a result are those of these readings. -/
structure Summarises (m : Libm K) (stats : Stats K) (msgs : List (ServerMessage K)) : Prop where
  totalBuckets : stats.totalBuckets = msgs.length
  nonWarmupReadings : stats.nonWarmupReadings = (msgs.filterMap ServerMessage.vpin?).length
  vpinMean : stats.vpinMean = (summarize m (msgs.filterMap ServerMessage.vpin?)).map (·.1)
  vpinMin : stats.vpinMin = (summarize m (msgs.filterMap ServerMessage.vpin?)).map (·.2.1)
  vpinMax : stats.vpinMax = (summarize m (msgs.filterMap ServerMessage.vpin?)).map (·.2.2.1)
  vpinStddev :
    stats.vpinStddev = (summarize m (msgs.filterMap ServerMessage.vpin?)).map (·.2.2.2)
  avgBucketIntervalMs :
    stats.avgBucketIntervalMs = meanIntervalMs (msgs.filterMap ServerMessage.tsCloseNs?)

/-! ## Reading the recording -/

section Loading

omit [LinearOrder K] in
theorem toTrade_loadTrade (t : NormalizedTrade) :
    (loadTrade t : Trade K).toTrade = Stream.toTrade t := by
  simp only [loadTrade, Stream.toTrade, Nat.cast_pow, Nat.cast_ofNat]

theorem takesAll_loadTrades [IsStrictOrderedRing K] {ts : List NormalizedTrade}
    (hnonzero : ∀ t ∈ ts, t.price.raw ≠ 0 ∧ t.qty.raw ≠ 0) (hlength : ts.length ≤ 4294967295)
    (build : Build) (bucketVolume : K) :
    TakesAll build bucketVolume ((ts.map loadTrade).map Trade.toTrade) := by
  refine takesAll_of_positive ?_ (by simpa using hlength) build bucketVolume
  simp only [List.forall_mem_map, toTrade_loadTrade]
  exact fun t ht ↦ Stream.toTrade_positive_iff.mpr (hnonzero t ht)

omit [LinearOrder K] in
theorem mapM_loadTrade (ts : List NormalizedTrade) :
    (ts.map .ok).mapM (fun item : Except CaptureError NormalizedTrade ↦
      item.map (loadTrade (K := K))) = .ok (ts.map loadTrade) := by
  induction ts with
  | nil => rfl
  | cons t ts ih =>
      rw [List.map_cons, List.mapM_cons, ih]
      rfl

omit [LinearOrder K] in
theorem loadTrades_captureFile (ts : List NormalizedTrade) {script : List ReadOutcome}
    (hscript : TradeReader.Benign script) :
    loadTrades (captureFile ts) script = .ok (ts.map (loadTrade (K := K))) := by
  have hitems : (TradeReader.mk (ts.flatMap encodeRecord) script).items = ts.map .ok := by
    rw [TradeReader.items_eq_chunks hscript]
    have hchunks := TradeReader.chunks_records ts []
    rw [List.append_nil] at hchunks
    rw [hchunks, Chunks.chunks_nil recordSize_pos]
    exact List.append_nil _
  rw [loadTrades, TradeReader.openFile_captureFile]
  have hloaded := mapM_loadTrade (K := K) ts
  rw [← hitems] at hloaded
  exact hloaded

end Loading

/-! ## The statistics of a stream -/

section Sweep

variable {m : Libm K}

theorem map_withoutPValue_fillPValues (out : List (SweepResult K)) :
    (fillPValues m out).map SweepResult.withoutPValue = out.map SweepResult.withoutPValue := by
  unfold fillPValues
  cases best out with
  | none => rfl
  | some b =>
      refine List.ext_getElem? fun i ↦ ?_
      rw [Option.elim_some, List.getElem?_map, List.getElem?_map, List.getElem?_mapIdx]
      cases out[i]? with
      | none => rfl
      | some r =>
          simp only [Option.map_some, Option.some.injEq]
          split
          · rfl
          · exact SweepResult.withoutPValue_compareWith m b.2 r

omit [Field K] [LinearOrder K] in
theorem filterMap_vpin (exchange symbol : String) (rs : List (VpinReading K)) :
    (rs.map (Stream.messageOf exchange symbol)).filterMap ServerMessage.vpin? =
      rs.filterMap VpinReading.vpin := by
  rw [List.filterMap_map]
  rfl

omit [Field K] [LinearOrder K] in
theorem filterMap_tsCloseNs (exchange symbol : String) (rs : List (VpinReading K)) :
    (rs.map (Stream.messageOf exchange symbol)).filterMap ServerMessage.tsCloseNs? =
      rs.map VpinReading.tsCloseNs := by
  rw [List.filterMap_map]
  exact congrFun List.filterMap_eq_map rs

variable [FloorSemiring K] [IsStrictOrderedRing K] {tape : List (Trade K)}

omit [IsStrictOrderedRing K] in
/-- One configuration: the statistics are those of the readings. -/
theorem exists_calibrateOne {bucketVolume : K} {sigmaWindow vpinWindow : ℕ}
    {cdfWindow : Option ℕ} {cfg : VpinEngineConfig K}
    (hcfg : engineConfig bucketVolume sigmaWindow vpinWindow cdfWindow = cfg)
    {engine engine' : VpinEngine K} {rs : List (VpinReading K)}
    (hnew : VpinEngine.new cfg = .ok engine)
    (hfeed : engine.feed m (tape.map Trade.toTrade) = .ok (rs, engine')) (bvc : BvcStats K) :
    ∃ stats, (calibrateOne m tape bucketVolume sigmaWindow vpinWindow cdfWindow bvc).run =
        .ok (.ok stats) ∧
      ∀ exchange symbol, Summarises m stats (rs.map (Stream.messageOf exchange symbol)) := by
  have hreturns : ∃ stats, Returns
      (calibrateOne m tape bucketVolume sigmaWindow vpinWindow cdfWindow bvc) stats ∧
      ∀ exchange symbol, Summarises m stats (rs.map (Stream.messageOf exchange symbol)) := by
    simp only [calibrateOne, hcfg, returns_bind, returns_check, returns_attempt, returns_pure]
    refine ⟨_, ⟨_, hnew, _, hfeed, rfl⟩, fun exchange symbol ↦ ?_⟩
    have hvpin := filterMap_vpin exchange symbol rs
    constructor <;> simp only [statsOf, hvpin, filterMap_tsCloseNs, List.length_map]
  exact hreturns

omit [IsStrictOrderedRing K] in
theorem IsCell.coordinates {cdfWindow : Option ℕ} {c : K × ℕ × ℕ} {r : SweepResult K}
    (h : IsCell m tape cdfWindow c r) :
    r.bucketVolume = c.1 ∧ r.sigmaWindow = c.2.1 ∧ r.vpinWindow = c.2.2 := by
  obtain ⟨bvc, -, hrun⟩ := h.run
  cases bvc with
  | error e =>
      obtain rfl := Except.ok.inj hrun
      exact ⟨rfl, rfl, rfl⟩
  | ok bvc =>
      obtain ⟨stats, -, hrun⟩ := ok_of_bind hrun
      obtain rfl := Except.ok.inj hrun
      exact ⟨rfl, rfl, rfl⟩

/-- The result of one configuration on a tape. -/
theorem IsCell.summarises {cfg : VpinEngineConfig K} (hvalid : cfg.Valid)
    (hci : cfg.confidenceInterval = none) {r : SweepResult K}
    (hcell : IsCell m tape cfg.cdfWindow (cfg.bucketVolume, cfg.sigmaWindow, cfg.vpinWindow) r)
    (exchange symbol : String) :
    ∃ stats, r.stats = .ok stats ∧ Summarises m stats
      ((Batch.readings m cfg (tape.map Trade.toTrade)).map (Stream.messageOf exchange symbol)) := by
  have hcfg : engineConfig cfg.bucketVolume cfg.sigmaWindow cfg.vpinWindow cfg.cdfWindow = cfg := by
    cases cfg
    cases hci
    rfl
  obtain ⟨engine, hnew⟩ := VpinEngine.new_of_valid hvalid
  have hfresh := VpinEngine.fresh_of_new hnew
  obtain ⟨engine', hfeed, -⟩ :=
    Refinement.feed_eq_readings (m := m) hnew (tape.map Trade.toTrade)
  obtain ⟨bvc, hbvc, hrun⟩ := hcell.run
  have hreturns := returns_summary hfresh.bucketer hfresh.sigma m tape
  obtain rfl := Except.ok.inj (hbvc.symm.trans hreturns)
  obtain ⟨stats, hstats, hsummary⟩ := exists_calibrateOne hcfg hnew hfeed _
  rw [sweepCell, hstats] at hrun
  obtain rfl := Except.ok.inj hrun
  exact ⟨stats, rfl, hsummary exchange symbol⟩

omit [FloorSemiring K] [IsStrictOrderedRing K] in
/-- The p-value is not one of the statistics. -/
theorem Summarises.of_withoutPValue {r r' : SweepResult K} {stats : Stats K}
    {msgs : List (ServerMessage K)} (h : Summarises m stats msgs) (hstats : r.stats = .ok stats)
    (hsame : r'.withoutPValue = r.withoutPValue) :
    ∃ stats', r'.stats = .ok stats' ∧ Summarises m stats' msgs := by
  have hmap := congrArg SweepResult.stats hsame
  simp only [SweepResult.withoutPValue, hstats, Except.map] at hmap
  cases hstats' : r'.stats with
  | error e =>
      rw [hstats'] at hmap
      cases hmap
  | ok stats' =>
      rw [hstats'] at hmap
      have heq := Except.ok.inj hmap
      simp only [Stats.mk.injEq] at heq
      obtain ⟨-, -, -, htotal, hreadings, hmean, hmin, hmax, hstddev, hinterval, -⟩ := heq
      exact ⟨stats', rfl, htotal.trans h.totalBuckets, hreadings.trans h.nonWarmupReadings,
        hmean.trans h.vpinMean, hmin.trans h.vpinMin, hmax.trans h.vpinMax,
        hstddev.trans h.vpinStddev, hinterval.trans h.avgBucketIntervalMs⟩

/-- A configuration on the grid has its result in a sweep that does not panic: the statistics
of the batch readings. -/
theorem exists_result {cfg : VpinEngineConfig K} (hvalid : cfg.Valid)
    (hci : cfg.confidenceInterval = none) {bucketVolumes : List K}
    {sigmaWindows vpinWindows : List ℕ} (hbucketVolume : cfg.bucketVolume ∈ bucketVolumes)
    (hsigmaWindow : cfg.sigmaWindow ∈ sigmaWindows) (hvpinWindow : cfg.vpinWindow ∈ vpinWindows)
    (m : Libm K) (ts : List NormalizedTrade) {build : Build}
    (hpasses : Passes build (ts.map (loadTrade (K := K))) bucketVolumes sigmaWindows vpinWindows
      cfg.cdfWindow) (exchange symbol : String) :
    ∃ out r stats,
      runSweepIn build m (ts.map loadTrade) bucketVolumes sigmaWindows vpinWindows
        cfg.cdfWindow = .ok out ∧ r ∈ out ∧ r.bucketVolume = cfg.bucketVolume ∧
      r.sigmaWindow = cfg.sigmaWindow ∧ r.vpinWindow = cfg.vpinWindow ∧ r.stats = .ok stats ∧
      Summarises m stats ((Stream.batch m cfg ts).map (Stream.messageOf exchange symbol)) := by
  obtain ⟨g, hg⟩ := exists_cells m (ts.map (loadTrade (K := K))) cfg.cdfWindow
  have hgrid := sweepGrid_eq hg bucketVolumes sigmaWindows vpinWindows
  have hmem : g (cfg.bucketVolume, cfg.sigmaWindow, cfg.vpinWindow) ∈
      (bucketVolumes ×ˢ sigmaWindows ×ˢ vpinWindows).map g := by
    apply List.mem_map_of_mem
    simp only [List.mem_product]
    exact ⟨hbucketVolume, hsigmaWindow, hvpinWindow⟩
  obtain ⟨stats, hstats, hsummary⟩ := (hg _).summarises hvalid hci exchange symbol
  have htape : (ts.map (loadTrade (K := K))).map Trade.toTrade = ts.map Stream.toTrade := by
    rw [List.map_map]
    exact List.map_congr_left fun t _ ↦ toTrade_loadTrade t
  rw [htape] at hsummary
  have hfilled := List.mem_map_of_mem (f := SweepResult.withoutPValue) hmem
  rw [← map_withoutPValue_fillPValues (m := m)] at hfilled
  obtain ⟨r, hr, hrsame⟩ := List.mem_map.mp hfilled
  obtain ⟨stats', hstats', hsummary'⟩ := hsummary.of_withoutPValue hstats hrsame
  obtain ⟨hbv, hsw, hvw⟩ := (hg (cfg.bucketVolume, cfg.sigmaWindow, cfg.vpinWindow)).coordinates
  obtain ⟨out, hout, hexact⟩ := exists_runSweepIn_ok (m := m) hpasses
  rw [runSweep, hgrid] at hexact
  obtain rfl := Except.ok.inj hexact
  refine ⟨_, r, stats', hout, hr, (congrArg SweepResult.bucketVolume hrsame).trans hbv,
    (congrArg SweepResult.sigmaWindow hrsame).trans hsw,
    (congrArg SweepResult.vpinWindow hrsame).trans hvw, hstats', hsummary'⟩

end Sweep

/-- The capture tool records these trades and is stopped. -/
def recordAll (prices : List UInt64) : List Tool.Event :=
  (prices.flatMap fun price ↦ [.trade (Stream.pricedTrade price), .proceed]) ++ [.ctrlC, .proceed]

end Calibrate

end Geiger
