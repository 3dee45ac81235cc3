import Geiger.Capture.Reader
import Geiger.Vpin.Engine

/-!
# The replays of the calibration tool

A statistic that may be `NaN` is optional, and the counters are natural numbers.
-/

namespace Geiger.Calibrate

open Capture Fallible

structure Trade (K : Type*) extends Geiger.Trade K where
  takerSide : TakerSide

structure BvcStats (K : Type*) where
  accuracy : Option K
  meanAbsError : Option K
  compared : ℕ

structure Stats (K : Type*) where
  bucketVolume : K
  sigmaWindow : ℕ
  vpinWindow : ℕ
  totalBuckets : ℕ
  nonWarmupReadings : ℕ
  vpinMean : Option K
  vpinMin : Option K
  vpinMax : Option K
  vpinStddev : Option K
  avgBucketIntervalMs : Option K
  bvcAccuracy : Option K
  bvcMeanAbsError : Option K
  bvcCompared : ℕ
  bvcAccuracyPValue : Option K

section Tape

variable {K : Type} [Field K]

def loadTrade (t : NormalizedTrade) : Trade K where
  price := (t.price.raw.toNat : K) / ((10 ^ 8 : ℕ) : K)
  volume := (t.qty.raw.toNat : K) / ((10 ^ 8 : ℕ) : K)
  tsNs := t.tsExchangeNs
  takerSide := t.takerSide

/-- The first record that cannot be read makes the whole tape fail. -/
def loadTrades (file : List UInt8) (script : List ReadOutcome) :
    Except CaptureError (List (Trade K)) := do
  let reader ← TradeReader.openFile file script
  reader.items.mapM fun item ↦ item.map loadTrade

/-- The sizes in a capture file are unsigned. -/
theorem volume_nonneg_of_loadTrades [LinearOrder K] [IsStrictOrderedRing K] {file : List UInt8}
    {script : List ReadOutcome} {tape : List (Trade K)} (h : loadTrades file script = .ok tape) :
    ∀ t ∈ tape, 0 ≤ t.volume := by
  intro t ht
  obtain ⟨reader, -, h⟩ := ok_of_bind h
  obtain ⟨item, -, hitem⟩ := exists_of_mapM h ht
  cases item with
  | error err => cases hitem
  | ok record =>
      obtain rfl := Except.ok.inj hitem
      exact div_nonneg (Nat.cast_nonneg _) (Nat.cast_nonneg _)

end Tape

variable {K : Type} [Field K] [LinearOrder K]

/-! ## The pass over the buckets with the true sides -/

/-- The variables of the loop in `bvc_accuracy_stats`. -/
structure BvcPass (K : Type*) [Field K] [LinearOrder K] where
  bucketer : VolumeBucketer K
  sigma : RollingSigma K
  buyVol : K
  sellVol : K
  correct : ℕ
  compared : ℕ
  absErrors : List K

namespace BvcPass

def new (bucketer : VolumeBucketer K) (sigma : RollingSigma K) : BvcPass K where
  bucketer
  sigma
  buyVol := 0
  sellVol := 0
  correct := 0
  compared := 0
  absErrors := []

def addSide (p : BvcPass K) (t : Trade K) : BvcPass K :=
  match t.takerSide with
  | .buy => { p with buyVol := p.buyVol + t.volume }
  | .sell => { p with sellVol := p.sellVol + t.volume }

def count (p : BvcPass K) (bvcFrac trueFrac : K) : BvcPass K :=
  { p with
    correct := if (0.5 < bvcFrac ↔ 0.5 < trueFrac) then p.correct + 1 else p.correct
    absErrors := p.absErrors ++ [|bvcFrac - trueFrac|]
    compared := p.compared + 1 }

def compare (m : Libm K) (p : BvcPass K) (closed : ClosedBucket K) : Except Fault (BvcPass K) :=
  match p.sigma.current.bind fun sigmaBefore ↦
    Bvc.classify m closed.deltaP sigmaBefore closed.volume with
  | none => .ok p
  | some (bvcBuy, _) => do
    let bvcFrac ← divide bvcBuy closed.volume
    let trueFrac ← divide p.buyVol (p.buyVol + p.sellVol)
    return p.count bvcFrac trueFrac

def pushTrade (m : Libm K) (p : BvcPass K) (t : Trade K) : Except Fault (BvcPass K) :=
  let p := p.addSide t
  match p.bucketer.push t.price t.volume t.tsNs with
  | (none, bucketer) => .ok { p with bucketer }
  | (some closed, bucketer) => do
    let p ← compare m { p with bucketer } closed
    return { p with sigma := p.sigma.push m closed.deltaP, buyVol := 0, sellVol := 0 }

def stats (p : BvcPass K) : BvcStats K where
  accuracy := if 0 < p.compared then some ((p.correct : K) / (p.compared : K)) else none
  meanAbsError :=
    if p.absErrors.isEmpty then none else some (p.absErrors.sum / (p.absErrors.length : K))
  compared := p.compared

end BvcPass

def bvcAccuracyStats (m : Libm K) (trades : List (Trade K)) (bucketVolume : K)
    (sigmaWindow : ℕ) : ExceptT (VpinError K) (Except Fault) (BvcStats K) := do
  let bucketer ← check (VolumeBucketer.new bucketVolume)
  let sigma ← check (RollingSigma.new sigmaWindow)
  let pass ← attempt (trades.foldlM (BvcPass.pushTrade m) (BvcPass.new bucketer sigma))
  return pass.stats

/-! ## The pass through the engine -/

/-- Mean, minimum, maximum and standard deviation. -/
def summarize (m : Libm K) : List K → Option (K × K × K × K)
  | [] => none
  | v :: vs =>
    let values := v :: vs
    let mean := values.sum / (values.length : K)
    let stddev := if 1 < values.length then sampleStd m values else 0
    some (mean, vs.foldl min v, vs.foldl max v, stddev)

def meanIntervalMs (closeTimesNs : List UInt64) : Option K :=
  if closeTimesNs.length < 2 then none
  else
    let spanNs := (closeTimesNs.getLastD 0).toNat - (closeTimesNs.headD 0).toNat
    some ((spanNs : K) / ((closeTimesNs.length - 1 : ℕ) : K) / ((10 ^ 6 : ℕ) : K))

def engineConfig (bucketVolume : K) (sigmaWindow vpinWindow : ℕ) (cdfWindow : Option ℕ) :
    VpinEngineConfig K where
  bucketVolume
  sigmaWindow
  vpinWindow
  cdfWindow
  confidenceInterval := none

/-- What one configuration is reported with: its readings and the pass over the buckets. -/
def statsOf (m : Libm K) (bucketVolume : K) (sigmaWindow vpinWindow : ℕ) (bvc : BvcStats K)
    (readings : List (VpinReading K)) : Stats K :=
  let vpins := readings.filterMap VpinReading.vpin
  let summary := summarize m vpins
  { bucketVolume
    sigmaWindow
    vpinWindow
    totalBuckets := readings.length
    nonWarmupReadings := vpins.length
    vpinMean := summary.map (·.1)
    vpinMin := summary.map (·.2.1)
    vpinMax := summary.map (·.2.2.1)
    vpinStddev := summary.map (·.2.2.2)
    avgBucketIntervalMs := meanIntervalMs (readings.map VpinReading.tsCloseNs)
    bvcAccuracy := bvc.accuracy
    bvcMeanAbsError := bvc.meanAbsError
    bvcCompared := bvc.compared
    bvcAccuracyPValue := none }

def calibrateOne [FloorSemiring K] (m : Libm K) (trades : List (Trade K)) (bucketVolume : K)
    (sigmaWindow vpinWindow : ℕ) (cdfWindow : Option ℕ) (bvc : BvcStats K) :
    ExceptT (VpinError K) (Except Fault) (Stats K) := do
  let engine ← check
    (VpinEngine.new (engineConfig bucketVolume sigmaWindow vpinWindow cdfWindow))
  let (readings, _) ← attempt (engine.feed m (trades.map Trade.toTrade))
  return statsOf m bucketVolume sigmaWindow vpinWindow bvc readings

end Geiger.Calibrate
