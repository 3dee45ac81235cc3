import Geiger.Vpin.Engine

/-!
# The batch definition of VPIN

The abstract layer: every quantity of bucket `k` is defined directly from the
whole tape, without running estimators.
-/

namespace Geiger.Batch

open RatioOfSums

variable {K : Type} [Field K] [LinearOrder K]

/-! ## Cutting the tape -/

/-- A closed run of trades; the closing trade is the last one. -/
structure Run (K : Type) where
  before : List (Trade K)
  closing : Trade K

def totalVolume (ts : List (Trade K)) : K := (ts.map Trade.volume).sum

def Run.trades (r : Run K) : List (Trade K) := r.before ++ [r.closing]

/-- Greedy cut: a run closes at the first trade whose running total reaches the
target.  `pending` is the run in progress; an unfinished tail is dropped. -/
def cut (target : K) (pending : List (Trade K)) : List (Trade K) → List (Run K)
  | [] => []
  | t :: tape =>
    if totalVolume (pending ++ [t]) < target then cut target (pending ++ [t]) tape
    else ⟨pending, t⟩ :: cut target [] tape

/-- The runs as buckets, with close-to-close price changes. -/
def closeToClose (id : ℕ) (prevClose : K) : List (Run K) → List (ClosedBucket K)
  | [] => []
  | r :: runs =>
    { bucketId := id
      deltaP := r.closing.price - prevClose
      volume := totalVolume r.trades
      lastPrice := r.closing.price
      tradeCount := UInt32.ofNat r.trades.length
      tsCloseNs := r.closing.tsNs } :: closeToClose (id + 1) r.closing.price runs

/-- The buckets of a tape; bucket 0 is measured from the first trade's price. -/
def buckets (target : K) : List (Trade K) → List (ClosedBucket K)
  | [] => []
  | t :: tape => closeToClose 0 t.price (cut target [] (t :: tape))

/-! ## The quantities of bucket `k` -/

section Quantities

variable (m : Libm K) (cfg : VpinEngineConfig K) (bs : List (ClosedBucket K))

def deltas : List K := bs.map ClosedBucket.deltaP

/-- Sample standard deviation of the `sigmaWindow` price changes before bucket
`k`, bucket `k` excluded. -/
def sigma (k : ℕ) : K := sampleStd m (((deltas bs).take k).drop (k - cfg.sigmaWindow))

def Classified (k : ℕ) : Prop := cfg.sigmaWindow ≤ k ∧ 0 < sigma m cfg bs k

instance : DecidablePred (Classified m cfg bs) :=
  fun _ ↦ inferInstanceAs (Decidable (_ ∧ _))

def volume (k : ℕ) : K := (bs.map ClosedBucket.volume).getD k 0

/-- `|2 Φ(ΔP / σ) - 1| · V`. -/
def imbalance (k : ℕ) : K :=
  |2 • m.standardNormalCdf ((deltas bs).getD k 0 / sigma m cfg bs k) - 1| * volume bs k

def classifiedBefore (k : ℕ) : List ℕ := (List.range k).filter (Classified m cfg bs)

/-- The last `vpinWindow` classified buckets up to and including bucket `k`. -/
def window (k : ℕ) : List ℕ := (classifiedBefore m cfg bs (k + 1)).rtake cfg.vpinWindow

def vpin (k : ℕ) : Option K :=
  if Classified m cfg bs k ∧ cfg.vpinWindow ≤ (classifiedBefore m cfg bs (k + 1)).length then
    some (((window m cfg bs k).map (imbalance m cfg bs)).sum /
      ((window m cfg bs k).map (volume bs)).sum)
  else none

def scoresBefore (k : ℕ) : List K := (List.range k).filterMap (vpin m cfg bs)

/-- Rank of this bucket's VPIN among the last `cdfWindow` VPIN values. -/
def vpinCdf (k : ℕ) : Option K :=
  match cfg.cdfWindow, vpin m cfg bs k with
  | some n, some v =>
      let recent := (scoresBefore m cfg bs (k + 1)).rtake n
      if recent.length < n then none
      else some (((recent.filter fun x ↦ x ≤ v).length : K) / (n : K))
  | _, _ => none

def pair (k : ℕ) : K × K := (imbalance m cfg bs k, volume bs k)

variable [FloorSemiring K]

/-- The bootstrap interval over the window.  Each earlier VPIN value has
consumed one draw for each sample and window entry. -/
def vpinCi (k : ℕ) : Option (K × K) :=
  match cfg.confidenceInterval, vpin m cfg bs k with
  | some c, some _ =>
      let draws := (scoresBefore m cfg bs k).length * (c.bootstrapSamples * cfg.vpinWindow)
      some (Bootstrap.interval ((window m cfg bs k).map (pair m cfg bs)) c
        (SplitMix64.advance^[draws] (SplitMix64.new c.seed)))
  | _, _ => none

def reading (k : ℕ) (b : ClosedBucket K) : VpinReading K :=
  { bucketId := k
    tsCloseNs := b.tsCloseNs
    tradesInBucket := b.tradeCount
    vpin := vpin m cfg bs k
    vpinCdf := vpinCdf m cfg bs k
    vpinCiLow := (vpinCi m cfg bs k).map Prod.fst
    vpinCiHigh := (vpinCi m cfg bs k).map Prod.snd }

end Quantities

def readings [FloorSemiring K] (m : Libm K) (cfg : VpinEngineConfig K) (tape : List (Trade K)) :
    List (VpinReading K) :=
  let bs := buckets cfg.bucketVolume tape
  bs.mapIdx (reading m cfg bs)

end Geiger.Batch
