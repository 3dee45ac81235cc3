import Geiger.Calibrate.Report
import Geiger.Service.Builds
import Geiger.Service.Restart
import Geiger.Service.Startup

/-!
# The Python binding

A `ValueError` is its text, and a panic is raised as an exception of its own kind.
Arguments that do not convert to the types of the signature never reach this code.
-/

namespace Geiger

open Runs Fallible

structure PyVpinReading (K : Type) where
  bucketId : ℕ
  tsCloseNs : UInt64
  tradesInBucket : UInt32
  vpin : Option K
  vpinCdf : Option K

structure PyVpinEngine (K : Type) [Field K] [LinearOrder K] where
  inner : VpinEngine K

def PyVpinReading.fromReading {K : Type} (r : VpinReading K) : PyVpinReading K :=
  ⟨r.bucketId, r.tsCloseNs, r.tradesInBucket, r.vpin, r.vpinCdf⟩

/-- What the worker of a stream would publish. -/
def PyVpinReading.message {K : Type} (exchange symbol : String) (r : PyVpinReading K) :
    ServerMessage K :=
  .reading exchange symbol r.bucketId r.tsCloseNs r.tradesInBucket r.vpin r.vpinCdf

namespace PyVpinEngine

variable {K : Type} [Field K] [LinearOrder K]

def config (bucketVolume : RawFloat K) (sigmaWindow vpinWindow : ℕ) (cdfWindow : Option ℕ) :
    VpinEngineConfig (RawFloat K) where
  bucketVolume
  sigmaWindow
  vpinWindow
  cdfWindow
  confidenceInterval := none

def new (display : RawFloat K → String) (bucketVolume : RawFloat K) (sigmaWindow vpinWindow : ℕ)
    (cdfWindow : Option ℕ) : ExceptT String (Except Panic) (PyVpinEngine K) := do
  let inner ← (VpinEngine.create (config bucketVolume sigmaWindow vpinWindow cdfWindow)).adapt
    (VpinError.toString display)
  return ⟨inner⟩

variable [FloorSemiring K]

def pushTrade (build : Build) (m : Libm K) (e : PyVpinEngine K) (price volume : K)
    (tsNs : UInt64) : Except Panic (Option (PyVpinReading K) × PyVpinEngine K) :=
  (e.inner.pushTradeIn build m ⟨price, volume, tsNs⟩).map fun p ↦ (p.1.map .fromReading, ⟨p.2⟩)

/-- Trades pushed one after the other, and the readings that come back. -/
def pushAll (build : Build) (m : Libm K) (e : PyVpinEngine K) : List (Trade K) →
    Except Panic (List (PyVpinReading K) × PyVpinEngine K)
  | [] => .ok ([], e)
  | t :: tape => do
    let (reading, e) ← e.pushTrade build m t.price t.volume t.tsNs
    let (readings, e) ← pushAll build m e tape
    return (reading.toList ++ readings, e)

/-! ## The binding adds nothing and loses only the interval -/

section Construction

variable {display : RawFloat K → String} {s : StreamConfig (RawFloat K)}

omit [FloorSemiring K]

theorem panics_new : Panics (new display s.bucketVolume s.sigmaWindow s.vpinWindow s.cdfWindow) ↔
    PassesChecks s.engineConfig ∧ Oversized s.engineConfig := by
  have hconfig : config s.bucketVolume s.sigmaWindow s.vpinWindow s.cdfWindow = s.engineConfig :=
    rfl
  simp [new, hconfig, panics_adapt, VpinEngine.panics_create]

theorem returns_new {e : PyVpinEngine K} :
    Returns (new display s.bucketVolume s.sigmaWindow s.vpinWindow s.cdfWindow) e ↔
      Returns (VpinEngine.create s.engineConfig) e.inner := by
  have hconfig : config s.bucketVolume s.sigmaWindow s.vpinWindow s.cdfWindow = s.engineConfig :=
    rfl
  simp only [new, hconfig, returns_bind, returns_adapt, returns_pure]
  constructor
  · rintro ⟨inner, hinner, rfl⟩
    exact hinner
  · intro hinner
    exact ⟨e.inner, hinner, rfl⟩

theorem returns_resolveStreamIn {exchange : Exchange}
    (hexchange : parseExchange s.exchange = some exchange)
    {r : Exchange × VpinEngineConfig (RawFloat K)} : Returns (resolveStreamIn s) r ↔
      (∃ e, Returns (VpinEngine.create s.engineConfig) e) ∧ r = (exchange, s.engineConfig) := by
  simp only [resolveStreamIn, hexchange, returns_bind, returns_adapt, returns_pure,
    exists_and_right, eq_comm]

end Construction

/-- The calls from Python against the same trades fed to the engine. -/
theorem pushAll_eq (build : Build) (m : Libm K) (e : PyVpinEngine K) (tape : List (Trade K)) :
    e.pushAll build m tape =
      (e.inner.feedIn build m tape).map fun r ↦ (r.1.map .fromReading, ⟨r.2⟩) := by
  induction tape generalizing e with
  | nil => rfl
  | cons t tape ih =>
      simp only [pushAll, pushTrade, VpinEngine.feedIn, ih]
      cases e.inner.pushTradeIn build m t with
      | error p => rfl
      | ok r =>
          obtain ⟨reading, inner⟩ := r
          simp only [Except.map, bind, Except.bind]
          cases inner.feedIn build m tape with
          | error p => rfl
          | ok r => cases reading <;> rfl

theorem resolveStreamIn_unit :
    Returns (resolveStreamIn Stream.unitStreamConfig.raw) (.binance, Stream.unitConfig.raw) :=
  returns_resolveStreamIn_raw.mpr ⟨Stream.resolveStream_unit,
    by simp [Oversized, StreamConfig.engineConfig, Stream.unitStreamConfig], rfl⟩

end PyVpinEngine

end Geiger
