import Geiger.Service.Config
import Geiger.Service.Order
import Geiger.Vpin.Panics

/-!
# Validation of a stream

`resolve_stream` with the panics of the constructor it calls.  The windows have
lower bounds only, so a value that asks for too large a buffer is not rejected.
-/

namespace Geiger

open Fallible

variable {K : Type}

def StreamConfig.engineConfig {F : Type} (s : StreamConfig F) : VpinEngineConfig F where
  bucketVolume := s.bucketVolume
  sigmaWindow := s.sigmaWindow
  vpinWindow := s.vpinWindow
  cdfWindow := s.cdfWindow
  confidenceInterval := none

variable [Field K] [LinearOrder K]

def resolveStreamIn (s : StreamConfig (RawFloat K)) :
    ExceptT (ResolveError (RawFloat K)) (Except Panic) (Exchange × VpinEngineConfig (RawFloat K)) :=
  match parseExchange s.exchange with
  | none => check (.error (.unknownExchange s.exchange))
  | some exchange => do
    let _ ← (VpinEngine.create s.engineConfig).adapt ResolveError.invalidVpinConfig
    return (exchange, s.engineConfig)

theorem panics_resolveStreamIn {s : StreamConfig (RawFloat K)} :
    Panics (resolveStreamIn s) ↔
      (parseExchange s.exchange).isSome ∧ PassesChecks s.engineConfig ∧
        Oversized s.engineConfig := by
  unfold resolveStreamIn
  cases parseExchange s.exchange with
  | none => simp
  | some exchange => simp [panics_adapt, VpinEngine.panics_create]

open VpinEngine Runs in
/-- The constructor and `resolve_stream` panic exactly on configurations that pass
every check and are oversized; an accepted engine gets through a positive tape exactly
when it is roomy at every step. -/
theorem validation_panics_iff [IsStrictOrderedRing K] [FloorSemiring K] (m : Libm K) :
    (∀ cfg : VpinEngineConfig (RawFloat K),
      Panics (create cfg) ↔ PassesChecks cfg ∧ Oversized cfg) ∧
    (∀ (cfg : VpinEngineConfig (RawFloat K)) (e : VpinEngine K), Returns (create cfg) e →
      ∀ (build : Build) (tape : List (Trade K)), (∀ t ∈ tape, t.Positive) →
        ((∃ out, feedIn build m e tape = .ok out) ↔ Along (next m) (Roomy build) e tape)) ∧
    ∀ s : StreamConfig (RawFloat K), Panics (resolveStreamIn s) ↔
      (parseExchange s.exchange).isSome ∧ PassesChecks s.engineConfig ∧
        Oversized s.engineConfig := by
  refine ⟨fun cfg ↦ panics_create, ?_, fun s ↦ panics_resolveStreamIn⟩
  intro cfg e he build tape hpositive
  exact feedIn_isOk_iff_of_positive (inUse_of_create he) hpositive

open VpinEngine Runs in
theorem validation_panics_iff_unit :
    ∃ e, Returns (create Stream.unitConfig.raw) e ∧
      ((∃ out, feedIn .debug Stream.unitLibm e [⟨100, 1, 0⟩] = .ok out) ↔
        Along (next Stream.unitLibm) (Roomy .debug) e [⟨100, 1, 0⟩]) := by
  obtain ⟨e, he⟩ := new_of_valid Stream.unitConfig_valid
  have hcreate : Returns (create Stream.unitConfig.raw) e := by
    refine returns_create_raw.mpr ⟨he, ?_⟩
    rintro (h | h | ⟨n, hn, -⟩)
    · exact absurd h (by decide)
    · exact absurd h (by decide)
    · cases hn
  refine ⟨e, hcreate, ?_⟩
  apply (validation_panics_iff Stream.unitLibm).2.1 Stream.unitConfig.raw e hcreate .debug
  intro t ht
  obtain rfl := List.mem_singleton.mp ht
  exact ⟨by decide +kernel, by decide +kernel⟩

/-- A stream with a digit too many in its sigma window. -/
def hugeWindow : StreamConfig (RawFloat ℚ) where
  exchange := "binance"
  symbol := "BTCUSDT"
  bucketVolume := .finite 1
  sigmaWindow := 2 ^ 60
  vpinWindow := 50
  cdfWindow := none
  backoffBaseMs := none
  backoffMaxSecs := none

theorem hugeWindow_panics : ¬ ∀ s : StreamConfig (RawFloat ℚ), ¬ Panics (resolveStreamIn s) := by
  intro h
  apply h hugeWindow
  refine panics_resolveStreamIn.mpr ⟨by decide +kernel, ⟨by decide, ?_, ?_, ?_⟩, .inl ?_⟩
  · rintro c ⟨⟩
  · exact ⟨1, rfl, by decide +kernel⟩
  · exact Nat.le_of_lt_succ (by decide)
  · exact Nat.le_refl _

end Geiger
