import Geiger.Calibrate.Main
import Geiger.Deployment.Recording

/-!
# Two command lines

`capture` and then `calibrate` on the file that it left.
-/

namespace Geiger.Recording

open Runs Capture

/-- `main` of the capture tool up to its loop: the settings and the tool as it starts, with
`disk` for what is in the files. -/
def launch (debug : String → String) (osError : String) (disk : String → Option (List UInt8))
    (args : List String) : Except String (Capture.Args × Recording) :=
  match Capture.parseArgs debug args with
  | .error e => .error e
  | .ok a =>
    match TradeRecorder.create (disk a.output) with
    | .error e => .error ("opening " ++ a.output ++ ": " ++ e.toString osError)
    | .ok recorder => .ok (a, start a.flushEvery recorder)

theorem launch_eq_ok {debug : String → String} {osError : String}
    {disk : String → Option (List UInt8)} {args : List String} {a : Capture.Args} {r : Recording} :
    launch debug osError disk args = .ok (a, r) ↔ Capture.parseArgs debug args = .ok a ∧
      ∃ recorder, TradeRecorder.create (disk a.output) = .ok recorder ∧
        r = start a.flushEvery recorder := by
  unfold launch
  cases Capture.parseArgs debug args with
  | error e => simp
  | ok b =>
      cases hcreate : TradeRecorder.create (disk b.output) with
      | error e =>
          simp only [hcreate, reduceCtorEq, Except.ok.injEq, false_iff]
          rintro ⟨rfl, recorder, hrecorder, -⟩
          exact nomatch hcreate.symm.trans hrecorder
      | ok recorder =>
          simp only [hcreate, Except.ok.injEq, Prod.mk.injEq]
          constructor
          · rintro ⟨rfl, rfl⟩
            exact ⟨rfl, recorder, hcreate, rfl⟩
          · rintro ⟨rfl, recorder', hrecorder, rfl⟩
            rw [Except.ok.inj (hcreate.symm.trans hrecorder)]
            exact ⟨rfl, rfl⟩

variable {K : Type} [Field K] [LinearOrder K] [FloorSemiring K] [IsStrictOrderedRing K]

/-- One of the results is for this configuration and sums up its batch readings on some
trades. -/
def Reports (m : Libm K) (exchange symbol : String) (ts : List NormalizedTrade)
    (results : List (Calibrate.SweepResult K)) (cfg : VpinEngineConfig K) : Prop :=
  ∃ result ∈ results, ∃ stats, result.bucketVolume = cfg.bucketVolume ∧
    result.sigmaWindow = cfg.sigmaWindow ∧ result.vpinWindow = cfg.vpinWindow ∧
    result.stats = .ok stats ∧ Calibrate.Summarises m stats
      ((Stream.batch m cfg ts).map (Stream.messageOf exchange symbol))

def captureWords : List String := ["Bybit", "BTCUSDT", "trades.cap", "--flush-every", "1"]

theorem launch_captureWords :
    launch id "" (fun _ ↦ none) captureWords =
      .ok (⟨.bybit, "BTCUSDT", "trades.cap", 1⟩, start 1 ⟨headerBytes, []⟩) := by
  refine launch_eq_ok.mpr ⟨parseArgs_eq_ok.mpr ⟨"Bybit", [("--flush-every", "1")], rfl, rfl, ?_,
    rfl⟩, _, create_none, rfl⟩
  rw [List.forall_mem_singleton]
  exact ⟨rfl, 1, rfl⟩

end Geiger.Recording
