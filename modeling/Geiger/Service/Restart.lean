import Geiger.Service.Projection
import Geiger.Vpin.Restart

/-!
# A worker started again

A worker that starts with the first trade after a close against one that has run all
along.
-/

namespace Geiger.Stream

open Runs Geiger.Partition Restart

variable {K : Type} [Field K] [LinearOrder K] [FloorSemiring K]

/-- A worker that is started again at the close of a bucket: what it announces has the
closes of what it would have announced without the restart, its scores are the same from
the second one on, and so are its ranks. -/
theorem restarted_worker_catches_up [IsStrictOrderedRing K] (m : Libm K)
    (exchange symbol : String) (cfg : VpinEngineConfig K) (interval capacity : ℕ)
    (es es' : List Event) (s s' : Stream K)
    (hrun : run (step m) (new exchange symbol cfg interval capacity) es = some s)
    (hrun' : run (step m) (new exchange symbol cfg interval capacity) es' = some s')
    (old : List NormalizedTrade) (htaken : taken es = old ++ taken es')
    (hclosed : leftover cfg.bucketVolume [] (old.map toTrade) = []) :
    ∃ rs rs', readings s.announced = rs.map (messageOf exchange symbol) ∧
      readings s'.announced = rs'.map (messageOf exchange symbol) ∧
      CatchesUp (batch m cfg old).length rs rs' := by
  refine ⟨_, _, readings_of_run hrun, readings_of_run hrun', ?_⟩
  have hcatches := catchesUp_readings (m := m) hclosed ((taken es').map toTrade)
  rw [← List.map_append, ← htaken] at hcatches
  exact hcatches

/-- A price move counts in full on the one side and by half on the other. -/
def leaningLibm : Libm ℚ := ⟨id, fun x ↦ if x < 0 then 0 else 3 / 4⟩

def pricedTrade (price : UInt64) : NormalizedTrade := { unitTrade with price := ⟨price⟩ }

/-- The worker takes these trades and publishes what it announces. -/
def takeAll (prices : List UInt64) : List Event :=
  .start :: prices.flatMap fun price ↦ [.trade (pricedTrade price), .proceed, .proceed, .proceed]

theorem restarted_worker_catches_up_unit :
    ∃ s s', run (step leaningLibm) unitStream (takeAll [1, 2, 4, 3, 5, 6, 4, 9]) = some s ∧
      run (step leaningLibm) unitStream (takeAll [3, 5, 6, 4, 9]) = some s' ∧
      ∃ rs rs', readings s.announced = rs.map (messageOf "binance" "BTCUSDT") ∧
        readings s'.announced = rs'.map (messageOf "binance" "BTCUSDT") ∧
        CatchesUp 3 rs rs' := by
  have hruns : (run (step leaningLibm) unitStream (takeAll [1, 2, 4, 3, 5, 6, 4, 9])).isSome ∧
      (run (step leaningLibm) unitStream (takeAll [3, 5, 6, 4, 9])).isSome := by decide +kernel
  obtain ⟨s, hs⟩ := Option.isSome_iff_exists.mp hruns.1
  obtain ⟨s', hs'⟩ := Option.isSome_iff_exists.mp hruns.2
  have hclosed : (leftover unitConfig.bucketVolume []
      (([1, 2, 4].map pricedTrade).map toTrade)).isEmpty := by decide +kernel
  have hcount : (batch leaningLibm unitConfig ([1, 2, 4].map pricedTrade)).length = 3 := by
    decide +kernel
  refine ⟨s, s', hs, hs', ?_⟩
  rw [← hcount]
  exact restarted_worker_catches_up leaningLibm "binance" "BTCUSDT" unitConfig 5000000000 256 _ _
    s s' hs hs' ([1, 2, 4].map pricedTrade) rfl (List.isEmpty_iff.mp hclosed)

end Geiger.Stream
