import Mathlib.Data.UInt
import Mathlib.Order.Basic

/-!
# Reconnect backoff

Durations are counted in nanoseconds.
-/

namespace Geiger

namespace Duration

def maxNs : ℕ := (2 ^ 64 - 1) * 10 ^ 9 + 999999999

def fromSecs (secs : UInt64) : ℕ := secs.toNat * 10 ^ 9

def fromMillis (millis : UInt64) : ℕ := millis.toNat * 10 ^ 6

def saturatingMul (d k : ℕ) : ℕ := min (d * k) maxNs

end Duration

structure BackoffConfig where
  base : ℕ
  max : ℕ
deriving DecidableEq

def BackoffConfig.default : BackoffConfig where
  base := Duration.fromMillis 250
  max := Duration.fromSecs 30

structure ExponentialBackoff where
  attempt : UInt32
  base : ℕ
  max : ℕ
deriving DecidableEq

def BackoffConfig.build (cfg : BackoffConfig) : ExponentialBackoff := ⟨0, cfg.base, cfg.max⟩

namespace ExponentialBackoff

def reset (b : ExponentialBackoff) : ExponentialBackoff := { b with attempt := 0 }

/-- `2u32.saturating_pow(self.attempt.min(20))`. -/
def mult (b : ExponentialBackoff) : ℕ := min (2 ^ min b.attempt.toNat 20) (2 ^ 32 - 1)

def nextDelay (b : ExponentialBackoff) : ℕ × ExponentialBackoff :=
  (min (Duration.saturatingMul b.base b.mult) b.max, { b with attempt := b.attempt + 1 })

theorem nextDelay_le_max (b : ExponentialBackoff) : b.nextDelay.1 ≤ b.max := Nat.min_le_right _ _

end ExponentialBackoff

end Geiger
