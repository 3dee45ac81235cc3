import Mathlib.Algebra.Order.Field.Basic

/-!
# The volume clock

Floats are read as exact numbers of an ordered field, so every value is finite.
Counters of buckets are natural numbers; the `u32` trade count wraps as it does
in a release build.
-/

namespace Geiger

structure Trade (K : Type*) where
  price : K
  volume : K
  tsNs : UInt64

/-- The precondition asserted at the head of `VolumeBucketer::push`. -/
structure Trade.Positive {K : Type*} [Zero K] [LT K] (t : Trade K) : Prop where
  price_pos : 0 < t.price
  volume_pos : 0 < t.volume

inductive VpinError (K : Type*) where
  | invalidBucketVolume (got : K)
  | invalidWindow (got min : ℕ)
  | invalidConfidenceLevel (got : K)
  | invalidBootstrapSamples (got min : ℕ)

structure ClosedBucket (K : Type*) where
  bucketId : ℕ
  deltaP : K
  volume : K
  lastPrice : K
  tradeCount : UInt32
  tsCloseNs : UInt64

variable {K : Type} [Field K] [LinearOrder K]

structure VolumeBucketer (K : Type*) [Field K] [LinearOrder K] where
  targetVolume : K
  target_pos : 0 < targetVolume
  bucketId : ℕ
  accVolume : K
  lastPrice : K
  prevBucketClosePrice : Option K
  tradeCount : UInt32
  started : Bool

namespace VolumeBucketer

def new (targetVolume : K) : Except (VpinError K) (VolumeBucketer K) :=
  if target_pos : 0 < targetVolume then
    .ok {
      targetVolume
      target_pos
      bucketId := 0
      accVolume := 0
      lastPrice := 0
      prevBucketClosePrice := none
      tradeCount := 0
      started := false }
  else .error (.invalidBucketVolume targetVolume)

/-- Feed one trade in.  The trade that reaches the target closes the bucket and
is not split. -/
def push (b : VolumeBucketer K) (price volume : K) (tsNs : UInt64) :
    Option (ClosedBucket K) × VolumeBucketer K :=
  let prevBucketClosePrice := if b.started then b.prevBucketClosePrice else some price
  let accVolume := b.accVolume + volume
  let tradeCount := b.tradeCount + 1
  if accVolume < b.targetVolume then
    (none, { b with
      started := true, prevBucketClosePrice, accVolume, lastPrice := price, tradeCount })
  else
    (some {
      bucketId := b.bucketId
      deltaP := price - prevBucketClosePrice.getD price
      volume := accVolume
      lastPrice := price
      tradeCount
      tsCloseNs := tsNs },
    { b with
      started := true, prevBucketClosePrice := some price, accVolume := 0, lastPrice := price,
      tradeCount := 0, bucketId := b.bucketId + 1 })

def partialVolume (b : VolumeBucketer K) : K := b.accVolume

def currentBucketId (b : VolumeBucketer K) : ℕ := b.bucketId

/-- The price the open bucket's change is measured from once `price` arrives. -/
def referencePrice (b : VolumeBucketer K) (price : K) : Option K :=
  if b.started then b.prevBucketClosePrice else some price

theorem new_eq_ok {v : K} {b : VolumeBucketer K} (h : new v = .ok b) :
    0 < v ∧ b.targetVolume = v ∧ b.bucketId = 0 ∧ b.accVolume = 0 ∧ b.tradeCount = 0 ∧
      ∀ p, b.referencePrice p = some p := by
  unfold new at h
  split at h
  · cases h
    exact ⟨‹_›, rfl, rfl, rfl, rfl, fun _ ↦ rfl⟩
  · cases h

theorem push_of_lt {b : VolumeBucketer K} {p v : K} (ts : UInt64)
    (h : b.accVolume + v < b.targetVolume) :
    b.push p v ts = (none, { b with
      started := true, prevBucketClosePrice := b.referencePrice p,
      accVolume := b.accVolume + v, lastPrice := p, tradeCount := b.tradeCount + 1 }) := by
  simp only [push, referencePrice, if_pos h]

theorem push_of_le {b : VolumeBucketer K} {p v : K} (ts : UInt64)
    (h : b.targetVolume ≤ b.accVolume + v) :
    b.push p v ts =
      (some ⟨b.bucketId, p - (b.referencePrice p).getD p, b.accVolume + v, p,
        b.tradeCount + 1, ts⟩,
      { b with
        started := true, prevBucketClosePrice := some p, accVolume := 0, lastPrice := p,
        tradeCount := 0, bucketId := b.bucketId + 1 }) := by
  simp only [push, referencePrice, if_neg (not_lt.mpr h)]

theorem target_le_of_push {b : VolumeBucketer K} {p v : K} {ts : UInt64}
    {c : ClosedBucket K} (h : (b.push p v ts).1 = some c) : b.targetVolume ≤ c.volume := by
  rcases lt_or_ge (b.accVolume + v) b.targetVolume with hlt | hle
  · simp [push_of_lt ts hlt] at h
  · rw [push_of_le ts hle] at h
    obtain rfl := Option.some.inj h
    exact hle

theorem volume_pos_of_push {b : VolumeBucketer K} {p v : K} {ts : UInt64}
    {c : ClosedBucket K} (h : (b.push p v ts).1 = some c) : 0 < c.volume :=
  b.target_pos.trans_le (target_le_of_push h)

theorem accVolume_of_push_none {b : VolumeBucketer K} {p v : K} {ts : UInt64}
    (h : (b.push p v ts).1 = none) : (b.push p v ts).2.accVolume = b.accVolume + v := by
  rcases lt_or_ge (b.accVolume + v) b.targetVolume with hlt | hle
  · rw [push_of_lt ts hlt]
  · simp [push_of_le ts hle] at h

theorem volume_of_push_some {b : VolumeBucketer K} {p v : K} {ts : UInt64} {c : ClosedBucket K}
    (h : (b.push p v ts).1 = some c) :
    c.volume = b.accVolume + v ∧ (b.push p v ts).2.accVolume = 0 := by
  rcases lt_or_ge (b.accVolume + v) b.targetVolume with hlt | hle
  · simp [push_of_lt ts hlt] at h
  · rw [push_of_le ts hle] at h ⊢
    obtain rfl := Option.some.inj h
    exact ⟨rfl, rfl⟩

end VolumeBucketer

end Geiger
