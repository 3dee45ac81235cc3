import Geiger.Vpin.Refinement

/-!
# The bucketer partitions the tape

A whole tape is pushed through one bucketer.  The closed buckets are the greedy
cut of the tape, and what the cut leaves over is the bucket still being filled.
-/

namespace Geiger

open Batch Refinement

variable {K : Type} [Field K] [LinearOrder K]

/-- The caller's loop: what closes while a tape is pushed, and the bucketer after it. -/
def VolumeBucketer.pushAll (b : VolumeBucketer K) :
    List (Trade K) → List (ClosedBucket K) × VolumeBucketer K
  | [] => ([], b)
  | t :: tape =>
    let pushed := b.push t.price t.volume t.tsNs
    let rest := pushed.2.pushAll tape
    (pushed.1.toList ++ rest.1, rest.2)

namespace Partition

/-! ## Cuts of a tape -/

/-- A tape cut into closed runs and an open tail.  A run is closed by the first
trade that takes it to the target. -/
structure IsPartition (target : K) (tape : List (Trade K)) (runs : List (Run K))
    (tail : List (Trade K)) : Prop where
  covers : tape = runs.flatMap Run.trades ++ tail
  reached : ∀ r ∈ runs, target ≤ totalVolume r.trades
  minimal : ∀ r ∈ runs, totalVolume r.trades - r.closing.volume < target
  tail_lt : totalVolume tail < target

omit [LinearOrder K] in
theorem totalVolume_nil : totalVolume ([] : List (Trade K)) = 0 := rfl

/-- The trades of the run still in progress when the tape ends. -/
def leftover (target : K) (pending : List (Trade K)) : List (Trade K) → List (Trade K)
  | [] => pending
  | t :: tape =>
    if totalVolume (pending ++ [t]) < target then leftover target (pending ++ [t]) tape
    else leftover target [] tape

theorem cut_covers (target : K) (pending tape : List (Trade K)) :
    pending ++ tape = (cut target pending tape).flatMap Run.trades ++
      leftover target pending tape := by
  induction tape generalizing pending with
  | nil => simp [cut, leftover]
  | cons t tape ih =>
      rw [cut, leftover]
      split
      · rw [← ih, List.append_assoc, List.singleton_append]
      · rw [List.flatMap_cons, List.append_assoc, ← ih, List.nil_append, Run.trades,
          List.append_assoc, List.singleton_append]

theorem target_le_of_mem_cut {target : K} {pending tape : List (Trade K)} {r : Run K}
    (h : r ∈ cut target pending tape) : target ≤ totalVolume r.trades := by
  induction tape generalizing pending with
  | nil => cases h
  | cons t tape ih =>
      rw [cut] at h
      split at h
      · exact ih h
      · rename_i hfull
        rcases List.mem_cons.mp h with rfl | h
        · exact not_lt.mp hfull
        · exact ih h

theorem before_lt_of_mem_cut {target : K} (htarget : 0 < target) {pending tape : List (Trade K)}
    {r : Run K} (hpending : totalVolume pending < target) (h : r ∈ cut target pending tape) :
    totalVolume r.before < target := by
  induction tape generalizing pending with
  | nil => cases h
  | cons t tape ih =>
      rw [cut] at h
      split at h
      · exact ih ‹_› h
      · rcases List.mem_cons.mp h with rfl | h
        · exact hpending
        · exact ih (by rwa [totalVolume_nil]) h

theorem leftover_lt {target : K} (htarget : 0 < target) {pending : List (Trade K)}
    (hpending : totalVolume pending < target) (tape : List (Trade K)) :
    totalVolume (leftover target pending tape) < target := by
  induction tape generalizing pending with
  | nil => exact hpending
  | cons t tape ih =>
      rw [leftover]
      split
      · exact ih ‹_›
      · exact ih (by rwa [totalVolume_nil])

omit [LinearOrder K] in
theorem totalVolume_trades (r : Run K) :
    totalVolume r.trades = totalVolume r.before + r.closing.volume :=
  totalVolume_snoc r.before r.closing

theorem isPartition_cut {target : K} (htarget : 0 < target) (tape : List (Trade K)) :
    IsPartition target tape (cut target [] tape) (leftover target [] tape) where
  covers := cut_covers target [] tape
  reached := fun _ ↦ target_le_of_mem_cut
  minimal := by
    intro r hr
    rw [totalVolume_trades, add_sub_cancel_right]
    exact before_lt_of_mem_cut htarget (by rwa [totalVolume_nil]) hr
  tail_lt := leftover_lt htarget (by rwa [totalVolume_nil]) tape

/-! ## The greedy cut is the only one -/

section Unique

variable [IsStrictOrderedRing K] {target : K}

theorem totalVolume_le_append (ts : List (Trade K)) {us : List (Trade K)}
    (hpos : ∀ t ∈ us, 0 < t.volume) : totalVolume ts ≤ totalVolume (ts ++ us) := by
  have hnonneg : 0 ≤ totalVolume us := by
    apply List.sum_nonneg
    intro v hv
    obtain ⟨t, ht, rfl⟩ := List.mem_map.mp hv
    exact (hpos t ht).le
  have hsum : totalVolume (ts ++ us) = totalVolume ts + totalVolume us := by simp [totalVolume]
  rw [hsum]
  exact le_add_of_nonneg_right hnonneg

/-- Trades that leave the run below the target close nothing. -/
theorem cut_append_of_lt {ts : List (Trade K)} (hpos : ∀ t ∈ ts, 0 < t.volume)
    {pending : List (Trade K)} (hlt : totalVolume (pending ++ ts) < target)
    (rest : List (Trade K)) :
    cut target pending (ts ++ rest) = cut target (pending ++ ts) rest := by
  induction ts generalizing pending with
  | nil => rw [List.nil_append, List.append_nil]
  | cons t ts ih =>
      obtain ⟨_, hts⟩ := List.forall_mem_cons.mp hpos
      rw [List.append_cons] at hlt ⊢
      rw [List.cons_append, cut, if_pos ((totalVolume_le_append _ hts).trans_lt hlt), ih hts hlt]

theorem IsPartition.runs_eq_cut {tape : List (Trade K)} {runs : List (Run K)}
    {tail : List (Trade K)} (h : IsPartition target tape runs tail)
    (hpos : ∀ t ∈ tape, t.Positive) : runs = cut target [] tape := by
  have hvolume : ∀ t ∈ tape, 0 < t.volume := fun t ht ↦ (hpos t ht).volume_pos
  clear hpos
  obtain ⟨rfl, hreached, hminimal, htail⟩ := h
  induction runs with
  | nil =>
      have hcut : cut target [] (tail ++ []) = cut target ([] ++ tail) [] :=
        cut_append_of_lt (by simpa using hvolume) htail []
      rw [List.append_nil] at hcut
      rw [List.flatMap_nil, List.nil_append, hcut, cut]
  | cons r runs ih =>
      obtain ⟨hr, hruns⟩ := List.forall_mem_cons.mp hreached
      obtain ⟨hrmin, hrunsmin⟩ := List.forall_mem_cons.mp hminimal
      rw [totalVolume_trades, add_sub_cancel_right] at hrmin
      rw [List.flatMap_cons, Run.trades, List.append_assoc, List.append_assoc] at hvolume ⊢
      obtain ⟨hbefore, hrest⟩ := List.forall_mem_append.mp hvolume
      have hfull : ¬ totalVolume (r.before ++ [r.closing]) < target := not_lt.mpr hr
      rw [cut_append_of_lt hbefore (by rwa [List.nil_append]), List.nil_append,
        List.singleton_append, cut, if_neg hfull]
      rw [← ih hruns hrunsmin (List.forall_mem_append.mp hrest).2]

end Unique

/-! ## Buckets of runs -/

/-- Bucket `id` as the account of one run.  The `u32` count is exact while the
run has fewer than `2 ^ 32` trades. -/
structure Accounts (id : ℕ) (r : Run K) (c : ClosedBucket K) : Prop where
  bucketId : c.bucketId = id
  volume : c.volume = totalVolume r.trades
  tradeCount : r.trades.length < 2 ^ 32 → c.tradeCount.toNat = r.trades.length
  lastPrice : c.lastPrice = r.closing.price
  tsCloseNs : c.tsCloseNs = r.closing.tsNs

section Buckets

omit [LinearOrder K]

variable (id : ℕ) (prevClose : K) (runs : List (Run K))

theorem length_closeToClose : (closeToClose id prevClose runs).length = runs.length := by
  induction runs generalizing id prevClose with
  | nil => rfl
  | cons r runs ih => rw [closeToClose, List.length_cons, List.length_cons, ih]

theorem accounts_closeToClose {i : ℕ} {r : Run K} {c : ClosedBucket K}
    (hr : runs[i]? = some r) (hc : (closeToClose id prevClose runs)[i]? = some c) :
    Accounts (id + i) r c := by
  induction runs generalizing id prevClose i with
  | nil => cases hr
  | cons s runs ih =>
      rw [closeToClose] at hc
      cases i with
      | zero =>
          obtain rfl := Option.some.inj hr
          obtain rfl := Option.some.inj hc
          exact ⟨rfl, rfl, fun hlen ↦ UInt32.toNat_ofNat_of_lt' hlen, rfl, rfl⟩
      | succ i =>
          rw [Nat.add_comm i, ← Nat.add_assoc]
          exact ih (id + 1) s.closing.price hr hc

/-- Close-to-close changes telescope. -/
theorem sum_deltaP_closeToClose {c : ClosedBucket K}
    (hc : c ∈ (closeToClose id prevClose runs).getLast?) :
    ((closeToClose id prevClose runs).map ClosedBucket.deltaP).sum =
      c.lastPrice - prevClose := by
  induction runs generalizing id prevClose with
  | nil => cases hc
  | cons r runs ih =>
      rw [closeToClose] at hc ⊢
      cases hrest : closeToClose (id + 1) r.closing.price runs with
      | nil =>
          rw [hrest] at hc
          obtain rfl := Option.some.inj hc
          simp
      | cons d ds =>
          have hlast : c ∈ (closeToClose (id + 1) r.closing.price runs).getLast? := by
            rw [hrest] at hc ⊢
            rwa [List.getLast?_cons_cons] at hc
          rw [← hrest, List.map_cons, List.sum_cons, ih _ _ hlast]
          ring

end Buckets

/-! ## The bucketer -/

/-- Induction on the rest of the tape, with the run in progress already started. -/
theorem pushAll_of_filling {target : K} {tape : List (Trade K)} {id : ℕ} {prevClose : K}
    {pending : List (Trade K)} {b : VolumeBucketer K} (hfill : Filling target id pending b)
    (href : ∀ t ∈ tape.head?, b.referencePrice t.price = some prevClose) :
    (b.pushAll tape).1 = closeToClose id prevClose (cut target pending tape) ∧
      Filling target (id + (cut target pending tape).length) (leftover target pending tape)
        (b.pushAll tape).2 := by
  induction tape generalizing id prevClose pending b with
  | nil => exact ⟨rfl, hfill⟩
  | cons t tape ih =>
      have href' : b.referencePrice t.price = some prevClose := href t rfl
      simp only [VolumeBucketer.pushAll, cut, leftover]
      split
      · obtain ⟨hnone, hfill', hnext⟩ := hfill.push_open href' ‹_›
        rw [hnone]
        exact ih hfill' fun u _ ↦ hnext u.price
      · rename_i hfull
        obtain ⟨hsome, hfill', hnext⟩ := hfill.push_close href' (not_lt.mp hfull)
        obtain ⟨hclosed, hend⟩ := ih hfill' fun u _ ↦ hnext u.price
        rw [List.length_cons, Nat.add_comm _ 1, ← Nat.add_assoc]
        refine ⟨?_, hend⟩
        rw [hsome, hclosed]
        rfl

theorem pushAll_new {target : K} {b : VolumeBucketer K} (hnew : VolumeBucketer.new target = .ok b)
    (tape : List (Trade K)) :
    (b.pushAll tape).1 = buckets target tape ∧
      Filling target (cut target [] tape).length (leftover target [] tape)
        (b.pushAll tape).2 := by
  obtain ⟨_, _, _, _, _, href⟩ := VolumeBucketer.new_eq_ok hnew
  have hfill : Filling target 0 [] b := filling_of_new hnew
  cases tape with
  | nil => exact ⟨rfl, hfill⟩
  | cons t tape =>
      have hfirst : ∀ u ∈ (t :: tape).head?, b.referencePrice u.price = some t.price := by
        rintro u ⟨rfl⟩
        exact href t.price
      obtain ⟨hclosed, hend⟩ := pushAll_of_filling hfill hfirst
      rw [Nat.zero_add] at hend
      exact ⟨hclosed, hend⟩

/-- Every tape is covered, without loss or overlap, by the runs of the closed
buckets and the run of the bucket still open. -/
theorem buckets_partition_tape {target : K} {b : VolumeBucketer K}
    (hnew : VolumeBucketer.new target = .ok b) (tape : List (Trade K)) :
    ∃ runs tail, IsPartition target tape runs tail ∧
      (b.pushAll tape).1.length = runs.length ∧
      (∀ (i : ℕ) (r : Run K) (c : ClosedBucket K),
        runs[i]? = some r → (b.pushAll tape).1[i]? = some c → Accounts i r c) ∧
      (b.pushAll tape).2.partialVolume = totalVolume tail ∧
      (b.pushAll tape).2.partialVolume < target ∧
      ∀ first ∈ tape.head?, ∀ c ∈ (b.pushAll tape).1.getLast?,
        ((b.pushAll tape).1.map ClosedBucket.deltaP).sum = c.lastPrice - first.price := by
  obtain ⟨htarget, _⟩ := VolumeBucketer.new_eq_ok hnew
  obtain ⟨hclosed, hend⟩ := pushAll_new hnew tape
  have hpartial : (b.pushAll tape).2.partialVolume = totalVolume (leftover target [] tape) :=
    hend.accVolume
  have hcut : IsPartition target tape (cut target [] tape) (leftover target [] tape) :=
    isPartition_cut htarget tape
  refine ⟨cut target [] tape, leftover target [] tape, hcut, ?_, ?_, hpartial,
    hpartial ▸ hcut.tail_lt, ?_⟩
  · rw [hclosed]
    cases tape with
    | nil => rfl
    | cons t tape => exact length_closeToClose 0 t.price _
  · intro i r c hr hc
    rw [hclosed] at hc
    cases tape with
    | nil => cases hr
    | cons t tape =>
        have haccounts := accounts_closeToClose 0 t.price _ hr hc
        rwa [Nat.zero_add] at haccounts
  · intro first hfirst c hc
    rw [hclosed] at hc ⊢
    cases tape with
    | nil => cases hfirst
    | cons t tape =>
        obtain rfl := Option.some.inj hfirst
        exact sum_deltaP_closeToClose 0 t.price _ hc

/-- Three buckets of ten: an exact fill, a trade that overshoots the second bucket
by more than a bucket, and an open third one. -/
def overshootTape : List (Trade ℚ) := [⟨50, 6, 1⟩, ⟨51, 4, 2⟩, ⟨53, 35, 3⟩, ⟨52, 7, 4⟩]

theorem buckets_partition_tape_overshoot :
    ∃ b, VolumeBucketer.new (10 : ℚ) = .ok b ∧
      ∃ runs tail, IsPartition 10 overshootTape runs tail ∧
        (b.pushAll overshootTape).1.length = runs.length ∧
        (b.pushAll overshootTape).2.partialVolume = totalVolume tail := by
  have hnew : ∃ b, VolumeBucketer.new (10 : ℚ) = .ok b :=
    ⟨_, dif_pos (by norm_num)⟩
  obtain ⟨b, hb⟩ := hnew
  obtain ⟨runs, tail, hpartition, hlength, _, hpartial, _⟩ :=
    buckets_partition_tape hb overshootTape
  exact ⟨b, hb, runs, tail, hpartition, hlength, hpartial⟩

end Partition

end Geiger
