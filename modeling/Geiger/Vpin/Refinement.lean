import Geiger.Vpin.Batch

/-!
# The streaming engine computes the batch definition

`Tracks` ties every buffer of the engine to the batch quantities of the buckets
seen so far.  One closed bucket preserves it and yields the batch reading; the
tape-level theorem adds the invariant of the bucketer.
-/

namespace Geiger.Refinement

open Batch RatioOfSums
open VpinEngine hiding sigma imbalances vpinWindow cdf ci closeBucket

variable {K : Type} [Field K] [LinearOrder K]

section Tracking

variable (m : Libm K) (cfg : VpinEngineConfig K) (bs : List (ClosedBucket K))

structure Tracks (k : ℕ) (e : VpinEngine K) : Prop where
  sigma_window : e.sigma.window = cfg.sigmaWindow
  sigma_buf : e.sigma.buf = ((deltas bs).take k).rtake cfg.sigmaWindow
  sigma_current :
    e.sigma.current = if k < cfg.sigmaWindow then none else some (sigma m cfg bs k)
  vpinWindow : e.vpinWindow = cfg.vpinWindow
  imbalances :
    e.imbalances = ((classifiedBefore m cfg bs k).map (pair m cfg bs)).rtake cfg.vpinWindow
  cdf : e.cdf.map (fun c ↦ (c.window, c.buf)) =
    cfg.cdfWindow.map fun n ↦ (n, (scoresBefore m cfg bs k).rtake n)
  ci : e.ci.map (fun c ↦ (c.1.1, c.2)) =
    cfg.confidenceInterval.map fun c ↦
      (c, SplitMix64.advance^[(scoresBefore m cfg bs k).length *
        (c.bootstrapSamples * cfg.vpinWindow)] (SplitMix64.new c.seed))

theorem classifiedBefore_succ (k : ℕ) :
    classifiedBefore m cfg bs (k + 1) =
      if Classified m cfg bs k then classifiedBefore m cfg bs k ++ [k]
      else classifiedBefore m cfg bs k := by
  unfold classifiedBefore
  rw [List.range_succ, List.filter_append]
  split <;> simp [*]

theorem scoresBefore_succ (k : ℕ) :
    scoresBefore m cfg bs (k + 1) = scoresBefore m cfg bs k ++ (vpin m cfg bs k).toList := by
  unfold scoresBefore
  rw [List.range_succ, List.filterMap_append]
  cases h : vpin m cfg bs k <;> simp [h]

variable {m cfg bs}

omit [Field K] [LinearOrder K] in
theorem take_deltas_succ {k : ℕ} {b : ClosedBucket K} (hb : bs[k]? = some b) :
    (deltas bs).take (k + 1) = (deltas bs).take k ++ [b.deltaP] := by
  simp [deltas, List.take_add_one, hb]

omit [LinearOrder K] in
theorem volume_eq {k : ℕ} {b : ClosedBucket K} (hb : bs[k]? = some b) :
    volume bs k = b.volume := by
  simp [volume, hb]

/-- Splitting a bucket by its buy fraction leaves an imbalance of `|2Φ - 1| · V`. -/
theorem bucketImbalance_of_pos [IsStrictOrderedRing K] {b : ClosedBucket K} {s : K}
    (hvol : 0 < b.volume) (hs : 0 < s) :
    bucketImbalance m b s =
      some (|2 * m.standardNormalCdf (b.deltaP / s) - 1| * b.volume) := by
  have hsplit : b.volume * m.standardNormalCdf (b.deltaP / s) -
      (b.volume - b.volume * m.standardNormalCdf (b.deltaP / s)) =
        (2 * m.standardNormalCdf (b.deltaP / s) - 1) * b.volume := by ring
  simp only [bucketImbalance, Bvc.classify_of_pos m _ _ hs, Option.pure_def,
    Option.bind_eq_bind, Option.bind_some, hsplit, abs_mul, abs_of_pos hvol]

theorem bucketImbalance_of_not_pos {b : ClosedBucket K} {s : K} (hs : ¬ 0 < s) :
    bucketImbalance m b s = none := by
  simp [bucketImbalance, Bvc.classify_of_not_pos m _ _ hs]

variable {k : ℕ} {e : VpinEngine K} {b : ClosedBucket K}

theorem Tracks.imbalanceOf_eq [IsStrictOrderedRing K] (h : Tracks m cfg bs k e)
    (hb : bs[k]? = some b) (hvol : 0 < b.volume) :
    imbalanceOf m e b =
      if Classified m cfg bs k then some (imbalance m cfg bs k) else none := by
  have hdelta : (deltas bs).getD k 0 = b.deltaP := by simp [deltas, hb]
  unfold imbalanceOf
  rw [h.sigma_current]
  by_cases hk : k < cfg.sigmaWindow
  · simp [hk, Classified, Nat.not_le.mpr hk]
  · rw [if_neg hk, Option.bind_some]
    by_cases hs : 0 < sigma m cfg bs k
    · rw [bucketImbalance_of_pos hvol hs, if_pos ⟨not_lt.mp hk, hs⟩, imbalance, hdelta,
        volume_eq hb, two_nsmul, two_mul]
    · rw [bucketImbalance_of_not_pos hs, if_neg fun hc ↦ hs hc.2]

theorem Tracks.classifyInto_imbalances [IsStrictOrderedRing K] (h : Tracks m cfg bs k e)
    (hb : bs[k]? = some b) (hvol : 0 < b.volume) :
    (classifyInto m e b).imbalances =
      ((classifiedBefore m cfg bs (k + 1)).map (pair m cfg bs)).rtake cfg.vpinWindow := by
  unfold classifyInto
  rw [h.imbalanceOf_eq hb hvol, classifiedBefore_succ]
  by_cases hc : Classified m cfg bs k
  · have hpair : (imbalance m cfg bs k, b.volume) = pair m cfg bs k := by
      rw [pair, volume_eq hb]
    simp only [if_pos hc, pushImbalance, h.imbalances, h.vpinWindow, List.map_append,
      List.map_cons, List.map_nil, hpair]
    exact SlidingWindow.push_rtake (h.vpinWindow ▸ e.vpinWindow_pos) _ _
  · simp only [if_neg hc, h.imbalances]

omit [LinearOrder K] in
theorem score_window (n : ℕ) (ps : List (K × K)) :
    score n (ps.rtake n) = if n ≤ ps.length then some (ratio (ps.rtake n)) else none := by
  unfold score
  rw [SlidingWindow.length_rtake]
  by_cases hn : n ≤ ps.length
  · rw [if_neg (by omega), if_pos hn]
  · rw [if_pos (by omega), if_neg hn]

theorem ratio_pairs (ks : List ℕ) :
    ratio (ks.map (pair m cfg bs)) =
      (ks.map (imbalance m cfg bs)).sum / (ks.map (volume bs)).sum := by
  simp only [ratio, List.map_map]
  rfl

theorem Tracks.vpinOf_eq [IsStrictOrderedRing K] (h : Tracks m cfg bs k e)
    (hb : bs[k]? = some b) (hvol : 0 < b.volume) : vpinOf m e b = vpin m cfg bs k := by
  unfold vpinOf
  rw [h.imbalanceOf_eq hb hvol, h.classifyInto_imbalances hb hvol, h.vpinWindow, vpin]
  by_cases hc : Classified m cfg bs k
  · rw [if_pos hc, Option.bind_some, score_window, SlidingWindow.map_rtake, ratio_pairs,
      List.length_map]
    simp only [hc, true_and]
    rfl
  · simp [hc]

theorem length_window {v : K} (h : vpin m cfg bs k = some v) :
    (window m cfg bs k).length = cfg.vpinWindow := by
  unfold vpin at h
  split at h
  · rename_i hfull
    rw [window, SlidingWindow.length_rtake]
    exact Nat.min_eq_left hfull.2
  · cases h

theorem Tracks.sigma_push (h : Tracks m cfg bs k e) (hb : bs[k]? = some b) :
    (e.sigma.push m b.deltaP).buf = ((deltas bs).take (k + 1)).rtake cfg.sigmaWindow := by
  have hpos : 1 ≤ cfg.sigmaWindow :=
    h.sigma_window ▸ Nat.le_of_succ_le e.sigma.two_le_window
  rw [RollingSigma.push_buf, h.sigma_window, h.sigma_buf, take_deltas_succ hb]
  exact SlidingWindow.push_rtake hpos _ _

theorem Tracks.sigma_current_push (h : Tracks m cfg bs k e) (hb : bs[k]? = some b) :
    (e.sigma.push m b.deltaP).current =
      if k + 1 < cfg.sigmaWindow then none else some (sigma m cfg bs (k + 1)) := by
  have hk : k < bs.length := (List.getElem?_eq_some_iff.mp hb).1
  have hlen : ((deltas bs).take (k + 1)).length = k + 1 := by
    simp only [deltas, List.length_take, List.length_map]
    omega
  rw [RollingSigma.push_current, h.sigma_push hb, h.sigma_window]
  by_cases hshort : k + 1 < cfg.sigmaWindow
  · rw [if_pos hshort]
    apply RollingSigma.estimate_of_lt
    rw [SlidingWindow.length_rtake, hlen]
    omega
  · rw [if_neg hshort, RollingSigma.estimate_of_length_eq]
    · rw [sigma, List.rtake, hlen]
    · rw [SlidingWindow.length_rtake, hlen]
      omega

theorem Tracks.pushCdf_eq [IsStrictOrderedRing K] (h : Tracks m cfg bs k e)
    (hb : bs[k]? = some b) (hvol : 0 < b.volume) :
    (pushCdf (vpinOf m e b) e.cdf).1 = vpinCdf m cfg bs k ∧
      (pushCdf (vpinOf m e b) e.cdf).2.map (fun c ↦ (c.window, c.buf)) =
        cfg.cdfWindow.map fun n ↦ (n, (scoresBefore m cfg bs (k + 1)).rtake n) := by
  have hcdf := h.cdf
  rw [h.vpinOf_eq hb hvol, vpinCdf, scoresBefore_succ]
  cases hwindow : cfg.cdfWindow with
  | none =>
      cases hengine : e.cdf with
      | none => cases vpin m cfg bs k <;> simp [pushCdf]
      | some c => simp [hwindow, hengine] at hcdf
  | some n =>
      cases hengine : e.cdf with
      | none => simp [hwindow, hengine] at hcdf
      | some c =>
          simp only [hwindow, hengine, Option.map_some, Option.some.injEq, Prod.mk.injEq] at hcdf
          obtain ⟨rfl, hbuf⟩ := hcdf
          cases vpin m cfg bs k with
          | none => simp [pushCdf, hbuf]
          | some v =>
              have hpush := SlidingWindow.push_rtake (Nat.le_of_succ_le c.two_le_window)
                (scoresBefore m cfg bs k) v
              simp only [pushCdf, EmpiricalCdf.push, EmpiricalCdf.rank, hbuf, hpush,
                Option.toList_some, Option.map_some, and_true]
              rfl

variable [FloorSemiring K]

theorem Tracks.pushCi_eq [IsStrictOrderedRing K] (h : Tracks m cfg bs k e)
    (hb : bs[k]? = some b) (hvol : 0 < b.volume) :
    ciBounds (vpinOf m e b) (classifyInto m e b).imbalances e.ci = vpinCi m cfg bs k ∧
      (ciNext (vpinOf m e b) (classifyInto m e b).imbalances e.ci).map (fun c ↦ (c.1.1, c.2)) =
        cfg.confidenceInterval.map fun c ↦
          (c, SplitMix64.advance^[(scoresBefore m cfg bs (k + 1)).length *
            (c.bootstrapSamples * cfg.vpinWindow)] (SplitMix64.new c.seed)) := by
  have hci := h.ci
  rw [h.vpinOf_eq hb hvol, h.classifyInto_imbalances hb hvol, SlidingWindow.map_rtake, vpinCi,
    scoresBefore_succ]
  cases hconf : cfg.confidenceInterval with
  | none =>
      cases hengine : e.ci with
      | none => cases vpin m cfg bs k <;> simp [ciBounds, ciNext]
      | some c => simp [hconf, hengine] at hci
  | some c =>
      cases hengine : e.ci with
      | none => simp [hconf, hengine] at hci
      | some p =>
          obtain ⟨ciCfg, rng⟩ := p
          simp only [hconf, hengine, Option.map_some, Option.some.injEq, Prod.mk.injEq] at hci
          obtain ⟨rfl, hrng⟩ := hci
          cases hv : vpin m cfg bs k with
          | none => simp [ciBounds, ciNext, hrng]
          | some v =>
              have hlen : (((classifiedBefore m cfg bs (k + 1)).rtake cfg.vpinWindow).map
                  (pair m cfg bs)).length = cfg.vpinWindow := by
                rw [List.length_map]
                exact length_window hv
              simp only [ciBounds, ciNext, hrng, hlen, Option.map_some, Option.toList_some,
                List.length_append, List.length_singleton, ← Function.iterate_add_apply]
              refine ⟨rfl, ?_⟩
              rw [Nat.succ_mul, Nat.add_comm]

omit [FloorSemiring K] in
theorem Tracks.positiveVolumes (h : Tracks m cfg bs k e) (hpos : ∀ c ∈ bs, 0 < c.volume)
    (hk : k ≤ bs.length) : e.PositiveVolumes := by
  intro p hp
  rw [h.imbalances] at hp
  obtain ⟨j, hj, rfl⟩ := List.mem_map.mp (SlidingWindow.mem_of_mem_rtake hp)
  have hlt : j < bs.length :=
    (List.mem_range.mp (List.mem_of_mem_filter hj)).trans_le hk
  rw [pair, volume_eq (List.getElem?_eq_getElem hlt)]
  exact hpos _ (List.getElem_mem hlt)

/-- One closed bucket: the batch reading comes out and the buffers keep tracking. -/
theorem Tracks.closeBucket [IsStrictOrderedRing K] (h : Tracks m cfg bs k e)
    (hb : bs[k]? = some b) (hid : b.bucketId = k) (hpos : ∀ c ∈ bs, 0 < c.volume) :
    VpinEngine.closeBucket m e b = .ok (reading m cfg bs k b, afterBucket m e b) ∧
      Tracks m cfg bs (k + 1) (afterBucket m e b) := by
  have hk : k < bs.length := (List.getElem?_eq_some_iff.mp hb).1
  have hvol : 0 < b.volume := hpos b (List.mem_of_getElem? hb)
  obtain ⟨hcdf, hcdf'⟩ := h.pushCdf_eq hb hvol
  obtain ⟨hci, hci'⟩ := h.pushCi_eq hb hvol
  constructor
  · rw [closeBucket_eq m (h.positiveVolumes hpos hk.le) hvol]
    simp only [readingOf, reading, h.vpinOf_eq hb hvol, hid] at hcdf hci ⊢
    rw [hcdf, hci]
  · exact {
      sigma_window := h.sigma_window
      sigma_buf := h.sigma_push hb
      sigma_current := h.sigma_current_push hb
      vpinWindow := (afterBucket_vpinWindow m e b).trans h.vpinWindow
      imbalances := h.classifyInto_imbalances hb hvol
      cdf := hcdf'
      ci := hci' }

end Tracking

/-! ## The bucketer cuts the tape greedily -/

/-- The bucketer while the run `pending` of bucket `id` is in progress. -/
structure Filling (target : K) (id : ℕ) (pending : List (Trade K)) (b : VolumeBucketer K) :
    Prop where
  targetVolume : b.targetVolume = target
  bucketId : b.bucketId = id
  accVolume : b.accVolume = totalVolume pending
  tradeCount : b.tradeCount = UInt32.ofNat pending.length

omit [LinearOrder K] in
theorem totalVolume_snoc (ts : List (Trade K)) (t : Trade K) :
    totalVolume (ts ++ [t]) = totalVolume ts + t.volume := by
  simp [totalVolume]

def closing (id : ℕ) (prevClose : K) (pending : List (Trade K)) (t : Trade K) :
    ClosedBucket K :=
  { bucketId := id
    deltaP := t.price - prevClose
    volume := totalVolume (pending ++ [t])
    lastPrice := t.price
    tradeCount := UInt32.ofNat (pending ++ [t]).length
    tsCloseNs := t.tsNs }

section Push

variable {target : K} {id : ℕ} {pending : List (Trade K)} {b : VolumeBucketer K} {t : Trade K}
  {prevClose : K}

theorem Filling.push_open (h : Filling target id pending b)
    (href : b.referencePrice t.price = some prevClose)
    (hlt : totalVolume (pending ++ [t]) < target) :
    (b.push t.price t.volume t.tsNs).1 = none ∧
      Filling target id (pending ++ [t]) (b.push t.price t.volume t.tsNs).2 ∧
      ∀ p, (b.push t.price t.volume t.tsNs).2.referencePrice p = some prevClose := by
  rw [totalVolume_snoc, ← h.accVolume, ← h.targetVolume] at hlt
  rw [VolumeBucketer.push_of_lt t.tsNs hlt]
  refine ⟨rfl, ⟨h.targetVolume, h.bucketId, ?_, ?_⟩, fun _ ↦ href⟩
  · rw [totalVolume_snoc, ← h.accVolume]
  · simp [h.tradeCount, UInt32.ofNat_add]

theorem Filling.push_close (h : Filling target id pending b)
    (href : b.referencePrice t.price = some prevClose)
    (hle : target ≤ totalVolume (pending ++ [t])) :
    (b.push t.price t.volume t.tsNs).1 = some (closing id prevClose pending t) ∧
      Filling target (id + 1) [] (b.push t.price t.volume t.tsNs).2 ∧
      ∀ p, (b.push t.price t.volume t.tsNs).2.referencePrice p = some t.price := by
  rw [totalVolume_snoc, ← h.accVolume, ← h.targetVolume] at hle
  rw [VolumeBucketer.push_of_le t.tsNs hle]
  refine ⟨?_, ⟨h.targetVolume, by rw [h.bucketId], rfl, rfl⟩, fun _ ↦ rfl⟩
  simp [closing, h.bucketId, h.accVolume, h.tradeCount, href, totalVolume_snoc,
    UInt32.ofNat_add]

end Push

theorem filling_of_new {target : K} {b : VolumeBucketer K}
    (h : VolumeBucketer.new target = .ok b) : Filling target 0 [] b := by
  obtain ⟨_, htarget, hid, hacc, hcount, _⟩ := VolumeBucketer.new_eq_ok h
  exact ⟨htarget, hid, hacc, hcount⟩

theorem target_le_of_mem {target : K} {id : ℕ} {prevClose : K} {pending : List (Trade K)}
    {tape : List (Trade K)} {c : ClosedBucket K}
    (h : c ∈ closeToClose id prevClose (cut target pending tape)) : target ≤ c.volume := by
  induction tape generalizing id prevClose pending with
  | nil => cases h
  | cons t tape ih =>
      rw [cut] at h
      split at h
      · exact ih h
      · rename_i hfull
        rcases List.mem_cons.mp h with rfl | h
        · exact not_lt.mp hfull
        · exact ih h

theorem target_le_of_mem_buckets {target : K} {tape : List (Trade K)} {c : ClosedBucket K}
    (h : c ∈ buckets target tape) : target ≤ c.volume := by
  cases tape with
  | nil => cases h
  | cons t tape => exact target_le_of_mem h

section Tape

variable [IsStrictOrderedRing K] [FloorSemiring K] {m : Libm K} {cfg : VpinEngineConfig K}
  {bs : List (ClosedBucket K)}

/-- Induction on the rest of the tape.  The buckets still to come are those of
the rest of the tape, with the run in progress already started. -/
theorem feed_of_tracks (hpos : ∀ c ∈ bs, 0 < c.volume) :
    ∀ (tape : List (Trade K)) (k : ℕ) (prevClose : K) (pending : List (Trade K))
      (e : VpinEngine K), k ≤ bs.length →
      bs.drop k = closeToClose k prevClose (cut cfg.bucketVolume pending tape) →
      Filling cfg.bucketVolume k pending e.bucketer →
      (∀ t ∈ tape.head?, e.bucketer.referencePrice t.price = some prevClose) →
      Tracks m cfg bs k e →
      ∃ e', VpinEngine.feed m e tape =
          .ok ((bs.drop k).mapIdx fun i ↦ reading m cfg bs (k + i), e') ∧
        Tracks m cfg bs bs.length e' := by
  intro tape
  induction tape with
  | nil =>
      intro k prevClose pending e hk hdrop _ _ htracks
      have hend : bs.length ≤ k := List.drop_eq_nil_iff.mp hdrop
      obtain rfl := le_antisymm hk hend
      exact ⟨e, by simp [VpinEngine.feed], htracks⟩
  | cons t tape ih =>
      intro k prevClose pending e hk hdrop hfill href htracks
      have href' : e.bucketer.referencePrice t.price = some prevClose := href t rfl
      rw [cut] at hdrop
      split at hdrop
      · rename_i hlt
        obtain ⟨hnone, hfill', hnext⟩ := hfill.push_open href' hlt
        obtain ⟨e', hrun, htracks'⟩ := ih k prevClose (pending ++ [t])
          { e with bucketer := (e.bucketer.push t.price t.volume t.tsNs).2 } hk hdrop hfill'
          (fun u _ ↦ hnext u.price) { htracks with }
        exact ⟨e', feed_cons (pushTrade_of_none hnone) hrun, htracks'⟩
      · rename_i hfull
        obtain ⟨hsome, hfill', hnext⟩ := hfill.push_close href' (not_lt.mp hfull)
        have hcons : bs.drop k = closing k prevClose pending t ::
            closeToClose (k + 1) t.price (cut cfg.bucketVolume [] tape) := hdrop
        have hb : bs[k]? = some (closing k prevClose pending t) := by
          rw [← List.head?_drop, hcons]
          rfl
        have hk' : k < bs.length := (List.getElem?_eq_some_iff.mp hb).1
        have htracks' : Tracks m cfg bs k
            { e with bucketer := (e.bucketer.push t.price t.volume t.tsNs).2 } :=
          { htracks with }
        obtain ⟨hclose, hafter⟩ := htracks'.closeBucket hb rfl hpos
        have hdrop' : bs.drop (k + 1) =
            closeToClose (k + 1) t.price (cut cfg.bucketVolume [] tape) := by
          rw [← List.tail_drop, hcons]
          rfl
        obtain ⟨e', hrun, hend⟩ := ih (k + 1) t.price [] _ hk' hdrop'
          (by rwa [afterBucket_bucketer])
          (fun u _ ↦ by rw [afterBucket_bucketer]; exact hnext u.price) hafter
        refine ⟨e', ?_, hend⟩
        rw [feed_cons (pushTrade_of_some hsome hclose) hrun, hcons, ← hdrop', List.mapIdx_cons]
        simp only [Option.toList_some, List.singleton_append, Nat.add_zero, Nat.add_assoc,
          Nat.add_comm 1]

omit [IsStrictOrderedRing K] [FloorSemiring K] in
theorem tracks_of_new {e : VpinEngine K} (h : Fresh cfg e) : Tracks m cfg bs 0 e := by
  obtain ⟨htwo, hwindow, hbuf, hcurrent⟩ := RollingSigma.new_eq_ok h.sigma
  refine ⟨hwindow, by simp [hbuf], ?_, h.vpinWindow, ?_, ?_, ?_⟩
  · rw [hcurrent, if_pos (by omega)]
  · simp [h.imbalances, classifiedBefore]
  · simp [h.cdf_eq, scoresBefore]
  · simp [h.ci_eq, scoresBefore]

/-- Feeding a tape to a new engine never faults, yields the batch readings and
leaves every buffer on the last batch quantities. -/
theorem feed_eq_readings {e : VpinEngine K} (hnew : VpinEngine.new cfg = .ok e)
    (tape : List (Trade K)) :
    ∃ e', VpinEngine.feed m e tape = .ok (readings m cfg tape, e') ∧
      Tracks m cfg (buckets cfg.bucketVolume tape)
        (buckets cfg.bucketVolume tape).length e' := by
  have hfresh := fresh_of_new hnew
  obtain ⟨htarget, _, _, _, _, href⟩ := VolumeBucketer.new_eq_ok hfresh.bucketer
  have hpos : ∀ c ∈ buckets cfg.bucketVolume tape, 0 < c.volume :=
    fun c hc ↦ htarget.trans_le (target_le_of_mem_buckets hc)
  have hstart : (buckets cfg.bucketVolume tape).drop 0 = closeToClose 0
      ((tape.head?.map Trade.price).getD 0) (cut cfg.bucketVolume [] tape) := by
    cases tape <;> rfl
  have hfirst : ∀ t ∈ tape.head?, e.bucketer.referencePrice t.price =
      some ((tape.head?.map Trade.price).getD 0) := by
    intro t ht
    rw [href, ht]
    rfl
  have htracks : Tracks m cfg (buckets cfg.bucketVolume tape) 0 e := tracks_of_new hfresh
  have hrun := feed_of_tracks hpos tape 0 _ [] e (Nat.zero_le _) hstart
    (filling_of_new hfresh.bucketer) hfirst htracks
  simp only [Nat.zero_add, List.drop_zero] at hrun
  exact hrun

end Tape

/-! ## Over exact reals -/

/-- Streaming equals batch: for every accepted configuration and every tape the
readings produced one trade at a time are those of the single batch pass. -/
theorem stream_eq_batch (Φ : ℝ → Set.Icc (0 : ℝ) 1) (cfg : VpinEngineConfig ℝ)
    (e : VpinEngine ℝ) (hnew : VpinEngine.new cfg = .ok e) (tape : List (Trade ℝ)) :
    (VpinEngine.feed (Libm.exact Φ) e tape).map Prod.fst =
      .ok (readings (Libm.exact Φ) cfg tape) := by
  obtain ⟨e', hrun, _⟩ := feed_eq_readings (m := Libm.exact Φ) hnew tape
  rw [hrun]
  rfl

/-- Unit buckets, the shortest windows, and both optional estimators. -/
noncomputable def unitConfig : VpinEngineConfig ℝ where
  bucketVolume := 1
  sigmaWindow := 2
  vpinWindow := 1
  cdfWindow := some 2
  confidenceInterval := some ⟨0.5, 2, 7⟩

theorem unitConfig_valid : unitConfig.Valid where
  bucketVolume_pos := one_pos
  two_le_sigmaWindow := le_rfl
  one_le_vpinWindow := le_rfl
  two_le_cdfWindow := by simp [unitConfig]
  confidenceInterval := by
    rintro c ⟨rfl⟩
    exact ⟨by norm_num, by norm_num, le_rfl⟩

/-- One trade of unit volume for each price. -/
def unitTape (prices : List ℝ) : List (Trade ℝ) := prices.map fun p ↦ ⟨p, 1, 0⟩

/-- A distribution function concentrated at the origin. -/
noncomputable def stepCdf (x : ℝ) : Set.Icc (0 : ℝ) 1 :=
  if x < 0 then ⟨0, by norm_num⟩ else ⟨1, by norm_num⟩

theorem stream_eq_batch_unit :
    ∃ e, VpinEngine.new unitConfig = .ok e ∧
      (VpinEngine.feed (Libm.exact stepCdf) e (unitTape [1, 2, 2, 3])).map Prod.fst =
        .ok (readings (Libm.exact stepCdf) unitConfig (unitTape [1, 2, 2, 3])) := by
  obtain ⟨e, he⟩ := VpinEngine.new_of_valid unitConfig_valid
  exact ⟨e, he, stream_eq_batch stepCdf unitConfig e he _⟩

end Geiger.Refinement
