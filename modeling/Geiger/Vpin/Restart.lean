import Geiger.Library.Recent
import Geiger.Vpin.Partition

/-!
# Starting again

An engine that is started afresh at the close of a bucket measures the change of its first
bucket differently, and has no past.  Its second score is the score that an engine with
all the past gives, and so is every later one.
-/

namespace Geiger.Restart

open Batch Recent RatioOfSums Geiger.Partition

variable {K : Type} [Field K] [LinearOrder K]

/-! ## The tape from a close on -/

section Cut

variable {target : K} {id id' : ℕ} {p p' : K} {runs runs' : List (Run K)}

theorem cut_append (target : K) (pending old new : List (Trade K)) :
    cut target pending (old ++ new) =
      cut target pending old ++ cut target (leftover target pending old) new := by
  induction old generalizing pending with
  | nil => rfl
  | cons t old ih =>
      simp only [List.cons_append, cut, leftover]
      split
      · exact ih (pending ++ [t])
      · rw [ih [], List.cons_append]

omit [LinearOrder K] in
theorem exists_closeToClose_append (id : ℕ) (p : K) (runs runs' : List (Run K)) :
    ∃ q, closeToClose id p (runs ++ runs') =
      closeToClose id p runs ++ closeToClose (id + runs.length) q runs' := by
  induction runs generalizing id p with
  | nil => exact ⟨p, rfl⟩
  | cons r runs ih =>
      obtain ⟨q, hq⟩ := ih (id + 1) r.closing.price
      refine ⟨q, ?_⟩
      simp only [List.cons_append, closeToClose, hq, List.length_cons]
      rw [Nat.add_assoc, Nat.add_comm 1]

theorem buckets_eq (target : K) (tape : List (Trade K)) :
    ∃ p, buckets target tape = closeToClose 0 p (cut target [] tape) := by
  cases tape with
  | nil => exact ⟨0, rfl⟩
  | cons t tape => exact ⟨t.price, rfl⟩

/-- The buckets of a tape from a close on are those of its rest, numbered on, with the
first change measured from the last close. -/
theorem buckets_append {old : List (Trade K)} (hclosed : leftover target [] old = [])
    (new : List (Trade K)) :
    ∃ p, buckets target (old ++ new) = buckets target old ++
      closeToClose (buckets target old).length p (cut target [] new) := by
  cases old with
  | nil => exact buckets_eq target new
  | cons t old =>
      obtain ⟨q, hq⟩ := exists_closeToClose_append 0 t.price (cut target [] (t :: old))
        (cut target [] new)
      refine ⟨q, ?_⟩
      have hbuckets : buckets target (t :: old ++ new) =
          closeToClose 0 t.price (cut target [] (t :: old ++ new)) := rfl
      rw [hbuckets, cut_append, hclosed, hq, Nat.zero_add]
      simp only [buckets, length_closeToClose]

omit [LinearOrder K] in
/-- The same runs on two clocks. -/
theorem forall₂_closeToClose (runs : List (Run K)) : List.Forall₂
    (fun b b' ↦ b.volume = b'.volume ∧ b.tsCloseNs = b'.tsCloseNs ∧ b.tradeCount = b'.tradeCount)
    (closeToClose id p runs) (closeToClose id' p' runs) := by
  induction runs generalizing id id' p p' with
  | nil => exact .nil
  | cons r runs ih => exact .cons ⟨rfl, rfl, rfl⟩ ih

omit [LinearOrder K] in
theorem deltas_closeToClose (id id' : ℕ) (p : K) (runs : List (Run K)) :
    deltas (closeToClose id p runs) = deltas (closeToClose id' p runs) := by
  induction runs generalizing id id' p with
  | nil => rfl
  | cons r runs ih => exact congrArg (List.cons _) (ih (id + 1) (id' + 1) r.closing.price)

omit [LinearOrder K] in
theorem tail_deltas_closeToClose (id id' : ℕ) (p p' : K) (runs : List (Run K)) :
    (deltas (closeToClose id p runs)).tail = (deltas (closeToClose id' p' runs)).tail := by
  cases runs with
  | nil => rfl
  | cons r runs => exact deltas_closeToClose (id + 1) (id' + 1) r.closing.price runs

end Cut

/-- The buckets `bs` go on after the first `n` as `bs'` do, but for the change of the
first. -/
structure Continues (n : ℕ) (bs bs' : List (ClosedBucket K)) : Prop where
  later : List.Forall₂
    (fun b b' ↦ b.volume = b'.volume ∧ b.tsCloseNs = b'.tsCloseNs ∧ b.tradeCount = b'.tradeCount)
    (bs.drop n) bs'
  deltas : (deltas bs).drop (n + 1) = (deltas bs').drop 1
  le_length : n ≤ bs.length

theorem continues_buckets {target : K} {old : List (Trade K)}
    (hclosed : leftover target [] old = []) (new : List (Trade K)) :
    Continues (buckets target old).length (buckets target (old ++ new)) (buckets target new) := by
  obtain ⟨p, hp⟩ := buckets_append hclosed new
  obtain ⟨p', hp'⟩ := buckets_eq target new
  refine ⟨?_, ?_, ?_⟩
  · rw [hp, hp', List.drop_left]
    exact forall₂_closeToClose _
  · have hdrop : (Batch.deltas (buckets target (old ++ new))).drop
        ((buckets target old).length) =
          Batch.deltas (closeToClose (buckets target old).length p (cut target [] new)) := by
      rw [hp, Batch.deltas, List.map_append, List.drop_left' (List.length_map _)]
      rfl
    rw [← List.drop_drop, hdrop, hp', List.drop_one, List.drop_one]
    exact tail_deltas_closeToClose _ _ _ _ _
  · rw [hp, List.length_append]
    exact Nat.le_add_right _ _

/-! ## The quantities from a close on -/

section Quantities

variable {m : Libm K} {cfg : VpinEngineConfig K} {bs bs' : List (ClosedBucket K)} {n k : ℕ}

omit [Field K] [LinearOrder K] in
theorem Continues.length_eq (h : Continues n bs bs') : bs.length = n + bs'.length := by
  have hlength := h.later.length_eq
  rw [List.length_drop] at hlength
  have hle := h.le_length
  omega

omit [LinearOrder K] in
theorem Continues.volume_eq (h : Continues n bs bs') (k : ℕ) :
    volume bs (n + k) = volume bs' k := by
  have hvolumes : (bs.drop n).map ClosedBucket.volume = bs'.map ClosedBucket.volume :=
    List.forall₂_eq_eq_eq ▸ (List.forall₂_map_left_iff.mpr (List.forall₂_map_right_iff.mpr
      (h.later.imp fun _ _ hsame ↦ hsame.1)))
  simp only [volume, ← hvolumes, List.map_drop, List.getD_eq_getElem?_getD, List.getElem?_drop]

omit [LinearOrder K] in
theorem Continues.delta_eq (h : Continues n bs bs') (hk : 1 ≤ k) :
    (Batch.deltas bs).getD (n + k) 0 = (Batch.deltas bs').getD k 0 := by
  obtain ⟨l, rfl⟩ := Nat.exists_eq_add_of_le hk
  have hsame := congrArg (fun ds ↦ ds[l]?) h.deltas
  simp only [List.getElem?_drop] at hsame
  rw [List.getD_eq_getElem?_getD, List.getD_eq_getElem?_getD, ← hsame, Nat.add_assoc]

omit [LinearOrder K] in
theorem Continues.sigma_eq (h : Continues n bs bs') (hk : cfg.sigmaWindow < k) :
    sigma m cfg bs (n + k) = sigma m cfg bs' k := by
  obtain ⟨l, rfl⟩ := Nat.exists_eq_add_of_lt hk
  have hleft : n + (cfg.sigmaWindow + l + 1) - cfg.sigmaWindow = n + 1 + l := by omega
  have hright : cfg.sigmaWindow + l + 1 - cfg.sigmaWindow = 1 + l := by omega
  have htake : n + (cfg.sigmaWindow + l + 1) - (n + 1 + l) =
      cfg.sigmaWindow + l + 1 - (1 + l) := by omega
  have hdeltas := congrArg (List.drop l) h.deltas
  rw [List.drop_drop, List.drop_drop] at hdeltas
  rw [sigma, sigma, List.drop_take, List.drop_take, hleft, hright, hdeltas, htake]

theorem Continues.classified_iff (h : Continues n bs bs') (hk : cfg.sigmaWindow < k) :
    Classified m cfg bs (n + k) ↔ Classified m cfg bs' k := by
  rw [Classified, Classified, h.sigma_eq hk]
  exact and_congr_left fun _ ↦ ⟨fun _ ↦ hk.le, fun _ ↦ hk.le.trans (Nat.le_add_left _ _)⟩

theorem Continues.pair_eq (h : Continues n bs bs') (hk : cfg.sigmaWindow < k) :
    pair m cfg bs (n + k) = pair m cfg bs' k := by
  rw [pair, pair, imbalance, imbalance, h.sigma_eq hk, h.delta_eq (Nat.one_le_of_lt hk),
    h.volume_eq]

/-- The pair that bucket `k` adds to the window, if it is classified. -/
def classifiedPair (m : Libm K) (cfg : VpinEngineConfig K) (bs : List (ClosedBucket K)) (k : ℕ) :
    Option (K × K) := if Classified m cfg bs k then some (pair m cfg bs k) else none

theorem map_classifiedBefore (k : ℕ) :
    (classifiedBefore m cfg bs k).map (pair m cfg bs) = present (classifiedPair m cfg bs) k := by
  induction k with
  | zero => rfl
  | succ k ih =>
      rw [Refinement.classifiedBefore_succ, present_succ, ← ih, classifiedPair]
      split <;> simp

/-- A score is the ratio over the last pairs. -/
theorem vpin_eq (k : ℕ) : vpin m cfg bs k = (classifiedPair m cfg bs k).bind fun _ ↦
    if cfg.vpinWindow ≤ (present (classifiedPair m cfg bs) (k + 1)).length then
      some (ratio ((present (classifiedPair m cfg bs) (k + 1)).rtake cfg.vpinWindow))
    else none := by
  rw [← map_classifiedBefore, SlidingWindow.map_rtake, Refinement.ratio_pairs, List.length_map,
    vpin, classifiedPair]
  by_cases hk : Classified m cfg bs k
  · simp only [hk, true_and, if_true, Option.bind_some, window]
  · simp only [hk, false_and, if_false, Option.bind_none]

theorem Continues.classifiedPair_eq (h : Continues n bs bs') (hk : cfg.sigmaWindow < k) :
    classifiedPair m cfg bs (n + k) = classifiedPair m cfg bs' k := by
  rw [classifiedPair, classifiedPair, h.pair_eq hk]
  simp only [h.classified_iff hk]

/-- From the second score on the scores are the same. -/
theorem Continues.vpin_eq (h : Continues n bs bs')
    (hearlier : ∃ j, j < k ∧ (vpin m cfg bs' j).isSome) :
    vpin m cfg bs (n + k) = vpin m cfg bs' k := by
  obtain ⟨j, hjk, hj⟩ := hearlier
  have hfirst : cfg.sigmaWindow ≤ j ∧
      cfg.vpinWindow ≤ (present (classifiedPair m cfg bs') (j + 1)).length := by
    rw [← map_classifiedBefore, List.length_map]
    unfold vpin at hj
    split at hj
    · rename_i hscored
      exact ⟨hscored.1.1, hscored.2⟩
    · cases hj
  have hk : cfg.sigmaWindow < k := hfirst.1.trans_lt hjk
  rw [Restart.vpin_eq, Restart.vpin_eq, h.classifiedPair_eq hk]
  cases hpair : classifiedPair m cfg bs' k with
  | none => rfl
  | some p =>
      have hcount : cfg.vpinWindow < (present (classifiedPair m cfg bs') (k + 1)).length := by
        have hmore : (present (classifiedPair m cfg bs') (j + 1)).length ≤
            (present (classifiedPair m cfg bs') k).length := length_present_mono _ hjk
        rw [present_succ, hpair, List.length_append, Option.toList_some, List.length_singleton]
        omega
      have hnone : ∀ i, i < cfg.sigmaWindow → classifiedPair m cfg bs' i = none :=
        fun i hi ↦ if_neg fun hc ↦ absurd hc.1 (Nat.not_le.mpr hi)
      have hwindow := rtake_present (n := n)
        (fun i hi _ ↦ h.classifiedPair_eq (m := m) hi) hnone hcount
      have hlength := congrArg List.length hwindow
      rw [SlidingWindow.length_rtake, SlidingWindow.length_rtake] at hlength
      rw [Nat.add_assoc, Option.bind_some, Option.bind_some, if_pos hcount.le, hwindow,
        if_pos (by omega)]

/-- From the second rank on the ranks are the same. -/
theorem Continues.vpinCdf_eq (h : Continues n bs bs')
    (hearlier : ∃ j, j < k ∧ (vpinCdf m cfg bs' j).isSome) :
    vpinCdf m cfg bs (n + k) = vpinCdf m cfg bs' k := by
  obtain ⟨j, hjk, hj⟩ := hearlier
  have hwindow : ∀ l, scoresBefore m cfg bs l = present (vpin m cfg bs) l := fun _ ↦ rfl
  have hwindow' : ∀ l, scoresBefore m cfg bs' l = present (vpin m cfg bs') l := fun _ ↦ rfl
  unfold vpinCdf at hj ⊢
  cases hcdf : cfg.cdfWindow with
  | none => rfl
  | some w =>
      simp only [hcdf] at hj
      cases hv : vpin m cfg bs' j with
      | none =>
          rw [hv] at hj
          cases hj
      | some v =>
          have hfull : w ≤ (present (vpin m cfg bs') (j + 1)).length := by
            rw [hv] at hj
            simp only [hwindow', SlidingWindow.length_rtake] at hj
            split at hj
            · cases hj
            · omega
          rw [h.vpin_eq ⟨j, hjk, by rw [hv]; rfl⟩]
          cases hvk : vpin m cfg bs' k with
          | none => rfl
          | some vk =>
              have hcount : w < (present (vpin m cfg bs') (k + 1)).length := by
                have hmore : (present (vpin m cfg bs') (j + 1)).length ≤
                    (present (vpin m cfg bs') k).length := length_present_mono _ hjk
                rw [present_succ, hvk, List.length_append, Option.toList_some,
                  List.length_singleton]
                omega
              obtain ⟨i, hi, hleast⟩ : ∃ i, (vpin m cfg bs' i).isSome ∧
                  ∀ l, l < i → vpin m cfg bs' l = none := by
                have hexists : ∃ i, (vpin m cfg bs' i).isSome := ⟨j, by rw [hv]; rfl⟩
                exact ⟨Nat.find hexists, Nat.find_spec hexists, fun l hl ↦ by
                  simpa using Nat.find_min hexists hl⟩
              have hsame := rtake_present (n := n)
                (fun l hl _ ↦ h.vpin_eq ⟨i, hl, hi⟩) hleast hcount
              simp only [hwindow, hwindow', Nat.add_assoc, hsame]

end Quantities

/-! ## Readings -/

/-- After the first `n`, the readings `rs` go on as `rs'` do: they close with the same
trades, the scores are the same once `rs'` has had one, and so are the ranks. -/
structure CatchesUp (n : ℕ) (rs rs' : List (VpinReading K)) : Prop where
  length : rs.length = n + rs'.length
  bucketId : ∀ k r r', rs[n + k]? = some r → rs'[k]? = some r' → r.bucketId = n + r'.bucketId
  closed : ∀ k r r', rs[n + k]? = some r → rs'[k]? = some r' →
    r.tsCloseNs = r'.tsCloseNs ∧ r.tradesInBucket = r'.tradesInBucket
  vpin : ∀ k r r', rs[n + k]? = some r → rs'[k]? = some r' →
    (∃ q ∈ rs'.take k, q.vpin.isSome) → r.vpin = r'.vpin
  vpinCdf : ∀ k r r', rs[n + k]? = some r → rs'[k]? = some r' →
    (∃ q ∈ rs'.take k, q.vpinCdf.isSome) → r.vpinCdf = r'.vpinCdf

section Readings

variable [FloorSemiring K] {m : Libm K} {cfg : VpinEngineConfig K}

theorem getElem?_readings {tape : List (Trade K)} {k : ℕ} {r : VpinReading K}
    (h : (readings m cfg tape)[k]? = some r) :
    ∃ b, (buckets cfg.bucketVolume tape)[k]? = some b ∧
      r = reading m cfg (buckets cfg.bucketVolume tape) k b := by
  rw [readings, List.getElem?_mapIdx, Option.map_eq_some_iff] at h
  obtain ⟨b, hb, rfl⟩ := h
  exact ⟨b, hb, rfl⟩

theorem exists_lt_of_mem_take {tape : List (Trade K)} {k : ℕ} {q : VpinReading K}
    (h : q ∈ (readings m cfg tape).take k) :
    ∃ j, j < k ∧ q.vpin = vpin m cfg (buckets cfg.bucketVolume tape) j ∧
      q.vpinCdf = vpinCdf m cfg (buckets cfg.bucketVolume tape) j := by
  obtain ⟨j, hj⟩ := List.mem_iff_getElem?.mp h
  have hjk : j < k := by
    have hlt := (List.getElem?_eq_some_iff.mp hj).1
    rw [List.length_take] at hlt
    exact hlt.trans_le (Nat.min_le_left _ _)
  rw [List.getElem?_take_of_lt hjk] at hj
  obtain ⟨b, -, rfl⟩ := getElem?_readings hj
  exact ⟨j, hjk, rfl, rfl⟩

/-- The readings of a tape against those of its rest from a close on. -/
theorem catchesUp_readings {old : List (Trade K)}
    (hclosed : leftover cfg.bucketVolume [] old = []) (new : List (Trade K)) :
    CatchesUp (readings m cfg old).length (readings m cfg (old ++ new)) (readings m cfg new) := by
  have hcont := continues_buckets hclosed new
  have hold : (readings m cfg old).length = (buckets cfg.bucketVolume old).length :=
    List.length_mapIdx
  rw [hold]
  refine ⟨?_, ?_, ?_, ?_, ?_⟩
  · simp only [readings, List.length_mapIdx]
    exact hcont.length_eq
  all_goals
    intro k r r' hr hr'
    obtain ⟨b, hb, rfl⟩ := getElem?_readings hr
    obtain ⟨b', hb', rfl⟩ := getElem?_readings hr'
  · rfl
  · rw [← List.getElem?_drop] at hb
    obtain ⟨hk, rfl⟩ := List.getElem?_eq_some_iff.mp hb
    obtain ⟨hk', rfl⟩ := List.getElem?_eq_some_iff.mp hb'
    exact (hcont.later.get hk hk').2
  · rintro ⟨q, hq, hscored⟩
    obtain ⟨j, hjk, hvpin, -⟩ := exists_lt_of_mem_take hq
    exact hcont.vpin_eq ⟨j, hjk, hvpin ▸ hscored⟩
  · rintro ⟨q, hq, hranked⟩
    obtain ⟨j, hjk, -, hvpinCdf⟩ := exists_lt_of_mem_take hq
    exact hcont.vpinCdf_eq ⟨j, hjk, hvpinCdf ▸ hranked⟩

end Readings

end Geiger.Restart
