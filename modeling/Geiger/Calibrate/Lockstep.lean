import Geiger.Calibrate.Replay
import Geiger.Vpin.Refinement

/-!
# The two replays in lockstep

The pass over the true sides and the engine close the same buckets and classify
them with the same sigma, so their counts determine each other.
-/

namespace Geiger.Calibrate

open Fallible VpinEngine

variable {K : Type} [Field K] [LinearOrder K]

/-! ## What a replay sees -/

/-- A closed bucket and the sigma it is to be classified with. -/
structure Closing (K : Type*) where
  closed : ClosedBucket K
  sigma : Option K

def closing (bucketer : VolumeBucketer K) (sigma : RollingSigma K) (t : Geiger.Trade K) :
    Option (Closing K) :=
  (bucketer.push t.price t.volume t.tsNs).1.map fun closed ↦ ⟨closed, sigma.current⟩

/-- The engine finds an imbalance for this bucket. -/
def Closing.Classified (m : Libm K) (c : Closing K) : Prop :=
  (c.sigma.bind (bucketImbalance m c.closed)).isSome

instance (m : Libm K) : DecidablePred (Closing.Classified m) :=
  fun _ ↦ inferInstanceAs (Decidable (_ = true))

/-- The buy fraction that the pass over the true sides uses. -/
def Closing.buyFrac (m : Libm K) (c : Closing K) : Option K :=
  c.sigma.bind fun sigma ↦ (Bvc.classify m c.closed.deltaP sigma c.closed.volume).map
    fun split ↦ split.1 / c.closed.volume

def engineSees [FloorSemiring K] (m : Libm K) (e : VpinEngine K) :
    List (Geiger.Trade K) → List (Closing K)
  | [] => []
  | t :: tape =>
    (closing e.bucketer e.sigma t).toList ++ match e.pushTrade m t with
      | .ok (_, e) => engineSees m e tape
      | .error _ => []

def BvcPass.sees (m : Libm K) (p : BvcPass K) : List (Trade K) → List (Closing K)
  | [] => []
  | t :: tape =>
    (closing p.bucketer p.sigma t.toTrade).toList ++ match p.pushTrade m t with
      | .ok p => sees m p tape
      | .error _ => []

theorem Closing.classified_iff {m : Libm K} {c : Closing K} :
    c.Classified m ↔ (c.buyFrac m).isSome := by
  unfold Classified buyFrac bucketImbalance
  cases c.sigma with
  | none => rfl
  | some sigma =>
      cases h : Bvc.classify m c.closed.deltaP sigma c.closed.volume <;> simp [h]

theorem Closing.buyFrac_of_pos {m : Libm K} {c : Closing K} {sigma : K}
    (hsigma : c.sigma = some sigma) (hpos : 0 < sigma) (hvol : 0 < c.closed.volume) :
    c.buyFrac m = some (m.standardNormalCdf (c.closed.deltaP / sigma)) := by
  simp [buyFrac, hsigma, Bvc.classify_of_pos m _ _ hpos, hvol.ne']

theorem Closing.exists_of_buyFrac {m : Libm K} {c : Closing K} {f : K}
    (hvol : 0 < c.closed.volume) (h : c.buyFrac m = some f) : ∃ x, m.standardNormalCdf x = f := by
  obtain ⟨sigma, hsigma, hf⟩ := Option.bind_eq_some_iff.mp h
  by_cases hpos : 0 < sigma
  · rw [buyFrac_of_pos hsigma hpos hvol] at h
    exact ⟨_, Option.some.inj h⟩
  · rw [Bvc.classify_of_not_pos m _ _ hpos] at hf
    cases hf

/-! ## One trade of the pass -/

namespace BvcPass

variable {m : Libm K} {p : BvcPass K} {t : Trade K} {closed : ClosedBucket K}

@[simp] theorem addSide_bucketer : (p.addSide t).bucketer = p.bucketer := by
  unfold addSide
  split <;> rfl

@[simp] theorem addSide_sigma : (p.addSide t).sigma = p.sigma := by
  unfold addSide
  split <;> rfl

@[simp] theorem addSide_compared : (p.addSide t).compared = p.compared := by
  unfold addSide
  split <;> rfl

theorem addSide_volume :
    (p.addSide t).buyVol + (p.addSide t).sellVol = p.buyVol + p.sellVol + t.volume := by
  unfold addSide
  split
  · exact add_right_comm _ _ _
  · exact (add_assoc _ _ _).symm

/-- Every unit of the open bucket has been counted on one side. -/
def Balanced (p : BvcPass K) : Prop := p.buyVol + p.sellVol = p.bucketer.partialVolume

/-- The pass after it has looked at a bucket. -/
def judge (m : Libm K) (p : BvcPass K) (closed : ClosedBucket K) : BvcPass K :=
  match Closing.buyFrac m ⟨closed, p.sigma.current⟩ with
  | none => p
  | some f => p.count f (p.buyVol / closed.volume)

theorem compare_eq (hvol : 0 < closed.volume) (hsides : p.buyVol + p.sellVol = closed.volume) :
    p.compare m closed = .ok (p.judge m closed) := by
  unfold compare judge Closing.buyFrac
  cases p.sigma.current with
  | none => rfl
  | some sigma =>
      simp only [Option.bind_some]
      cases Bvc.classify m closed.deltaP sigma closed.volume with
      | none => rfl
      | some split =>
          simp only [hsides, divide_of_ne _ hvol.ne']
          rfl

theorem pushTrade_open (h : (p.bucketer.push t.price t.volume t.tsNs).1 = none) :
    p.pushTrade m t =
      .ok { p.addSide t with bucketer := (p.bucketer.push t.price t.volume t.tsNs).2 } := by
  unfold pushTrade
  simp only [addSide_bucketer]
  generalize p.bucketer.push t.price t.volume t.tsNs = r at h
  obtain ⟨closed, bucketer⟩ := r
  obtain rfl : closed = none := h
  rfl

@[simp] theorem judge_bucketer : (p.judge m closed).bucketer = p.bucketer := by
  unfold judge
  split <;> rfl

@[simp] theorem judge_sigma : (p.judge m closed).sigma = p.sigma := by
  unfold judge
  split <;> rfl

theorem closed_volume (h : (p.bucketer.push t.price t.volume t.tsNs).1 = some closed)
    (hsides : p.Balanced) :
    (p.addSide t).buyVol + (p.addSide t).sellVol = closed.volume := by
  rw [addSide_volume, hsides, (VolumeBucketer.volume_of_push_some h).1]
  rfl

theorem pushTrade_close (h : (p.bucketer.push t.price t.volume t.tsNs).1 = some closed)
    (hsides : p.Balanced) :
    p.pushTrade m t =
      .ok { judge m { p.addSide t with
          bucketer := (p.bucketer.push t.price t.volume t.tsNs).2 } closed with
        sigma := p.sigma.push m closed.deltaP
        buyVol := 0
        sellVol := 0 } := by
  have hvol := VolumeBucketer.volume_pos_of_push h
  have hclosed := closed_volume h hsides
  unfold pushTrade
  simp only [addSide_bucketer]
  generalize p.bucketer.push t.price t.volume t.tsNs = r at h
  obtain ⟨closed', bucketer⟩ := r
  obtain rfl : closed' = some closed := h
  have hcompare := compare_eq (m := m) (p := { p.addSide t with bucketer }) hvol hclosed
  refine bind_eq_ok.mpr ⟨_, hcompare, ?_⟩
  simp only [judge_sigma, addSide_sigma]
  rfl

theorem judge_compared : (p.judge m closed).compared =
    p.compared + if Closing.Classified m ⟨closed, p.sigma.current⟩ then 1 else 0 := by
  unfold judge
  split <;> simp [Closing.classified_iff, count, *]

theorem balanced_new {bucketVolume : K} {bucketer : VolumeBucketer K} (sigma : RollingSigma K)
    (hbucketer : VolumeBucketer.new bucketVolume = .ok bucketer) :
    (BvcPass.new bucketer sigma).Balanced := by
  obtain ⟨-, -, -, hacc, -⟩ := VolumeBucketer.new_eq_ok hbucketer
  simp [Balanced, new, VolumeBucketer.partialVolume, hacc]

theorem Balanced.push {p' : BvcPass K} (h : p.Balanced) (hp : p.pushTrade m t = .ok p') :
    p'.Balanced := by
  cases hpush : (p.bucketer.push t.price t.volume t.tsNs).1 with
  | none =>
      rw [pushTrade_open hpush] at hp
      obtain rfl := Except.ok.inj hp
      rw [Balanced, addSide_volume, h]
      exact (VolumeBucketer.accVolume_of_push_none hpush).symm
  | some closed =>
      rw [pushTrade_close hpush h] at hp
      obtain rfl := Except.ok.inj hp
      simp only [Balanced, judge_bucketer, add_zero]
      exact (VolumeBucketer.volume_of_push_some hpush).2.symm

end BvcPass

/-! ## One trade of both -/

structure Lockstep (e : VpinEngine K) (p : BvcPass K) : Prop where
  bucketer : e.bucketer = p.bucketer
  sigma : e.sigma = p.sigma
  length_imbalances : e.imbalances.length = min p.compared e.vpinWindow
  positiveVolumes : e.PositiveVolumes

/-- What a trade that closes `c`, if it closes a bucket at all, does to the number
`n` of compared buckets, and the reading that comes with it. -/
inductive Scored (m : Libm K) (w n : ℕ) :
    Option (Closing K) → Option (VpinReading K) → ℕ → Prop where
  | opened : Scored m w n none none n
  | refused {c : Closing K} {r : VpinReading K} (hc : ¬ c.Classified m) (hvpin : r.vpin = none) :
      Scored m w n (some c) (some r) n
  | classified {c : Closing K} {r : VpinReading K} (hc : c.Classified m)
      (hvpin : r.vpin.isSome ↔ w ≤ n + 1)
      (hsingle : w = 1 → r.vpin = (c.buyFrac m).map fun f ↦ |2 * f - 1|) :
      Scored m w n (some c) (some r) (n + 1)

section Step

variable {m : Libm K} {e : VpinEngine K} {p : BvcPass K}

theorem Closing.imbalance_eq [IsStrictOrderedRing K] {c : Closing K} {imbalance : K}
    (hvol : 0 < c.closed.volume)
    (h : c.sigma.bind (bucketImbalance m c.closed) = some imbalance) :
    ∃ f, c.buyFrac m = some f ∧ imbalance = |2 * f - 1| * c.closed.volume := by
  obtain ⟨sigma, hsigma, h⟩ := Option.bind_eq_some_iff.mp h
  by_cases hpos : 0 < sigma
  · rw [Refinement.bucketImbalance_of_pos hvol hpos] at h
    exact ⟨_, buyFrac_of_pos hsigma hpos hvol, (Option.some.inj h).symm⟩
  · rw [Refinement.bucketImbalance_of_not_pos hpos] at h
    cases h

omit [LinearOrder K] in
theorem score_push_one {ps : List (K × K)} {p : K × K} (hlen : ps.length ≤ 1) :
    score 1 (SlidingWindow.push 1 ps p) = some (p.1 / p.2) := by
  have hpush : SlidingWindow.push 1 ps p = [p] := by
    rw [SlidingWindow.push]
    split
    · obtain ⟨q, rfl⟩ := List.length_eq_one_iff.mp ‹_›
      rfl
    · obtain rfl := List.length_eq_zero_iff.mp (show ps.length = 0 by omega)
      rfl
  simp [score, hpush, RatioOfSums.ratio]

theorem vpin_of_classified [IsStrictOrderedRing K] {n : ℕ}
    (hlen : e.imbalances.length = min n e.vpinWindow) {closed : ClosedBucket K}
    (hvol : 0 < closed.volume)
    (hc : Closing.Classified m ⟨closed, e.sigma.current⟩) :
    ((vpinOf m e closed).isSome ↔ e.vpinWindow ≤ n + 1) ∧
      (e.vpinWindow = 1 → vpinOf m e closed =
        (Closing.buyFrac m ⟨closed, e.sigma.current⟩).map fun f ↦ |2 * f - 1|) ∧
      (classifyInto m e closed).imbalances.length = min (n + 1) e.vpinWindow := by
  obtain ⟨imbalance, himbalance⟩ := Option.isSome_iff_exists.mp hc
  have hpush : (classifyInto m e closed).imbalances =
      SlidingWindow.push e.vpinWindow e.imbalances (imbalance, closed.volume) := by
    have himbalance' : imbalanceOf m e closed = some imbalance := himbalance
    simp only [classifyInto, himbalance']
    rfl
  have hvpin : vpinOf m e closed =
      score e.vpinWindow (SlidingWindow.push e.vpinWindow e.imbalances
        (imbalance, closed.volume)) := by
    rw [← hpush, vpinOf, imbalanceOf]
    simp only at himbalance
    rw [himbalance, Option.bind_some]
  have hlength : (SlidingWindow.push e.vpinWindow e.imbalances
      (imbalance, closed.volume)).length = min (n + 1) e.vpinWindow := by
    have hpos := e.vpinWindow_pos
    rw [SlidingWindow.length_push _ hpos e.length_imbalances_le, hlen]
    omega
  refine ⟨?_, ?_, hpush ▸ hlength⟩
  · rw [hvpin, score, hlength]
    split <;> simp <;> omega
  · intro hone
    obtain ⟨f, hf, rfl⟩ := Closing.imbalance_eq hvol himbalance
    have hle := e.length_imbalances_le
    rw [hone] at hle
    rw [hvpin, hone, score_push_one hle, hf, Option.map_some, mul_div_cancel_right₀ _ hvol.ne']

theorem vpin_of_refused {closed : ClosedBucket K}
    (hc : ¬ Closing.Classified m ⟨closed, e.sigma.current⟩) :
    vpinOf m e closed = none ∧ classifyInto m e closed = e := by
  have himbalance : imbalanceOf m e closed = none := Option.not_isSome_iff_eq_none.mp hc
  simp [vpinOf, classifyInto, himbalance]

/-- A closed bucket keeps the replays in lockstep. -/
theorem Lockstep.close [IsStrictOrderedRing K] [FloorSemiring K] (h : Lockstep e p)
    {closed : ClosedBucket K} (hvol : 0 < closed.volume) :
    Lockstep (afterBucket m e closed)
        { p.judge m closed with sigma := p.sigma.push m closed.deltaP, buyVol := 0, sellVol := 0 } ∧
      Scored m e.vpinWindow p.compared (some ⟨closed, e.sigma.current⟩)
        (some (readingOf m e closed)) (p.judge m closed).compared := by
  have hafter : (afterBucket m e closed).imbalances = (classifyInto m e closed).imbalances := rfl
  have hwindow := afterBucket_vpinWindow m e closed
  have hcompared : (p.judge m closed).compared = _ := BvcPass.judge_compared
  have hpositive := classifyInto_positive m h.positiveVolumes hvol
  rw [← h.sigma] at hcompared
  have hbucketer : (afterBucket m e closed).bucketer = (p.judge m closed).bucketer := by
    rw [afterBucket_bucketer, BvcPass.judge_bucketer, h.bucketer]
  have hsigma : (afterBucket m e closed).sigma = p.sigma.push m closed.deltaP := by
    rw [← h.sigma]
    rfl
  by_cases hc : Closing.Classified m ⟨closed, e.sigma.current⟩
  · rw [if_pos hc] at hcompared
    obtain ⟨hvpin, hsingle, hlength⟩ := vpin_of_classified h.length_imbalances hvol hc
    refine ⟨⟨hbucketer, hsigma, ?_, hpositive⟩, ?_⟩
    · rw [hafter, hlength, hwindow, hcompared]
    · rw [hcompared]
      exact .classified hc hvpin hsingle
  · rw [if_neg hc] at hcompared
    obtain ⟨hnone, hkeep⟩ := vpin_of_refused hc
    refine ⟨⟨hbucketer, hsigma, ?_, hpositive⟩, ?_⟩
    · rw [hafter, hkeep, hwindow, hcompared]
      exact h.length_imbalances
    · rw [hcompared]
      exact .refused hc hnone

/-- One trade keeps the replays in lockstep. -/
theorem Lockstep.step [IsStrictOrderedRing K] [FloorSemiring K] (h : Lockstep e p)
    (hbalanced : p.Balanced) (t : Trade K) :
    ∃ out e' p', e.pushTrade m t.toTrade = .ok (out, e') ∧ p.pushTrade m t = .ok p' ∧
      Lockstep e' p' ∧ p'.Balanced ∧ e'.vpinWindow = e.vpinWindow ∧
      Scored m e.vpinWindow p.compared (closing e.bucketer e.sigma t.toTrade) out
        p'.compared := by
  have hnext : Lockstep { e with bucketer := (e.bucketer.push t.price t.volume t.tsNs).2 }
      { p.addSide t with bucketer := (p.bucketer.push t.price t.volume t.tsNs).2 } := by
    refine ⟨by rw [h.bucketer], ?_, ?_, h.positiveVolumes⟩
    · simp only [BvcPass.addSide_sigma]
      exact h.sigma
    · simp only [BvcPass.addSide_compared]
      exact h.length_imbalances
  cases hpush : (e.bucketer.push t.price t.volume t.tsNs).1 with
  | none =>
      have hpush' := h.bucketer ▸ hpush
      have hpass := BvcPass.pushTrade_open (m := m) hpush'
      refine ⟨none, _, _, pushTrade_of_none hpush, hpass, hnext, hbalanced.push hpass, rfl, ?_⟩
      simp only [closing, hpush, BvcPass.addSide_compared]
      exact .opened
  | some closed =>
      have hpush' := h.bucketer ▸ hpush
      have hvol := VolumeBucketer.volume_pos_of_push hpush
      obtain ⟨hclose, hscored⟩ := hnext.close (m := m) hvol
      have hpass := BvcPass.pushTrade_close (m := m) hpush' hbalanced
      refine ⟨_, _, _, pushTrade_of_some hpush (closeBucket_eq m hnext.positiveVolumes hvol),
        hpass, ?_, hbalanced.push hpass, afterBucket_vpinWindow m _ closed, ?_⟩
      · simpa using hclose
      · simp only [closing, hpush]
        simpa using hscored

/-! ## Whole tapes -/

/-- What the two replays of a tape have in common, `p` and `p'` being the pass
before and after. -/
structure Agree (m : Libm K) (w : ℕ) (cs : List (Closing K)) (rs : List (VpinReading K))
    (n n' : ℕ) : Prop where
  compared : n' = n + (cs.filter (Closing.Classified m)).length
  nonWarmup : (rs.filterMap VpinReading.vpin).length + (n - (w - 1)) = n' - (w - 1)
  length_eq : rs.length = cs.length
  single : w = 1 → rs.map VpinReading.vpin =
    cs.map fun c ↦ (c.buyFrac m).map fun f ↦ |2 * f - 1|

theorem Scored.agree {w n n' n'' : ℕ} (hw : 1 ≤ w) {c : Option (Closing K)}
    {out : Option (VpinReading K)} {cs : List (Closing K)} {rs : List (VpinReading K)}
    (h : Scored m w n c out n') (hrest : Agree m w cs rs n' n'') :
    Agree m w (c.toList ++ cs) (out.toList ++ rs) n n'' := by
  have hcompared := hrest.compared
  have hnonWarmup := hrest.nonWarmup
  cases h with
  | opened => exact hrest
  | @refused c r hc hvpin =>
      refine ⟨?_, ?_, ?_, ?_⟩
      · simpa [hc] using hcompared
      · simpa [hvpin] using hnonWarmup
      · simp [hrest.length_eq]
      · intro hone
        rw [Closing.classified_iff, Option.not_isSome_iff_eq_none] at hc
        simp [hvpin, hc, hrest.single hone]
  | @classified c r hc hvpin hsingle =>
      refine ⟨?_, ?_, ?_, ?_⟩
      · simp only [Option.toList_some, List.singleton_append, List.filter_cons_of_pos, hc,
          decide_true, List.length_cons]
        omega
      · cases hr : r.vpin with
        | none =>
            have hwarm : ¬ w ≤ n + 1 := by simpa [hr] using hvpin
            simp only [Option.toList_some, List.singleton_append, List.filterMap_cons, hr]
            omega
        | some v =>
            have hwarm : w ≤ n + 1 := by simpa [hr] using hvpin
            simp only [Option.toList_some, List.singleton_append, List.filterMap_cons, hr,
              List.length_cons]
            omega
      · simp [hrest.length_eq]
      · intro hone
        simp [hsingle hone, hrest.single hone]

/-- Both replays of a tape run to its end, see the same and agree. -/
theorem Lockstep.run [IsStrictOrderedRing K] [FloorSemiring K] (h : Lockstep e p)
    (hbalanced : p.Balanced) (trades : List (Trade K)) :
    ∃ rs e' p', e.feed m (trades.map Trade.toTrade) = .ok (rs, e') ∧
      trades.foldlM (BvcPass.pushTrade m) p = .ok p' ∧
      p.sees m trades = engineSees m e (trades.map Trade.toTrade) ∧
      Agree m e.vpinWindow (p.sees m trades) rs p.compared p'.compared := by
  induction trades generalizing e p with
  | nil => exact ⟨[], e, p, rfl, rfl, rfl, by simp [BvcPass.sees], by simp, rfl, fun _ ↦ rfl⟩
  | cons t trades ih =>
      obtain ⟨out, e₁, p₁, he, hp, hlock, hbal, hwindow, hscored⟩ := h.step (m := m) hbalanced t
      obtain ⟨rs, e', p', hfeed, hfold, hsees, hagree⟩ := ih hlock hbal
      have hclosing : closing p.bucketer p.sigma t.toTrade = closing e.bucketer e.sigma t.toTrade := by
        rw [h.bucketer, h.sigma]
      refine ⟨_, e', p', feed_cons he hfeed, ?_, ?_, ?_⟩
      · simp only [List.foldlM_cons, hp, bind, Except.bind]
        exact hfold
      · simp only [BvcPass.sees, hp, List.map_cons, engineSees, he, hclosing, hsees]
      · simp only [BvcPass.sees, hp, hclosing]
        exact hscored.agree e.vpinWindow_pos (hwindow ▸ hagree)

end Step

/-! ## The range of the statistics -/

structure BvcPass.InRange (p : BvcPass K) : Prop where
  correct_le : p.correct ≤ p.compared
  length_absErrors : p.absErrors.length = p.compared
  absErrors_mem : ∀ x ∈ p.absErrors, x ∈ Set.Icc (0 : K) 1
  buyVol_nonneg : 0 ≤ p.buyVol
  sellVol_nonneg : 0 ≤ p.sellVol

namespace BvcPass.InRange

variable [IsStrictOrderedRing K] {m : Libm K} {p : BvcPass K}

theorem addSide (h : p.InRange) {t : Trade K} (ht : 0 ≤ t.volume) : (p.addSide t).InRange := by
  unfold BvcPass.addSide
  split
  · exact { h with buyVol_nonneg := add_nonneg h.buyVol_nonneg ht }
  · exact { h with sellVol_nonneg := add_nonneg h.sellVol_nonneg ht }

theorem count (h : p.InRange) {bvcFrac trueFrac : K} (hbvc : bvcFrac ∈ Set.Icc (0 : K) 1)
    (htrue : trueFrac ∈ Set.Icc (0 : K) 1) : (p.count bvcFrac trueFrac).InRange where
  correct_le := by
    have hle := h.correct_le
    simp only [BvcPass.count]
    split <;> omega
  length_absErrors := by
    simp [BvcPass.count, h.length_absErrors]
  absErrors_mem := by
    intro x hx
    rcases List.mem_append.mp hx with hold | hnew
    · exact h.absErrors_mem x hold
    · obtain rfl := List.mem_singleton.mp hnew
      obtain ⟨hbvc₀, hbvc₁⟩ := hbvc
      obtain ⟨htrue₀, htrue₁⟩ := htrue
      refine ⟨abs_nonneg _, abs_sub_le_iff.mpr ⟨?_, ?_⟩⟩ <;> linarith
  buyVol_nonneg := h.buyVol_nonneg
  sellVol_nonneg := h.sellVol_nonneg

theorem judge (hm : ∀ x, m.standardNormalCdf x ∈ Set.Icc (0 : K) 1) (h : p.InRange)
    {closed : ClosedBucket K} (hvol : 0 < closed.volume)
    (hsides : p.buyVol + p.sellVol = closed.volume) : (p.judge m closed).InRange := by
  unfold BvcPass.judge
  split
  · exact h
  · rename_i f hf
    apply h.count
    · obtain ⟨x, rfl⟩ := Closing.exists_of_buyFrac hvol hf
      exact hm x
    · have hsell := h.sellVol_nonneg
      refine ⟨div_nonneg h.buyVol_nonneg hvol.le, (div_le_one hvol).mpr ?_⟩
      linarith

theorem push (hm : ∀ x, m.standardNormalCdf x ∈ Set.Icc (0 : K) 1) (h : p.InRange)
    (hbalanced : p.Balanced) {t : Trade K} (ht : 0 ≤ t.volume) {p' : BvcPass K}
    (hp : p.pushTrade m t = .ok p') : p'.InRange := by
  cases hpush : (p.bucketer.push t.price t.volume t.tsNs).1 with
  | none =>
      rw [pushTrade_open hpush] at hp
      obtain rfl := Except.ok.inj hp
      exact { h.addSide ht with }
  | some closed =>
      rw [pushTrade_close hpush hbalanced] at hp
      obtain rfl := Except.ok.inj hp
      have hadd : InRange { p.addSide t with
          bucketer := (p.bucketer.push t.price t.volume t.tsNs).2 } := { h.addSide ht with }
      have hjudged := hadd.judge hm (VolumeBucketer.volume_pos_of_push hpush)
        (closed_volume hpush hbalanced)
      exact { hjudged with buyVol_nonneg := le_rfl, sellVol_nonneg := le_rfl }

theorem stats (h : p.InRange) (hpos : 0 < p.compared) :
    (∃ a ∈ Set.Icc (0 : K) 1, p.stats.accuracy = some a) ∧
      ∃ x ∈ Set.Icc (0 : K) 1, p.stats.meanAbsError = some x := by
  have hcompared : (0 : K) < p.compared := by exact_mod_cast hpos
  constructor
  · refine ⟨_, ⟨?_, ?_⟩, if_pos hpos⟩
    · positivity
    · rw [div_le_one hcompared]
      exact_mod_cast h.correct_le
  · have hne : p.absErrors.isEmpty = false := by
      rw [List.isEmpty_eq_false_iff, ← List.length_pos_iff, h.length_absErrors]
      exact hpos
    have hlower := List.card_nsmul_le_sum p.absErrors 0 fun x hx ↦ (h.absErrors_mem x hx).1
    have hupper := List.sum_le_card_nsmul p.absErrors 1 fun x hx ↦ (h.absErrors_mem x hx).2
    simp only [smul_zero, nsmul_eq_mul, mul_one] at hlower hupper
    refine ⟨p.absErrors.sum / (p.absErrors.length : K), ⟨?_, ?_⟩, ?_⟩
    · positivity
    · rw [h.length_absErrors] at hupper ⊢
      exact (div_le_one hcompared).mpr hupper
    · simp [BvcPass.stats, hne]

end BvcPass.InRange

/-! ## Agreement of the two replays -/

structure ReplaysAgree [FloorSemiring K] (m : Libm K) (trades : List (Trade K)) (vpinWindow : ℕ)
    (engine : VpinEngine K) (start : BvcPass K) (readings : List (VpinReading K))
    (stats : Stats K) : Prop where
  sees : start.sees m trades = engineSees m engine (trades.map Trade.toTrade)
  totalBuckets : stats.totalBuckets = (start.sees m trades).length
  bvcCompared : stats.bvcCompared =
    ((engineSees m engine (trades.map Trade.toTrade)).filter (Closing.Classified m)).length
  nonWarmupReadings : stats.nonWarmupReadings = stats.bvcCompared - (vpinWindow - 1)
  vpin : vpinWindow = 1 → readings.map VpinReading.vpin =
    (start.sees m trades).map fun c ↦ (c.buyFrac m).map fun f ↦ |2 * f - 1|
  sides : ∀ before after p, trades = before ++ after →
    before.foldlM (BvcPass.pushTrade m) start = .ok p →
    p.buyVol + p.sellVol = p.bucketer.partialVolume
  inRange : (∀ t ∈ trades, 0 ≤ t.volume) → 0 < stats.bvcCompared →
    (∃ a ∈ Set.Icc (0 : K) 1, stats.bvcAccuracy = some a) ∧
      ∃ x ∈ Set.Icc (0 : K) 1, stats.bvcMeanAbsError = some x

theorem bvcAccuracyStats_returns {m : Libm K} {trades : List (Trade K)} {bucketVolume : K}
    {sigmaWindow : ℕ} {bucketer : VolumeBucketer K} {sigma : RollingSigma K} {p : BvcPass K}
    (hbucketer : VolumeBucketer.new bucketVolume = .ok bucketer)
    (hsigma : RollingSigma.new sigmaWindow = .ok sigma)
    (hfold : trades.foldlM (BvcPass.pushTrade m) (.new bucketer sigma) = .ok p) :
    Returns (bvcAccuracyStats m trades bucketVolume sigmaWindow) p.stats := by
  simp only [bvcAccuracyStats, returns_bind, returns_check, returns_attempt, returns_pure]
  exact ⟨_, hbucketer, _, hsigma, _, hfold, rfl⟩

theorem calibrateOne_returns [FloorSemiring K] {m : Libm K} {trades : List (Trade K)}
    {bucketVolume : K} {sigmaWindow vpinWindow : ℕ} {cdfWindow : Option ℕ}
    {engine engine' : VpinEngine K} {readings : List (VpinReading K)}
    (hnew : VpinEngine.new (engineConfig bucketVolume sigmaWindow vpinWindow cdfWindow) =
      .ok engine)
    (hfeed : engine.feed m (trades.map Trade.toTrade) = .ok (readings, engine'))
    (bvc : BvcStats K) :
    ∃ stats, Returns (calibrateOne m trades bucketVolume sigmaWindow vpinWindow cdfWindow bvc)
        stats ∧
      stats.totalBuckets = readings.length ∧
      stats.nonWarmupReadings = (readings.filterMap VpinReading.vpin).length ∧
      stats.bvcAccuracy = bvc.accuracy ∧ stats.bvcMeanAbsError = bvc.meanAbsError ∧
      stats.bvcCompared = bvc.compared := by
  simp only [calibrateOne, returns_bind, returns_check, returns_attempt, returns_pure]
  exact ⟨_, ⟨_, hnew, _, hfeed, rfl⟩, rfl, rfl, rfl, rfl, rfl⟩

/-- For every accepted configuration and every tape both replays run to the end,
no fraction being `0 / 0`, and agree. -/
theorem replays_agree (Φ : ℝ → Set.Icc (0 : ℝ) 1) (trades : List (Trade ℝ)) (bucketVolume : ℝ)
    (sigmaWindow vpinWindow : ℕ) (cdfWindow : Option ℕ) (engine : VpinEngine ℝ)
    (hnew : VpinEngine.new (engineConfig bucketVolume sigmaWindow vpinWindow cdfWindow) =
      .ok engine) :
    ∃ bucketer sigma bvc stats readings engine',
      VolumeBucketer.new bucketVolume = .ok bucketer ∧ RollingSigma.new sigmaWindow = .ok sigma ∧
      Returns (bvcAccuracyStats (Libm.exact Φ) trades bucketVolume sigmaWindow) bvc ∧
      Returns (calibrateOne (Libm.exact Φ) trades bucketVolume sigmaWindow vpinWindow cdfWindow
        bvc) stats ∧
      engine.feed (Libm.exact Φ) (trades.map Trade.toTrade) = .ok (readings, engine') ∧
      ReplaysAgree (Libm.exact Φ) trades vpinWindow engine (.new bucketer sigma) readings
        stats := by
  have hfresh := fresh_of_new hnew
  have hlock : Lockstep engine (.new engine.bucketer engine.sigma) := by
    refine ⟨rfl, rfl, ?_, ?_⟩
    · simp [hfresh.imbalances, BvcPass.new]
    · simp [VpinEngine.PositiveVolumes, hfresh.imbalances]
  have hbalanced : (BvcPass.new engine.bucketer engine.sigma).Balanced :=
    BvcPass.balanced_new engine.sigma hfresh.bucketer
  have hstart : (BvcPass.new engine.bucketer engine.sigma).InRange := by
    refine ⟨le_rfl, rfl, ?_, le_rfl, le_rfl⟩
    rintro x ⟨⟩
  obtain ⟨readings, engine', p', hfeed, hfold, hsees, hagree⟩ :=
    hlock.run (m := Libm.exact Φ) hbalanced trades
  have hwindow : engine.vpinWindow = vpinWindow := hfresh.vpinWindow
  have hsides : ∀ before after p, trades = before ++ after →
      before.foldlM (BvcPass.pushTrade (Libm.exact Φ)) (.new engine.bucketer engine.sigma) = .ok p →
      p.Balanced := by
    intro before after p _ hp
    exact foldlM_invariant (fun t _ s s' hs hpush ↦ hs.push hpush) hbalanced hp
  obtain ⟨stats, hstats, htotal, hwarm, haccuracy, herror, hcompared⟩ :=
    calibrateOne_returns hnew hfeed p'.stats
  refine ⟨engine.bucketer, engine.sigma, p'.stats, stats, readings, engine', hfresh.bucketer,
    hfresh.sigma, bvcAccuracyStats_returns hfresh.bucketer hfresh.sigma hfold, hstats, hfeed, ?_⟩
  rw [hwindow] at hagree
  refine ⟨hsees, htotal.trans hagree.length_eq, ?_, ?_, hagree.single, hsides, ?_⟩
  · rw [hcompared, ← hsees]
    exact hagree.compared.trans (Nat.zero_add _)
  · have hnonWarmup := hagree.nonWarmup
    rw [BvcPass.new, Nat.zero_sub, Nat.add_zero] at hnonWarmup
    rw [hwarm, hcompared]
    exact hnonWarmup
  · intro hvolume hpos
    have hinRange : p'.Balanced ∧ p'.InRange := by
      apply foldlM_invariant _ ⟨hbalanced, hstart⟩ hfold
      intro t ht s s' hs hpush
      exact ⟨hs.1.push hpush, hs.2.push (fun x ↦ (Φ x).2) hs.1 (hvolume t ht) hpush⟩
    rw [hcompared] at hpos
    rw [haccuracy, herror]
    exact hinRange.2.stats hpos

/-- One trade of unit volume for each price and side. -/
def sidedTape (trades : List (ℝ × TakerSide)) : List (Trade ℝ) :=
  trades.map fun (price, takerSide) ↦ ⟨⟨price, 1, 0⟩, takerSide⟩

theorem replays_agree_unit :
    ∃ engine bucketer sigma bvc stats readings engine',
      VpinEngine.new (engineConfig (1 : ℝ) 2 1 none) = .ok engine ∧
      VolumeBucketer.new (1 : ℝ) = .ok bucketer ∧ RollingSigma.new 2 = .ok sigma ∧
      Returns (bvcAccuracyStats (Libm.exact Refinement.stepCdf)
        (sidedTape [(1, .buy), (2, .buy), (2, .sell), (3, .sell)]) 1 2) bvc ∧
      Returns (calibrateOne (Libm.exact Refinement.stepCdf)
        (sidedTape [(1, .buy), (2, .buy), (2, .sell), (3, .sell)]) 1 2 1 none bvc) stats ∧
      engine.feed (Libm.exact Refinement.stepCdf)
        ((sidedTape [(1, .buy), (2, .buy), (2, .sell), (3, .sell)]).map Trade.toTrade) =
          .ok (readings, engine') ∧
      ReplaysAgree (Libm.exact Refinement.stepCdf)
        (sidedTape [(1, .buy), (2, .buy), (2, .sell), (3, .sell)]) 1 engine (.new bucketer sigma)
        readings stats := by
  have hvalid : (engineConfig (1 : ℝ) 2 1 none).Valid := by
    refine ⟨one_pos, le_rfl, le_rfl, ?_, ?_⟩ <;> simp [engineConfig]
  obtain ⟨engine, hnew⟩ := VpinEngine.new_of_valid hvalid
  obtain ⟨bucketer, sigma, bvc, stats, readings, engine', h⟩ :=
    replays_agree Refinement.stepCdf (sidedTape [(1, .buy), (2, .buy), (2, .sell), (3, .sell)]) 1 2 1
      none engine hnew
  exact ⟨engine, bucketer, sigma, bvc, stats, readings, engine', hnew, h⟩

end Geiger.Calibrate
