import Geiger.Calibrate.Lockstep
import Mathlib.Analysis.SpecialFunctions.Sigmoid

/-!
# A tape and its mirror image

Mirroring the prices and flipping the sides turns both fractions of every compared
bucket around.  A fraction of exactly one half is called a sell on either tape.
-/

namespace Geiger

variable {K : Type} [Field K]

def TakerSide.flip : TakerSide → TakerSide
  | .buy => .sell
  | .sell => .buy

@[simp] theorem TakerSide.flip_flip (side : TakerSide) : side.flip.flip = side := by
  cases side <;> rfl

def Calibrate.Trade.mirror (c : K) (t : Calibrate.Trade K) : Calibrate.Trade K :=
  { t with price := c - t.price, takerSide := t.takerSide.flip }

/-! ## Sigma -/

namespace RollingSigma

theorem estimate_neg (m : Libm K) (window : ℕ) (buf : List K) :
    estimate m window (buf.map (-·)) = estimate m window buf := by
  have hmean : (buf.map (-·)).sum / (window : K) = -(buf.sum / (window : K)) := by
    rw [← List.sum_neg, neg_div]
  have hsquares : (buf.map (-·)).map (fun x ↦ (x - -(buf.sum / (window : K))) ^ 2) =
      buf.map fun x ↦ (x - buf.sum / (window : K)) ^ 2 := by
    rw [List.map_map]
    apply List.map_congr_left
    intro x _
    simp only [Function.comp_apply]
    ring
  simp only [estimate, List.length_map, hmean, hsquares]

structure MirrorOf (s s' : RollingSigma K) : Prop where
  window : s'.window = s.window
  buf : s'.buf = s.buf.map (-·)
  current : s'.current = s.current

theorem MirrorOf.push {m : Libm K} {s s' : RollingSigma K} (h : MirrorOf s s') (x : K) :
    MirrorOf (s.push m x) (s'.push m (-x)) := by
  have hbuf : (s'.push m (-x)).buf = (s.push m x).buf.map (-·) := by
    rw [push_buf, push_buf, h.window, h.buf, SlidingWindow.push_map]
  refine ⟨h.window, hbuf, ?_⟩
  rw [push_current, push_current, hbuf, h.window, estimate_neg]

end RollingSigma

/-! ## Buckets -/

variable [LinearOrder K]

namespace VolumeBucketer

structure MirrorOf (c : K) (b b' : VolumeBucketer K) : Prop where
  targetVolume : b'.targetVolume = b.targetVolume
  accVolume : b'.accVolume = b.accVolume
  referencePrice : ∀ p, b'.referencePrice (c - p) = (b.referencePrice p).map (c - ·)

/-- What a trade does to a bucketer and, mirrored, to its mirror image. -/
inductive MirroredPush (c : K) : Option (ClosedBucket K) × VolumeBucketer K →
    Option (ClosedBucket K) × VolumeBucketer K → Prop where
  | opened {b b' : VolumeBucketer K} (h : MirrorOf c b b') : MirroredPush c (none, b) (none, b')
  | closed {b b' : VolumeBucketer K} {closed closed' : ClosedBucket K} (h : MirrorOf c b b')
      (hdelta : closed'.deltaP = -closed.deltaP) (hvolume : closed'.volume = closed.volume) :
      MirroredPush c (some closed, b) (some closed', b')

theorem MirrorOf.push {c : K} {b b' : VolumeBucketer K} (h : MirrorOf c b b') (p v : K)
    (ts : UInt64) : MirroredPush c (b.push p v ts) (b'.push (c - p) v ts) := by
  rcases lt_or_ge (b.accVolume + v) b.targetVolume with hlt | hle
  · have hlt' : b'.accVolume + v < b'.targetVolume := by rwa [h.accVolume, h.targetVolume]
    rw [push_of_lt ts hlt, push_of_lt ts hlt']
    refine .opened ⟨h.targetVolume, ?_, fun q ↦ h.referencePrice p⟩
    rw [h.accVolume]
  · have hle' : b'.targetVolume ≤ b'.accVolume + v := by rwa [h.accVolume, h.targetVolume]
    rw [push_of_le ts hle, push_of_le ts hle', h.referencePrice, h.accVolume]
    refine .closed ⟨h.targetVolume, rfl, fun q ↦ rfl⟩ ?_ rfl
    cases b.referencePrice p with
    | none => simp
    | some q => simp

end VolumeBucketer

namespace Calibrate

open Fallible

/-! ## The compared buckets of a tape -/

/-- The two buy fractions of a compared bucket. -/
structure Comparison (K : Type*) where
  bvcFrac : K
  trueFrac : K

namespace Comparison

def Agrees (v : Comparison K) : Prop := 0.5 < v.bvcFrac ↔ 0.5 < v.trueFrac

instance : DecidablePred (Agrees (K := K)) := fun _ ↦ inferInstanceAs (Decidable (_ ↔ _))

def absError (v : Comparison K) : K := |v.bvcFrac - v.trueFrac|

def mirror (v : Comparison K) : Comparison K := ⟨1 - v.bvcFrac, 1 - v.trueFrac⟩

end Comparison

namespace BvcPass

/-- What the pass compares when this trade comes. -/
def comparison (m : Libm K) (p : BvcPass K) (t : Trade K) : Option (Comparison K) :=
  (closing p.bucketer p.sigma t.toTrade).bind fun c ↦ (c.buyFrac m).map fun bvcFrac ↦
    { bvcFrac
      trueFrac := (p.addSide t).buyVol / ((p.addSide t).buyVol + (p.addSide t).sellVol) }

def comparisons (m : Libm K) (p : BvcPass K) : List (Trade K) → List (Comparison K)
  | [] => []
  | t :: tape =>
    (p.comparison m t).toList ++ match p.pushTrade m t with
      | .ok p => comparisons m p tape
      | .error _ => []

variable {m : Libm K} {p p' : BvcPass K} {t : Trade K} {closed : ClosedBucket K}

/-- The counts of the pass after the given comparisons. -/
structure Tallied (p p' : BvcPass K) (vs : List (Comparison K)) : Prop where
  correct : p'.correct = p.correct + vs.countP (decide ·.Agrees)
  compared : p'.compared = p.compared + vs.length
  absErrors : p'.absErrors = p.absErrors ++ vs.map Comparison.absError

theorem Tallied.trans {p'' : BvcPass K} {vs ws : List (Comparison K)} (h : Tallied p p' vs)
    (h' : Tallied p' p'' ws) : Tallied p p'' (vs ++ ws) where
  correct := by rw [h'.correct, h.correct, List.countP_append, Nat.add_assoc]
  compared := by rw [h'.compared, h.compared, List.length_append, Nat.add_assoc]
  absErrors := by rw [h'.absErrors, h.absErrors, List.map_append, List.append_assoc]

theorem tallied_count (bvcFrac trueFrac : K) :
    Tallied p (p.count bvcFrac trueFrac) [⟨bvcFrac, trueFrac⟩] where
  correct := by
    by_cases h : (0.5 < bvcFrac ↔ 0.5 < trueFrac) <;> simp [count, Comparison.Agrees, h]
  compared := rfl
  absErrors := rfl

theorem comparison_of_none (h : (p.bucketer.push t.price t.volume t.tsNs).1 = none) :
    p.comparison m t = none := by
  simp [comparison, closing, h]

theorem comparison_of_some (h : (p.bucketer.push t.price t.volume t.tsNs).1 = some closed)
    (hbalanced : p.Balanced) : p.comparison m t =
      (Closing.buyFrac m ⟨closed, p.sigma.current⟩).map fun bvcFrac ↦
        ⟨bvcFrac, (p.addSide t).buyVol / closed.volume⟩ := by
  simp [comparison, closing, h, closed_volume h hbalanced]

theorem tallied_addSide : Tallied p (p.addSide t) [] := by
  unfold addSide
  split <;> exact ⟨rfl, rfl, (List.append_nil _).symm⟩

theorem tallied_judge : Tallied p (p.judge m closed)
    ((Closing.buyFrac m ⟨closed, p.sigma.current⟩).map fun bvcFrac ↦
      (⟨bvcFrac, p.buyVol / closed.volume⟩ : Comparison K)).toList := by
  unfold judge
  cases Closing.buyFrac m ⟨closed, p.sigma.current⟩ with
  | none => exact ⟨rfl, rfl, (List.append_nil _).symm⟩
  | some f => exact tallied_count f _

/-- One trade of the pass tallies what it compares. -/
theorem Balanced.step (hbalanced : p.Balanced) (m : Libm K) (t : Trade K) :
    ∃ p', p.pushTrade m t = .ok p' ∧ Tallied p p' (p.comparison m t).toList := by
  cases hpush : (p.bucketer.push t.price t.volume t.tsNs).1 with
  | none =>
      refine ⟨_, pushTrade_open hpush, ?_⟩
      rw [comparison_of_none hpush]
      exact { tallied_addSide (p := p) (t := t) with }
  | some closed =>
      refine ⟨_, pushTrade_close hpush hbalanced, ?_⟩
      rw [comparison_of_some hpush hbalanced]
      let p₁ : BvcPass K :=
        { p.addSide t with bucketer := (p.bucketer.push t.price t.volume t.tsNs).2 }
      have hjudge : Tallied p₁ (p₁.judge m closed) _ := tallied_judge
      rw [addSide_sigma] at hjudge
      exact { (tallied_addSide (p := p) (t := t)).trans { hjudge with } with }

/-- The whole tape runs, and the pass has tallied all of its comparisons. -/
theorem Balanced.run (hbalanced : p.Balanced) (m : Libm K) (trades : List (Trade K)) :
    ∃ p', trades.foldlM (pushTrade m) p = .ok p' ∧ Tallied p p' (p.comparisons m trades) := by
  induction trades generalizing p with
  | nil => exact ⟨p, rfl, rfl, rfl, (List.append_nil _).symm⟩
  | cons t trades ih =>
      obtain ⟨p₁, hp₁, htally⟩ := hbalanced.step m t
      obtain ⟨p', hp', htallies⟩ := ih (hbalanced.push hp₁)
      refine ⟨p', ?_, ?_⟩
      · rw [List.foldlM_cons]
        exact bind_eq_ok.mpr ⟨p₁, hp₁, hp'⟩
      · rw [comparisons, hp₁]
        exact htally.trans htallies

/-! ## The pass over the mirrored tape -/

variable {q : BvcPass K} {c : K}

structure MirrorOf (c : K) (p q : BvcPass K) : Prop where
  bucketer : VolumeBucketer.MirrorOf c p.bucketer q.bucketer
  sigma : RollingSigma.MirrorOf p.sigma q.sigma
  buyVol : q.buyVol = p.sellVol
  sellVol : q.sellVol = p.buyVol

theorem MirrorOf.addSide (h : MirrorOf c p q) (t : Trade K) :
    MirrorOf c (p.addSide t) (q.addSide (t.mirror c)) := by
  obtain ⟨⟨price, volume, tsNs⟩, _ | _⟩ := t
  · exact { h with sellVol := congrArg (· + volume) h.sellVol }
  · exact { h with buyVol := congrArg (· + volume) h.buyVol }

theorem MirrorOf.balanced (h : MirrorOf c p q) (hbalanced : p.Balanced) : q.Balanced := by
  rw [Balanced, h.buyVol, h.sellVol, add_comm, hbalanced]
  exact h.bucketer.accVolume.symm

/-- Turning the price change around turns the fraction around. -/
theorem buyFrac_mirror (hm : ∀ x, m.standardNormalCdf (-x) = 1 - m.standardNormalCdf x)
    {closed' : ClosedBucket K} (hdelta : closed'.deltaP = -closed.deltaP)
    (hvolume : closed'.volume = closed.volume) (hpos : 0 < closed.volume) (sigma : Option K) :
    Closing.buyFrac m ⟨closed', sigma⟩ =
      (Closing.buyFrac m ⟨closed, sigma⟩).map fun bvcFrac ↦ 1 - bvcFrac := by
  cases sigma with
  | none => rfl
  | some sigma =>
      by_cases hsigma : 0 < sigma
      · have hpos' : 0 < closed'.volume := hvolume ▸ hpos
        rw [Closing.buyFrac_of_pos rfl hsigma hpos', Closing.buyFrac_of_pos rfl hsigma hpos,
          hdelta, neg_div, hm]
        rfl
      · simp [Closing.buyFrac, Bvc.classify_of_not_pos m _ _ hsigma]

theorem MirrorOf.step (hm : ∀ x, m.standardNormalCdf (-x) = 1 - m.standardNormalCdf x)
    (h : MirrorOf c p q) (hbalanced : p.Balanced) (t : Trade K) :
    ∃ p' q', p.pushTrade m t = .ok p' ∧ q.pushTrade m (t.mirror c) = .ok q' ∧
      MirrorOf c p' q' ∧
      q.comparison m (t.mirror c) = (p.comparison m t).map Comparison.mirror := by
  have hside := h.addSide t
  have hbalanced' := h.balanced hbalanced
  have hbucket : VolumeBucketer.MirroredPush c (p.bucketer.push t.price t.volume t.tsNs)
      (q.bucketer.push (t.mirror c).price (t.mirror c).volume (t.mirror c).tsNs) :=
    h.bucketer.push t.price t.volume t.tsNs
  generalize hr : p.bucketer.push t.price t.volume t.tsNs = r at hbucket
  generalize hr' : q.bucketer.push (t.mirror c).price (t.mirror c).volume (t.mirror c).tsNs = r'
    at hbucket
  cases hbucket with
  | opened hnext =>
      have hpush := congrArg Prod.fst hr
      have hpush' := congrArg Prod.fst hr'
      refine ⟨_, _, pushTrade_open hpush, pushTrade_open hpush', ?_, ?_⟩
      · rw [hr, hr']
        exact { hside with bucketer := hnext }
      · rw [comparison_of_none hpush, comparison_of_none hpush']
        rfl
  | @closed b b' closed closed' hnext hdelta hvolume =>
      have hpush := congrArg Prod.fst hr
      have hpush' := congrArg Prod.fst hr'
      have hpos := VolumeBucketer.volume_pos_of_push hpush
      have hsides := closed_volume hpush hbalanced
      refine ⟨_, _, pushTrade_close hpush hbalanced, pushTrade_close hpush' hbalanced', ?_, ?_⟩
      · rw [hr, hr', hdelta]
        refine ⟨?_, h.sigma.push closed.deltaP, rfl, rfl⟩
        simpa using hnext
      · have htrue : (p.addSide t).sellVol / closed.volume =
            1 - (p.addSide t).buyVol / closed.volume := by
          rw [eq_sub_iff_add_eq, ← add_div, add_comm, hsides, div_self hpos.ne']
        rw [comparison_of_some hpush hbalanced, comparison_of_some hpush' hbalanced',
          h.sigma.current, hside.buyVol, hvolume, htrue, buyFrac_mirror hm hdelta hvolume hpos,
          Option.map_map, Option.map_map]
        rfl

theorem MirrorOf.comparisons (hm : ∀ x, m.standardNormalCdf (-x) = 1 - m.standardNormalCdf x)
    (h : MirrorOf c p q) (hbalanced : p.Balanced) (trades : List (Trade K)) :
    q.comparisons m (trades.map (Trade.mirror c)) =
      (p.comparisons m trades).map Comparison.mirror := by
  induction trades generalizing p q with
  | nil => rfl
  | cons t trades ih =>
      obtain ⟨p', q', hp', hq', hnext, hcomparison⟩ := h.step hm hbalanced t
      have hrest := ih hnext (hbalanced.push hp')
      simp only [List.map_cons, BvcPass.comparisons, hp', hq', hcomparison, hrest,
        List.map_append]
      cases p.comparison m t <;> rfl

end BvcPass

/-! ## Ties -/

namespace Comparison

variable (v : Comparison K)

/-- Exactly one of the fractions is one half, and the other leans to buying. -/
def TiedAgainstBuy : Prop :=
  v.bvcFrac = 0.5 ∧ 0.5 < v.trueFrac ∨ v.trueFrac = 0.5 ∧ 0.5 < v.bvcFrac

/-- Exactly one of the fractions is one half, and the other leans to selling. -/
def TiedAgainstSell : Prop :=
  v.bvcFrac = 0.5 ∧ v.trueFrac < 0.5 ∨ v.trueFrac = 0.5 ∧ v.bvcFrac < 0.5

instance : DecidablePred (TiedAgainstBuy (K := K)) := fun _ ↦ inferInstanceAs (Decidable (_ ∨ _))

instance : DecidablePred (TiedAgainstSell (K := K)) := fun _ ↦ inferInstanceAs (Decidable (_ ∨ _))

variable [IsStrictOrderedRing K]

omit [IsStrictOrderedRing K] in
theorem absError_mirror : v.mirror.absError = v.absError := by
  rw [absError, absError, mirror, sub_sub_sub_cancel_left, abs_sub_comm]

theorem agrees_mirror_iff : v.mirror.Agrees ↔ (v.bvcFrac < 0.5 ↔ v.trueFrac < 0.5) := by
  have hhalf (x : K) : 0.5 < 1 - x ↔ x < 0.5 := by
    constructor <;> intro h <;> norm_num at h ⊢ <;> linarith
  simp only [Agrees, mirror, hhalf]

/-- A bucket with one tie agrees on the one tape and not on the other. -/
theorem agrees_mirror_add :
    (if v.mirror.Agrees then 1 else 0) + (if v.TiedAgainstSell then 1 else 0) =
      (if v.Agrees then 1 else 0) + (if v.TiedAgainstBuy then 1 else 0) := by
  have hsides (x : K) : (x < 0.5 ∧ ¬ 0.5 < x ∧ x ≠ 0.5) ∨ (¬ x < 0.5 ∧ ¬ 0.5 < x ∧ x = 0.5) ∨
      (¬ x < 0.5 ∧ 0.5 < x ∧ x ≠ 0.5) := by
    rcases lt_trichotomy x 0.5 with h | h | h
    · exact .inl ⟨h, h.not_gt, h.ne⟩
    · exact .inr (.inl ⟨h.not_lt, h.not_gt, h⟩)
    · exact .inr (.inr ⟨h.not_gt, h, h.ne'⟩)
  simp only [agrees_mirror_iff]
  simp only [Agrees, TiedAgainstSell, TiedAgainstBuy]
  obtain ⟨hb₁, hb₂, hb₃⟩ | ⟨hb₁, hb₂, hb₃⟩ | ⟨hb₁, hb₂, hb₃⟩ := hsides v.bvcFrac <;>
    obtain ⟨ht₁, ht₂, ht₃⟩ | ⟨ht₁, ht₂, ht₃⟩ | ⟨ht₁, ht₂, ht₃⟩ := hsides v.trueFrac <;>
      simp only [hb₁, hb₂, hb₃, ht₁, ht₂, ht₃] <;> simp

theorem countP_mirror (vs : List (Comparison K)) :
    (vs.map mirror).countP (decide ·.Agrees) + vs.countP (decide ·.TiedAgainstSell) =
      vs.countP (decide ·.Agrees) + vs.countP (decide ·.TiedAgainstBuy) := by
  induction vs with
  | nil => rfl
  | cons v vs ih =>
      have hv := v.agrees_mirror_add
      simp only [List.map_cons, List.countP_cons, decide_eq_true_eq]
      omega

/-- As many ties are called wrong on the one tape as on the other. -/
def EvenHanded (vs : List (Comparison K)) : Prop :=
  vs.countP (decide ·.TiedAgainstBuy) = vs.countP (decide ·.TiedAgainstSell)

def summary (vs : List (Comparison K)) : BvcStats K where
  accuracy :=
    if 0 < vs.length then some ((vs.countP (decide ·.Agrees) : K) / (vs.length : K)) else none
  meanAbsError :=
    if vs.isEmpty then none else some ((vs.map absError).sum / (vs.length : K))
  compared := vs.length

end Comparison

open Comparison

theorem mirrorOf_new {bucketVolume c : K} {sigmaWindow : ℕ}
    {bucketer : VolumeBucketer K} {sigma : RollingSigma K}
    (hbucketer : VolumeBucketer.new bucketVolume = .ok bucketer)
    (hsigma : RollingSigma.new sigmaWindow = .ok sigma) :
    BvcPass.MirrorOf c (.new bucketer sigma) (.new bucketer sigma) := by
  obtain ⟨-, -, -, -, -, hreference⟩ := VolumeBucketer.new_eq_ok hbucketer
  obtain ⟨-, -, hbuf, -⟩ := RollingSigma.new_eq_ok hsigma
  refine ⟨⟨rfl, rfl, ?_⟩, ⟨rfl, ?_, rfl⟩, rfl, rfl⟩
  · intro p
    rw [BvcPass.new, hreference, hreference]
    rfl
  · rw [BvcPass.new, hbuf]
    rfl

theorem returns_summary {bucketVolume : K} {sigmaWindow : ℕ} {bucketer : VolumeBucketer K}
    {sigma : RollingSigma K} (hbucketer : VolumeBucketer.new bucketVolume = .ok bucketer)
    (hsigma : RollingSigma.new sigmaWindow = .ok sigma) (m : Libm K) (trades : List (Trade K)) :
    Returns (bvcAccuracyStats m trades bucketVolume sigmaWindow)
      (summary ((BvcPass.new bucketer sigma).comparisons m trades)) := by
  obtain ⟨p', hfold, htally⟩ := (BvcPass.balanced_new sigma hbucketer).run m trades
  have hcorrect := htally.correct
  have hcompared := htally.compared
  have herrors := htally.absErrors
  simp only [BvcPass.new, Nat.zero_add, List.nil_append] at hcorrect hcompared herrors
  have hstats : p'.stats = summary ((BvcPass.new bucketer sigma).comparisons m trades) := by
    simp only [BvcPass.stats, summary, hcorrect, hcompared, herrors, List.isEmpty_map,
      List.length_map]
    rfl
  rw [← hstats]
  exact bvcAccuracyStats_returns hbucketer hsigma hfold

structure MirroredStats (vs : List (Comparison K)) (stats mirrored : BvcStats K) : Prop where
  compared : mirrored.compared = stats.compared
  meanAbsError : mirrored.meanAbsError = stats.meanAbsError
  accuracy_iff : mirrored.accuracy = stats.accuracy ↔ EvenHanded vs

variable [IsStrictOrderedRing K]

theorem summary_mirror (vs : List (Comparison K)) :
    MirroredStats vs (summary vs) (summary (vs.map Comparison.mirror)) := by
  have hcount := countP_mirror vs
  refine ⟨List.length_map _, ?_, ?_⟩
  · have herrors : (vs.map Comparison.mirror).map absError = vs.map absError := by
      rw [List.map_map]
      exact List.map_congr_left fun v _ ↦ v.absError_mirror
    simp only [summary, herrors, List.isEmpty_map, List.length_map]
  · cases vs with
    | nil => simp [summary, EvenHanded]
    | cons v vs =>
        have hpos : ((v :: vs).length : K) ≠ 0 := Nat.cast_ne_zero.mpr (Nat.succ_ne_zero _)
        simp only [summary, List.length_map, List.length_pos_iff, ne_eq, reduceCtorEq,
          not_false_eq_true, if_true, Option.some_inj, div_left_inj' hpos, Nat.cast_inj, EvenHanded]
        omega

/-- A tape and its mirror image have the same comparisons with the same errors, and the
same accuracy exactly when the ties are called evenly. -/
theorem bvcAccuracyStats_mirror (m : Libm K)
    (hm : ∀ x, m.standardNormalCdf (-x) = 1 - m.standardNormalCdf x) (trades : List (Trade K))
    (bucketVolume : K) (sigmaWindow : ℕ) (c : K) :
    (∃ e, (bvcAccuracyStats m trades bucketVolume sigmaWindow).run = .ok (.error e) ∧
      (bvcAccuracyStats m (trades.map (Trade.mirror c)) bucketVolume sigmaWindow).run =
        .ok (.error e)) ∨
    ∃ bucketer sigma stats mirrored, VolumeBucketer.new bucketVolume = .ok bucketer ∧
      RollingSigma.new sigmaWindow = .ok sigma ∧
      Returns (bvcAccuracyStats m trades bucketVolume sigmaWindow) stats ∧
      Returns (bvcAccuracyStats m (trades.map (Trade.mirror c)) bucketVolume sigmaWindow)
        mirrored ∧
      MirroredStats ((BvcPass.new bucketer sigma).comparisons m trades) stats mirrored := by
  cases hbucketer : VolumeBucketer.new bucketVolume with
  | error e =>
      refine .inl ⟨e, ?_, ?_⟩ <;> simp only [bvcAccuracyStats, hbucketer] <;> rfl
  | ok bucketer =>
      cases hsigma : RollingSigma.new (K := K) sigmaWindow with
      | error e =>
          refine .inl ⟨e, ?_, ?_⟩ <;> simp only [bvcAccuracyStats, hbucketer, hsigma] <;> rfl
      | ok sigma =>
          have hmirror := (mirrorOf_new (c := c) hbucketer hsigma).comparisons hm
            (BvcPass.balanced_new sigma hbucketer) trades
          have hmirrored := returns_summary hbucketer hsigma m (trades.map (Trade.mirror c))
          rw [hmirror] at hmirrored
          exact .inr ⟨bucketer, sigma, _, _, rfl, rfl, returns_summary hbucketer hsigma m trades,
            hmirrored, summary_mirror _⟩

theorem bvcAccuracyStats_mirror_flat :
    (∃ e, (bvcAccuracyStats ⟨Real.sqrt, Real.sigmoid⟩
        (sidedTape [(1, .buy), (2, .buy), (2, .buy)]) 1 2).run = .ok (.error e) ∧
      (bvcAccuracyStats ⟨Real.sqrt, Real.sigmoid⟩
        ((sidedTape [(1, .buy), (2, .buy), (2, .buy)]).map (Trade.mirror 5)) 1 2).run =
          .ok (.error e)) ∨
    ∃ bucketer sigma stats mirrored, VolumeBucketer.new (1 : ℝ) = .ok bucketer ∧
      RollingSigma.new 2 = .ok sigma ∧
      Returns (bvcAccuracyStats ⟨Real.sqrt, Real.sigmoid⟩
        (sidedTape [(1, .buy), (2, .buy), (2, .buy)]) 1 2) stats ∧
      Returns (bvcAccuracyStats ⟨Real.sqrt, Real.sigmoid⟩
        ((sidedTape [(1, .buy), (2, .buy), (2, .buy)]).map (Trade.mirror 5)) 1 2) mirrored ∧
      MirroredStats ((BvcPass.new bucketer sigma).comparisons ⟨Real.sqrt, Real.sigmoid⟩
        (sidedTape [(1, .buy), (2, .buy), (2, .buy)])) stats mirrored :=
  bvcAccuracyStats_mirror _ Real.sigmoid_neg _ _ _ _

/-- A rise, then no change, and buyers only. -/
theorem comparisons_flat : ∃ bucketer sigma, VolumeBucketer.new (1 : ℝ) = .ok bucketer ∧
    RollingSigma.new 2 = .ok sigma ∧
    (BvcPass.new bucketer sigma).comparisons ⟨Real.sqrt, Real.sigmoid⟩
      (sidedTape [(1, .buy), (2, .buy), (2, .buy)]) = [⟨0.5, 1⟩] := by
  refine ⟨_, _, dif_pos one_pos, dif_neg (by decide), ?_⟩
  have hsigma : (0 : ℝ) < ((2 - 1) / 2) ^ 2 + (2 - 1 - (2 - 1) / 2) ^ 2 := by norm_num
  simp [BvcPass.comparisons, BvcPass.new, BvcPass.comparison, BvcPass.pushTrade, BvcPass.addSide,
    BvcPass.compare, sidedTape, closing, VolumeBucketer.push, Closing.buyFrac, Bvc.classify,
    Bvc.buyFraction, RollingSigma.push, RollingSigma.estimate, SlidingWindow.push, hsigma]
  split <;> norm_num

/-- The same accuracy is not kept: the call on the unchanged price is a sell on either
tape, and the mirrored trades are sells. -/
theorem flat_favours_sellers : ∃ stats mirrored,
    Returns (bvcAccuracyStats ⟨Real.sqrt, Real.sigmoid⟩
      (sidedTape [(1, .buy), (2, .buy), (2, .buy)]) 1 2) stats ∧
    Returns (bvcAccuracyStats ⟨Real.sqrt, Real.sigmoid⟩
      ((sidedTape [(1, .buy), (2, .buy), (2, .buy)]).map (Trade.mirror 5)) 1 2) mirrored ∧
    stats.accuracy = some 0 ∧ mirrored.accuracy = some 1 := by
  obtain ⟨bucketer, sigma, hbucketer, hsigma, hcomparisons⟩ := comparisons_flat
  have hmirror := (mirrorOf_new (c := 5) hbucketer hsigma).comparisons
    (m := ⟨Real.sqrt, Real.sigmoid⟩) Real.sigmoid_neg (BvcPass.balanced_new sigma hbucketer)
    (sidedTape [(1, .buy), (2, .buy), (2, .buy)])
  refine ⟨_, _, returns_summary hbucketer hsigma _ _, returns_summary hbucketer hsigma _ _, ?_, ?_⟩
  · rw [hcomparisons]
    norm_num [summary, Agrees]
  · rw [hmirror, hcomparisons]
    norm_num [summary, Agrees, Comparison.mirror]

end Calibrate

end Geiger
