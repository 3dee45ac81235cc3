import Mathlib.Data.List.Induction
import Mathlib.Data.Option.Basic

/-!
# Runs of a partial step function

A step function answers `none` when the event is not enabled.  `Along` says
that every step of a run is taken in a state where a guard holds, and `emitted`
collects what the steps put out.
-/

namespace Geiger.Runs

section Runs

variable {σ ε : Type*} (step : σ → ε → Option σ)

def run : σ → List ε → Option σ
  | s, [] => some s
  | s, e :: es => (step s e).bind fun s' ↦ run s' es

def Along (guard : σ → ε → Prop) : σ → List ε → Prop
  | _, [] => True
  | s, e :: es => guard s e ∧ ∀ s' ∈ step s e, Along guard s' es

/-- What the steps of a run put out, in order. -/
def emitted {β : Type*} (out : σ → σ → List β) : σ → List ε → List β
  | _, [] => []
  | s, e :: es => (step s e).elim [] fun s' ↦ out s s' ++ emitted out s' es

variable {step} {guard : σ → ε → Prop} {s t : σ} {e : ε} {es : List ε}

theorem run_cons_eq_some :
    run step s (e :: es) = some t ↔ ∃ s', step s e = some s' ∧ run step s' es = some t :=
  Option.bind_eq_some_iff

theorem run_append (es es' : List ε) :
    run step s (es ++ es') = (run step s es).bind fun t ↦ run step t es' := by
  induction es generalizing s with
  | nil => rfl
  | cons e es ih =>
      simp only [List.cons_append, run]
      cases step s e with
      | none => rfl
      | some s' => exact ih

theorem along_append {es es' : List ε} :
    Along step guard s (es ++ es') ↔
      Along step guard s es ∧ ∀ t ∈ run step s es, Along step guard t es' := by
  induction es generalizing s with
  | nil => simp [run, Along]
  | cons e es ih =>
      simp only [List.cons_append, run, Along]
      cases step s e with
      | none => simp
      | some s' => simp [ih, and_assoc]

theorem along_of_mem (h : ∀ e ∈ es, ∀ s, guard s e) (s : σ) : Along step guard s es := by
  induction es generalizing s with
  | nil => trivial
  | cons e es ih =>
      obtain ⟨he, hes⟩ := List.forall_mem_cons.mp h
      exact ⟨he s, fun s' _ ↦ ih hes s'⟩

theorem along_congr {guard' : σ → ε → Prop} (h : ∀ e ∈ es, ∀ s, guard s e ↔ guard' s e) (s : σ) :
    Along step guard s es ↔ Along step guard' s es := by
  induction es generalizing s with
  | nil => rfl
  | cons e es ih =>
      obtain ⟨he, hes⟩ := List.forall_mem_cons.mp h
      rw [Along, Along, he s]
      exact and_congr_right' (forall₂_congr fun s' _ ↦ ih hes s')

theorem along_of_forall (h : ∀ s e, guard s e) (s : σ) (es : List ε) :
    Along step guard s es :=
  along_of_mem (fun e _ s ↦ h s e) s

instance decidableAlong [∀ s e, Decidable (guard s e)] :
    (s : σ) → (es : List ε) → Decidable (Along step guard s es)
  | _, [] => .isTrue trivial
  | s, e :: es =>
    match h : step s e with
    | none => decidable_of_iff (guard s e) (by simp [Along, h])
    | some s' =>
      have := decidableAlong s' es
      decidable_of_iff (guard s e ∧ Along step guard s' es) (by simp [Along, h])

/-- The invariant rule for runs whose steps all satisfy the guard. -/
theorem invariant_along {inv : σ → Prop}
    (hstep : ∀ s e s', inv s → guard s e → step s e = some s' → inv s') (hinit : inv s)
    (hguard : Along step guard s es) (hrun : run step s es = some t) : inv t := by
  induction es generalizing s with
  | nil =>
      obtain rfl := Option.some.inj hrun
      exact hinit
  | cons e es ih =>
      obtain ⟨s', hs', hrun'⟩ := run_cons_eq_some.mp hrun
      exact ih (hstep s e s' hinit hguard.1 hs') (hguard.2 s' hs') hrun'

theorem invariant {inv : σ → Prop} (hstep : ∀ s e s', inv s → step s e = some s' → inv s')
    (hinit : inv s) (hrun : run step s es = some t) : inv t :=
  have hguard : Along step (fun _ _ ↦ True) s es := along_of_forall (fun _ _ ↦ trivial) s es
  invariant_along (fun s e s' h _ ↦ hstep s e s' h) hinit hguard hrun

theorem run_append_eq_some {es' : List ε} :
    run step s (es ++ es') = some t ↔
      ∃ u, run step s es = some u ∧ run step u es' = some t := by
  rw [run_append]
  exact Option.bind_eq_some_iff

theorem run_concat_eq_some :
    run step s (es ++ [e]) = some t ↔ ∃ u, run step s es = some u ∧ step u e = some t := by
  simp [run_append_eq_some, run]

/-- The invariant rule for facts about a state and the events that led to it. -/
theorem invariant_trace {inv : List ε → σ → Prop}
    (hstep : ∀ es t e t', run step s es = some t → inv es t → step t e = some t' →
      inv (es ++ [e]) t')
    (hinit : inv [] s) (hrun : run step s es = some t) : inv es t := by
  induction es using List.reverseRecOn generalizing t with
  | nil =>
      obtain rfl := Option.some.inj hrun
      exact hinit
  | append_singleton es e ih =>
      obtain ⟨u, hu, he⟩ := run_concat_eq_some.mp hrun
      exact hstep es u e t hu (ih hu) he

/-- Where a step keeps a property exactly when its guard holds, a run ends with the
property exactly when all its steps are guarded. -/
theorem iff_along {inv good : σ → Prop}
    (hstep : ∀ s e s', inv s → step s e = some s' → inv s' ∧ (good s' ↔ good s ∧ guard s e))
    (hinit : inv s) (hrun : run step s es = some t) :
    inv t ∧ (good t ↔ good s ∧ Along step guard s es) := by
  induction es generalizing s with
  | nil =>
      obtain rfl := Option.some.inj hrun
      exact ⟨hinit, by simp [Along]⟩
  | cons e es ih =>
      obtain ⟨s', hs', hrun'⟩ := run_cons_eq_some.mp hrun
      obtain ⟨hinv, hgood⟩ := hstep s e s' hinit hs'
      obtain ⟨ht, hgoodt⟩ := ih hinv hrun'
      refine ⟨ht, ?_⟩
      rw [hgoodt, hgood]
      simp [Along, hs', and_assoc]

end Runs

section Simulation

variable {σ ε τ δ : Type*} {step : σ → ε → Option σ} {step' : τ → δ → Option τ}
  {guard : σ → ε → Prop} {guard' : τ → δ → Prop} {rel : σ → τ → Prop}

/-- Step-by-step simulation lifts to whole runs, guards included, with the abstract
steps that match each concrete one. -/
theorem exists_run_of_matching {matched : ε → List δ → Prop}
    (hstep : ∀ s e s' a, rel s a → guard s e → step s e = some s' →
      ∃ ds a', matched e ds ∧ run step' a ds = some a' ∧ Along step' guard' a ds ∧ rel s' a')
    {s t : σ} {a : τ} {es : List ε} (hrel : rel s a) (hguard : Along step guard s es)
    (hrun : run step s es = some t) :
    ∃ dss b, List.Forall₂ matched es dss ∧ run step' a dss.flatten = some b ∧
      Along step' guard' a dss.flatten ∧ rel t b := by
  induction es generalizing s a with
  | nil =>
      obtain rfl := Option.some.inj hrun
      exact ⟨[], a, .nil, rfl, trivial, hrel⟩
  | cons e es ih =>
      obtain ⟨s', hs', hrun'⟩ := run_cons_eq_some.mp hrun
      obtain ⟨ds, a', hmatched, hds, hguards, hrel'⟩ := hstep s e s' a hrel hguard.1 hs'
      obtain ⟨dss, b, hmatches, hdss, hguards', hb⟩ := ih hrel' (hguard.2 s' hs') hrun'
      refine ⟨ds :: dss, b, .cons hmatched hmatches, ?_, along_append.mpr ⟨hguards, ?_⟩, hb⟩
      · rw [List.flatten_cons, run_append, hds]
        exact hdss
      · intro t ht
        obtain rfl := Option.some.inj (hds.symm.trans ht)
        exact hguards'

/-- A concrete step may be matched by any number of abstract ones, or by none. -/
theorem exists_run_of_simulation
    (hstep : ∀ s e s' a, rel s a → guard s e → step s e = some s' →
      ∃ ds a', run step' a ds = some a' ∧ Along step' guard' a ds ∧ rel s' a')
    {s t : σ} {a : τ} {es : List ε} (hrel : rel s a) (hguard : Along step guard s es)
    (hrun : run step s es = some t) :
    ∃ ds b, run step' a ds = some b ∧ Along step' guard' a ds ∧ rel t b := by
  have hmatching (s : σ) (e : ε) (s' : σ) (a : τ) (hrel : rel s a) (hguard : guard s e)
      (hs' : step s e = some s') : ∃ ds a', True ∧ run step' a ds = some a' ∧
        Along step' guard' a ds ∧ rel s' a' := by
    obtain ⟨ds, a', h⟩ := hstep s e s' a hrel hguard hs'
    exact ⟨ds, a', trivial, h⟩
  obtain ⟨dss, b, -, h⟩ :=
    exists_run_of_matching hmatching hrel hguard hrun
  exact ⟨_, b, h⟩

end Simulation

end Geiger.Runs
