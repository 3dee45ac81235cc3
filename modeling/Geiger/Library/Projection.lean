import Geiger.Library.Runs

/-!
# The parts of a run

Each event of a system says something to one of its parts, read in the state in which
it is taken: a list of events of that part, most often none.  A part that follows what
it is told is in the state that it reaches alone.
-/

namespace Geiger.Runs

variable {σ ε τ δ : Type*}

/-- What the events of a run say, in order. -/
def told {β : Type*} (step : σ → ε → Option σ) (say : σ → ε → List β) : σ → List ε → List β
  | _, [] => []
  | s, e :: es => say s e ++ (step s e).elim [] fun s' ↦ told step say s' es

section Told

variable {β : Type*} {step : σ → ε → Option σ} {say : σ → ε → List β} {s t : σ} {es : List ε}

theorem told_append (es' : List ε) (hrun : run step s es = some t) :
    told step say s (es ++ es') = told step say s es ++ told step say t es' := by
  induction es generalizing s with
  | nil =>
      obtain rfl := Option.some.inj hrun
      rfl
  | cons e es ih =>
      obtain ⟨s', hs', hrun'⟩ := run_cons_eq_some.mp hrun
      simp only [List.cons_append, told, hs', Option.elim_some, ih hrun', List.append_assoc]

theorem told_concat (e : ε) (hrun : run step s es = some t) :
    told step say s (es ++ [e]) = told step say s es ++ say t e := by
  rw [told_append [e] hrun, told]
  cases step t e with
  | none => rw [Option.elim_none, List.append_nil]
  | some t' => rw [Option.elim_some, told, List.append_nil]

theorem told_eq_nil (h : ∀ s, ∀ e ∈ es, say s e = []) : told step say s es = [] := by
  induction es generalizing s with
  | nil => rfl
  | cons e es ih =>
      rw [told, h s e List.mem_cons_self, List.nil_append]
      cases step s e with
      | none => rfl
      | some s' => exact ih fun s e he ↦ h s e (List.mem_cons_of_mem _ he)

/-- Where something is said, an event says it. -/
theorem exists_of_mem_told {b : β} (h : b ∈ told step say s es) :
    ∃ es₁ e es₂ u, es = es₁ ++ e :: es₂ ∧ run step s es₁ = some u ∧ b ∈ say u e := by
  induction es generalizing s with
  | nil => cases h
  | cons e es ih =>
      rcases List.mem_append.mp h with hhere | hlater
      · exact ⟨[], e, es, s, rfl, rfl, hhere⟩
      · cases hs' : step s e with
        | none =>
            rw [hs'] at hlater
            cases hlater
        | some s' =>
            rw [hs'] at hlater
            obtain ⟨es₁, e', es₂, u, rfl, hrun, hsay⟩ := ih hlater
            exact ⟨e :: es₁, e', es₂, u, rfl, run_cons_eq_some.mpr ⟨s', hs', hrun⟩, hsay⟩

end Told

section Parts

variable {step : σ → ε → Option σ} {step' : τ → δ → Option τ} {say : σ → ε → List δ}
  {s t : σ} {es : List ε}

/-- A part that is there all along follows what it is told. -/
theorem run_told {part : σ → τ}
    (hstep : ∀ s e s', step s e = some s' → run step' (part s) (say s e) = some (part s'))
    (hrun : run step s es = some t) :
    run step' (part s) (told step say s es) = some (part t) := by
  induction es generalizing s with
  | nil =>
      obtain rfl := Option.some.inj hrun
      rfl
  | cons e es ih =>
      obtain ⟨s', hs', hrun'⟩ := run_cons_eq_some.mp hrun
      rw [told, hs', Option.elim_some, run_append, hstep s e s' hs']
      exact ih hrun'

variable {inv : σ → Prop} {part : σ → Option τ} {origin : τ → τ}

/-- A part that comes into being on the way is in the state that it reaches alone from
its origin, and nothing is said to it before. -/
theorem run_told_of_born (hinv : ∀ s e s', inv s → step s e = some s' → inv s')
    (hborn : ∀ s e s', inv s → part s = none → step s e = some s' →
      say s e = [] ∧ ∀ a ∈ part s', origin a = a)
    (hlive : ∀ s e s' a, inv s → part s = some a → step s e = some s' →
      ∃ a', part s' = some a' ∧ run step' a (say s e) = some a' ∧ origin a' = origin a)
    (hinit : inv s) (hnone : part s = none) (hrun : run step s es = some t) :
    (part t = none → told step say s es = []) ∧
      ∀ a, part t = some a → run step' (origin a) (told step say s es) = some a := by
  induction es using List.reverseRecOn generalizing t with
  | nil =>
      obtain rfl := Option.some.inj hrun
      exact ⟨fun _ ↦ rfl, fun a ha ↦ nomatch hnone.symm.trans ha⟩
  | append_singleton es e ih =>
      obtain ⟨u, hu, he⟩ := run_concat_eq_some.mp hrun
      obtain ⟨hbefore, hafter⟩ := ih hu
      have hinv' : inv u := invariant hinv hinit hu
      rw [told_concat e hu]
      cases hpart : part u with
      | none =>
          obtain ⟨hsay, horigin⟩ := hborn u e t hinv' hpart he
          rw [hbefore hpart, hsay]
          exact ⟨fun _ ↦ rfl, fun a ha ↦ by rw [horigin a ha]; rfl⟩
      | some a =>
          obtain ⟨a', ha', hsay, horigin⟩ := hlive u e t a hinv' hpart he
          constructor
          · intro hnone
            rw [ha'] at hnone
            cases hnone
          · intro b hb
            obtain rfl := Option.some.inj (ha'.symm.trans hb)
            rw [horigin, run_append, hafter a hpart]
            exact hsay

end Parts

section Hidden

variable {step : σ → ε → Option σ} {hidden : ε → Bool} {inv : σ → Prop} {same : σ → σ → Prop}
  {s t u : σ} {es : List ε}

/-- Where hidden steps change nothing that counts and the others do not depend on what
they change, a run goes through without its hidden steps. -/
theorem exists_run_of_hidden (hinv : ∀ s e s', inv s → step s e = some s' → inv s')
    (hskip : ∀ s e s' u, inv s → same s u → hidden e = true → step s e = some s' → same s' u)
    (hkeep : ∀ s e s' u, inv s → same s u → hidden e = false → step s e = some s' →
      ∃ u', step u e = some u' ∧ same s' u')
    (hinit : inv s) (hsame : same s u) (hrun : run step s es = some t) :
    ∃ v, run step u (es.filter fun e ↦ !hidden e) = some v ∧ same t v := by
  induction es generalizing s u with
  | nil =>
      obtain rfl := Option.some.inj hrun
      exact ⟨u, rfl, hsame⟩
  | cons e es ih =>
      obtain ⟨s', hs', hrun'⟩ := run_cons_eq_some.mp hrun
      have hinv' := hinv s e s' hinit hs'
      cases he : hidden e with
      | true =>
          rw [List.filter_cons_of_neg (by simp [he])]
          exact ih hinv' (hskip s e s' u hinit hsame he hs') hrun'
      | false =>
          obtain ⟨u', hu', hsame'⟩ := hkeep s e s' u hinit hsame he hs'
          obtain ⟨v, hv, htv⟩ := ih hinv' hsame' hrun'
          rw [List.filter_cons_of_pos (by simp [he])]
          exact ⟨v, run_cons_eq_some.mpr ⟨u', hu', hv⟩, htv⟩

end Hidden

end Geiger.Runs
