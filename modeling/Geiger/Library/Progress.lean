import Geiger.Library.Runs

/-!
# Reaching a goal

When every state short of the goal has a step that leaves less to do, the goal can be
reached from everywhere.
-/

namespace Geiger.Runs

variable {σ ε : Type*} {step : σ → ε → Option σ}

theorem Along.imp {guard guard' : σ → ε → Prop} (h : ∀ s e, guard s e → guard' s e) {s : σ}
    {es : List ε} (hguard : Along step guard s es) : Along step guard' s es := by
  induction es generalizing s with
  | nil => trivial
  | cons e es ih => exact ⟨h s e hguard.1, fun s' hs' ↦ ih (hguard.2 s' hs')⟩

/-- `left k s` says that at most `k` is left to do in `s`. -/
theorem exists_run_of_decreasing {left : ℕ → σ → Prop} {goal : σ → Prop} {allowed : ε → Prop}
    (h : ∀ k s, left k s → goal s ∨
      ∃ e s' k', allowed e ∧ step s e = some s' ∧ k' < k ∧ left k' s')
    {k : ℕ} {s : σ} (hs : left k s) :
    ∃ es t, (∀ e ∈ es, allowed e) ∧ run step s es = some t ∧ goal t ∧ ∃ k', left k' t := by
  induction k using Nat.strongRecOn generalizing s with
  | ind k ih =>
      rcases h k s hs with hgoal | ⟨e, s', k', hallowed, hstep, hlt, hs'⟩
      · exact ⟨[], s, List.forall_mem_nil _, rfl, hgoal, k, hs⟩
      · obtain ⟨es, t, hes, hrun, hgoal, hleft⟩ := ih k' hlt hs'
        refine ⟨e :: es, t, ?_, run_cons_eq_some.mpr ⟨s', hstep, hrun⟩, hgoal, hleft⟩
        exact List.forall_mem_cons.mpr ⟨hallowed, hes⟩

end Geiger.Runs
