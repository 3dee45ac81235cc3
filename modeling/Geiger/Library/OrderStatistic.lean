import Mathlib.Data.List.Sort

/-!
# Order statistics

The entry at a rank of the sorted list is settled by counting: it is at most `x` exactly
when more entries than the rank are.
-/

namespace Geiger.OrderStatistic

variable {α : Type} [LE α] [DecidableLE α]

def sorted (xs : List α) : List α := xs.mergeSort fun a b ↦ decide (a ≤ b)

theorem sorted_perm (xs : List α) : (sorted xs).Perm xs := List.mergeSort_perm xs _

def orderStatistic (xs : List α) (k : ℕ) (hk : k < xs.length) : α :=
  (sorted xs).get ⟨k, by rwa [(sorted_perm xs).length_eq]⟩

theorem orderStatistic_mem {xs : List α} {k : ℕ} (hk : k < xs.length) :
    orderStatistic xs k hk ∈ xs :=
  (sorted_perm xs).mem_iff.mp (List.get_mem _ _)

variable [Std.IsLinearOrder α]

theorem pairwise_sorted (xs : List α) : (sorted xs).Pairwise (· ≤ ·) := by
  have hpairwise : (sorted xs).Pairwise fun a b ↦ decide (a ≤ b) = true := by
    apply List.pairwise_mergeSort
    · intro a b c hab hbc
      exact decide_eq_true (Std.le_trans (of_decide_eq_true hab) (of_decide_eq_true hbc))
    · intro a b
      simpa using Std.le_total (a := a) (b := b)
  exact hpairwise.imp of_decide_eq_true

theorem getElem_le_iff {xs : List α} (hsorted : xs.Pairwise (· ≤ ·)) {k : ℕ}
    (hk : k < xs.length) (x : α) : xs[k] ≤ x ↔ k < xs.countP (· ≤ x) := by
  induction xs generalizing k with
  | nil => cases hk
  | cons a xs ih =>
      obtain ⟨ha, hsorted⟩ := List.pairwise_cons.mp hsorted
      rw [List.countP_cons]
      by_cases hax : a ≤ x
      · cases k with
        | zero => simp [hax]
        | succ k => simpa [hax] using ih hsorted (Nat.lt_of_succ_lt_succ hk)
      · -- beyond `a` nothing is at most `x` either
        have hnone : ∀ b ∈ xs, ¬ b ≤ x := fun b hb hbx ↦ hax (Std.le_trans (ha b hb) hbx)
        have hcount : xs.countP (· ≤ x) = 0 := by
          rw [List.countP_eq_zero]
          simpa using hnone
        have hk' : ¬ (a :: xs)[k] ≤ x := by
          cases k with
          | zero => exact hax
          | succ k => exact hnone _ (List.getElem_mem _)
        simp [hax, hcount, hk']

theorem orderStatistic_le_iff {xs : List α} {k : ℕ} (hk : k < xs.length) (x : α) :
    orderStatistic xs k hk ≤ x ↔ k < xs.countP (· ≤ x) := by
  rw [orderStatistic, List.get_eq_getElem, getElem_le_iff (pairwise_sorted xs),
    (sorted_perm xs).countP_eq]

theorem orderStatistic_zero_le {xs : List α} (hpos : 0 < xs.length) :
    ∀ x ∈ xs, orderStatistic xs 0 hpos ≤ x := by
  intro x hx
  rw [orderStatistic_le_iff, List.countP_pos_iff]
  exact ⟨x, hx, decide_eq_true (Std.le_refl x)⟩

/-- Something lies below the entry at rank `k` exactly when at most `k` entries are
minimal. -/
theorem exists_lt_orderStatistic_iff [DecidableEq α] {xs : List α} {k : ℕ}
    (hk : k < xs.length) :
    (∃ x ∈ xs, ¬ orderStatistic xs k hk ≤ x) ↔
      ∀ m ∈ xs, (∀ x ∈ xs, m ≤ x) → xs.count m ≤ k := by
  have hcount {m : α} (hmin : ∀ x ∈ xs, m ≤ x) : xs.countP (· ≤ m) = xs.count m := by
    rw [List.count]
    apply List.countP_congr
    intro x hx
    simpa using ⟨fun hle ↦ Std.le_antisymm hle (hmin x hx), fun heq ↦ heq ▸ Std.le_refl x⟩
  constructor
  · rintro ⟨x, hx, hlt⟩ m hm hmin
    by_contra hmany
    have hle := (orderStatistic_le_iff hk m).mpr (hcount hmin ▸ not_le.mp hmany)
    exact hlt (Std.le_trans hle (hmin x hx))
  · intro hall
    have hpos : 0 < xs.length := Nat.zero_lt_of_lt hk
    have hmin := orderStatistic_zero_le hpos
    refine ⟨_, orderStatistic_mem hpos, ?_⟩
    rw [orderStatistic_le_iff, hcount hmin, not_lt]
    exact hall _ (orderStatistic_mem hpos) hmin

end Geiger.OrderStatistic
