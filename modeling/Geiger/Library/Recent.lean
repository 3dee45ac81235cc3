import Geiger.Library.SlidingWindow
import Mathlib.Data.List.Range

/-!
# The last entries of a partial sequence

Two partial sequences that agree from some index on have the same last entries, as soon
as there are enough of them after that index.
-/

namespace Geiger.Recent

variable {α : Type*}

/-- The entries before index `k`. -/
def present (f : ℕ → Option α) (k : ℕ) : List α := (List.range k).filterMap f

theorem present_succ (f : ℕ → Option α) (k : ℕ) :
    present f (k + 1) = present f k ++ (f k).toList := by
  cases hk : f k <;> simp [present, List.range_succ, hk]

theorem present_add (f : ℕ → Option α) (k l : ℕ) :
    present f (k + l) = present f k ++ present (fun i ↦ f (k + i)) l := by
  rw [present, List.range_add, List.filterMap_append, List.filterMap_map]
  rfl

theorem length_present_mono (f : ℕ → Option α) {k l : ℕ} (h : k ≤ l) :
    (present f k).length ≤ (present f l).length := by
  obtain ⟨d, rfl⟩ := Nat.exists_eq_add_of_le h
  rw [present_add, List.length_append]
  exact Nat.le_add_right _ _

theorem present_eq_nil {f : ℕ → Option α} {k : ℕ} (h : ∀ i, i < k → f i = none) :
    present f k = [] :=
  List.filterMap_eq_nil_iff.mpr fun i hi ↦ h i (List.mem_range.mp hi)

theorem present_congr {f g : ℕ → Option α} {k : ℕ} (h : ∀ i, i < k → f i = g i) :
    present f k = present g k :=
  List.filterMap_congr fun i hi ↦ h i (List.mem_range.mp hi)

theorem rtake_append_of_le {xs ys : List α} {w : ℕ} (h : w ≤ ys.length) :
    (xs ++ ys).rtake w = ys.rtake w := by
  have hsplit : (xs ++ ys).length - w = xs.length + (ys.length - w) := by
    rw [List.length_append]
    omega
  rw [List.rtake, List.rtake, hsplit, List.drop_append,
    List.drop_eq_nil_of_le (Nat.le_add_right _ _), List.nil_append, Nat.add_sub_cancel_left]

/-- At most the entry at `j` differs, and with more than `w` entries it is not among the
last `w`. -/
theorem rtake_present {f g : ℕ → Option α} {n j k w : ℕ}
    (hagree : ∀ i, j < i → i < k → f (n + i) = g i) (hnone : ∀ i, i < j → g i = none)
    (hw : w < (present g k).length) : (present f (n + k)).rtake w = (present g k).rtake w := by
  have hfirst : (present g (j + 1)).length ≤ 1 := by
    rw [present_succ, present_eq_nil hnone, List.nil_append]
    exact Option.length_toList_le
  by_cases hk : k ≤ j + 1
  · have hle := length_present_mono g hk
    obtain rfl : w = 0 := by omega
    simp [List.rtake]
  · obtain ⟨l, rfl⟩ := Nat.exists_eq_add_of_le (Nat.le_of_not_le hk)
    have hlater : present (fun i ↦ f (n + (j + 1) + i)) l = present (fun i ↦ g (j + 1 + i)) l := by
      refine present_congr fun i hi ↦ ?_
      rw [Nat.add_assoc n]
      exact hagree (j + 1 + i) (by omega) (by omega)
    have hcount : w ≤ (present (fun i ↦ g (j + 1 + i)) l).length := by
      rw [present_add, List.length_append] at hw
      omega
    rw [← Nat.add_assoc n, present_add f, present_add g, hlater, rtake_append_of_le hcount,
      rtake_append_of_le hcount]

end Geiger.Recent
