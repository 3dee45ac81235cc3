import Mathlib.Data.List.DropRight

/-!
# Sliding windows of fixed capacity

A buffer that evicts its oldest entry only when it is full holds, after any
sequence of pushes, the last entries of that sequence.
-/

namespace Geiger.SlidingWindow

variable {α : Type*}

def push (capacity : ℕ) (buf : List α) (x : α) : List α :=
  (if buf.length = capacity then buf.tail else buf) ++ [x]

theorem mem_push {capacity : ℕ} {buf : List α} {x y : α} (h : y ∈ push capacity buf x) :
    y ∈ buf ∨ y = x := by
  unfold push at h
  rcases List.mem_append.mp h with hbuf | hx
  · split at hbuf
    · exact Or.inl (List.mem_of_mem_tail hbuf)
    · exact Or.inl hbuf
  · exact Or.inr (List.mem_singleton.mp hx)

theorem self_mem_push (capacity : ℕ) (buf : List α) (x : α) : x ∈ push capacity buf x := by
  simp [push]

theorem length_push {capacity : ℕ} {buf : List α} (x : α) (hpos : 1 ≤ capacity)
    (hle : buf.length ≤ capacity) :
    (push capacity buf x).length = min (buf.length + 1) capacity := by
  unfold push
  split
  · simp only [List.length_append, List.length_tail, List.length_singleton]
    omega
  · simp only [List.length_append, List.length_singleton]
    omega

theorem length_push_le {capacity : ℕ} {buf : List α} (x : α) (hpos : 1 ≤ capacity)
    (hle : buf.length ≤ capacity) : (push capacity buf x).length ≤ capacity := by
  rw [length_push x hpos hle]
  exact Nat.min_le_right _ _

@[simp] theorem length_rtake (xs : List α) (n : ℕ) :
    (xs.rtake n).length = min n xs.length := by
  simp only [List.rtake, List.length_drop]
  omega

theorem push_map {β : Type*} (f : α → β) (capacity : ℕ) (buf : List α) (x : α) :
    push capacity (buf.map f) (f x) = (push capacity buf x).map f := by
  simp only [push, List.length_map, List.map_append, List.map_singleton]
  split
  · rw [List.map_tail]
  · rfl

theorem map_rtake {β : Type*} (f : α → β) (xs : List α) (n : ℕ) :
    (xs.map f).rtake n = (xs.rtake n).map f := by
  simp [List.rtake]

/-- Pushing onto the last entries of a sequence gives the last entries of the
longer sequence. -/
theorem push_rtake {capacity : ℕ} (hpos : 1 ≤ capacity) (xs : List α) (x : α) :
    push capacity (xs.rtake capacity) x = (xs ++ [x]).rtake capacity := by
  obtain ⟨n, rfl⟩ : ∃ n, capacity = n + 1 := ⟨capacity - 1, by omega⟩
  rw [List.rtake_concat_succ, push]
  congr 1
  by_cases hfull : (xs.rtake (n + 1)).length = n + 1
  · rw [if_pos hfull]
    rw [length_rtake] at hfull
    rw [List.rtake, List.rtake, List.tail_drop]
    congr 1
    omega
  · rw [if_neg hfull]
    rw [length_rtake] at hfull
    rw [List.rtake, List.rtake]
    congr 1
    omega

theorem mem_of_mem_rtake {xs : List α} {n : ℕ} {x : α} (h : x ∈ xs.rtake n) : x ∈ xs :=
  List.mem_of_mem_drop h

end Geiger.SlidingWindow
