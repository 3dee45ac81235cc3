import Mathlib.Data.List.Basic

/-!
# Cutting a list into chunks of one size

Only the last chunk may be shorter than the others, and none is empty.
-/

namespace Geiger.Chunks

variable {α : Type*} (size : ℕ)

def chunk (xs : List α) (i : ℕ) : List α := (xs.drop (size * i)).take size

def chunkCount (xs : List α) : ℕ := (xs.length + (size - 1)) / size

def chunks (xs : List α) : List (List α) := (List.range (chunkCount size xs)).map (chunk size xs)

variable {size} (hsize : 0 < size)

include hsize

@[simp] theorem chunks_nil : chunks size ([] : List α) = [] := by
  have hcount : chunkCount size ([] : List α) = 0 := by
    rw [chunkCount, List.length_nil, Nat.div_eq_of_lt]
    omega
  rw [chunks, hcount]
  rfl

theorem chunkCount_le_length (xs : List α) : chunkCount size xs ≤ xs.length := by
  have hmul := Nat.le_mul_of_pos_right xs.length hsize
  rw [chunkCount, ← Nat.lt_succ_iff, Nat.div_lt_iff_lt_mul hsize, Nat.succ_mul]
  omega

theorem chunkCount_of_ne_nil {xs : List α} (h : xs ≠ []) :
    chunkCount size xs = chunkCount size (xs.drop size) + 1 := by
  have hlen : 0 < xs.length := List.length_pos_iff.mpr h
  simp only [chunkCount, List.length_drop]
  rcases Nat.lt_or_ge xs.length size with hlt | hge
  · have hzero : xs.length - size + (size - 1) < size := by omega
    rw [Nat.div_eq_of_lt hzero]
    exact Nat.div_eq_of_lt_le (by omega) (by omega)
  · have hsub : xs.length + (size - 1) = xs.length - size + (size - 1) + size := by omega
    rw [hsub, Nat.add_div_right _ hsize]

theorem chunks_of_ne_nil {xs : List α} (h : xs ≠ []) :
    chunks size xs = xs.take size :: chunks size (xs.drop size) := by
  rw [chunks, chunkCount_of_ne_nil hsize h, List.range_succ_eq_map, List.map_cons, List.map_map]
  congr 1
  apply List.map_congr_left
  intro i _
  simp only [Function.comp_apply, chunk, List.drop_drop, Nat.mul_succ, Nat.add_comm]

theorem chunks_append {xs ys : List α} (h : xs.length = size) :
    chunks size (xs ++ ys) = xs :: chunks size ys := by
  have hne : xs ++ ys ≠ [] := by
    apply List.ne_nil_of_length_pos
    rw [List.length_append]
    omega
  rw [chunks_of_ne_nil hsize hne, List.take_left' h, List.drop_left' h]

end Geiger.Chunks
