import Geiger.Library.SlidingWindow
import Geiger.Vpin.Bucket
import Geiger.Vpin.Bvc

/-!
# Rolling sigma and the empirical distribution

Both estimators keep a bounded buffer and answer `none` until it is full.
-/

namespace Geiger

variable {K : Type} [Field K]

/-- Sample standard deviation, with the `N - 1` denominator. -/
def sampleStd (m : Libm K) (xs : List K) : K :=
  let mean := xs.sum / (xs.length : K)
  m.sqrt ((xs.map fun x ↦ (x - mean) ^ 2).sum / ((xs.length - 1 : ℕ) : K))

structure RollingSigma (K : Type*) where
  window : ℕ
  two_le_window : 2 ≤ window
  buf : List K
  length_buf_le : buf.length ≤ window
  current : Option K

namespace RollingSigma

def new (window : ℕ) : Except (VpinError K) (RollingSigma K) :=
  if h : window < 2 then .error (.invalidWindow window 2)
  else .ok {
    window
    two_le_window := not_lt.mp h
    buf := []
    length_buf_le := Nat.zero_le _
    current := none }

omit [Field K] in
theorem new_eq_ok {window : ℕ} {s : RollingSigma K} (h : new window = .ok s) :
    2 ≤ window ∧ s.window = window ∧ s.buf = [] ∧ s.current = none := by
  unfold new at h
  split at h
  · cases h
  · cases h
    exact ⟨not_lt.mp ‹_›, rfl, rfl, rfl⟩

def estimate (m : Libm K) (window : ℕ) (buf : List K) : Option K :=
  if buf.length < window then none
  else
    let mean := buf.sum / (window : K)
    let var := (buf.map fun x ↦ (x - mean) ^ 2).sum / ((window - 1 : ℕ) : K)
    some (m.sqrt var)

def push (m : Libm K) (s : RollingSigma K) (deltaP : K) : RollingSigma K :=
  let buf := SlidingWindow.push s.window s.buf deltaP
  { s with
    buf
    length_buf_le :=
      SlidingWindow.length_push_le _ (Nat.le_of_succ_le s.two_le_window) s.length_buf_le
    current := estimate m s.window buf }

@[simp] theorem push_buf (m : Libm K) (s : RollingSigma K) (x : K) :
    (s.push m x).buf = SlidingWindow.push s.window s.buf x := rfl

theorem push_current (m : Libm K) (s : RollingSigma K) (x : K) :
    (s.push m x).current = estimate m s.window (s.push m x).buf := rfl

theorem estimate_of_length_eq (m : Libm K) {window : ℕ} {buf : List K}
    (h : buf.length = window) : estimate m window buf = some (sampleStd m buf) := by
  simp [estimate, sampleStd, h]

theorem estimate_of_lt (m : Libm K) {window : ℕ} {buf : List K} (h : buf.length < window) :
    estimate m window buf = none := if_pos h

end RollingSigma

structure EmpiricalCdf (K : Type*) where
  window : ℕ
  two_le_window : 2 ≤ window
  buf : List K
  length_buf_le : buf.length ≤ window

namespace EmpiricalCdf

variable [LinearOrder K]

def new (window : ℕ) : Except (VpinError K) (EmpiricalCdf K) :=
  if h : window < 2 then .error (.invalidWindow window 2)
  else .ok {
    window
    two_le_window := not_lt.mp h
    buf := []
    length_buf_le := Nat.zero_le _ }

omit [Field K] [LinearOrder K] in
theorem new_eq_ok {window : ℕ} {c : EmpiricalCdf K} (h : new window = .ok c) :
    c.window = window ∧ c.buf = [] := by
  unfold new at h
  split at h
  · cases h
  · cases h
    exact ⟨rfl, rfl⟩

def rank (window : ℕ) (buf : List K) (value : K) : Option K :=
  if buf.length < window then none
  else
    let leCount := (buf.filter fun v ↦ v ≤ value).length
    some ((leCount : K) / (window : K))

def push (c : EmpiricalCdf K) (value : K) : Option K × EmpiricalCdf K :=
  let buf := SlidingWindow.push c.window c.buf value
  (rank c.window buf value,
    { c with
      buf
      length_buf_le :=
        SlidingWindow.length_push_le _ (Nat.le_of_succ_le c.two_le_window) c.length_buf_le })

/-- The latest value is counted in its own rank, and at most the whole window is. -/
theorem rank_push_mem_Icc [IsStrictOrderedRing K] (c : EmpiricalCdf K) {value r : K}
    (h : (c.push value).1 = some r) : r ∈ Set.Icc (1 / (c.window : K)) 1 := by
  have hle : (SlidingWindow.push c.window c.buf value).length ≤ c.window :=
    (c.push value).2.length_buf_le
  have hwindow : (0 : K) < c.window := by
    exact_mod_cast Nat.lt_of_lt_of_le Nat.zero_lt_two c.two_le_window
  simp only [push, rank] at h
  split at h
  · cases h
  · obtain rfl := Option.some.inj h
    have hself : value ∈ (SlidingWindow.push c.window c.buf value).filter fun v ↦ v ≤ value := by
      simp [SlidingWindow.self_mem_push]
    have hone : 1 ≤ ((SlidingWindow.push c.window c.buf value).filter
        fun v ↦ v ≤ value).length := List.length_pos_of_mem hself
    have hall := (List.length_filter_le (fun v ↦ decide (v ≤ value))
      (SlidingWindow.push c.window c.buf value)).trans hle
    constructor
    · gcongr
      exact_mod_cast hone
    · rw [div_le_one hwindow]
      exact_mod_cast hall

end EmpiricalCdf

end Geiger
