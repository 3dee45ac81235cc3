import Geiger.Ingest.Backoff
import Geiger.Library.Numbering
import Mathlib.Data.List.Chain
import Mathlib.Tactic.NormNum

/-!
# How the delays grow

The multiplier is clamped at `2 ^ 20`.  Doubling reaches the cap exactly when the cap
is at most that multiple of the base.
-/

namespace Geiger.ExponentialBackoff

inductive Call where
  | nextDelay
  | reset
deriving DecidableEq

/-- What a call of `next_delay` returns, and whether it overflows the counter: a panic
in a debug build, a wrap to zero in a release build. -/
structure Answer where
  delay : ℕ
  overflows : Bool
deriving DecidableEq

def answer (b : ExponentialBackoff) : Answer := ⟨b.nextDelay.1, b.attempt = 4294967295⟩

def answers (b : ExponentialBackoff) : List Call → List Answer
  | [] => []
  | .nextDelay :: calls => b.answer :: answers b.nextDelay.2 calls
  | .reset :: calls => answers b.reset calls

/-- For each call of `next_delay`, how many came before it since the last reset, when
there were `n` before these calls. -/
def indices (n : ℕ) : List Call → List ℕ
  | [] => []
  | .nextDelay :: calls => n :: indices (n + 1) calls
  | .reset :: calls => indices 0 calls

def doubled (cfg : BackoffConfig) (n : ℕ) : ℕ :=
  min (Duration.saturatingMul cfg.base (2 ^ n)) cfg.max

structure Behaves (cfg : BackoffConfig) (calls : List Call) : Prop where
  doubled : List.Forall₂ (fun n a ↦ a.delay = doubled cfg n ∧ a.overflows = false)
    (indices 0 calls) (answers cfg.build calls)
  capped : ∀ a ∈ answers cfg.build calls, a.delay ≤ cfg.max
  nondecreasing : ((indices 0 calls).zip (answers cfg.build calls)).IsChain
    fun p q ↦ q.1 ≠ 0 → p.2.delay ≤ q.2.delay

/-- The counter never overflows, and the clamp is not passed before the cap is reached. -/
def Gentle (cfg : BackoffConfig) (calls : List Call) : Prop :=
  ∀ n ∈ indices 0 calls, n + 1 < 2 ^ 32 ∧ (n ≤ 20 ∨ cfg.max ≤ cfg.base * 2 ^ 20)

def Reaches (cfg : BackoffConfig) : Prop :=
  ∃ calls, ∃ a ∈ answers cfg.build calls, a.delay = cfg.max

/-! ## One call -/

variable {cfg : BackoffConfig}

/-- The delay when `n` calls have been counted. -/
def clamped (cfg : BackoffConfig) (n : ℕ) : ℕ :=
  min (Duration.saturatingMul cfg.base (2 ^ min n 20)) cfg.max

/-- The counter holds what `n` calls leave in 32 bits. -/
structure Counts (cfg : BackoffConfig) (n : ℕ) (b : ExponentialBackoff) : Prop where
  attempt : b.attempt.toNat = n % 2 ^ 32
  base : b.base = cfg.base
  max : b.max = cfg.max

theorem Counts.answer {n : ℕ} {b : ExponentialBackoff} (h : Counts cfg n b) :
    b.answer.delay = clamped cfg (n % 2 ^ 32) ∧
      (b.answer.overflows = false ↔ n % 2 ^ 32 ≠ 2 ^ 32 - 1) := by
  have hmult : b.mult = 2 ^ min b.attempt.toNat 20 := by
    have hle : 2 ^ min b.attempt.toNat 20 ≤ 2 ^ 20 :=
      Nat.pow_le_pow_right (by norm_num) (Nat.min_le_right _ _)
    exact Nat.min_eq_left (hle.trans (by norm_num))
  constructor
  · simp only [ExponentialBackoff.answer, nextDelay, hmult, clamped, h.attempt, h.base, h.max]
  · have hlast : (4294967295 : UInt32).toNat = 2 ^ 32 - 1 := rfl
    simp [ExponentialBackoff.answer, ← UInt32.toNat_inj, h.attempt]

theorem Counts.nextDelay {n : ℕ} {b : ExponentialBackoff} (h : Counts cfg n b) :
    Counts cfg (n + 1) b.nextDelay.2 := by
  refine ⟨?_, h.base, h.max⟩
  simp only [ExponentialBackoff.nextDelay, UInt32.toNat_add, h.attempt]
  simp

theorem Counts.reset {n : ℕ} {b : ExponentialBackoff} (h : Counts cfg n b) :
    Counts cfg 0 b.reset := ⟨rfl, h.base, h.max⟩

/-- All answers of a sequence of calls, each determined by its index. -/
theorem Counts.answers {n : ℕ} {b : ExponentialBackoff} (h : Counts cfg n b) (calls : List Call) :
    List.Forall₂ (fun k a ↦ a.delay = clamped cfg (k % 2 ^ 32) ∧
      (a.overflows = false ↔ k % 2 ^ 32 ≠ 2 ^ 32 - 1)) (indices n calls)
      (b.answers calls) := by
  induction calls generalizing n b with
  | nil => exact .nil
  | cons call calls ih =>
      cases call with
      | nextDelay => exact .cons h.answer (ih h.nextDelay)
      | reset => exact ih h.reset

theorem counts_build (cfg : BackoffConfig) : Counts cfg 0 cfg.build := ⟨rfl, rfl, rfl⟩

/-! ## Where the clamp shows -/

theorem clamped_eq_doubled_iff (hbase : 0 < cfg.base) (hmax : cfg.max ≤ Duration.maxNs) (n : ℕ) :
    clamped cfg n = doubled cfg n ↔ n ≤ 20 ∨ cfg.max ≤ cfg.base * 2 ^ 20 := by
  unfold clamped doubled Duration.saturatingMul
  rcases Nat.lt_or_ge 20 n with hn | hn
  · have hlt : cfg.base * 2 ^ 20 < cfg.base * 2 ^ n :=
      Nat.mul_lt_mul_of_pos_left (Nat.pow_lt_pow_right (by norm_num) hn) hbase
    rw [Nat.min_eq_right hn.le]
    omega
  · simp [hn]

theorem doubled_mono {i j : ℕ} (h : i ≤ j) : doubled cfg i ≤ doubled cfg j := by
  have hpow : cfg.base * 2 ^ i ≤ cfg.base * 2 ^ j :=
    Nat.mul_le_mul_left _ (Nat.pow_le_pow_right (by norm_num) h)
  unfold doubled Duration.saturatingMul
  omega

theorem clamped_le_max (n : ℕ) : clamped cfg n ≤ cfg.max := Nat.min_le_right _ _

/-- Below an index that occurs, every index occurs. -/
theorem mem_indices_of_le {n k m : ℕ} {calls : List Call} (hk : k ∈ indices n calls)
    (hm : m ≤ k) : m < n ∨ m ∈ indices n calls := by
  induction calls generalizing n with
  | nil => cases hk
  | cons call calls ih =>
      cases call with
      | nextDelay =>
          rcases List.mem_cons.mp hk with rfl | hk
          · rcases Nat.lt_or_eq_of_le hm with hlt | rfl
            · exact .inl hlt
            · exact .inr List.mem_cons_self
          · rcases ih hk with hlt | hmem
            · rcases Nat.lt_succ_iff_lt_or_eq.mp hlt with hlt | rfl
              · exact .inl hlt
              · exact .inr List.mem_cons_self
            · exact .inr (List.mem_cons_of_mem _ hmem)
      | reset => exact .inr ((ih hk).resolve_left (Nat.not_lt_zero m))

theorem head?_indices {n j : ℕ} {calls : List Call} (h : j ∈ (indices n calls).head?) :
    j = 0 ∨ j = n := by
  induction calls generalizing n with
  | nil => cases h
  | cons call calls ih =>
      cases call with
      | nextDelay => exact .inr (Option.some.inj h).symm
      | reset => exact .inl (or_self_iff.mp (ih h))

theorem isChain_indices (n : ℕ) (calls : List Call) :
    (indices n calls).IsChain fun i j ↦ j = 0 ∨ j = i + 1 := by
  induction calls generalizing n with
  | nil => exact .nil
  | cons call calls ih =>
      cases call with
      | nextDelay => exact (ih (n + 1)).cons fun j hj ↦ head?_indices hj
      | reset => exact ih 0

section Answers

variable {calls : List Call}

/-- The answers are right exactly where the clamp does not show and nothing overflows. -/
theorem doubled_iff (hbase : 0 < cfg.base) (hmax : cfg.max ≤ Duration.maxNs) :
    List.Forall₂ (fun n a ↦ a.delay = doubled cfg n ∧ a.overflows = false) (indices 0 calls)
      (cfg.build.answers calls) ↔ Gentle cfg calls := by
  have hanswers := (counts_build cfg).answers calls
  have hright := Numbering.forall₂_iff_left hanswers (fun n a hna ↦ by
    have : a.delay = doubled cfg n ∧ a.overflows = false ↔
        clamped cfg (n % 2 ^ 32) = doubled cfg n ∧ n % 2 ^ 32 ≠ 2 ^ 32 - 1 := by
      rw [hna.1, hna.2]
    exact this)
  rw [hright]
  constructor
  · intro hall n hn
    have hsmall : n + 1 < 2 ^ 32 := by
      by_contra hlarge
      have hlast := (mem_indices_of_le (m := 2 ^ 32 - 1) hn (by omega)).resolve_left (by norm_num)
      exact (hall _ hlast).2 rfl
    have hclamped := (hall n hn).1
    rw [Nat.mod_eq_of_lt (by omega)] at hclamped
    exact ⟨hsmall, (clamped_eq_doubled_iff hbase hmax n).mp hclamped⟩
  · intro hgentle n hn
    obtain ⟨hsmall, hclamp⟩ := hgentle n hn
    rw [Nat.mod_eq_of_lt (by omega)]
    exact ⟨(clamped_eq_doubled_iff hbase hmax n).mpr hclamp, by omega⟩

theorem behaves_iff (hbase : 0 < cfg.base) (hmax : cfg.max ≤ Duration.maxNs) :
    Behaves cfg calls ↔ Gentle cfg calls := by
  constructor
  · intro hbehaves
    exact (doubled_iff hbase hmax).mp hbehaves.doubled
  · intro hgentle
    have hdoubled := (doubled_iff hbase hmax).mpr hgentle
    refine ⟨hdoubled, ?_, ?_⟩
    · intro a ha
      obtain ⟨n, -, hn, -⟩ := Numbering.exists_of_mem_right ((counts_build cfg).answers calls) ha
      exact hn.trans_le (clamped_le_max _)
    · apply Numbering.isChain_zip hdoubled (isChain_indices 0 calls)
      rintro i j a b (hzero | hsucc) ⟨ha, -⟩ ⟨hb, -⟩ hj
      · exact absurd hzero hj
      · rw [ha, hb, hsucc]
        exact doubled_mono (Nat.le_succ i)

theorem reaches_iff (hmax : cfg.max ≤ Duration.maxNs) :
    Reaches cfg ↔ cfg.max ≤ cfg.base * 2 ^ 20 := by
  constructor
  · rintro ⟨calls, a, ha, hcap⟩
    obtain ⟨n, -, hn, -⟩ := Numbering.exists_of_mem_right ((counts_build cfg).answers calls) ha
    have hpow : cfg.base * 2 ^ min (n % 2 ^ 32) 20 ≤ cfg.base * 2 ^ 20 :=
      Nat.mul_le_mul_left _ (Nat.pow_le_pow_right (by norm_num) (Nat.min_le_right _ _))
    rw [← hcap, hn]
    unfold clamped Duration.saturatingMul
    omega
  · intro hle
    have hindex : 20 ∈ indices 0 (List.replicate 21 Call.nextDelay) := by decide
    obtain ⟨a, ha, hdelay, -⟩ := Numbering.exists_of_mem_left
      ((counts_build cfg).answers (List.replicate 21 .nextDelay)) hindex
    refine ⟨_, a, ha, ?_⟩
    have htwenty : min (20 % 2 ^ 32) 20 = 20 := by decide
    rw [hdelay, clamped, htwenty]
    unfold Duration.saturatingMul
    omega

end Answers

/-- The delays double up to the cap in exactly the sequences of calls that overflow no
counter and do not outrun the clamp, and the cap is reached exactly when the clamp
is not below it. -/
theorem doubles_until_capped_iff (cfg : BackoffConfig) (hbase : 0 < cfg.base)
    (hmax : cfg.max ≤ Duration.maxNs) :
    (∀ calls, Behaves cfg calls ↔ Gentle cfg calls) ∧
      (Reaches cfg ↔ cfg.max ≤ cfg.base * 2 ^ 20) :=
  ⟨fun _ ↦ behaves_iff hbase hmax, reaches_iff hmax⟩

theorem doubles_until_capped_iff_default :
    (∀ calls, Behaves .default calls ↔ Gentle .default calls) ∧
      (Reaches .default ↔ BackoffConfig.default.max ≤ BackoffConfig.default.base * 2 ^ 20) :=
  doubles_until_capped_iff .default (by decide) (by decide)

/-- One millisecond and one hour: the delays stay at 1048.576 seconds. -/
theorem clamp_hides_cap :
    ¬ Behaves ⟨Duration.fromMillis 1, Duration.fromSecs 3600⟩ (List.replicate 22 .nextDelay) ∧
      ¬ Reaches ⟨Duration.fromMillis 1, Duration.fromSecs 3600⟩ := by
  rw [behaves_iff (by decide) (by decide), reaches_iff (by decide)]
  refine ⟨?_, by decide⟩
  intro hgentle
  have hlast := (hgentle 21 (by decide)).2
  revert hlast
  decide

end Geiger.ExponentialBackoff
