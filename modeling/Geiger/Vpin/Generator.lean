import Geiger.Library.Mixing
import Geiger.Vpin.Bootstrap

/-!
# The period of the bootstrap's generator

The state is a counter with an odd increment and the output a permutation of it, so
one seed never repeats an output within `2 ^ 64` calls, and two seeds never agree at
the same call.
-/

namespace Geiger.SplitMix64

open Function Mixing

/-- The output of call `k` of `nextU64`, counted from zero. -/
def output (k : ℕ) (rng : SplitMix64) : UInt64 :=
  ((fun rng ↦ rng.nextU64.2)^[k] rng).nextU64.1

theorem nextU64_fst (rng : SplitMix64) : rng.nextU64.1 = mix rng.advance.state := by
  rw [nextU64]

theorem nextU64_snd (rng : SplitMix64) : rng.nextU64.2 = rng.advance := by
  rw [nextU64]

theorem output_eq (k : ℕ) (rng : SplitMix64) :
    output k rng = mix (advance^[k] rng).advance.state := by
  rw [output, nextU64_fst, funext nextU64_snd]

theorem toBitVec_bijective : Bijective UInt64.toBitVec :=
  ⟨fun _ _ ↦ UInt64.toBitVec_inj.mp, fun b ↦ ⟨⟨b⟩, rfl⟩⟩

/-- Three xor-shifts with two odd multipliers between them. -/
def mixBits (state : BitVec 64) : BitVec 64 :=
  xorShift 31 (xorShift 27 (xorShift 30 state * 0xBF58476D1CE4E5B9#64) * 0x94D049BB133111EB#64)

theorem toBitVec_xorShift (x s : UInt64) {n : ℕ} (hs : (s.toBitVec % 64).toNat = n) :
    (x ^^^ (x >>> s)).toBitVec = xorShift n x.toBitVec := by
  rw [UInt64.toBitVec_xor, UInt64.toBitVec_shiftRight, BitVec.ushiftRight_eq', hs, xorShift]

theorem toBitVec_mix (state : UInt64) : (mix state).toBitVec = mixBits state.toBitVec := by
  unfold mix mixBits
  simp only [toBitVec_xorShift _ 30 (n := 30) (by decide),
    toBitVec_xorShift _ 27 (n := 27) (by decide),
    toBitVec_xorShift _ 31 (n := 31) (by decide), UInt64.toBitVec_mul, UInt64.toBitVec_ofNat]

theorem mixBits_bijective : Bijective mixBits := by
  have hfirst : Bijective fun z : BitVec 64 ↦ z * 0xBF58476D1CE4E5B9#64 :=
    mul_bijective_of_odd (by decide)
  have hsecond : Bijective fun z : BitVec 64 ↦ z * 0x94D049BB133111EB#64 :=
    mul_bijective_of_odd (by decide)
  have h30 : Bijective (xorShift 30 : BitVec 64 → BitVec 64) := xorShift_bijective (by decide)
  have h27 : Bijective (xorShift 27 : BitVec 64 → BitVec 64) := xorShift_bijective (by decide)
  have h31 : Bijective (xorShift 31 : BitVec 64 → BitVec 64) := xorShift_bijective (by decide)
  exact h31.comp (hsecond.comp (h27.comp (hfirst.comp h30)))

theorem mix_bijective : Bijective mix := by
  have hbits : UInt64.toBitVec ∘ mix = mixBits ∘ UInt64.toBitVec := funext toBitVec_mix
  apply (toBitVec_bijective.of_comp_iff' mix).mp
  rw [hbits]
  exact mixBits_bijective.comp toBitVec_bijective

theorem toBitVec_state_advance (rng : SplitMix64) :
    rng.advance.state.toBitVec = rng.state.toBitVec + 0x9E3779B97F4A7C15#64 := by
  rw [advance, UInt64.toBitVec_add, UInt64.toBitVec_ofNat]

theorem toBitVec_state_iterate (k : ℕ) (rng : SplitMix64) :
    (advance^[k] rng).state.toBitVec = (· + 0x9E3779B97F4A7C15#64)^[k] rng.state.toBitVec := by
  induction k generalizing rng with
  | zero => rfl
  | succ k ih =>
      rw [iterate_succ_apply, ih, iterate_succ_apply, toBitVec_state_advance]

theorem state_iterate_injOn (rng : SplitMix64) :
    Set.InjOn (fun k ↦ (advance^[k] rng).state) (Set.Iio (2 ^ 64)) := by
  have hodd : Odd (0x9E3779B97F4A7C15#64).toNat := by decide
  intro j hj k hk hjk
  have hbits := congrArg UInt64.toBitVec hjk
  simp only [toBitVec_state_iterate] at hbits
  exact iterate_add_injOn hodd rng.state.toBitVec hj hk hbits

theorem state_injective : Injective state := by
  rintro ⟨_⟩ ⟨_⟩ rfl
  rfl

theorem advance_injective : Injective advance := by
  intro rng rng' h
  have hstate : rng.state + 0x9E3779B97F4A7C15 = rng'.state + 0x9E3779B97F4A7C15 :=
    congrArg state h
  exact state_injective ((UInt64.add_left_inj _).mp hstate)

/-- The mixing is a bijection of the 64-bit words, the `2 ^ 64` outputs after any seed
are all different, and so are the outputs of different seeds at every call. -/
theorem splitMix64_full_period :
    Bijective mix ∧
      (∀ seed, Set.InjOn (fun k ↦ output k (new seed)) (Set.Iio (2 ^ 64))) ∧
      ∀ k, Injective fun seed ↦ output k (new seed) := by
  refine ⟨mix_bijective, ?_, ?_⟩
  · intro seed j hj k hk hjk
    simp only [output_eq] at hjk
    have hstate := advance_injective (state_injective (mix_bijective.injective hjk))
    exact state_iterate_injOn (new seed) hj hk (congrArg state hstate)
  · intro k seed seed' h
    simp only [output_eq] at h
    have hstate := advance_injective (state_injective (mix_bijective.injective h))
    exact congrArg state (advance_injective.iterate k hstate)

end Geiger.SplitMix64
