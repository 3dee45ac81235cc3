import Mathlib.Data.BitVec
import Mathlib.Data.Fintype.EquivFin
import Mathlib.Data.Nat.Prime.Basic

/-!
# Invertible mixing of machine words

Xor-shifts and odd multipliers permute the words of any width, and a counter with an
odd increment visits all of them before it repeats.
-/

namespace Geiger.Mixing

open Function

variable {w : ℕ}

instance finite_bitVec : Finite (BitVec w) :=
  Finite.of_injective BitVec.toFin fun _ _ ↦ BitVec.toFin_inj.mp

def xorShift (s : ℕ) (x : BitVec w) : BitVec w := x ^^^ (x >>> s)

/-- A xor-shift is linear over xor. -/
theorem xorShift_xor (s : ℕ) (x y : BitVec w) :
    xorShift s (x ^^^ y) = xorShift s x ^^^ xorShift s y := by
  simp only [xorShift, BitVec.ushiftRight_xor_distrib]
  ac_rfl

theorem eq_zero_of_xorShift_eq_zero {s : ℕ} (hs : 0 < s) {x : BitVec w}
    (h : xorShift s x = 0#w) : x = 0#w := by
  have hshift : x.toNat = x.toNat / 2 ^ s := by
    rw [← Nat.shiftRight_eq_div_pow, ← BitVec.toNat_ushiftRight, ← BitVec.xor_eq_zero_iff.mp h]
  by_contra hne
  have hpos : 0 < x.toNat := Nat.pos_of_ne_zero fun hzero ↦ hne (BitVec.eq_of_toNat_eq hzero)
  exact absurd (Nat.div_lt_self hpos (Nat.one_lt_two_pow hs.ne')) (not_lt.mpr hshift.le)

theorem xorShift_bijective {s : ℕ} (hs : 0 < s) :
    Bijective (xorShift s : BitVec w → BitVec w) := by
  apply Finite.injective_iff_bijective.mp
  intro x y hxy
  apply BitVec.xor_eq_zero_iff.mp
  apply eq_zero_of_xorShift_eq_zero hs
  rw [xorShift_xor, hxy, BitVec.xor_self]

section Odd

variable {c : BitVec w} (hc : Odd c.toNat)

include hc

theorem exists_mul_eq_one_of_odd : ∃ d, c * d = 1 := by
  have hw : w ≠ 0 := by
    rintro rfl
    rw [BitVec.toNat_of_zero_length rfl] at hc
    revert hc
    decide
  have hcoprime : c.toNat.Coprime (2 ^ w) := (Nat.coprime_two_right.mpr hc).pow_right w
  obtain ⟨d, -, hd⟩ := Nat.exists_mul_mod_eq_one_of_coprime hcoprime (Nat.one_lt_two_pow hw)
  have hone : (1 : BitVec w).toNat = 1 := Nat.mod_eq_of_lt (Nat.one_lt_two_pow hw)
  refine ⟨BitVec.ofNat w d, BitVec.eq_of_toNat_eq ?_⟩
  rw [BitVec.toNat_mul, BitVec.toNat_ofNat, Nat.mul_mod_mod, hd, hone]

theorem mul_bijective_of_odd : Bijective fun x : BitVec w ↦ x * c := by
  obtain ⟨d, hd⟩ := exists_mul_eq_one_of_odd hc
  apply Finite.injective_iff_bijective.mp
  intro x y hxy
  calc
    x = x * c * d := by rw [mul_assoc, hd, mul_one]
    _ = y * c * d := congrArg (· * d) hxy
    _ = y := by rw [mul_assoc, hd, mul_one]

/-- A counter with an odd increment does not repeat within `2 ^ w` steps. -/
theorem iterate_add_injOn (x : BitVec w) :
    Set.InjOn (fun k ↦ (· + c)^[k] x) (Set.Iio (2 ^ w)) := by
  intro j hj k hk hjk
  simp only [add_right_iterate, nsmul_eq_mul] at hjk
  have hcast : (j : BitVec w) = k := (mul_bijective_of_odd hc).injective (add_left_cancel hjk)
  have hnat := congrArg BitVec.toNat hcast
  rwa [BitVec.natCast_eq_ofNat, BitVec.natCast_eq_ofNat, BitVec.toNat_ofNat, BitVec.toNat_ofNat,
    Nat.mod_eq_of_lt hj, Nat.mod_eq_of_lt hk] at hnat

end Odd

end Geiger.Mixing
