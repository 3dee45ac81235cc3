import Mathlib.Data.Rat.Cast.Defs
import Mathlib.Tactic.FieldSimp
import Mathlib.Tactic.Ring

/-!
# Decimal numerals

An optional plus sign, at least one digit, and optionally a point with a bounded
number of digits after it.
-/

namespace Geiger

open Nat (ofDigitChars toDigits)

structure Numeral (places : ℕ) where
  plus : Bool
  whole : List Char
  whole_ne_nil : whole ≠ []
  whole_digits : ∀ c ∈ whole, c.isDigit
  /-- The digits after the point, if there is a point. -/
  frac : Option (List Char)
  frac_digits : ∀ f ∈ frac, ∀ c ∈ f, c.isDigit
  length_frac_le : ∀ f ∈ frac, f.length ≤ places

namespace Numeral

variable {places : ℕ}

def sign (n : Numeral places) : List Char := if n.plus then ['+'] else []

def text (n : Numeral places) : List Char :=
  n.sign ++ n.whole ++ n.frac.elim [] fun f ↦ '.' :: f

def fracDigits (n : Numeral places) : List Char := n.frac.getD []

def value (n : Numeral places) : ℚ :=
  (ofDigitChars 10 n.whole 0 : ℚ) +
    (ofDigitChars 10 n.fracDigits 0 : ℚ) / ((10 ^ n.fracDigits.length : ℕ) : ℚ)

/-- The value in units of the last place. -/
def scaled (n : Numeral places) : ℕ :=
  ofDigitChars 10 n.whole 0 * 10 ^ places +
    ofDigitChars 10 (n.fracDigits ++ List.replicate (places - n.fracDigits.length) '0') 0

theorem length_fracDigits_le (n : Numeral places) : n.fracDigits.length ≤ places := by
  unfold fracDigits
  cases h : n.frac with
  | none => exact Nat.zero_le _
  | some f => exact n.length_frac_le f h

theorem scaled_eq (n : Numeral places) : (n.scaled : ℚ) = n.value * ((10 ^ places : ℕ) : ℚ) := by
  have hpow : 10 ^ places = 10 ^ (places - n.fracDigits.length) * 10 ^ n.fracDigits.length := by
    rw [← pow_add, Nat.sub_add_cancel n.length_fracDigits_le]
  have hne : ((10 ^ n.fracDigits.length : ℕ) : ℚ) ≠ 0 :=
    Nat.cast_ne_zero.mpr (Nat.pow_pos (by decide)).ne'
  rw [scaled, value, Nat.ofDigitChars_append, Nat.ofDigitChars_replicate_zero, hpow]
  push_cast at hne ⊢
  field_simp

/-- The numeral of `k` units of the last place, with all its places. -/
def fixed (hplaces : 0 < places) (k : ℕ) : Numeral places where
  plus := false
  whole := toDigits 10 (k / 10 ^ places)
  whole_ne_nil := Nat.toDigits_ne_nil
  whole_digits _ hc := Nat.isDigit_of_mem_toDigits (by decide) (by decide) hc
  frac := some ((toDigits 10 (k % 10 ^ places)).leftpad places '0')
  frac_digits := by
    rintro _ ⟨⟩ c hc
    rcases List.mem_append.mp hc with hzero | hdigit
    · rw [List.eq_of_mem_replicate hzero]
      rfl
    · exact Nat.isDigit_of_mem_toDigits (by decide) (by decide) hdigit
  length_frac_le := by
    rintro _ ⟨⟩
    rw [List.length_leftpad, Nat.max_le]
    refine ⟨le_rfl, ?_⟩
    rw [Nat.length_toDigits_le_iff (by decide) hplaces]
    exact Nat.mod_lt _ (Nat.pow_pos (by decide))

theorem scaled_fixed (hplaces : 0 < places) (k : ℕ) : (fixed hplaces k).scaled = k := by
  have hlen : ((toDigits 10 (k % 10 ^ places)).leftpad places '0').length = places := by
    refine le_antisymm ((fixed hplaces k).length_frac_le _ rfl) ?_
    rw [List.length_leftpad]
    exact Nat.le_max_left _ _
  have hfrac : (fixed hplaces k).fracDigits =
      (toDigits 10 (k % 10 ^ places)).leftpad places '0' := rfl
  have hwhole : (fixed hplaces k).whole = toDigits 10 (k / 10 ^ places) := rfl
  rw [scaled, hfrac, hlen, Nat.sub_self, List.replicate_zero, List.append_nil, List.leftpad,
    Nat.ofDigitChars_append, Nat.ofDigitChars_replicate_zero, Nat.mul_zero, hwhole,
    Nat.ofDigitChars_ten_toDigits, Nat.ofDigitChars_ten_toDigits]
  exact Nat.div_add_mod' _ _

end Numeral

end Geiger
