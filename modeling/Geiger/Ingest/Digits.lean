import Geiger.Ingest.Decode
import Geiger.Ingest.Fixed8

/-!
# Which decimal strings are zero

The parser of decimal strings accepts zero: the value of an accepted string is
nonzero exactly when the string has a digit other than `0`.
-/

namespace Geiger

open Nat (ofDigitChars)

namespace Decimal

def NonzeroDigit (s : List Char) : Prop := ∃ c ∈ s, c.isDigit ∧ c ≠ '0'

theorem nonzeroDigit_cons {c : Char} {s : List Char} :
    NonzeroDigit (c :: s) ↔ (c.isDigit ∧ c ≠ '0') ∨ NonzeroDigit s := by
  simp [NonzeroDigit]

theorem nonzeroDigit_append {s t : List Char} :
    NonzeroDigit (s ++ t) ↔ NonzeroDigit s ∨ NonzeroDigit t := by
  simp [NonzeroDigit, or_and_right, exists_or]

theorem not_nonzeroDigit_of_forall {s : List Char} (h : ∀ c ∈ s, ¬ c.isDigit ∨ c = '0') :
    ¬ NonzeroDigit s := by
  rintro ⟨c, hc, hdigit, hzero⟩
  rcases h c hc with hno | hc0
  · exact hno hdigit
  · exact hzero hc0

theorem digit_ne_zero_iff {c : Char} (h : c.isDigit) : c.toNat - 48 ≠ 0 ↔ c ≠ '0' := by
  obtain ⟨hlow, -⟩ := Char.isDigit_iff_toNat.mp h
  have hzero : '0'.toNat = 48 := rfl
  rw [Ne, Ne, ← Char.toNat_inj]
  omega

theorem ofDigitChars_ne_zero {acc : ℕ} {s : List Char} (h : ∀ c ∈ s, c.isDigit) :
    ofDigitChars 10 s acc ≠ 0 ↔ acc ≠ 0 ∨ NonzeroDigit s := by
  induction s generalizing acc with
  | nil => simp [NonzeroDigit]
  | cons c s ih =>
      obtain ⟨hdigit, hdigits⟩ := List.forall_mem_cons.mp h
      have hstep : 10 * acc + (c.toNat - 48) ≠ 0 ↔ acc ≠ 0 ∨ c ≠ '0' := by
        rw [← digit_ne_zero_iff hdigit]
        omega
      have hzero : '0'.toNat = 48 := rfl
      rw [Nat.ofDigitChars_cons, hzero, ih hdigits, hstep, nonzeroDigit_cons, or_assoc]
      simp [hdigit]

theorem Reads.ne_zero {s : List Char} {n : ℕ} (h : Reads s n) : n ≠ 0 ↔ NonzeroDigit s := by
  obtain ⟨ds, -, hds, rfl | rfl, rfl⟩ := h
  · simp [ofDigitChars_ne_zero hds]
  · simp [ofDigitChars_ne_zero hds, nonzeroDigit_cons]

theorem nonzeroDigit_parts (s : List Char) :
    NonzeroDigit s ↔ NonzeroDigit (parts s).1 ∨ NonzeroDigit (parts s).2 := by
  unfold parts
  cases honce : splitOnce '.' s with
  | none => simp [NonzeroDigit]
  | some both =>
      rw [splitOnce_eq_some honce, nonzeroDigit_append, nonzeroDigit_cons]
      simp

theorem nonzeroDigit_padded (frac : List Char) :
    NonzeroDigit (padded frac) ↔ NonzeroDigit frac := by
  have hzeros : ¬ NonzeroDigit (List.replicate (8 - utf8Len frac) '0') :=
    not_nonzeroDigit_of_forall fun c hc ↦ .inr (List.eq_of_mem_replicate hc)
  rw [padded, nonzeroDigit_append]
  simp only [hzeros, or_false]

theorem fixed8_ne_zero {s : List Char} {raw : UInt64} (h : fixed8 s = some raw) :
    raw ≠ 0 ↔ NonzeroDigit s := by
  obtain ⟨w, f, hw, -, hf, hraw⟩ := fixed8_eq_some.mp h
  have hsum : raw ≠ 0 ↔ w ≠ 0 ∨ f ≠ 0 := by
    rw [Ne, ← UInt64.toNat_inj, hraw, UInt64.toNat_zero]
    omega
  rw [hsum, hw.ne_zero, hf.ne_zero, nonzeroDigit_padded, nonzeroDigit_parts s]

theorem nonzeroDigit_dropWhile (s : List Char) :
    NonzeroDigit (s.dropWhile isWhitespace) ↔ NonzeroDigit s := by
  have hspace : ¬ NonzeroDigit (s.takeWhile isWhitespace) := by
    apply not_nonzeroDigit_of_forall
    intro c hc
    left
    intro hdigit
    exact not_isWhitespace_of_isDigit hdigit (List.mem_takeWhile_imp hc)
  conv_rhs => rw [← List.takeWhile_append_dropWhile (p := isWhitespace) (l := s)]
  rw [nonzeroDigit_append]
  simp only [hspace, false_or]

theorem nonzeroDigit_trim (s : List Char) : NonzeroDigit (trim s) ↔ NonzeroDigit s := by
  have hreverse : ∀ s, NonzeroDigit s.reverse ↔ NonzeroDigit s := by
    intro s
    simp [NonzeroDigit]
  rw [trim, List.rdropWhile, hreverse, nonzeroDigit_dropWhile, hreverse, nonzeroDigit_dropWhile]

end Decimal

open Decimal

theorem parseFixed8_ne_zero {s : String} {raw : UInt64} (h : parseFixed8 s = .ok raw) :
    raw ≠ 0 ↔ NonzeroDigit s.toList := by
  rw [fixed8_ne_zero (parseFixed8_eq_ok.mp h), nonzeroDigit_trim]

/-- An entry with a price and a quantity other than zero. -/
def Fill.Nonzero (t : Fill) : Prop :=
  NonzeroDigit t.price.toList ∧ NonzeroDigit t.qty.toList

theorem nonzero_of_normalize {symbol : Symbol} {exchange : Exchange} {t : Fill}
    {nowNs seq : UInt64} {trade : NormalizedTrade}
    (h : t.normalize symbol exchange nowNs seq = .ok trade) :
    (trade.price.raw ≠ 0 ∧ trade.qty.raw ≠ 0) ↔ t.Nonzero := by
  obtain ⟨p, hp, h⟩ := Fallible.ok_of_bind h
  obtain ⟨q, hq, h⟩ := Fallible.ok_of_bind h
  obtain rfl := Except.ok.inj h
  obtain ⟨price, hprice, rfl⟩ : ∃ raw, parseFixed8 t.price = .ok raw ∧ Price.mk raw = p := by
    unfold parsePrice at hp
    cases hraw : parseFixed8 t.price <;> simp_all [Except.map]
  obtain ⟨qty, hqty, rfl⟩ : ∃ raw, parseFixed8 t.qty = .ok raw ∧ Qty.mk raw = q := by
    unfold parseQty at hq
    cases hraw : parseFixed8 t.qty <;> simp_all [Except.map]
  exact and_congr (parseFixed8_ne_zero hprice) (parseFixed8_ne_zero hqty)

/-- Entry by entry, the trade is nonzero exactly when the entry is. -/
theorem nonzero_of_normalizeAll {symbol : Symbol} {venue : Exchange} {now : ℕ → UInt64}
    {seq seq' : UInt64} {fs : List Fill} {trades : List NormalizedTrade}
    (h : normalizeAll symbol venue now seq fs = (.ok trades, seq')) :
    List.Forall₂ (fun f trade ↦ (trade.price.raw ≠ 0 ∧ trade.qty.raw ≠ 0) ↔ f.Nonzero) fs
      trades := by
  have hall := (Numbering.collect_forall₂ h).imp fun f trade ⟨_, hf⟩ ↦ nonzero_of_normalize hf
  rw [← List.zipIdx_map_fst 0 fs]
  exact List.forall₂_map_left_iff.mpr hall

end Geiger
