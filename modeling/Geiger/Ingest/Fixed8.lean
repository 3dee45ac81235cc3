import Geiger.Ingest.Types

/-!
# What `parse_fixed8` computes

Integer part and padded fraction are each read by the parser of `u64`, so a plus
sign is accepted in both.
-/

namespace Geiger

open Nat (ofDigitChars)

namespace Decimal

/-- What `u64::from_str` takes for `n`, its range apart. -/
def Reads (s : List Char) (n : ℕ) : Prop :=
  ∃ digits, digits ≠ [] ∧ (∀ c ∈ digits, c.isDigit) ∧ (s = digits ∨ s = '+' :: digits) ∧
    ofDigitChars 10 digits 0 = n

theorem parseDigits_eq_some {acc n : ℕ} {s : List Char} :
    parseDigits acc s = some n ↔ (∀ c ∈ s, c.isDigit) ∧ ofDigitChars 10 s acc = n := by
  induction s generalizing acc with
  | nil => simp [parseDigits]
  | cons c s ih =>
      rw [parseDigits, Nat.ofDigitChars_cons, Nat.mul_comm 10 acc, List.forall_mem_cons]
      split
      · rename_i hdigit
        rw [ih]
        simp [hdigit]
      · rename_i hdigit
        simp [hdigit]

theorem Reads.unique {s : List Char} {m n : ℕ} (hm : Reads s m) (hn : Reads s n) : m = n := by
  obtain ⟨ds, -, hds, hs, rfl⟩ := hm
  obtain ⟨es, -, hes, hs', rfl⟩ := hn
  have hplus : ¬ '+'.isDigit := by decide
  rcases hs with rfl | rfl <;> rcases hs' with heq | heq
  · rw [heq]
  · subst heq
    exact absurd (hds '+' List.mem_cons_self) hplus
  · subst heq
    exact absurd (hes '+' List.mem_cons_self) hplus
  · rw [(List.cons.inj heq).2]

theorem parseU64_eq_some {s : List Char} {v : UInt64} :
    parseU64 s = some v ↔ Reads s v.toNat := by
  have hdigits : ∀ ds : List Char, (if ds.isEmpty then none
      else (parseDigits 0 ds).bind fun n ↦ if n < 2 ^ 64 then some (UInt64.ofNat n) else none) =
        some v ↔ ds ≠ [] ∧ (∀ c ∈ ds, c.isDigit) ∧ ofDigitChars 10 ds 0 = v.toNat := by
    intro ds
    rw [Option.ite_none_left_eq_some, List.isEmpty_iff, Option.bind_eq_some_iff]
    simp only [parseDigits_eq_some, Option.ite_none_right_eq_some, Option.some.injEq]
    constructor
    · rintro ⟨hne, n, ⟨hall, rfl⟩, hsmall, rfl⟩
      exact ⟨hne, hall, (UInt64.toNat_ofNat_of_lt' hsmall).symm⟩
    · rintro ⟨hne, hall, hn⟩
      refine ⟨hne, _, ⟨hall, hn⟩, v.toNat_lt, ?_⟩
      exact UInt64.ofNat_toNat
  unfold parseU64
  split
  · rename_i rest
    rw [hdigits]
    constructor
    · rintro ⟨hne, hall, hn⟩
      exact ⟨rest, hne, hall, .inr rfl, hn⟩
    · rintro ⟨ds, hne, hall, rfl | heq, hn⟩
      · exact absurd (hall '+' List.mem_cons_self) (by decide)
      · obtain rfl := (List.cons.inj heq).2
        exact ⟨hne, hall, hn⟩
  · rename_i hplus
    rw [hdigits]
    constructor
    · rintro ⟨hne, hall, hn⟩
      exact ⟨s, hne, hall, .inl rfl, hn⟩
    · rintro ⟨ds, hne, hall, rfl | rfl, hn⟩
      · exact ⟨hne, hall, hn⟩
      · exact absurd rfl (hplus ds)

theorem checkedMul_eq_some {a b v : UInt64} :
    checkedMul a b = some v ↔ v.toNat = a.toNat * b.toNat := by
  rw [checkedMul, Option.ite_none_right_eq_some, Option.some.injEq]
  constructor
  · rintro ⟨hfits, rfl⟩
    rw [UInt64.toNat_mul, Nat.mod_eq_of_lt hfits]
  · intro h
    have hfits : a.toNat * b.toNat < 2 ^ 64 := h ▸ v.toNat_lt
    refine ⟨hfits, ?_⟩
    rw [← UInt64.toNat_inj, UInt64.toNat_mul, Nat.mod_eq_of_lt hfits, h]

theorem checkedAdd_eq_some {a b v : UInt64} :
    checkedAdd a b = some v ↔ v.toNat = a.toNat + b.toNat := by
  rw [checkedAdd, Option.ite_none_right_eq_some, Option.some.injEq]
  constructor
  · rintro ⟨hfits, rfl⟩
    rw [UInt64.toNat_add, Nat.mod_eq_of_lt hfits]
  · intro h
    have hfits : a.toNat + b.toNat < 2 ^ 64 := h ▸ v.toNat_lt
    refine ⟨hfits, ?_⟩
    rw [← UInt64.toNat_inj, UInt64.toNat_add, Nat.mod_eq_of_lt hfits, h]

/-! ## The two parts around the point -/

theorem splitOnce_eq_some {sep : Char} {s before after : List Char}
    (h : splitOnce sep s = some (before, after)) : s = before ++ sep :: after := by
  induction s generalizing before with
  | nil => cases h
  | cons c s ih =>
      simp only [splitOnce] at h
      split at h
      · rename_i hsep
        obtain ⟨rfl, rfl⟩ := Prod.mk.inj (Option.some.inj h)
        rw [hsep, List.nil_append]
      · obtain ⟨⟨before', after'⟩, hrest, heq⟩ := Option.map_eq_some_iff.mp h
        obtain ⟨rfl, rfl⟩ := Prod.mk.inj heq
        rw [ih hrest, List.cons_append]

theorem splitOnce_append {sep : Char} {before : List Char} (h : sep ∉ before)
    (after : List Char) : splitOnce sep (before ++ sep :: after) = some (before, after) := by
  induction before with
  | nil => simp [splitOnce]
  | cons c before ih =>
      obtain ⟨hc, hrest⟩ := List.ne_and_not_mem_of_not_mem_cons h
      simp [splitOnce, Ne.symm hc, ih hrest]

theorem splitOnce_eq_none {sep : Char} {s : List Char} : splitOnce sep s = none ↔ sep ∉ s := by
  induction s with
  | nil => simp [splitOnce]
  | cons c s ih =>
      rw [splitOnce]
      split
      · rename_i hc
        simp [hc]
      · rename_i hc
        simp [ih, Ne.symm hc]

def parts (s : List Char) : List Char × List Char := (splitOnce '.' s).getD (s, [])

def padded (frac : List Char) : List Char := frac ++ List.replicate (8 - utf8Len frac) '0'

theorem eq_parts (s : List Char) : ∃ tail, s = (parts s).1 ++ tail := by
  unfold parts
  cases h : splitOnce '.' s with
  | none => exact ⟨[], (List.append_nil s).symm⟩
  | some split => exact ⟨_, splitOnce_eq_some h⟩

/-- No integer part is empty or begins with a minus sign. -/
theorem guard_of_reads {s : List Char} {w : ℕ} (h : Reads (parts s).1 w) :
    ¬ (s.isEmpty || s.head? = some '-') := by
  obtain ⟨tail, hs⟩ := eq_parts s
  obtain ⟨c, rest, hparts, hc⟩ : ∃ c rest, (parts s).1 = c :: rest ∧ c ≠ '-' := by
    obtain ⟨ds, hne, hall, hds | hds, -⟩ := h
    · obtain ⟨c, rest, rfl⟩ := List.exists_cons_of_ne_nil hne
      refine ⟨c, rest, hds, ?_⟩
      rintro rfl
      exact absurd (hall '-' List.mem_cons_self) (by decide)
    · exact ⟨'+', ds, hds, by decide⟩
  rw [hs, hparts]
  simp [hc]

theorem reads_padded_nil : Reads (padded []) 0 := by
  refine ⟨List.replicate 8 '0', by decide, ?_, .inl rfl, by decide⟩
  intro c hc
  rw [List.eq_of_mem_replicate hc]
  rfl

theorem exists_toNat_eq {n : ℕ} (h : n < 2 ^ 64) : ∃ v : UInt64, v.toNat = n :=
  ⟨UInt64.ofNat n, UInt64.toNat_ofNat_of_lt' h⟩

/-- The spec of `fixed8`: both parts are read, and their sum fits. -/
theorem fixed8_eq_some {s : List Char} {raw : UInt64} :
    fixed8 s = some raw ↔ ∃ w f, Reads (parts s).1 w ∧ utf8Len (parts s).2 ≤ 8 ∧
      Reads (padded (parts s).2) f ∧ raw.toNat = w * 10 ^ 8 + f := by
  have hscale : scale.toNat = 10 ^ 8 := rfl
  have hsplit : (splitOnce '.' s).getD (s, []) = parts s := rfl
  unfold fixed8
  simp only [hsplit]
  split
  · rename_i hguard
    constructor
    · rintro ⟨⟩
    · rintro ⟨w, f, hw, -⟩
      exact absurd hguard (guard_of_reads hw)
  · split
    · rename_i hlong
      constructor
      · rintro ⟨⟩
      · rintro ⟨w, f, -, hlen, -⟩
        exact absurd hlong (Nat.not_lt.mpr hlen)
    · rename_i hshort
      simp only [bind, Option.bind_eq_some_iff, parseU64_eq_some, checkedMul_eq_some, hscale]
      by_cases hempty : (parts s).2 = []
      · simp only [hempty, List.isEmpty_nil, if_true]
        constructor
        · rintro ⟨v, hv, scaled, hscaled, ⟨⟩⟩
          exact ⟨v.toNat, 0, hv, by decide, reads_padded_nil, by rw [hscaled, Nat.add_zero]⟩
        · rintro ⟨w, f, hw, -, hf, hraw⟩
          obtain rfl := hf.unique reads_padded_nil
          have hfits := raw.toNat_lt
          obtain ⟨v, rfl⟩ := exists_toNat_eq (show w < 2 ^ 64 by omega)
          rw [Nat.add_zero] at hraw
          exact ⟨v, hw, raw, hraw, rfl⟩
      · have hne : ¬ (parts s).2.isEmpty := by rwa [List.isEmpty_iff]
        simp only [if_neg hne, Option.bind_eq_some_iff, parseU64_eq_some, checkedAdd_eq_some]
        constructor
        · rintro ⟨v, hv, scaled, hscaled, f, hf, hraw⟩
          exact ⟨v.toNat, f.toNat, hv, Nat.le_of_not_lt hshort, hf, hscaled ▸ hraw⟩
        · rintro ⟨w, f, hw, -, hf, hraw⟩
          have hfits := raw.toNat_lt
          obtain ⟨v, rfl⟩ := exists_toNat_eq (show w < 2 ^ 64 by omega)
          obtain ⟨u, rfl⟩ := exists_toNat_eq (show f < 2 ^ 64 by omega)
          obtain ⟨scaled, hscaled⟩ := exists_toNat_eq (show v.toNat * 10 ^ 8 < 2 ^ 64 by omega)
          exact ⟨v, hw, scaled, hscaled, u, hf, hscaled ▸ hraw⟩

theorem not_isWhitespace_of_isDigit {c : Char} (h : c.isDigit) : ¬ isWhitespace c := by
  obtain ⟨hlow, hhigh⟩ := Char.isDigit_iff_toNat.mp h
  have hzero : '0'.toNat = 48 := rfl
  have hnine : '9'.toNat = 57 := rfl
  simp only [isWhitespace, Bool.or_eq_true, Bool.and_eq_true, decide_eq_true_eq, beq_iff_eq]
  omega

end Decimal

open Decimal

theorem parseFixed8_eq_ok {s : String} {raw : UInt64} :
    parseFixed8 s = .ok raw ↔ fixed8 (trim s.toList) = some raw := by
  simp only [parseFixed8]
  split <;> simp_all

end Geiger
