import Geiger.Ingest.Fixed8
import Geiger.Library.Numeral

/-!
# Which decimal strings are accepted

The spellings of decimal numerals, and besides them those texts that become one when
a plus sign right after the point is taken for a zero.
-/

namespace Geiger

open Nat (ofDigitChars)

namespace Decimal

theorem utf8Len_of_digits {s : List Char} (h : ∀ c ∈ s, c.isDigit) : utf8Len s = s.length := by
  induction s with
  | nil => rfl
  | cons c s ih =>
      obtain ⟨hc, hs⟩ := List.forall_mem_cons.mp h
      have hsize : c.utf8Size = 1 := by
        have hle := (Char.isDigit_iff_toNat.mp hc).2
        rw [Char.utf8Size_eq_one_iff]
        exact UInt32.le_iff_toNat_le.mpr (hle.trans (by decide))
      simp only [utf8Len, List.map_cons, List.sum_cons, List.length_cons] at ih ⊢
      rw [ih hs, hsize, Nat.add_comm]

/-- The text of `n` with a plus sign for the zero right after its point. -/
def Misspells (s : List Char) (n : Numeral 8) : Prop :=
  ∃ ds, n.frac = some ('0' :: ds) ∧ s = n.sign ++ n.whole ++ '.' :: '+' :: ds

section Numerals

variable {s : List Char} (n : Numeral 8)

theorem reads_signed : Reads (n.sign ++ n.whole) (ofDigitChars 10 n.whole 0) := by
  refine ⟨n.whole, n.whole_ne_nil, n.whole_digits, ?_, rfl⟩
  unfold Numeral.sign
  split
  · exact .inr rfl
  · exact .inl rfl

theorem point_not_mem_signed : '.' ∉ n.sign ++ n.whole := by
  rw [List.mem_append]
  rintro (hsign | hwhole)
  · unfold Numeral.sign at hsign
    split at hsign
    · exact absurd (List.mem_singleton.mp hsign) (by decide)
    · cases hsign
  · exact absurd (n.whole_digits _ hwhole) (by decide)

theorem fracDigits_digits : ∀ c ∈ n.fracDigits, c.isDigit := by
  unfold Numeral.fracDigits
  cases h : n.frac with
  | none => rintro c ⟨⟩
  | some f => exact n.frac_digits f h

theorem parts_text : parts n.text = (n.sign ++ n.whole, n.fracDigits) := by
  unfold parts Numeral.text Numeral.fracDigits
  cases n.frac with
  | none =>
      rw [Option.elim_none, List.append_nil, splitOnce_eq_none.mpr (point_not_mem_signed n)]
      rfl
  | some f =>
      rw [Option.elim_some, splitOnce_append (point_not_mem_signed n)]
      rfl

theorem reads_zeros {ds : List Char} (hds : ∀ c ∈ ds, c.isDigit) {k : ℕ}
    (hpos : 0 < ds.length + k)
    (hs : s = ds ++ List.replicate k '0' ∨ s = '+' :: (ds ++ List.replicate k '0')) :
    Reads s (ofDigitChars 10 (ds ++ List.replicate k '0') 0) := by
  refine ⟨_, ?_, ?_, hs, rfl⟩
  · apply List.ne_nil_of_length_pos
    rwa [List.length_append, List.length_replicate]
  · intro c hc
    rcases List.mem_append.mp hc with hdigit | hzero
    · exact hds c hdigit
    · rw [List.eq_of_mem_replicate hzero]
      rfl

theorem fixed8_text {raw : UInt64} : fixed8 n.text = some raw ↔ raw.toNat = n.scaled := by
  have hlen := utf8Len_of_digits (fracDigits_digits n)
  have hle := n.length_fracDigits_le
  have hfrac : Reads (padded n.fracDigits) (ofDigitChars 10
      (n.fracDigits ++ List.replicate (8 - n.fracDigits.length) '0') 0) := by
    rw [padded, hlen]
    exact reads_zeros (fracDigits_digits n) (by omega) (.inl rfl)
  rw [fixed8_eq_some, parts_text]
  constructor
  · rintro ⟨w, f, hw, -, hf, hraw⟩
    rw [hraw, hw.unique (reads_signed n), hf.unique hfrac]
    rfl
  · intro hraw
    exact ⟨_, _, reads_signed n, hlen.trans_le hle, hfrac, hraw⟩

variable {n}

theorem parts_of_misspells (h : Misspells s n) :
    ∃ ds, n.fracDigits = '0' :: ds ∧ parts s = (n.sign ++ n.whole, '+' :: ds) := by
  obtain ⟨ds, hfrac, rfl⟩ := h
  refine ⟨ds, by rw [Numeral.fracDigits, hfrac]; rfl, ?_⟩
  rw [parts, splitOnce_append (point_not_mem_signed n)]
  rfl

theorem fixed8_of_misspells (h : Misspells s n) {raw : UInt64} :
    fixed8 s = some raw ↔ raw.toNat = n.scaled := by
  obtain ⟨ds, hfrac, hparts⟩ := parts_of_misspells h
  have hdigits := fracDigits_digits n
  rw [hfrac, List.forall_mem_cons] at hdigits
  have hle := n.length_fracDigits_le
  rw [hfrac, List.length_cons] at hle
  have hlen : utf8Len ('+' :: ds) = ds.length + 1 := by
    rw [← utf8Len_of_digits hdigits.2, Nat.add_comm]
    rfl
  -- the padding is as long as that of the numeral, whose leading zero is worth nothing
  have hread : Reads (padded ('+' :: ds)) (ofDigitChars 10
      (n.fracDigits ++ List.replicate (8 - n.fracDigits.length) '0') 0) := by
    rw [padded, hlen, hfrac, List.length_cons, List.cons_append, List.cons_append,
      Nat.ofDigitChars_cons]
    exact reads_zeros hdigits.2 (by omega) (.inr rfl)
  rw [fixed8_eq_some, hparts]
  constructor
  · rintro ⟨w, f, hw, -, hf, hraw⟩
    rw [hraw, hw.unique (reads_signed n), hf.unique hread]
    rfl
  · intro hraw
    exact ⟨_, _, reads_signed n, hlen.trans_le hle, hread, hraw⟩

theorem not_text_of_misspells (h : Misspells s n) (m : Numeral 8) : m.text ≠ s := by
  obtain ⟨ds, -, hparts⟩ := parts_of_misspells h
  rintro rfl
  rw [parts_text] at hparts
  have hfrac : m.fracDigits = '+' :: ds := (Prod.mk.inj hparts).2
  have hplus := fracDigits_digits m '+' (hfrac ▸ List.mem_cons_self)
  exact absurd hplus (by decide)

/-- The integer part of an accepted string. -/
theorem exists_signed_of_reads {b : List Char} {w : ℕ} (h : Reads b w) :
    ∃ plus : Bool, ∃ whole : List Char, whole ≠ [] ∧ (∀ c ∈ whole, c.isDigit) ∧
      b = (if plus then ['+'] else []) ++ whole ∧ ofDigitChars 10 whole 0 = w := by
  obtain ⟨ds, hne, hds, rfl | rfl, hw⟩ := h
  · exact ⟨false, b, hne, hds, rfl, hw⟩
  · exact ⟨true, ds, hne, hds, rfl, hw⟩

/-- The digits of a fraction that is read, behind the plus sign that may come first. -/
theorem digits_of_reads_padded {f : List Char} {v : ℕ} (h : Reads (padded f) v) :
    (∀ c ∈ f, c.isDigit) ∨ ∃ ds, f = '+' :: ds ∧ ∀ c ∈ ds, c.isDigit := by
  obtain ⟨digits, -, hdigits, hpad | hpad, -⟩ := h
  · left
    intro c hc
    exact hdigits c (hpad ▸ List.mem_append_left _ hc)
  · right
    cases f with
    | nil => cases hpad
    | cons c f =>
        rw [padded, List.cons_append] at hpad
        obtain ⟨rfl, hrest⟩ := List.cons.inj hpad
        refine ⟨f, rfl, ?_⟩
        intro c hc
        exact hdigits c (hrest ▸ List.mem_append_left _ hc)

/-- Every accepted string is a numeral or misspells one, and has its value. -/
theorem exists_numeral_of_fixed8 {raw : UInt64} (h : fixed8 s = some raw) :
    ∃ n : Numeral 8, (n.text = s ∨ Misspells s n) ∧ raw.toNat = n.scaled := by
  obtain ⟨w, f, hw, hlen, hf, -⟩ := fixed8_eq_some.mp h
  obtain ⟨plus, whole, hne, hwhole, hbefore, -⟩ := exists_signed_of_reads hw
  cases hsplit : splitOnce '.' s with
  | none =>
      have hparts : parts s = (s, []) := by rw [parts, hsplit]; rfl
      let n : Numeral 8 := ⟨plus, whole, hne, hwhole, none, by rintro _ ⟨⟩, by rintro _ ⟨⟩⟩
      have htext : n.text = s := by
        rw [hparts] at hbefore
        exact (List.append_nil _).trans hbefore.symm
      exact ⟨n, .inl htext, (fixed8_text n).mp (htext ▸ h)⟩
  | some split =>
      obtain ⟨before, after⟩ := split
      have hparts : parts s = (before, after) := by rw [parts, hsplit]; rfl
      simp only [hparts] at hbefore hlen hf
      have hs := splitOnce_eq_some hsplit
      rcases digits_of_reads_padded hf with hdigits | ⟨ds, rfl, hdigits⟩
      · have hle : after.length ≤ 8 := utf8Len_of_digits hdigits ▸ hlen
        let n : Numeral 8 := ⟨plus, whole, hne, hwhole, some after, by rintro _ ⟨⟩; exact hdigits,
          by rintro _ ⟨⟩; exact hle⟩
        have htext : n.text = s := by rw [hs, hbefore]; rfl
        exact ⟨n, .inl htext, (fixed8_text n).mp (htext ▸ h)⟩
      · have hle : ('0' :: ds).length ≤ 8 := by
          have hcount : utf8Len ('+' :: ds) = 1 + utf8Len ds := rfl
          rw [List.length_cons, ← utf8Len_of_digits hdigits, Nat.add_comm, ← hcount]
          exact hlen
        let n : Numeral 8 := ⟨plus, whole, hne, hwhole, some ('0' :: ds),
          by rintro _ ⟨⟩; exact List.forall_mem_cons.mpr ⟨rfl, hdigits⟩,
          by rintro _ ⟨⟩; exact hle⟩
        have hmiss : Misspells s n := ⟨ds, rfl, by rw [hs, hbefore]; rfl⟩
        exact ⟨n, .inr hmiss, (fixed8_of_misspells hmiss).mp h⟩

end Numerals

/-! ## Surrounding whitespace -/

theorem trim_surrounded {pre s post : List Char} (hpre : ∀ c ∈ pre, isWhitespace c)
    (hs : ∀ c ∈ s, ¬ isWhitespace c) (hpost : ∀ c ∈ post, isWhitespace c) :
    trim (pre ++ s ++ post) = s := by
  have hdrop : ∀ t : List Char, (∀ c ∈ t, ¬ isWhitespace c) → t.dropWhile isWhitespace = t := by
    intro t ht
    exact List.dropWhile_eq_self_iff.mpr fun hl ↦ ht _ (List.getElem_mem hl)
  have hpost' : ∀ c ∈ post.reverse, isWhitespace c := fun c hc ↦ hpost c (List.mem_reverse.mp hc)
  rw [trim, List.append_assoc, List.dropWhile_append_of_pos hpre, List.rdropWhile]
  by_cases hempty : s = []
  · rw [hempty, List.nil_append, List.dropWhile_eq_nil_iff.mpr hpost]
    rfl
  · have hkeep : (s ++ post).dropWhile isWhitespace = s ++ post := by
      rw [List.dropWhile_append, hdrop s hs, if_neg (by rwa [List.isEmpty_iff])]
    rw [hkeep, List.reverse_append, List.dropWhile_append_of_pos hpost',
      hdrop _ fun c hc ↦ hs c (List.mem_reverse.mp hc), List.reverse_reverse]

theorem exists_surrounded_trim (s : List Char) : ∃ pre post, (∀ c ∈ pre, isWhitespace c) ∧
    (∀ c ∈ post, isWhitespace c) ∧ s = pre ++ trim s ++ post := by
  refine ⟨s.takeWhile isWhitespace, (s.dropWhile isWhitespace).rtakeWhile isWhitespace,
    fun c hc ↦ List.mem_takeWhile_imp hc, fun c hc ↦ List.mem_rtakeWhile_imp hc, ?_⟩
  rw [trim, List.append_assoc, List.rdropWhile_append_rtakeWhile,
    List.takeWhile_append_dropWhile]

theorem text_not_whitespace (n : Numeral 8) : ∀ c ∈ n.text, ¬ isWhitespace c := by
  intro c hc
  rw [Numeral.text, List.mem_append, List.mem_append] at hc
  rcases hc with (hsign | hwhole) | hfrac
  · unfold Numeral.sign at hsign
    split at hsign
    · obtain rfl := List.mem_singleton.mp hsign
      decide
    · cases hsign
  · exact not_isWhitespace_of_isDigit (n.whole_digits c hwhole)
  · cases h : n.frac with
    | none =>
        rw [h] at hfrac
        cases hfrac
    | some f =>
        rw [h] at hfrac
        rcases List.mem_cons.mp hfrac with rfl | hdigit
        · decide
        · exact not_isWhitespace_of_isDigit (n.frac_digits f h c hdigit)

end Decimal

open Decimal

/-- The string is `n` with whitespace around it. -/
def Spells (s : String) (n : Numeral 8) : Prop :=
  ∃ pre post, (∀ c ∈ pre, isWhitespace c) ∧ (∀ c ∈ post, isWhitespace c) ∧
    s.toList = pre ++ n.text ++ post

theorem spells_iff {s : String} {n : Numeral 8} : Spells s n ↔ n.text = trim s.toList := by
  constructor
  · rintro ⟨pre, post, hpre, hpost, hs⟩
    rw [hs, trim_surrounded hpre (text_not_whitespace n) hpost]
  · intro htext
    obtain ⟨pre, post, hpre, hpost, hs⟩ := exists_surrounded_trim s.toList
    exact ⟨pre, post, hpre, hpost, htext ▸ hs⟩

theorem parseFixed8_eq_error {s : String} (h : ∀ raw, parseFixed8 s ≠ .ok raw) :
    parseFixed8 s = .error (.badDecimal (String.ofList (trim s.toList))) := by
  simp only [parseFixed8] at h ⊢
  split
  · rename_i raw hraw
    exact absurd (by rw [hraw]) (h raw)
  · rfl

theorem parseFixed8_spells {s : String} {n : Numeral 8} (h : Spells s n) {raw : UInt64} :
    parseFixed8 s = .ok raw ↔ raw.toNat = n.scaled := by
  rw [parseFixed8_eq_ok, ← spells_iff.mp h, fixed8_text]

/-! ## Soundness -/

/-- What is accepted is a numeral with this value, and nothing else is accepted. -/
structure ReadsNumeral (s : String) : Prop where
  of_ok : ∀ raw, parseFixed8 s = .ok raw →
    ∃ n : Numeral 8, Spells s n ∧ (raw.toNat : ℚ) = n.value * ((10 ^ 8 : ℕ) : ℚ)
  of_not_numeral : (¬ ∃ n : Numeral 8, Spells s n) → ∃ e, parseFixed8 s = .error e

/-- Behind the first point stands a plus sign, and the string is within the range of
a numeral once that sign is a zero. -/
def PlusAfterPoint (s : String) : Prop :=
  ∃ n : Numeral 8, Misspells (trim s.toList) n ∧ n.scaled < 2 ^ 64

theorem not_readsNumeral {s : String} (h : PlusAfterPoint s) : ¬ ReadsNumeral s := by
  obtain ⟨n, hmiss, hfits⟩ := h
  intro hreads
  have hraw : (UInt64.ofNat n.scaled).toNat = n.scaled := UInt64.toNat_ofNat_of_lt' hfits
  have hok : parseFixed8 s = .ok (UInt64.ofNat n.scaled) :=
    parseFixed8_eq_ok.mpr ((fixed8_of_misspells hmiss).mpr hraw)
  obtain ⟨m, hm, -⟩ := hreads.of_ok _ hok
  exact not_text_of_misspells hmiss m (spells_iff.mp hm)

theorem reads_numeral_iff (s : String) : ReadsNumeral s ↔ ¬ PlusAfterPoint s := by
  constructor
  · intro hreads hplus
    exact not_readsNumeral hplus hreads
  · intro hplus
    have hok : ∀ raw, parseFixed8 s = .ok raw →
        ∃ n : Numeral 8, Spells s n ∧ raw.toNat = n.scaled := by
      intro raw hraw
      obtain ⟨n, htext | hmiss, hn⟩ := exists_numeral_of_fixed8 (parseFixed8_eq_ok.mp hraw)
      · exact ⟨n, spells_iff.mpr htext, hn⟩
      · exact absurd ⟨n, hmiss, hn ▸ raw.toNat_lt⟩ hplus
    refine ⟨?_, ?_⟩
    · intro raw hraw
      obtain ⟨n, hspells, hn⟩ := hok raw hraw
      exact ⟨n, hspells, by rw [hn, n.scaled_eq]⟩
    · intro hnone
      refine ⟨_, parseFixed8_eq_error ?_⟩
      intro raw hraw
      obtain ⟨n, hspells, -⟩ := hok raw hraw
      exact hnone ⟨n, hspells⟩

def numeral (whole frac : String) (hne : whole.toList ≠ [])
    (hwhole : whole.toList.all Char.isDigit) (hfrac : frac.toList.all Char.isDigit)
    (hlen : frac.toList.length ≤ 8) : Numeral 8 where
  plus := false
  whole := whole.toList
  whole_ne_nil := hne
  whole_digits := List.all_eq_true.mp hwhole
  frac := some frac.toList
  frac_digits := by rintro _ ⟨⟩; exact List.all_eq_true.mp hfrac
  length_frac_le := by rintro _ ⟨⟩; exact hlen

/-- `1.+5` is read as 1.05. -/
theorem plus_after_point_read :
    parseFixed8 "1.+5" = .ok 105000000 ∧ ¬ ReadsNumeral "1.+5" := by
  refine ⟨by decide +kernel, not_readsNumeral ?_⟩
  let n := numeral "1" "05" (by decide) (by decide) (by decide) (by decide)
  exact ⟨n, ⟨['5'], by decide +kernel, by decide +kernel⟩, by decide +kernel⟩

/-! ## Completeness -/

/-- `format!("{int_part}.{frac_part:08}")` for the two parts of `raw`. -/
def renderFixed8 (raw : UInt64) : String :=
  toString (raw.toNat / 10 ^ 8) ++ "." ++
    String.ofList ((toString (raw.toNat % 10 ^ 8)).toList.leftpad 8 '0')

theorem spells_renderFixed8 (raw : UInt64) :
    Spells (renderFixed8 raw) (Numeral.fixed (by decide) raw.toNat) := by
  refine ⟨[], [], by rintro c ⟨⟩, by rintro c ⟨⟩, ?_⟩
  simp [renderFixed8, Numeral.text, Numeral.sign, Numeral.fixed]

/-- Every spelling of a value in range is read as that value, and one beyond the range
is refused; so what is rendered is read back. -/
theorem numerals_read :
    (∀ (s : String) (n : Numeral 8), Spells s n →
      (∀ raw : UInt64, (raw.toNat : ℚ) = n.value * ((10 ^ 8 : ℕ) : ℚ) →
        parseFixed8 s = .ok raw) ∧
      (((2 ^ 64 - 1 : ℕ) : ℚ) < n.value * ((10 ^ 8 : ℕ) : ℚ) →
        ∃ e, parseFixed8 s = .error e)) ∧
    ∀ raw, parseFixed8 (renderFixed8 raw) = .ok raw := by
  refine ⟨?_, ?_⟩
  · intro s n hspells
    rw [← n.scaled_eq]
    refine ⟨?_, ?_⟩
    · intro raw hraw
      exact (parseFixed8_spells hspells).mpr (Nat.cast_injective hraw)
    · intro hlarge
      refine ⟨_, parseFixed8_eq_error ?_⟩
      intro raw hraw
      have hn := (parseFixed8_spells hspells).mp hraw
      have hlt : 2 ^ 64 - 1 < n.scaled := Nat.cast_lt.mp hlarge
      have hfits := raw.toNat_lt
      omega
  · intro raw
    exact (parseFixed8_spells (spells_renderFixed8 raw)).mpr (Numeral.scaled_fixed _ _).symm

/-- The largest value with leading zeros and whitespace, and the value after it. -/
theorem numerals_read_limit :
    parseFixed8 "\t 00184467440737.09551615 " = .ok (2 ^ 64 - 1) ∧
      ∃ e, parseFixed8 "184467440737.09551616" = .error e := by
  let largest := numeral "00184467440737" "09551615" (by decide) (by decide) (by decide) (by decide)
  let next := numeral "184467440737" "09551616" (by decide) (by decide) (by decide) (by decide)
  have hlargest : Spells "\t 00184467440737.09551615 " largest :=
    ⟨['\t', ' '], [' '], by simp [isWhitespace], by simp [isWhitespace], by decide +kernel⟩
  have hnext : Spells "184467440737.09551616" next :=
    ⟨[], [], by rintro c ⟨⟩, by rintro c ⟨⟩, by decide +kernel⟩
  refine ⟨(numerals_read.1 _ largest hlargest).1 _ ?_, (numerals_read.1 _ next hnext).2 ?_⟩
  · rw [← largest.scaled_eq]
    exact congrArg Nat.cast (by decide +kernel)
  · rw [← next.scaled_eq]
    exact Nat.cast_lt.mpr (by decide +kernel)

end Geiger
