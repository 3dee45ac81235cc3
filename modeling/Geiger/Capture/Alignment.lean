import Geiger.Capture.RoundTrip
import Mathlib.Data.Nat.ModEq

/-!
# Where records are read

The reader is called any number of times, past errors and past the end of the
file.  While reads are short or interrupted only, call `i` gives record `i`.  An
error in the middle of a record loses the bytes read so far, and the calls after
it are in step again only once whole records have been lost.
-/

namespace Geiger.Capture

namespace TradeReader

open Chunks LittleEndian

/-- The reader after `k` calls of `next`. -/
def after : ℕ → TradeReader → TradeReader
  | 0, r => r
  | k + 1, r => after k r.next.2

/-- The result of call `k`, counted from zero. -/
def call (k : ℕ) (r : TradeReader) : Option (Except CaptureError NormalizedTrade) :=
  (after k r).next.1

theorem after_succ (k : ℕ) (r : TradeReader) : after (k + 1) r = (after k r).next.2 := by
  induction k generalizing r with
  | zero => rfl
  | succ k ih => exact ih r.next.2

/-! ## What a record decodes to -/

theorem exists_exchangeFromU8_iff {b : UInt8} : (∃ e, exchangeFromU8 b = .ok e) ↔ b ≤ 2 := by
  unfold exchangeFromU8
  split
  · simp [*]
  · split
    · simp [*]
    · split
      · simp [*]
      · simp only [reduceCtorEq, exists_false, false_iff]
        grind

theorem exists_takerSideFromU8_iff {b : UInt8} :
    (∃ s, takerSideFromU8 b = .ok s) ↔ b ≤ 1 := by
  unfold takerSideFromU8
  split
  · simp [*]
  · split
    · simp [*]
    · simp only [reduceCtorEq, exists_false, false_iff]
      grind

theorem exists_decodeItem_iff {buf : List UInt8} (h : buf.length = recordSize) :
    (∃ t, decodeItem buf = .ok t) ↔ buf.getD 48 0 ≤ 2 ∧ buf.getD 49 0 ≤ 1 := by
  rw [decodeItem, dif_pos h, decodeRecord, ← exists_exchangeFromU8_iff,
    ← exists_takerSideFromU8_iff]
  cases exchangeFromU8 (buf.getD 48 0) with
  | error err => simp [bind, Except.bind]
  | ok e =>
      cases takerSideFromU8 (buf.getD 49 0) with
      | error err => simp [bind, Except.bind]
      | ok s => simp [bind, Except.bind, pure, Except.pure]

theorem decodeItem_of_ne {buf : List UInt8} (h : buf.length ≠ recordSize) :
    decodeItem buf = .error (.truncated buf.length) := dif_neg h

/-! ## Reads that may be short or interrupted -/

theorem after_eq {script : List ReadOutcome} (hscript : Benign script) (body : List UInt8)
    (k : ℕ) : ∃ script', Benign script' ∧
      after k ⟨body, script⟩ = ⟨body.drop (recordSize * k), script'⟩ := by
  induction k generalizing script body with
  | zero => exact ⟨script, hscript, rfl⟩
  | succ k ih =>
      obtain ⟨script', hscript', hnext⟩ := next_eq (r := ⟨body, script⟩) hscript
      obtain ⟨script'', hscript'', hafter⟩ := ih hscript' (body.drop recordSize)
      refine ⟨script'', hscript'', ?_⟩
      rw [after, hnext, hafter, List.drop_drop, Nat.mul_succ, Nat.add_comm]

theorem lt_chunkCount_iff {body : List UInt8} {i : ℕ} :
    i < chunkCount recordSize body ↔ recordSize * i < body.length := by
  simp only [chunkCount, recordSize]
  omega

theorem call_eq {script : List ReadOutcome} (hscript : Benign script) (body : List UInt8)
    (i : ℕ) : call i ⟨body, script⟩ =
      if i < chunkCount recordSize body then some (decodeItem (chunk recordSize body i))
      else none := by
  obtain ⟨script', hscript', hafter⟩ := after_eq hscript body i
  obtain ⟨_, _, hnext⟩ := next_eq (r := ⟨body.drop (recordSize * i), script'⟩) hscript'
  have hend : body.drop (recordSize * i) = [] ↔ ¬ i < chunkCount recordSize body := by
    rw [lt_chunkCount_iff, List.drop_eq_nil_iff, Nat.not_lt]
  rw [call, hafter, hnext]
  by_cases hi : i < chunkCount recordSize body
  · rw [if_pos hi, if_neg fun hnil ↦ hend.mp hnil hi, chunk]
  · rw [if_neg hi, if_pos (hend.mpr hi)]

theorem length_chunk {body : List UInt8} (i : ℕ) :
    (chunk recordSize body i).length = min recordSize (body.length - recordSize * i) := by
  rw [chunk, List.length_take, List.length_drop]

theorem getD_chunk {body : List UInt8} (i : ℕ) {j : ℕ} (hj : j < recordSize) :
    (chunk recordSize body i).getD j 0 = body.getD (recordSize * i + j) 0 := by
  rw [chunk, List.getD_eq_getElem?_getD, List.getElem?_take_of_lt hj, List.getElem?_drop,
    List.getD_eq_getElem?_getD]

/-- However the reads are split, call `i` depends on bytes `[58 i, 58 i + 58)` of
the body alone, and the iterator ends after `⌈length / 58⌉` items. -/
theorem reads_record_aligned {script : List ReadOutcome} (hscript : Benign script)
    (body : List UInt8) :
    ∃ r, openFile (headerBytes ++ body) script = .ok r ∧
      (∀ i, r.call i =
        if i < (body.length + 57) / 58 then some (decodeItem (slice body (58 * i) (58 * i + 58)))
        else none) ∧
      (∀ i, 58 * i + 58 ≤ body.length →
        ((∃ t, r.call i = some (.ok t)) ↔
          body.getD (58 * i + 48) 0 ≤ 2 ∧ body.getD (58 * i + 49) 0 ≤ 1) ∧
        ∀ t, r.call i = some (.ok t) → encodeRecord t = slice body (58 * i) (58 * i + 58)) ∧
      ∀ i, 58 * i < body.length → body.length < 58 * i + 58 →
        r.call i = some (.error (.truncated (body.length - 58 * i))) := by
  have hslice (i : ℕ) : slice body (58 * i) (58 * i + 58) = chunk recordSize body i := by
    rw [slice, Nat.add_sub_cancel_left]
    rfl
  have hwhole {i : ℕ} (hi : 58 * i + 58 ≤ body.length) :
      call i ⟨body, script⟩ = some (decodeItem (chunk recordSize body i)) := by
    rw [call_eq hscript, if_pos]
    rw [lt_chunkCount_iff, recordSize]
    omega
  refine ⟨⟨body, script⟩, openFile_header body script, ?_, ?_, ?_⟩
  · intro i
    rw [hslice, call_eq hscript]
    rfl
  · intro i hi
    have hlen : (chunk recordSize body i).length = recordSize := by
      rw [length_chunk]
      simp only [recordSize]
      omega
    constructor
    · have hiff := exists_decodeItem_iff hlen
      rw [getD_chunk i (by decide), getD_chunk i (by decide)] at hiff
      simp only [hwhole hi, Option.some.injEq]
      exact hiff
    · intro t ht
      rw [hwhole hi, Option.some.injEq] at ht
      rw [hslice]
      exact encodeRecord_of_decodeItem ht
  · intro i hi hlt
    have hlen : (chunk recordSize body i).length = body.length - 58 * i := by
      rw [length_chunk]
      simp only [recordSize]
      omega
    have hne : (chunk recordSize body i).length ≠ recordSize := by
      rw [hlen, recordSize]
      omega
    rw [call_eq hscript, if_pos (lt_chunkCount_iff.mpr hi), decodeItem_of_ne hne, hlen]

/-- A corrupt record and a torn one, behind one-byte reads and an interrupt. -/
theorem reads_record_aligned_corrupt :
    ∃ r, openFile (headerBytes ++ (List.replicate 58 3 ++ encodeRecord (priced 1) ++ [0, 0]))
        [.short 0, .interrupted, .short 57] = .ok r ∧
      r.call 1 = some (decodeItem (slice
        (List.replicate 58 3 ++ encodeRecord (priced 1) ++ [0, 0]) (58 * 1) (58 * 1 + 58))) ∧
      r.call 2 = some (.error (.truncated 2)) ∧ r.call 3 = none := by
  have hscript : Benign [.short 0, .interrupted, .short 57] := by
    intro o ho
    simp only [List.mem_cons, List.not_mem_nil, or_false] at ho
    rcases ho with rfl | rfl | rfl <;> simp
  obtain ⟨r, hopen, hcall, -, htorn⟩ := reads_record_aligned hscript
    (List.replicate 58 3 ++ encodeRecord (priced 1) ++ [0, 0])
  refine ⟨r, hopen, ?_, htorn 2 (by decide) (by decide), ?_⟩
  · rw [hcall 1, if_pos (by decide)]
  · rw [hcall 3, if_neg (by decide)]

/-! ## Errors in the middle of a record -/

/-- How many bytes errors have thrown away by each time a record is complete, when
the file does not end first: `lost` bytes so far, `got` bytes of a record read. -/
def discarded (lost got : ℕ) : List ReadOutcome → List ℕ
  | [] => [lost]
  | .interrupted :: script => discarded lost got script
  | .failed :: script => discarded (lost + got) 0 script
  | .short n :: script =>
    let got' := got + min (n + 1) (recordSize - got)
    if got' = recordSize then lost :: discarded lost 0 script else discarded lost got' script

/-- The trades of any number of calls are records of the body, each decoded where
it starts, in file order. -/
def InStep (body : List UInt8) (script : List ReadOutcome) : Prop :=
  ∃ record : ℕ → ℕ,
    (∀ k t, call k ⟨body, script⟩ = some (.ok t) →
      decodeItem (chunk recordSize body (record k)) = .ok t) ∧
    ∀ j k t u, j < k → call j ⟨body, script⟩ = some (.ok t) →
      call k ⟨body, script⟩ = some (.ok u) → record j < record k

/-- One read: the bytes it takes off the file, and the losses still ahead. -/
theorem fill_spec {got rest : List UInt8} {script : List ReadOutcome} {r : TradeReader}
    {out : Option (List UInt8)} (h : fill got rest script = (out, r))
    (hgot : got.length < recordSize) (lost : ℕ) :
    ∃ bytes, rest = bytes ++ r.rest ∧ got.length + bytes.length ≤ recordSize ∧
      ((out = some (got ++ bytes) ∧ (got.length + bytes.length = recordSize ∨ r.rest = []) ∧
        (got.length + bytes.length = recordSize → ∀ d, d ∈ discarded lost got.length script ↔
          d = lost ∨ d ∈ discarded lost 0 r.script)) ∨
      (out = none ∧ (r.rest ≠ [] → discarded lost got.length script =
        discarded (lost + (got.length + bytes.length)) 0 r.script))) := by
  induction script generalizing got rest with
  | nil =>
      obtain ⟨rfl, rfl⟩ := Prod.mk.inj h
      refine ⟨_, (List.take_append_drop _ _).symm, ?_, .inl ⟨rfl, ?_, ?_⟩⟩
      · rw [List.length_take]
        omega
      · rw [List.length_take, List.drop_eq_nil_iff]
        omega
      · intro _ d
        simp [discarded]
  | cons o script ih =>
      cases o with
      | interrupted => exact ih h hgot
      | failed =>
          obtain ⟨rfl, rfl⟩ := Prod.mk.inj h
          exact ⟨[], rfl, hgot.le, .inr ⟨rfl, fun _ ↦ rfl⟩⟩
      | short n =>
          rw [discarded]
          generalize hk : min (n + 1) (recordSize - got.length) = k
          have hkpos : 0 < k := by omega
          have hkle : k ≤ recordSize - got.length := by omega
          have hlen : (got ++ rest.take k).length = got.length + min k rest.length := by
            rw [List.length_append, List.length_take]
          rcases fill_short hk rest script with
            ⟨hempty, heq⟩ | ⟨-, hfull, heq⟩ | ⟨-, hfull, heq⟩
          · obtain ⟨rfl, rfl⟩ := Prod.mk.inj (heq.symm.trans h)
            obtain rfl : rest = [] := (List.take_eq_nil_iff.mp hempty).resolve_left hkpos.ne'
            exact ⟨[], rfl, hgot.le, .inl ⟨by rw [List.append_nil], .inr rfl,
              fun hfull ↦ absurd hfull hgot.ne⟩⟩
          · obtain ⟨rfl, rfl⟩ := Prod.mk.inj (heq.symm.trans h)
            rw [List.length_append] at hfull
            refine ⟨rest.take k, (List.take_append_drop _ _).symm, hfull.le,
              .inl ⟨rfl, .inl hfull, fun _ d ↦ ?_⟩⟩
            have hwhole : got.length + k = recordSize := by
              rw [List.length_take] at hfull
              omega
            rw [if_pos hwhole, List.mem_cons]
          · have hshort : (got ++ rest.take k).length < recordSize := by omega
            obtain ⟨bytes, hrest, hle, hout⟩ := ih (heq.symm.trans h) hshort
            rw [List.length_append, Nat.add_assoc, ← List.length_append] at hle hout
            refine ⟨rest.take k ++ bytes, ?_, hle, ?_⟩
            · rw [List.append_assoc, ← hrest, List.take_append_drop]
            rw [List.append_assoc] at hout
            by_cases hall : k ≤ rest.length
            · have hcount : (rest.take k).length = k := List.length_take_of_le hall
              rw [List.length_append, hcount] at hfull
              rw [if_neg hfull]
              rwa [hcount] at hout
            · -- the file has ended, in the middle of the record
              have hend : rest.drop k = [] := List.drop_eq_nil_of_le (Nat.le_of_not_le hall)
              rw [hend] at hrest
              obtain ⟨rfl, hnil⟩ := List.append_eq_nil_iff.mp hrest.symm
              rw [List.append_nil] at hout ⊢
              rcases hout with ⟨hout, -, -⟩ | ⟨hout, -⟩
              · refine .inl ⟨hout, .inr hnil, fun hwhole ↦ ?_⟩
                rw [← List.length_append] at hwhole
                exact absurd hwhole hfull
              · exact .inr ⟨hout, fun hne ↦ absurd hnil hne⟩

/-- One call of `next`, in terms of the bytes it takes off the file. -/
theorem next_spec (r : TradeReader) (lost : ℕ) :
    ∃ bytes, r.rest = bytes ++ r.next.2.rest ∧ bytes.length ≤ recordSize ∧
      ((r.next.1 = (if bytes = [] then none else some (decodeItem bytes)) ∧
        (bytes.length = recordSize ∨ r.next.2.rest = []) ∧
        (bytes.length = recordSize → ∀ d, d ∈ discarded lost 0 r.script ↔
          d = lost ∨ d ∈ discarded lost 0 r.next.2.script)) ∨
      (r.next.1 = some (.error .io) ∧ (r.next.2.rest ≠ [] →
        discarded lost 0 r.script = discarded (lost + bytes.length) 0 r.next.2.script))) := by
  cases hfill : fill [] r.rest r.script with
  | mk out r' =>
      obtain ⟨bytes, hrest, hle, hout⟩ := fill_spec hfill recordSize_pos lost
      simp only [List.nil_append, List.length_nil, Nat.zero_add] at hle hout
      rcases hout with ⟨rfl, hend, hlost⟩ | ⟨rfl, hlost⟩
      · have hnext : r.next = (if bytes = [] then none else some (decodeItem bytes), r') := by
          simp only [next, hfill]
        rw [hnext]
        exact ⟨bytes, hrest, hle, .inl ⟨rfl, hend, hlost⟩⟩
      · have hnext : r.next = (some (.error .io), r') := by simp only [next, hfill]
        rw [hnext]
        exact ⟨bytes, hrest, hle, .inr ⟨rfl, hlost⟩⟩

theorem suffix_next (r : TradeReader) : r.next.2.rest <:+ r.rest := by
  obtain ⟨bytes, hrest, -⟩ := next_spec r 0
  exact ⟨bytes, hrest.symm⟩

theorem suffix_after {i k : ℕ} (h : i ≤ k) (r : TradeReader) :
    (after k r).rest <:+ (after i r).rest := by
  induction h with
  | refl => exact List.suffix_rfl
  | step _ ih =>
      rw [after_succ]
      exact (suffix_next _).trans ih

theorem suffix_body (body : List UInt8) (script : List ReadOutcome) (k : ℕ) :
    (after k ⟨body, script⟩).rest <:+ body :=
  suffix_after (Nat.zero_le k) ⟨body, script⟩

/-- A trade comes from 58 bytes off the front of what is left. -/
theorem next_of_ok {r : TradeReader} {t : NormalizedTrade} (h : r.next.1 = some (.ok t)) :
    decodeItem (r.rest.take recordSize) = .ok t ∧
      r.rest.length = r.next.2.rest.length + recordSize ∧
      ∀ lost, lost ∈ discarded lost 0 r.script := by
  have hwhole (lost : ℕ) : ∃ bytes, r.rest = bytes ++ r.next.2.rest ∧
      bytes.length = recordSize ∧ decodeItem bytes = .ok t ∧ lost ∈ discarded lost 0 r.script := by
    obtain ⟨bytes, hrest, -, ⟨hitem, -, hlost⟩ | ⟨hitem, -⟩⟩ := next_spec r lost
    · have hdecode : decodeItem bytes = .ok t := by
        rw [hitem] at h
        split at h
        · cases h
        · exact Option.some.inj h
      have hlen : bytes.length = recordSize := by
        by_contra hne
        rw [decodeItem_of_ne hne] at hdecode
        cases hdecode
      exact ⟨bytes, hrest, hlen, hdecode, (hlost hlen lost).mpr (.inl rfl)⟩
    · rw [hitem] at h
      cases h
  obtain ⟨bytes, hrest, hlen, hdecode, -⟩ := hwhole 0
  refine ⟨?_, ?_, fun lost ↦ ?_⟩
  · rwa [hrest, List.take_left' hlen]
  · rw [hrest, List.length_append, hlen, Nat.add_comm]
  · obtain ⟨_, _, _, _, hmem⟩ := hwhole lost
    exact hmem

/-- Until the file has ended, the reader is out of step by what errors have thrown
away, and what it may still throw away the script foretold. -/
theorem after_lost (body : List UInt8) (script : List ReadOutcome) (k : ℕ) :
    (after k ⟨body, script⟩).rest = [] ∨
      ∃ lost, (after k ⟨body, script⟩).rest.length + lost ≡ body.length [MOD recordSize] ∧
        ∀ d ∈ discarded lost 0 (after k ⟨body, script⟩).script, d ∈ discarded 0 0 script := by
  induction k with
  | zero => exact .inr ⟨0, rfl, fun d hd ↦ hd⟩
  | succ k ih =>
      rw [after_succ]
      generalize after k ⟨body, script⟩ = r at ih ⊢
      by_cases hend : r.next.2.rest = []
      · exact .inl hend
      · rcases ih with hnil | ⟨lost, hmod, hmem⟩
        · have hsuffix := suffix_next r
          rw [hnil, List.suffix_nil] at hsuffix
          exact absurd hsuffix hend
        · obtain ⟨bytes, hrest, -, ⟨-, hwhole, hlost⟩ | ⟨-, hlost⟩⟩ := next_spec r lost
          · have hlen : bytes.length = recordSize := hwhole.resolve_right hend
            refine .inr ⟨lost, ?_, fun d hd ↦ hmem d ((hlost hlen d).mpr (.inr hd))⟩
            rw [hrest, List.length_append, hlen, Nat.add_assoc] at hmod
            exact (Nat.add_modEq_left.symm.trans hmod :)
          · refine .inr ⟨lost + bytes.length, ?_, fun d hd ↦ hmem d ((hlost hend) ▸ hd)⟩
            rw [hrest, List.length_append] at hmod
            rwa [Nat.add_comm lost, ← Nat.add_assoc, Nat.add_comm _ bytes.length]

theorem inStep_of_discarded {script : List ReadOutcome}
    (hscript : ∀ d ∈ discarded 0 0 script, recordSize ∣ d) (body : List UInt8) :
    InStep body script := by
  have hstart {k : ℕ} {t : NormalizedTrade} (hk : call k ⟨body, script⟩ = some (.ok t)) :
      recordSize ∣ body.length - (after k ⟨body, script⟩).rest.length := by
    obtain ⟨-, hlen, hmem⟩ := next_of_ok hk
    rcases after_lost body script k with hnil | ⟨lost, hmod, hsub⟩
    · rw [hnil, List.length_nil] at hlen
      simp [recordSize] at hlen
    · have hlost : recordSize ∣ lost := hscript lost (hsub lost (hmem lost))
      have hle := (suffix_body body script k).length_le
      apply (Nat.modEq_iff_dvd' hle).mp
      exact ((Nat.modEq_zero_iff_dvd.mpr hlost).add_left _).symm.trans hmod
  refine ⟨fun k ↦ (body.length - (after k ⟨body, script⟩).rest.length) / recordSize, ?_, ?_⟩
  · intro k t hk
    obtain ⟨hdecode, -, -⟩ := next_of_ok hk
    rw [chunk, Nat.mul_div_cancel' (hstart hk),
      ← List.suffix_iff_eq_drop.mp (suffix_body body script k)]
    exact hdecode
  · intro j k t u hjk hj hk
    obtain ⟨-, hlen, -⟩ := next_of_ok hj
    rw [← after_succ] at hlen
    have hlast :
        (after k ⟨body, script⟩).rest.length ≤ (after (j + 1) ⟨body, script⟩).rest.length :=
      (suffix_after hjk ⟨body, script⟩).length_le
    have hfirst := (suffix_body body script j).length_le
    simp only [recordSize] at hlen ⊢
    omega

theorem length_script_fill (got rest : List UInt8) (script : List ReadOutcome) :
    (fill got rest script).2.script.length ≤ script.length - 1 := by
  induction script generalizing got rest with
  | nil => exact le_rfl
  | cons o script ih =>
      have hle (got rest : List UInt8) :
          (fill got rest script).2.script.length ≤ script.length :=
        (ih got rest).trans (Nat.sub_le _ _)
      cases o with
      | interrupted => exact hle got rest
      | failed => exact le_rfl
      | short n =>
          simp only [fill]
          split
          · exact le_rfl
          · split
            · exact le_rfl
            · exact hle _ _

theorem length_script_next (r : TradeReader) :
    r.next.2.script.length ≤ r.script.length - 1 := by
  have hle := length_script_fill [] r.rest r.script
  unfold next
  split
  · rename_i hfill
    rwa [hfill] at hle
  · rename_i hfill
    rwa [hfill] at hle

theorem exists_decodeItem_of_le_one {buf : List UInt8} (hlen : buf.length = recordSize)
    (hbytes : ∀ b ∈ buf, b ≤ 1) : ∃ t, decodeItem buf = .ok t := by
  have hbyte (j : ℕ) (hj : j < recordSize) : buf.getD j 0 ≤ 1 := by
    rw [List.getD_eq_getElem buf 0 (hj.trans_eq hlen.symm)]
    exact hbytes _ (List.getElem_mem _)
  have hone : (1 : UInt8) ≤ 2 := by decide
  exact (exists_decodeItem_iff hlen).mpr
    ⟨UInt8.le_trans (hbyte 48 (by decide)) hone, hbyte 49 (by decide)⟩

/-- While the file lasts, every total of thrown-away bytes is that of some trade. -/
theorem exists_call_of_mem_discarded {n : ℕ} {r : TradeReader} (hn : r.script.length ≤ n)
    (hlong : recordSize * (n + 1) ≤ r.rest.length) (hbytes : ∀ b ∈ r.rest, b ≤ 1)
    {lost d : ℕ} (hd : d ∈ discarded lost 0 r.script) :
    ∃ k t, call k r = some (.ok t) ∧
      (after k r).rest.length + d ≡ r.rest.length + lost [MOD recordSize] := by
  induction n generalizing r lost with
  | zero =>
      obtain ⟨body, script⟩ := r
      obtain rfl : script = [] := List.eq_nil_of_length_eq_zero (Nat.le_zero.mp hn)
      obtain rfl : d = lost := List.mem_singleton.mp hd
      have hpos : recordSize * 0 < body.length := recordSize_pos.trans_le hlong
      have hlen : (chunk recordSize body 0).length = recordSize := by
        rw [length_chunk]
        exact Nat.min_eq_left hlong
      obtain ⟨t, ht⟩ := exists_decodeItem_of_le_one hlen fun b hb ↦
        hbytes b (List.mem_of_mem_drop (List.mem_of_mem_take hb))
      refine ⟨0, t, ?_, rfl⟩
      rw [call_eq (by rintro o ⟨⟩), if_pos (lt_chunkCount_iff.mpr hpos), ht]
  | succ n ih =>
      have hscript : r.next.2.script.length ≤ n := by
        have hle := length_script_next r
        omega
      obtain ⟨bytes, hrest, hle, hout⟩ := next_spec r lost
      have hlen : r.rest.length = bytes.length + r.next.2.rest.length := by
        rw [← List.length_append, ← hrest]
      have hlong' : recordSize * (n + 1) ≤ r.next.2.rest.length := by
        rw [Nat.mul_succ] at hlong
        omega
      have hne : r.next.2.rest ≠ [] := by
        apply List.ne_nil_of_length_pos
        simp only [recordSize] at hlong'
        omega
      have hbytes' : ∀ b ∈ r.next.2.rest, b ≤ 1 := fun b hb ↦
        hbytes b (hrest ▸ List.mem_append_right bytes hb)
      rcases hout with ⟨hitem, hwhole, hlost⟩ | ⟨-, hlost⟩
      · have hbuf : bytes.length = recordSize := hwhole.resolve_right hne
        rcases (hlost hbuf d).mp hd with rfl | hd
        · obtain ⟨t, ht⟩ := exists_decodeItem_of_le_one hbuf fun b hb ↦
            hbytes b (hrest ▸ List.mem_append_left _ hb)
          have hcons : bytes ≠ [] := List.ne_nil_of_length_pos (hbuf ▸ recordSize_pos)
          refine ⟨0, t, ?_, rfl⟩
          rw [call, after, hitem, if_neg hcons, ht]
        · obtain ⟨k, t, hk, hmod⟩ := ih hscript hlong' hbytes' hd
          refine ⟨k + 1, t, hk, hmod.trans ?_⟩
          rw [hlen, hbuf, Nat.add_assoc]
          exact Nat.add_modEq_left.symm
      · rw [hlost hne] at hd
        obtain ⟨k, t, hk, hmod⟩ := ih hscript hlong' hbytes' hd
        refine ⟨k + 1, t, hk, hmod.trans ?_⟩
        rw [hlen, Nat.add_comm lost, ← Nat.add_assoc, Nat.add_comm bytes.length]

/-- A body whose records can be told from everything else by their first byte. -/
def marked (records : ℕ) : List UInt8 :=
  (List.range (recordSize * records)).map fun p ↦ if recordSize ∣ p then 1 else 0

@[simp] theorem length_marked (records : ℕ) : (marked records).length = recordSize * records := by
  simp [marked]

theorem getElem?_marked {records p : ℕ} (h : p < recordSize * records) :
    (marked records)[p]? = some (if recordSize ∣ p then 1 else 0) := by
  simp [marked, h]

theorem dvd_of_chunk_eq {records i : ℕ} {rest : List UInt8}
    (hlen : (chunk recordSize (marked records) i).length = recordSize)
    (hbuf : chunk recordSize (marked records) i = rest.take recordSize)
    (hsuffix : rest <:+ marked records) : recordSize ∣ rest.length := by
  obtain ⟨skipped, hbody⟩ := hsuffix
  have hlength : skipped.length + rest.length = recordSize * records := by
    rw [← List.length_append, hbody, length_marked]
  have hpos : 0 < rest.length := by
    rw [hbuf, List.length_take] at hlen
    have hsize := recordSize_pos
    omega
  have hchunk : recordSize * i < recordSize * records := by
    rw [length_chunk, length_marked] at hlen
    have hsize := recordSize_pos
    omega
  have hfirst : (chunk recordSize (marked records) i)[0]? = some 1 := by
    rw [chunk, List.getElem?_take_of_lt recordSize_pos, List.getElem?_drop, Nat.add_zero,
      getElem?_marked hchunk, if_pos (Nat.dvd_mul_right _ _)]
  have hskipped : (marked records)[skipped.length]? = some 1 := by
    rw [← hbody, List.getElem?_append_right le_rfl, Nat.sub_self, ← hfirst, hbuf,
      List.getElem?_take_of_lt recordSize_pos]
  rw [getElem?_marked (by omega)] at hskipped
  have hdvd : recordSize ∣ skipped.length := by
    by_contra hne
    rw [if_neg hne] at hskipped
    cases hskipped
  apply (Nat.dvd_add_right hdvd).mp
  rw [hlength]
  exact Nat.dvd_mul_right _ _

/-- The trades of all later calls are whole records, in file order, for every body
exactly when the bytes thrown away by errors before each complete record make up
whole records. -/
theorem reads_in_step_iff (script : List ReadOutcome) :
    (∀ body, InStep body script) ↔ ∀ d ∈ discarded 0 0 script, recordSize ∣ d := by
  constructor
  · intro hall d hd
    have hbody := length_marked (script.length + 1)
    have hbytes : ∀ b ∈ marked (script.length + 1), b ≤ 1 := by
      intro b hb
      obtain ⟨p, -, rfl⟩ := List.mem_map.mp hb
      split <;> decide
    obtain ⟨k, t, hk, hmod⟩ := exists_call_of_mem_discarded
      (r := ⟨marked (script.length + 1), script⟩) le_rfl hbody.ge hbytes hd
    obtain ⟨record, hrecord, -⟩ := hall (marked (script.length + 1))
    obtain ⟨hdecode, -, -⟩ := next_of_ok hk
    -- the record and the bytes read are the same
    have hbuf := (encodeRecord_of_decodeItem (hrecord k t hk)).symm.trans
      (encodeRecord_of_decodeItem hdecode)
    have hlen : (chunk recordSize (marked (script.length + 1)) (record k)).length =
        recordSize := by
      rw [← encodeRecord_of_decodeItem (hrecord k t hk), length_encodeRecord]
    have hrest := dvd_of_chunk_eq hlen hbuf (suffix_body _ script k)
    have hsum : recordSize ∣ (after k ⟨marked (script.length + 1), script⟩).rest.length + d := by
      rw [← Nat.modEq_zero_iff_dvd]
      apply hmod.trans
      rw [hbody, Nat.modEq_zero_iff_dvd]
      exact Nat.dvd_mul_right _ _
    exact (Nat.dvd_add_right hrest).mp hsum
  · exact inStep_of_discarded

/-- One byte read, then an error: the next call joins the last 57 bytes of a record
to the first of its successor. -/
theorem failed_mid_record_shifts :
    ∃ t, (TradeReader.mk ([priced 1, priced 2].flatMap encodeRecord) [.short 0, .failed]).call 1 =
        some (.ok t) ∧ t.sequence = 2 ^ 57 ∧
      ¬ InStep ([priced 1, priced 2].flatMap encodeRecord) [.short 0, .failed] := by
  have hitem : (TradeReader.mk ([priced 1, priced 2].flatMap encodeRecord)
      [.short 0, .failed]).call 1 =
        some (.ok { priced 0 with sequence := 2 ^ 57 }) := by
    decide +kernel
  refine ⟨_, hitem, rfl, ?_⟩
  rintro ⟨record, hrecord, -⟩
  have hchunk := encodeRecord_of_decodeItem (hrecord 1 _ hitem)
  generalize record 1 = i at hchunk
  rcases i with _ | _ | i
  · revert hchunk
    decide
  · revert hchunk
    decide
  · have hlen := congrArg List.length hchunk
    rw [length_encodeRecord, length_chunk, List.length_flatMap] at hlen
    simp [recordSize] at hlen
    omega

end TradeReader

end Geiger.Capture
