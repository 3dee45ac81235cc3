import Geiger.Capture.Reader

/-!
# Resuming a truncated file

Records are not framed, so a session appended after a partial record is read out
of step.  Resuming is safe for every further session exactly when the truncation
fell between two records.
-/

namespace Geiger.Capture

open Chunks TradeReader

def oks (items : List (Except CaptureError NormalizedTrade)) : List NormalizedTrade :=
  items.filterMap Except.toOption

theorem oks_append (xs ys : List (Except CaptureError NormalizedTrade)) :
    oks (xs ++ ys) = oks xs ++ oks ys := List.filterMap_append

@[simp] theorem oks_nil : oks [] = [] := rfl

@[simp] theorem oks_cons_ok (t : NormalizedTrade)
    (items : List (Except CaptureError NormalizedTrade)) : oks (.ok t :: items) = t :: oks items :=
  rfl

@[simp] theorem oks_cons_error (err : CaptureError)
    (items : List (Except CaptureError NormalizedTrade)) : oks (.error err :: items) = oks items :=
  rfl

@[simp] theorem oks_map_ok (ts : List NormalizedTrade) : oks (ts.map .ok) = ts := by
  induction ts with
  | nil => rfl
  | cons t ts ih => rw [List.map_cons, oks_cons_ok, ih]

/-- Recording `new` on `file` and reading the result back yields recorded trades
only, in recording order, all of the new session included; or `create` refuses. -/
def ResumesSafely (old : List NormalizedTrade) (file : List UInt8)
    (new : List NormalizedTrade) (script : List ReadOutcome) : Prop :=
  ∀ bytes, TradeRecorder.session (some file) new = .ok bytes →
    ∃ r, openFile bytes script = .ok r ∧ ∃ kept, kept.Sublist old ∧ oks r.items = kept ++ new

/-- What a truncation leaves of the records: whole ones, and part of the next. -/
theorem take_records (ts : List NormalizedTrade) {n : ℕ}
    (hn : n ≤ (ts.flatMap encodeRecord).length) :
    ∃ leftover, leftover.length = n % recordSize ∧ (ts.flatMap encodeRecord).take n =
      (ts.take (n / recordSize)).flatMap encodeRecord ++ leftover := by
  induction ts generalizing n with
  | nil =>
      obtain rfl : n = 0 := Nat.le_zero.mp hn
      exact ⟨[], rfl, rfl⟩
  | cons t ts ih =>
      rw [List.flatMap_cons, List.length_append, length_encodeRecord] at hn
      rcases Nat.lt_or_ge n recordSize with hlt | hge
      · refine ⟨(encodeRecord t).take n, ?_, ?_⟩
        · rw [List.length_take, length_encodeRecord, Nat.mod_eq_of_lt hlt]
          exact Nat.min_eq_left hlt.le
        · rw [Nat.div_eq_of_lt hlt, List.flatMap_cons, List.take_append_of_le_length]
          · rfl
          · rw [length_encodeRecord]
            exact hlt.le
      · obtain ⟨k, rfl⟩ := Nat.exists_eq_add_of_le hge
        obtain ⟨leftover, hlen, htake⟩ := ih (Nat.le_of_add_le_add_left hn)
        refine ⟨leftover, by rw [hlen, Nat.add_mod_left], ?_⟩
        have hdiv : (recordSize + k) / recordSize = k / recordSize + 1 :=
          Nat.add_div_left k recordSize_pos
        rw [hdiv, List.take_succ_cons, List.flatMap_cons, List.flatMap_cons, List.append_assoc,
          ← htake, ← length_encodeRecord t, List.take_length_add_append]

theorem length_records (ts : List NormalizedTrade) :
    (ts.flatMap encodeRecord).length = recordSize * ts.length := by
  simp [List.length_flatMap, Nat.mul_comm]

theorem length_captureFile (ts : List NormalizedTrade) :
    (captureFile ts).length = headerSize + recordSize * ts.length := by
  rw [captureFile, List.length_append, length_records]
  rfl

/-- A truncated file that keeps the header: whole records and part of the next. -/
theorem take_captureFile (ts : List NormalizedTrade) {n : ℕ}
    (hn : n ≤ (ts.flatMap encodeRecord).length) :
    ∃ leftover, leftover.length = n % recordSize ∧ (captureFile ts).take (headerSize + n) =
      headerBytes ++ ((ts.take (n / recordSize)).flatMap encodeRecord ++ leftover) := by
  obtain ⟨leftover, hleftover, htake⟩ := take_records ts hn
  have hheaderSize : headerSize = headerBytes.length := rfl
  exact ⟨leftover, hleftover, by
    rw [← htake, captureFile, hheaderSize, List.take_length_add_append]⟩

/-- The items of a file with whole records, a leftover and a further session. -/
theorem session_items (kept new : List NormalizedTrade) (leftover : List UInt8)
    {script : List ReadOutcome} (hscript : Benign script) :
    ∃ bytes r, TradeRecorder.session
        (some (headerBytes ++ (kept.flatMap encodeRecord ++ leftover))) new = .ok bytes ∧
      openFile bytes script = .ok r ∧
      r.items = kept.map .ok ++
        (chunks recordSize (leftover ++ new.flatMap encodeRecord)).map decodeItem := by
  refine ⟨_, ⟨kept.flatMap encodeRecord ++ leftover ++ new.flatMap encodeRecord, script⟩,
    session_of_header _ _, ?_, ?_⟩
  · rw [List.append_assoc headerBytes]
    exact openFile_header _ script
  · rw [items_eq_chunks hscript, List.append_assoc, chunks_records]

/-! ## A session that a leftover corrupts -/

theorem encodeRecord_eq_cons (t : NormalizedTrade) :
    ∃ bytes, encodeRecord t = UInt8.ofNat t.price.raw.toNat :: bytes :=
  ⟨_, rfl⟩

def priced (b : UInt8) : NormalizedTrade where
  price := ⟨b.toUInt64⟩
  qty := ⟨0⟩
  tsExchangeNs := 0
  tsRecvNs := 0
  symbol := .zeroed
  exchange := .binance
  takerSide := .buy
  sequence := 0

theorem head?_encodeRecord_priced (b : UInt8) :
    (encodeRecord (priced b)).head? = some b := by
  obtain ⟨bytes, hbytes⟩ := encodeRecord_eq_cons (priced b)
  rw [hbytes, List.head?_cons]
  simp [priced]

theorem exists_ne_ne (b c : Option UInt8) : ∃ d : UInt8, some d ≠ b ∧ some d ≠ c := by
  have h₁ : (some 0 : Option UInt8) ≠ some 1 := by decide
  have h₂ : (some 0 : Option UInt8) ≠ some 2 := by decide
  have h₃ : (some 1 : Option UInt8) ≠ some 2 := by decide
  by_cases hzero : some 0 ≠ b ∧ some 0 ≠ c
  · exact ⟨0, hzero⟩
  · by_cases hone : some 1 ≠ b ∧ some 1 ≠ c
    · exact ⟨1, hone⟩
    · exact ⟨2, by grind⟩

/-- After a partial record, one trade with a fresh first byte is not read back. -/
theorem not_resumesSafely (old kept : List NormalizedTrade) {leftover : List UInt8}
    (hpos : 0 < leftover.length) (hlt : leftover.length < recordSize) :
    ∃ t, ¬ ResumesSafely old (headerBytes ++ (kept.flatMap encodeRecord ++ leftover)) [t] [] := by
  obtain ⟨b, hfirst, hlast⟩ := exists_ne_ne leftover.head?
    ((kept.getLast?.bind fun t ↦ (encodeRecord t).head?))
  refine ⟨priced b, ?_⟩
  intro hsafe
  have hscript : Benign [] := by rintro o ⟨⟩
  obtain ⟨bytes, r, hsession, hopen, hitems⟩ :=
    session_items kept [priced b] leftover hscript
  obtain ⟨r', hopen', kept', -, hoks⟩ := hsafe bytes hsession
  obtain rfl := Except.ok.inj (hopen.symm.trans hopen')
  -- the leftover and the new record make one full chunk and one partial one
  have hne : leftover ++ encodeRecord (priced b) ≠ [] :=
    List.append_ne_nil_of_left_ne_nil (List.length_pos_iff.mp hpos) _
  have hrest : ((leftover ++ encodeRecord (priced b)).drop recordSize).length =
      leftover.length := by
    rw [List.length_drop, List.length_append, length_encodeRecord]
    omega
  have htail : (chunks recordSize ((leftover ++ encodeRecord (priced b)).drop recordSize)).map
      decodeItem = [.error (.truncated leftover.length)] := by
    have hne' : (leftover ++ encodeRecord (priced b)).drop recordSize ≠ [] :=
      List.ne_nil_of_length_pos (hrest ▸ hpos)
    rw [chunks_of_ne_nil recordSize_pos hne', List.drop_eq_nil_of_le (hrest.trans_lt hlt).le,
      chunks_nil recordSize_pos, List.take_of_length_le (hrest.trans_lt hlt).le]
    simp [decodeItem, hrest, hlt.ne]
  rw [hitems, List.flatMap_singleton, chunks_of_ne_nil recordSize_pos hne, List.map_cons, htail,
    oks_append, oks_map_ok] at hoks
  have hlastEq := congrArg List.getLast? hoks
  rw [List.getLast?_concat] at hlastEq
  cases hchunk : decodeItem ((leftover ++ encodeRecord (priced b)).take recordSize) with
  | ok t =>
      have ht : t = priced b := by
        simpa [hchunk] using hlastEq
      have hbytes := encodeRecord_of_decodeItem hchunk
      apply hfirst
      rw [← head?_encodeRecord_priced b, ← ht, hbytes, List.head?_take,
        List.head?_append_of_ne_nil]
      · simp [recordSize]
      · exact List.length_pos_iff.mp hpos
  | error err =>
      have hkept : kept.getLast? = some (priced b) := by
        simpa [hchunk] using hlastEq
      apply hlast
      rw [hkept, Option.bind_some, head?_encodeRecord_priced]

/-! ## When resuming is safe -/

/-- For every capture file and every truncation that keeps the header: all further
sessions, however the file is then read, resume safely exactly when the
truncation falls between two records. -/
theorem resumes_safely_iff (old : List NormalizedTrade) (len : ℕ) (hheader : headerSize ≤ len)
    (hlen : len ≤ (captureFile old).length) :
    (∀ new script, Benign script → ResumesSafely old ((captureFile old).take len) new script) ↔
      recordSize ∣ len - headerSize := by
  obtain ⟨n, rfl⟩ := Nat.exists_eq_add_of_le hheader
  have hn : n ≤ (old.flatMap encodeRecord).length := by
    rw [captureFile, List.length_append] at hlen
    exact Nat.le_of_add_le_add_left hlen
  obtain ⟨leftover, hleftover, hfile⟩ := take_captureFile old hn
  rw [hfile, Nat.add_sub_cancel_left]
  constructor
  · intro hsafe
    by_contra hpartial
    have hpos : 0 < leftover.length := by
      rw [hleftover]
      exact Nat.pos_of_ne_zero fun hzero ↦ hpartial (Nat.dvd_of_mod_eq_zero hzero)
    have hlt : leftover.length < recordSize := hleftover ▸ Nat.mod_lt _ recordSize_pos
    obtain ⟨t, ht⟩ := not_resumesSafely old (old.take (n / recordSize)) hpos hlt
    exact ht (hsafe [t] [] (by rintro o ⟨⟩))
  · intro hdvd new script hscript
    obtain rfl : leftover = [] :=
      List.eq_nil_of_length_eq_zero (hleftover.trans (Nat.mod_eq_zero_of_dvd hdvd))
    intro bytes hbytes
    obtain ⟨bytes', r, hsession, hopen, hitems⟩ :=
      session_items (old.take (n / recordSize)) new [] hscript
    obtain rfl := Except.ok.inj (hsession.symm.trans hbytes)
    refine ⟨r, hopen, old.take (n / recordSize), List.take_sublist _ _, ?_⟩
    have hnew := chunks_records new []
    rw [List.append_nil, chunks_nil recordSize_pos, List.map_nil, List.append_nil] at hnew
    rw [hitems, List.nil_append, hnew, oks_append, oks_map_ok, oks_map_ok]

theorem resumes_safely_iff_whole :
    (∀ new script, Benign script →
      ResumesSafely [priced 1] ((captureFile [priced 1]).take 63) new script) ↔
        recordSize ∣ 63 - headerSize :=
  resumes_safely_iff [priced 1] 63 (by decide) (by decide)

/-- One byte of the first record is left when the next session starts: the reader
then reports a trade at a price nobody recorded. -/
theorem truncated_resume_corrupts :
    ∃ bytes r, TradeRecorder.session (some ((captureFile [priced 1]).take 6)) [priced 2] =
        .ok bytes ∧
      openFile bytes [] = .ok r ∧
      r.items = [.ok { priced 2 with price := ⟨513⟩ }, .error (.truncated 1)] ∧
      ¬ ResumesSafely [priced 1] ((captureFile [priced 1]).take 6) [priced 2] [] := by
  have hitems : (TradeReader.mk (1 :: encodeRecord (priced 2)) []).items =
      [.ok { priced 2 with price := ⟨513⟩ }, .error (.truncated 1)] := by
    decide +kernel
  refine ⟨_, ⟨1 :: encodeRecord (priced 2), []⟩, rfl, rfl, hitems, ?_⟩
  intro hsafe
  obtain ⟨r, hopen, kept, -, hoks⟩ := hsafe _ rfl
  obtain rfl : TradeReader.mk (1 :: encodeRecord (priced 2)) [] = r := Except.ok.inj hopen
  rw [hitems] at hoks
  have hlast := congrArg List.getLast? hoks
  rw [List.getLast?_concat] at hlast
  revert hlast
  decide

end Geiger.Capture
