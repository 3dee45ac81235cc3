import Geiger.Ingest.Adapter

/-!
# The sequence numbers of an adapter

Sequence numbers count the trades sent as long as every decimal of every message
parses.  An entry whose price or quantity does not parse uses up a number, so
later trades are numbered ahead of their position.
-/

namespace Geiger

/-- The trades are numbered in order from `seq` on. -/
def NumberedFrom (seq : UInt64) (trades : List NormalizedTrade) : Prop :=
  ∀ k t, trades[k]? = some t → t.sequence = seq + UInt64.ofNat k

/-- An error leaves the counter alone; a success moves it by the number of its
trades and numbers these in order. -/
def CountsEmitted (seq : UInt64) : Except IngestError (List NormalizedTrade) × UInt64 → Prop
  | (.error _, seq') => seq' = seq
  | (.ok trades, seq') => seq' = seq + UInt64.ofNat trades.length ∧ NumberedFrom seq trades

/-- The text is not of the venue's form, or every decimal in it parses. -/
def DecimalsParse (fromStr : String → Option Json) (venue : Exchange) (text : String) : Prop :=
  ∀ ts ∈ (fromStr text).bind (fills venue), ∀ t ∈ ts, t.Parses

theorem iterate_succ_uint64 (seq : UInt64) (n : ℕ) :
    (· + 1)^[n] seq = seq + UInt64.ofNat n := by
  induction n with
  | zero => simp
  | succ n ih => rw [Function.iterate_succ_apply', ih, UInt64.ofNat_add, add_assoc]; rfl

section Decoders

variable {fromStr : String → Option Json} {symbol : Symbol} {venue : Exchange}
  {now : ℕ → UInt64} {seq seq' : UInt64} {fs : List Fill}

theorem normalizeAll_ok {trades : List NormalizedTrade}
    (h : normalizeAll symbol venue now seq fs = (.ok trades, seq')) :
    seq' = seq + UInt64.ofNat trades.length ∧ NumberedFrom seq trades := by
  obtain ⟨hcount, htrades⟩ := Numbering.collect_ok h
  refine ⟨by rw [hcount, iterate_succ_uint64], ?_⟩
  intro k t ht
  obtain ⟨_, -, ht⟩ := htrades k t ht
  rw [sequence_of_normalize ht, iterate_succ_uint64]

theorem normalizeAll_isOk_iff :
    (∃ trades seq', normalizeAll symbol venue now seq fs = (.ok trades, seq')) ↔
      ∀ t ∈ fs, t.Parses := by
  have hall := Numbering.collect_isOk_iff (· + 1)
    (fun seq (t : Fill × ℕ) ↦ t.1.normalize symbol venue (now t.2) seq)
    (fun _ _ ↦ normalize_isOk_iff) seq fs.zipIdx
  apply hall.trans
  constructor
  · intro h t ht
    obtain ⟨k, hk⟩ := List.mem_iff_getElem?.mp ht
    exact h (t, k) (List.mk_mem_zipIdx_iff_getElem?.mpr hk)
  · intro h t ht
    exact h t.1 (List.fst_mem_of_mem_zipIdx ht)

/-- An entry that does not parse has used up its number. -/
theorem normalizeAll_error {e : IngestError} (hsize : fs.length < 2 ^ 64)
    (h : normalizeAll symbol venue now seq fs = (.error e, seq')) : seq' ≠ seq := by
  obtain ⟨k, hk, hcount⟩ := Numbering.collect_error h
  rw [List.length_zipIdx] at hk
  rw [hcount, iterate_succ_uint64, Ne, add_eq_left, ← UInt64.toNat_inj, UInt64.toNat_ofNat']
  have hsmall : (k + 1) % 2 ^ 64 = k + 1 := Nat.mod_eq_of_lt (by omega)
  rw [hsmall]
  exact Nat.succ_ne_zero k

variable (fromStr symbol) in
theorem countsEmitted_of_decimalsParse {text : String} (h : DecimalsParse fromStr venue text)
    (now : ℕ → UInt64) (seq : UInt64) :
    CountsEmitted seq (decoder fromStr symbol venue text now seq) := by
  rw [decoder_eq]
  unfold DecimalsParse at h
  cases hfills : (fromStr text).bind (fills venue) with
  | none => rfl
  | some fs =>
      obtain ⟨trades, seq', hok⟩ :
          ∃ trades seq', normalizeAll symbol venue now seq fs = (.ok trades, seq') :=
        normalizeAll_isOk_iff.mpr (h fs hfills)
      simp only [hok]
      exact normalizeAll_ok hok

variable (fromStr symbol) in
/-- The two laws of one call hold exactly when every decimal parses; the size of a
batch only has to fit the counter. -/
theorem countsEmitted_iff {text : String}
    (hsize : ∀ ts ∈ (fromStr text).bind (fills venue), ts.length < 2 ^ 64) (now : ℕ → UInt64)
    (seq : UInt64) :
    CountsEmitted seq (decoder fromStr symbol venue text now seq) ↔
      DecimalsParse fromStr venue text := by
  refine ⟨?_, fun h ↦ countsEmitted_of_decimalsParse fromStr symbol h now seq⟩
  intro h ts hts
  rw [Option.mem_def] at hts
  rw [decoder_eq, hts] at h
  cases hcall : normalizeAll symbol venue now seq ts with
  | mk result seq' =>
      cases result with
      | ok trades => exact normalizeAll_isOk_iff.mp ⟨trades, seq', hcall⟩
      | error e =>
          simp only [hcall] at h
          exact absurd h (normalizeAll_error (hsize ts hts) hcall)

end Decoders

section Numbered

variable {seq : UInt64} {xs ys : List NormalizedTrade}

theorem NumberedFrom.append (hx : NumberedFrom seq xs)
    (hy : NumberedFrom (seq + UInt64.ofNat xs.length) ys) : NumberedFrom seq (xs ++ ys) := by
  intro k t ht
  rcases lt_or_ge k xs.length with hk | hk
  · rw [List.getElem?_append_left hk] at ht
    exact hx k t ht
  · rw [List.getElem?_append_right hk] at ht
    rw [hy _ t ht, add_assoc, ← UInt64.ofNat_add, Nat.add_sub_cancel' hk]

theorem NumberedFrom.of_append (h : NumberedFrom seq (xs ++ ys)) : NumberedFrom seq xs := by
  intro k t ht
  have hk : k < xs.length := (List.getElem?_eq_some_iff.mp ht).1
  exact h k t (by rw [List.getElem?_append_left hk, ht])

end Numbered

namespace Adapter

open Runs

def queued (a : Adapter) : List NormalizedTrade :=
  match a.phase with
  | .session trades => trades
  | _ => []

/-- While the worker lives, the counter is the number of trades decoded so far. -/
structure Counted (a : Adapter) : Prop where
  sent : NumberedFrom 0 a.sent
  alive : a.receiverAlive = true →
    a.sequence = UInt64.ofNat (a.sent ++ a.queued).length ∧ NumberedFrom 0 (a.sent ++ a.queued)

section Steps

variable {decode : Decoder} {a a' : Adapter}

theorem counted_new (cfg : BackoffConfig) : Counted (new cfg) :=
  ⟨by simp [new, NumberedFrom], fun _ ↦ ⟨rfl, by simp [new, queued, NumberedFrom]⟩⟩

theorem Counted.of_eq (h : Counted a) (hsent : a'.sent = a.sent)
    (hsequence : a'.sequence = a.sequence) (hqueued : a'.queued = a.queued)
    (halive : a'.receiverAlive = true → a.receiverAlive = true) : Counted a' := by
  refine ⟨by rw [hsent]; exact h.sent, ?_⟩
  intro hlive
  rw [hsent, hsequence, hqueued]
  exact h.alive (halive hlive)

theorem Counted.onText (h : Counted a) (hphase : a.phase = .session []) {text : String}
    {now : ℕ → UInt64} (hcounts : CountsEmitted a.sequence (decode text now a.sequence)) :
    Counted (a.onText decode text now) := by
  have hqueued : a.queued = [] := by simp [queued, hphase]
  unfold Adapter.onText
  rcases hcall : decode text now a.sequence with ⟨e | trades, sequence⟩ <;>
    simp only [hcall, CountsEmitted] at hcounts ⊢
  · exact h.of_eq rfl hcounts (by simp [endSession, queued, hphase]) id
  · obtain ⟨hsequence, hnumbered⟩ := hcounts
    refine ⟨h.sent, ?_⟩
    intro hlive
    obtain ⟨hcount, -⟩ := h.alive hlive
    rw [hqueued, List.append_nil] at hcount
    refine ⟨?_, ?_⟩
    · rw [hsequence, hcount, ← UInt64.ofNat_add, ← List.length_append]
      rfl
    · apply h.sent.append
      rw [zero_add, ← hcount]
      exact hnumbered

theorem Counted.onSend (h : Counted a) {t : NormalizedTrade} {rest : List NormalizedTrade}
    (hphase : a.phase = .session (t :: rest)) : Counted (a.onSend t rest) := by
  unfold Adapter.onSend
  split
  · rename_i hlive
    obtain ⟨hcount, hnumbered⟩ := h.alive hlive
    have hqueued : a.sent ++ a.queued = a.sent ++ [t] ++ rest := by simp [queued, hphase]
    rw [hqueued] at hcount hnumbered
    exact ⟨hnumbered.of_append, fun _ ↦ ⟨hcount, hnumbered⟩⟩
  · rename_i hdead
    exact ⟨h.sent, fun hlive ↦ absurd hlive hdead⟩

/-- One step, one case for each event.  Only a text can spoil the count. -/
theorem Counted.step (h : Counted a) {e : Event}
    (hcounts : ∀ text now, e = .text text now →
      CountsEmitted a.sequence (decode text now a.sequence))
    (hstep : a.step decode e = some a') : Counted a' := by
  cases e with
  | connectFailed =>
      obtain ⟨hphase, rfl⟩ := connectFailed_eq_some hstep
      exact h.of_eq rfl rfl (by simp [endSession, queued, hphase]) id
  | connected =>
      obtain ⟨hphase, rfl⟩ := connected_eq_some hstep
      exact h.of_eq rfl rfl (by simp [queued, hphase]) id
  | text text now =>
      obtain ⟨hphase, rfl⟩ := text_eq_some hstep
      exact h.onText hphase (hcounts text now rfl)
  | control =>
      obtain ⟨-, rfl⟩ := control_eq_some hstep
      exact h
  | closed =>
      obtain ⟨hphase, rfl⟩ := ended_eq_some (.inl rfl) hstep
      exact h.of_eq rfl rfl (by simp [endSession, queued, hphase]) id
  | failed =>
      obtain ⟨hphase, rfl⟩ := ended_eq_some (.inr rfl) hstep
      exact h.of_eq rfl rfl (by simp [endSession, queued, hphase]) id
  | send =>
      obtain ⟨t, rest, hphase, rfl⟩ := send_eq_some hstep
      exact h.onSend hphase
  | receiverDropped =>
      obtain rfl := receiverDropped_eq_some hstep
      exact ⟨h.sent, fun hlive ↦ by cases hlive⟩
  | wake =>
      obtain ⟨⟨delay, hphase⟩, rfl⟩ := wake_eq_some hstep
      exact h.of_eq rfl rfl (by simp [queued, hphase]) id

end Steps

/-- If every decimal of every message parses, then over all sessions the `k`-th
trade sent carries the number `k`.  A call of the decoder keeps the count exactly
when the decimals of its message parse. -/
theorem sequence_counts_sent (fromStr : String → Option Json) (symbol : Symbol)
    (venue : Exchange) (cfg : BackoffConfig) :
    (∀ text now seq, (∀ ts ∈ (fromStr text).bind (fills venue), ts.length < 2 ^ 64) →
      (CountsEmitted seq (decoder fromStr symbol venue text now seq) ↔
        DecimalsParse fromStr venue text)) ∧
    ∀ es a, run (step (decoder fromStr symbol venue)) (new cfg) es = some a →
      (∀ text now, .text text now ∈ es → DecimalsParse fromStr venue text) →
      ∀ k t, a.sent[k]? = some t → t.sequence = UInt64.ofNat k := by
  refine ⟨fun text now seq hsize ↦ countsEmitted_iff fromStr symbol hsize now seq, ?_⟩
  intro es a hrun hparse k t ht
  have hguard : Along (step (decoder fromStr symbol venue))
      (fun _ e ↦ ∀ text now, e = .text text now → DecimalsParse fromStr venue text)
      (new cfg) es := by
    apply along_of_mem
    rintro e he - text now rfl
    exact hparse text now he
  have hcounted : Counted a := invariant_along
    (fun s e s' hs hguard hstep ↦ hs.step (fun text now htext ↦
      countsEmitted_of_decimalsParse fromStr symbol (hguard text now htext) now _) hstep)
    (counted_new cfg) hguard hrun
  rw [hcounted.sent k t ht, zero_add]

/-! ## A run with a price of nine decimals -/

def btcusdt : Symbol := ⟨[66, 84, 67, 85, 83, 68, 84, 0, 0, 0, 0, 0, 0, 0, 0, 0], rfl⟩

def pushText (price : String) : String :=
  "\x7b\"topic\":\"publicTrade.BTCUSDT\",\"data\":[\x7b\"T\":1672304486865,\"S\":\"Buy\"," ++
    "\"v\":\"0.001\",\"p\":\"" ++ price ++ "\"\x7d]\x7d"

def pushJson (price : String) : Json :=
  .object [("topic", .string "publicTrade.BTCUSDT"),
    ("data", .array [.object [("T", .u64 1672304486865), ("S", .string "Buy"),
      ("v", .string "0.001"), ("p", .string price)]])]

/-- What the reader returns for pushes at these two prices. -/
def readPush (text : String) : Option Json :=
  ["16578.50", "16578.123456789"].findSome? fun price ↦
    if text = pushText price then some (pushJson price) else none

def goodSession : List Event :=
  [.connected, .text (pushText "16578.50") fun _ ↦ 0, .send]

def twoGoodSessions : List Event := goodSession ++ [.closed, .wake] ++ goodSession

theorem fills_goodPush : (readPush (pushText "16578.50")).bind (fills .bybit) =
    some [⟨"16578.50", "0.001", 1672304486865, .buy⟩] := rfl

theorem decimalsParse_goodPush : DecimalsParse readPush .bybit (pushText "16578.50") := by
  intro ts hts t ht
  rw [fills_goodPush, Option.mem_some] at hts
  subst hts
  obtain rfl := List.mem_singleton.mp ht
  exact ⟨⟨⟨1657850000000⟩, by decide +kernel⟩, ⟨100000⟩, by decide +kernel⟩

theorem sequence_counts_sent_twoGoodSessions :
    CountsEmitted 5 (decoder readPush btcusdt .bybit (pushText "16578.50") (fun _ ↦ 0) 5) ∧
    ∃ a, run (step (decoder readPush btcusdt .bybit)) (new .default) twoGoodSessions = some a ∧
      a.sent.length = 2 ∧ ∀ k t, a.sent[k]? = some t → t.sequence = UInt64.ofNat k := by
  obtain ⟨hcall, hruns⟩ := sequence_counts_sent readPush btcusdt .bybit .default
  constructor
  · apply (hcall (pushText "16578.50") (fun _ ↦ 0) 5 ?_).mpr decimalsParse_goodPush
    intro ts hts
    rw [fills_goodPush, Option.mem_some] at hts
    subst hts
    decide
  · have hlength : (run (step (decoder readPush btcusdt .bybit)) (new .default)
        twoGoodSessions).map (·.sent.length) = some 2 := by decide +kernel
    obtain ⟨a, hrun, htwo⟩ := Option.map_eq_some_iff.mp hlength
    refine ⟨a, hrun, htwo, ?_⟩
    apply hruns twoGoodSessions a hrun
    intro text now htext
    have hpush : text = pushText "16578.50" := by
      simp only [twoGoodSessions, goodSession, List.mem_append, List.mem_cons,
        Event.text.injEq, List.not_mem_nil, or_false, reduceCtorEq, false_or] at htext
      rcases htext with h | h <;> exact h.1
    rw [hpush]
    exact decimalsParse_goodPush

def badThenGoodSession : List Event :=
  [.connected, .text (pushText "16578.123456789") fun _ ↦ 0, .wake] ++ goodSession

/-- The bad decimal ends the first session and takes the number 0, so the first
trade that is sent carries the number 1. -/
theorem badDecimal_takes_number :
    ¬ ∀ a, run (step (decoder readPush btcusdt .bybit)) (new .default)
        badThenGoodSession = some a →
      ∀ k t, a.sent[k]? = some t → t.sequence = UInt64.ofNat k := by
  intro h
  have hsent : (run (step (decoder readPush btcusdt .bybit)) (new .default)
      badThenGoodSession).map (fun a ↦ a.sent.map (·.sequence)) = some [1] := by
    decide +kernel
  obtain ⟨a, hrun, hsequences⟩ := Option.map_eq_some_iff.mp hsent
  obtain ⟨t, ht, hone⟩ := List.map_eq_singleton_iff.mp hsequences
  have hzero := h a hrun 0 t (by rw [ht]; rfl)
  rw [hone] at hzero
  exact absurd hzero (by decide)

end Adapter

end Geiger
