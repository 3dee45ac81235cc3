import Geiger.Capture.RoundTrip
import Geiger.Ingest.Digits
import Geiger.Ingest.Sequence
import Geiger.Service.Worker

/-!
# The precondition of the bucketer on live data

The assertions at the head of `VolumeBucketer::push`, against everything that the
decoders and the capture reader let through.
-/

namespace Geiger

open LittleEndian

namespace Stream

variable {K : Type} [Field K] [LinearOrder K] [IsStrictOrderedRing K]

/-- The conversion to floats is positive exactly on nonzero raw values. -/
theorem toTrade_positive_iff {t : NormalizedTrade} :
    (toTrade t : Trade K).Positive ↔ t.price.raw ≠ 0 ∧ t.qty.raw ≠ 0 := by
  have hraw : ∀ raw : UInt64, (0 : K) < (raw.toNat : K) / 10 ^ 8 ↔ raw ≠ 0 := by
    intro raw
    have hscale : (0 : K) < 10 ^ 8 := by positivity
    rw [div_pos_iff_of_pos_right hscale, Nat.cast_pos, Nat.pos_iff_ne_zero, Ne, Ne,
      ← UInt64.toNat_inj]
    rfl
  constructor
  · intro h
    exact ⟨(hraw _).mp h.price_pos, (hraw _).mp h.volume_pos⟩
  · rintro ⟨hprice, hqty⟩
    exact ⟨(hraw _).mpr hprice, (hraw _).mpr hqty⟩

end Stream

namespace Capture

/-- The price bytes of a record are not all zero, and neither are its quantity bytes. -/
def NonzeroRecord (buf : List UInt8) : Prop :=
  (∃ b ∈ slice buf 0 8, b ≠ 0) ∧ ∃ b ∈ slice buf 8 16, b ≠ 0

theorem nonzero_of_decodeRecord {buf : List UInt8} {h : buf.length = recordSize}
    {t : NormalizedTrade} (ht : decodeRecord buf h = .ok t) :
    (t.price.raw ≠ 0 ∧ t.qty.raw ≠ 0) ↔ NonzeroRecord buf := by
  obtain ⟨exchange, -, ht⟩ := Fallible.ok_of_bind ht
  obtain ⟨side, -, ht⟩ := Fallible.ok_of_bind ht
  obtain rfl := Except.ok.inj ht
  have hlength : buf.length = 58 := h
  apply and_congr
  · exact fromLeBytes_ne_zero (length_slice (by omega))
  · exact fromLeBytes_ne_zero (length_slice (by omega))

namespace TradeReader

/-- Whatever the reads do, an `Ok` item was decoded from 58 consecutive bytes. -/
theorem record_of_calls {n : ℕ} {r : TradeReader} {t : NormalizedTrade} (h : .ok t ∈ calls n r) :
    ∃ (buf : List UInt8) (hbuf : buf.length = recordSize),
      buf <:+: r.rest ∧ decodeRecord buf hbuf = .ok t := by
  induction n generalizing r with
  | zero => cases h
  | succ n ih =>
      simp only [calls, next] at h
      cases hfill : fill [] r.rest r.script with
      | mk out r' =>
          obtain ⟨bytes, hrest, hbytes⟩ := fill_bytes hfill
          have hlater : .ok t ∈ calls n r' → ∃ (buf : List UInt8) (hbuf : buf.length = recordSize),
              buf <:+: r.rest ∧ decodeRecord buf hbuf = .ok t := by
            intro h
            obtain ⟨buf, hbuf, hpart, hdecoded⟩ := ih h
            exact ⟨buf, hbuf, hrest ▸ hpart.trans (List.suffix_append _ _).isInfix, hdecoded⟩
          cases out with
          | none =>
              simp only [hfill, List.mem_cons, reduceCtorEq, false_or] at h
              exact hlater h
          | some buf =>
              obtain rfl : buf = bytes := hbytes buf rfl
              by_cases hempty : buf = []
              · simp [hfill, hempty] at h
              · simp only [hfill, if_neg hempty, List.mem_cons] at h
                rcases h with hitem | h
                · unfold decodeItem at hitem
                  split at hitem
                  · exact ⟨buf, _, hrest ▸ (List.prefix_append _ _).isInfix, hitem.symm⟩
                  · cases hitem
                · exact hlater h

end TradeReader

end Capture

open Capture in
/-- A trade satisfies the assertions exactly when the entry or the record it comes
from has a price and a quantity other than zero. -/
theorem positive_iff_nonzero {K : Type} [Field K] [LinearOrder K] [IsStrictOrderedRing K] :
    (∀ (fromStr : String → Option Json) (symbol : Symbol) (venue : Exchange) (text : String)
      (now : ℕ → UInt64) (seq seq' : UInt64) (trades : List NormalizedTrade),
      decoder fromStr symbol venue text now seq = (.ok trades, seq') →
      ∃ fs, (fromStr text).bind (fills venue) = some fs ∧
        List.Forall₂ (fun f t ↦ (Stream.toTrade t : Trade K).Positive ↔ f.Nonzero) fs trades) ∧
    ∀ (file : List UInt8) (script : List ReadOutcome) (r : TradeReader),
      TradeReader.openFile file script = .ok r → ∀ t, .ok t ∈ r.items →
      ∃ (buf : List UInt8) (hbuf : buf.length = recordSize), buf <:+: file.drop headerSize ∧
        decodeRecord buf hbuf = .ok t ∧
        ((Stream.toTrade t : Trade K).Positive ↔ NonzeroRecord buf) := by
  constructor
  · intro fromStr symbol venue text now seq seq' trades h
    rw [decoder_eq] at h
    cases hfills : (fromStr text).bind (fills venue) with
    | none => simp [hfills] at h
    | some fs =>
        simp only [hfills] at h
        refine ⟨fs, rfl, (nonzero_of_normalizeAll h).imp ?_⟩
        intro f t hnonzero
        rw [Stream.toTrade_positive_iff, hnonzero]
  · intro file script r hopen t ht
    have hrest : r.rest = file.drop headerSize := by
      unfold TradeReader.openFile at hopen
      split at hopen
      · cases hopen
      · obtain ⟨_, -, hopen⟩ := Fallible.ok_of_bind hopen
        obtain rfl := Except.ok.inj hopen
        rfl
    obtain ⟨buf, hbuf, hbytes, hdecoded⟩ := TradeReader.record_of_calls ht
    refine ⟨buf, hbuf, hrest ▸ hbytes, hdecoded, ?_⟩
    rw [Stream.toTrade_positive_iff, nonzero_of_decodeRecord hdecoded]

/-! ## A push at price zero -/

open Adapter Capture

theorem positive_iff_nonzero_goodPush :
    (∃ trades seq', decoder readPush btcusdt .bybit (pushText "16578.50") (fun _ ↦ 0) 0 =
        (.ok trades, seq') ∧
      ∃ fs, (readPush (pushText "16578.50")).bind (fills .bybit) = some fs ∧
        List.Forall₂ (fun f t ↦ (Stream.toTrade t : Trade ℚ).Positive ↔ f.Nonzero) fs trades) ∧
    ∃ r, TradeReader.openFile (captureFile [priced 1]) [] = .ok r ∧
      ∃ (buf : List UInt8) (hbuf : buf.length = recordSize),
        buf <:+: (captureFile [priced 1]).drop headerSize ∧
        decodeRecord buf hbuf = .ok (priced 1) ∧
        ((Stream.toTrade (priced 1) : Trade ℚ).Positive ↔ NonzeroRecord buf) := by
  obtain ⟨hlive, hcaptured⟩ := positive_iff_nonzero (K := ℚ)
  constructor
  · have hok : (decoder readPush btcusdt .bybit (pushText "16578.50") (fun _ ↦ 0) 0).1.isOk =
        true := by decide +kernel
    cases hdecoded : decoder readPush btcusdt .bybit (pushText "16578.50") (fun _ ↦ 0) 0 with
    | mk result seq' =>
        rw [hdecoded] at hok
        cases result with
        | error e => cases hok
        | ok trades => exact ⟨trades, seq', rfl, hlive _ _ _ _ _ _ _ _ hdecoded⟩
  · refine ⟨_, TradeReader.openFile_captureFile [priced 1] [], ?_⟩
    apply hcaptured _ _ _ (TradeReader.openFile_captureFile [priced 1] [])
    decide +kernel

def readZeroPush (text : String) : Option Json :=
  if text = pushText "0" then some (pushJson "0") else none

/-- The decimal parser accepts `"0"`, and nothing between it and `push` looks again. -/
theorem zeroPush_not_positive :
    ¬ ∀ trades seq', decoder readZeroPush btcusdt .bybit (pushText "0") (fun _ ↦ 0) 0 =
        (.ok trades, seq') →
      ∀ t ∈ trades, (Stream.toTrade t : Trade ℚ).Positive := by
  intro h
  have hdecoded : decoder readZeroPush btcusdt .bybit (pushText "0") (fun _ ↦ 0) 0 =
      (.ok [⟨⟨0⟩, ⟨100000⟩, 1672304486865000000, 0, btcusdt, .bybit, .buy, 0⟩], 1) := by
    decide +kernel
  have hpositive := h _ _ hdecoded _ List.mem_cons_self
  exact (Stream.toTrade_positive_iff.mp hpositive).1 rfl

end Geiger
