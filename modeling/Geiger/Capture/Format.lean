import Geiger.Ingest.Types
import Geiger.Library.Fallible
import Geiger.Library.LittleEndian

/-!
# Capture files

A five-byte header and records of 58 bytes with no framing of their own.  Writes
are taken to succeed; `BufWriter` flushes before a record that does not fit.
-/

namespace Geiger.Capture

open Fallible LittleEndian

def magic : List UInt8 := [0x47, 0x54, 0x52, 0x43]

def formatVersion : UInt8 := 1

def headerSize : ℕ := 5

def recordSize : ℕ := 58

inductive CaptureError where
  | tooShort
  | badMagic (got : List UInt8)
  | badVersion (got : UInt8)
  | truncated (got : ℕ)
  | badExchange (got : UInt8)
  | badTakerSide (got : UInt8)
  | io
deriving DecidableEq

def headerBytes : List UInt8 := magic ++ [formatVersion]

def validateHeader (header : List UInt8) : Except CaptureError Unit :=
  if header.take 4 ≠ magic then .error (.badMagic (header.take 4))
  else if header.getD 4 0 ≠ formatVersion then .error (.badVersion (header.getD 4 0))
  else .ok ()

def exchangeToU8 : Exchange → UInt8
  | .binance => 0
  | .bybit => 1
  | .hyperliquid => 2

def exchangeFromU8 (b : UInt8) : Except CaptureError Exchange :=
  if b = 0 then .ok .binance
  else if b = 1 then .ok .bybit
  else if b = 2 then .ok .hyperliquid
  else .error (.badExchange b)

def takerSideToU8 : TakerSide → UInt8
  | .buy => 0
  | .sell => 1

def takerSideFromU8 (b : UInt8) : Except CaptureError TakerSide :=
  if b = 0 then .ok .buy
  else if b = 1 then .ok .sell
  else .error (.badTakerSide b)

@[simp] theorem exchangeFromU8_toU8 (e : Exchange) :
    exchangeFromU8 (exchangeToU8 e) = .ok e := by
  cases e <;> rfl

theorem exchangeToU8_of_fromU8 {b : UInt8} {e : Exchange} (h : exchangeFromU8 b = .ok e) :
    exchangeToU8 e = b := by
  unfold exchangeFromU8 at h
  split at h
  · cases h
    exact Eq.symm ‹_›
  · split at h
    · cases h
      exact Eq.symm ‹_›
    · split at h
      · cases h
        exact Eq.symm ‹_›
      · cases h

@[simp] theorem takerSideFromU8_toU8 (s : TakerSide) :
    takerSideFromU8 (takerSideToU8 s) = .ok s := by
  cases s <;> rfl

theorem takerSideToU8_of_fromU8 {b : UInt8} {s : TakerSide} (h : takerSideFromU8 b = .ok s) :
    takerSideToU8 s = b := by
  unfold takerSideFromU8 at h
  split at h
  · cases h
    exact Eq.symm ‹_›
  · split at h
    · cases h
      exact Eq.symm ‹_›
    · cases h

/-! ## Records -/

def encodeRecord (t : NormalizedTrade) : List UInt8 :=
  toLeBytes t.price.raw ++ toLeBytes t.qty.raw ++ toLeBytes t.tsExchangeNs ++
    toLeBytes t.tsRecvNs ++ t.symbol.bytes ++ [exchangeToU8 t.exchange] ++
    [takerSideToU8 t.takerSide] ++ toLeBytes t.sequence

def decodeRecord (buf : List UInt8) (h : buf.length = recordSize) :
    Except CaptureError NormalizedTrade := do
  let exchange ← exchangeFromU8 (buf.getD 48 0)
  let takerSide ← takerSideFromU8 (buf.getD 49 0)
  return {
    price := ⟨fromLeBytes (slice buf 0 8)⟩
    qty := ⟨fromLeBytes (slice buf 8 16)⟩
    tsExchangeNs := fromLeBytes (slice buf 16 24)
    tsRecvNs := fromLeBytes (slice buf 24 32)
    symbol := ⟨slice buf 32 48, length_slice (by rw [h]; decide)⟩
    exchange
    takerSide
    sequence := fromLeBytes (slice buf 50 58) }

@[simp] theorem length_encodeRecord (t : NormalizedTrade) :
    (encodeRecord t).length = recordSize := by
  simp [encodeRecord, t.symbol.length_bytes, recordSize]

theorem decodeRecord_encodeRecord (t : NormalizedTrade) :
    decodeRecord (encodeRecord t) (length_encodeRecord t) = .ok t := by
  have hsymbol := t.symbol.length_bytes
  have hexchange : (encodeRecord t).getD 48 0 = exchangeToU8 t.exchange := by
    simp [encodeRecord, hsymbol]
  have hside : (encodeRecord t).getD 49 0 = takerSideToU8 t.takerSide := by
    simp [encodeRecord, hsymbol]
  unfold decodeRecord
  simp only [hexchange, hside, exchangeFromU8_toU8, takerSideFromU8_toU8]
  simp [encodeRecord, slice, List.drop_append, hsymbol,
    List.drop_eq_nil_of_le, List.take_of_length_le, bind, Except.bind, pure, Except.pure]

theorem encodeRecord_of_decodeRecord {buf : List UInt8} {h : buf.length = recordSize}
    {t : NormalizedTrade} (ht : decodeRecord buf h = .ok t) : encodeRecord t = buf := by
  have hlen : buf.length = 58 := h
  obtain ⟨exchange, hexchange, ht⟩ := ok_of_bind ht
  obtain ⟨side, hside, ht⟩ := ok_of_bind ht
  obtain rfl := Except.ok.inj ht
  have hword : ∀ a b, b ≤ 58 → b - a = 8 →
      toLeBytes (fromLeBytes (slice buf a b)) = slice buf a b := by
    intro a b hb hab
    exact toLeBytes_fromLeBytes ((length_slice (hb.trans_eq hlen.symm)).trans hab)
  have hbyte : ∀ a, a < 58 → [buf.getD a 0] = slice buf a (a + 1) :=
    fun a ha ↦ singleton_getD (ha.trans_eq hlen.symm)
  simp only [encodeRecord, exchangeToU8_of_fromU8 hexchange,
    takerSideToU8_of_fromU8 hside, hword 50 58 (by decide) rfl, hword 0 8 (by decide) rfl,
    hword 8 16 (by decide) rfl, hword 16 24 (by decide) rfl, hword 24 32 (by decide) rfl,
    hbyte 48 (by decide), hbyte 49 (by decide)]
  rw [slice_append_slice _ (by decide) (by decide),
    slice_append_slice _ (by decide) (by decide),
    slice_append_slice _ (by decide) (by decide),
    slice_append_slice _ (by decide) (by decide),
    slice_append_slice _ (by decide) (by decide),
    slice_append_slice _ (by decide) (by decide),
    slice_append_slice _ (by decide) (by decide)]
  exact slice_zero_length hlen

end Geiger.Capture
