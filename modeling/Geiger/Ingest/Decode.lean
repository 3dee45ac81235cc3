import Geiger.Ingest.Json
import Geiger.Ingest.Types
import Geiger.Library.Fallible
import Geiger.Library.Numbering

/-!
# The three decoders

`fromStr` is `serde_json::from_str` up to the nesting of the text.  `now k` is
the clock read for the `k`-th trade of a message.
-/

namespace Geiger

open Json (Source structFields asBool asU64 asString asVec)

def saturatingMul (a b : UInt64) : UInt64 := (Decimal.checkedMul a b).getD (2 ^ 64 - 1)

/-- What the adapters take from one entry of a venue's message. -/
structure Fill where
  price : String
  qty : String
  timeMs : UInt64
  takerSide : TakerSide

/-- The trade that the adapters build from an entry; `seq` is already taken. -/
def Fill.normalize (symbol : Symbol) (exchange : Exchange) (nowNs seq : UInt64) (t : Fill) :
    Except IngestError NormalizedTrade := do
  return {
    price := ← parsePrice t.price
    qty := ← parseQty t.qty
    tsExchangeNs := saturatingMul t.timeMs 1000000
    tsRecvNs := nowNs
    symbol
    exchange
    takerSide := t.takerSide
    sequence := seq }

/-- `let seq = *sequence; *sequence += 1; Ok(..)` over all entries, then `collect`. -/
def normalizeAll (symbol : Symbol) (exchange : Exchange) (now : ℕ → UInt64)
    (sequence : UInt64) (fills : List Fill) :
    Except IngestError (List NormalizedTrade) × UInt64 :=
  Numbering.collect (· + 1) (fun seq (t : Fill × ℕ) ↦ t.1.normalize symbol exchange (now t.2) seq)
    sequence fills.zipIdx

namespace Binance

structure AggTrade where
  tradeTimeMs : UInt64
  price : String
  qty : String
  buyerIsMaker : Bool

structure StreamEnvelope where
  stream : String
  data : AggTrade

def AggTrade.deserialize (j : Json) : Option AggTrade := do
  let [some time, some price, some qty, some maker] ← structFields .text ["T", "p", "q", "m"] j
    | none
  return {
    tradeTimeMs := ← asU64 time
    price := ← asString price
    qty := ← asString qty
    buyerIsMaker := ← asBool maker }

def StreamEnvelope.deserialize (j : Json) : Option StreamEnvelope := do
  let [some stream, some data] ← structFields .text ["stream", "data"] j | none
  return { stream := ← asString stream, data := ← AggTrade.deserialize data }

def AggTrade.fill (t : AggTrade) : Fill where
  price := t.price
  qty := t.qty
  timeMs := t.tradeTimeMs
  takerSide := if t.buyerIsMaker then .sell else .buy

def decode (fromStr : String → Option Json) (text : String) (symbol : Symbol) (nowNs : UInt64)
    (sequence : UInt64) : Except IngestError NormalizedTrade × UInt64 :=
  match (fromStr text).bind StreamEnvelope.deserialize with
  | none => (.error .json, sequence)
  | some envelope =>
    (envelope.data.fill.normalize symbol .binance nowNs sequence, sequence + 1)

end Binance

namespace Bybit

structure BybitTrade where
  timeMs : UInt64
  side : String
  price : String
  qty : String

structure TradeEnvelope where
  topic : String
  data : List BybitTrade

def BybitTrade.deserialize (j : Json) : Option BybitTrade := do
  let [some time, some side, some price, some qty] ←
    structFields .value ["T", "S", "p", "v"] j | none
  return {
    timeMs := ← asU64 time
    side := ← asString side
    price := ← asString price
    qty := ← asString qty }

def TradeEnvelope.deserialize (j : Json) : Option TradeEnvelope := do
  let [some topic, some data] ← structFields .value ["topic", "data"] j | none
  return { topic := ← asString topic, data := ← asVec BybitTrade.deserialize data }

def BybitTrade.fill (t : BybitTrade) : Fill where
  price := t.price
  qty := t.qty
  timeMs := t.timeMs
  takerSide := if t.side = "Buy" then .buy else .sell

def isTrades (envelope : TradeEnvelope) : Bool :=
  "publicTrade.".toList.isPrefixOf envelope.topic.toList

def decode (fromStr : String → Option Json) (text : String) (symbol : Symbol)
    (now : ℕ → UInt64) (sequence : UInt64) :
    Except IngestError (List NormalizedTrade) × UInt64 :=
  match fromStr text with
  | none => (.error .json, sequence)
  | some value =>
    if (value.get "topic").isNone then (.ok [], sequence)
    else
      match TradeEnvelope.deserialize value with
      | none => (.error .json, sequence)
      | some envelope =>
        if isTrades envelope then
          normalizeAll symbol .bybit now sequence (envelope.data.map BybitTrade.fill)
        else (.ok [], sequence)

end Bybit

namespace Hyperliquid

structure ChannelEnvelope where
  channel : String
  data : Json

structure WsTrade where
  side : String
  px : String
  sz : String
  time : UInt64

def ChannelEnvelope.deserialize (j : Json) : Option ChannelEnvelope := do
  let [some channel, data] ← structFields .text ["channel", "data"] j | none
  return { channel := ← asString channel, data := data.getD .null }

def WsTrade.deserialize (j : Json) : Option WsTrade := do
  let [some side, some px, some sz, some time] ←
    structFields .value ["side", "px", "sz", "time"] j | none
  return {
    side := ← asString side
    px := ← asString px
    sz := ← asString sz
    time := ← asU64 time }

def WsTrade.fill (t : WsTrade) : Fill where
  price := t.px
  qty := t.sz
  timeMs := t.time
  takerSide := if t.side = "B" then .buy else .sell

def decode (fromStr : String → Option Json) (text : String) (symbol : Symbol)
    (now : ℕ → UInt64) (sequence : UInt64) :
    Except IngestError (List NormalizedTrade) × UInt64 :=
  match (fromStr text).bind ChannelEnvelope.deserialize with
  | none => (.error .json, sequence)
  | some envelope =>
    if envelope.channel = "trades" then
      match asVec WsTrade.deserialize envelope.data with
      | none => (.error .json, sequence)
      | some trades =>
        normalizeAll symbol .hyperliquid now sequence (trades.map WsTrade.fill)
    else (.ok [], sequence)

end Hyperliquid

/-! ## One interface for the three -/

/-- A text frame and the counter before it give the trades and the counter after it. -/
abbrev Decoder :=
  String → (ℕ → UInt64) → UInt64 → Except IngestError (List NormalizedTrade) × UInt64

def decoder (fromStr : String → Option Json) (symbol : Symbol) : Exchange → Decoder
  | .binance => fun text now sequence ↦
    let (trade, sequence) := Binance.decode fromStr text symbol (now 0) sequence
    (trade.map ([·]), sequence)
  | .bybit => fun text now sequence ↦ Bybit.decode fromStr text symbol now sequence
  | .hyperliquid => fun text now sequence ↦ Hyperliquid.decode fromStr text symbol now sequence

/-- The entries of a message that its decoder goes on to normalize. -/
def fills : Exchange → Json → Option (List Fill)
  | .binance, j => (Binance.StreamEnvelope.deserialize j).map fun envelope ↦ [envelope.data.fill]
  | .bybit, j =>
    if (j.get "topic").isNone then some []
    else (Bybit.TradeEnvelope.deserialize j).map fun envelope ↦
      if Bybit.isTrades envelope then envelope.data.map Bybit.BybitTrade.fill else []
  | .hyperliquid, j => do
    let envelope ← Hyperliquid.ChannelEnvelope.deserialize j
    if envelope.channel = "trades" then
      let trades ← asVec Hyperliquid.WsTrade.deserialize envelope.data
      return trades.map Hyperliquid.WsTrade.fill
    else return []

def Fill.Parses (t : Fill) : Prop :=
  (∃ p, parsePrice t.price = .ok p) ∧ ∃ q, parseQty t.qty = .ok q

section Spec

variable {symbol : Symbol} {exchange : Exchange} {t : Fill} {nowNs seq : UInt64}

theorem normalize_isOk_iff :
    (∃ trade, t.normalize symbol exchange nowNs seq = .ok trade) ↔ t.Parses := by
  unfold Fill.normalize Fill.Parses
  cases parsePrice t.price <;> cases parseQty t.qty <;>
    simp [bind, Except.bind, pure, Except.pure]

theorem sequence_of_normalize {trade : NormalizedTrade}
    (h : t.normalize symbol exchange nowNs seq = .ok trade) : trade.sequence = seq := by
  obtain ⟨p, -, h⟩ := Fallible.ok_of_bind h
  obtain ⟨q, -, h⟩ := Fallible.ok_of_bind h
  cases h
  rfl

theorem normalizeAll_nil (now : ℕ → UInt64) :
    normalizeAll symbol exchange now seq [] = (.ok [], seq) := rfl

theorem normalizeAll_singleton (now : ℕ → UInt64) :
    normalizeAll symbol exchange now seq [t] =
      ((t.normalize symbol exchange (now 0) seq).map ([·]), seq + 1) := by
  unfold normalizeAll
  simp only [List.zipIdx_singleton, Numbering.collect]
  cases t.normalize symbol exchange (now 0) seq <;> rfl

variable (fromStr : String → Option Json) (symbol : Symbol)

/-- Past the reading of the message, the three decoders are one. -/
theorem decoder_eq (venue : Exchange) (text : String) (now : ℕ → UInt64) (seq : UInt64) :
    decoder fromStr symbol venue text now seq =
      match (fromStr text).bind (fills venue) with
      | none => (.error .json, seq)
      | some ts => normalizeAll symbol venue now seq ts := by
  cases hj : fromStr text with
  | none => cases venue <;> simp [decoder, Binance.decode, Bybit.decode, Hyperliquid.decode, hj,
      Except.map]
  | some j =>
      simp only [Option.bind_some]
      cases venue with
      | binance =>
          simp only [decoder, Binance.decode, fills, hj, Option.bind_some]
          cases Binance.StreamEnvelope.deserialize j with
          | none => rfl
          | some envelope => exact (normalizeAll_singleton now).symm
      | bybit =>
          simp only [decoder, Bybit.decode, fills, hj]
          by_cases htopic : (j.get "topic").isNone
          · simp [htopic, normalizeAll_nil]
          cases Bybit.TradeEnvelope.deserialize j with
          | none => simp [htopic]
          | some envelope =>
              by_cases htrades : Bybit.isTrades envelope <;>
                simp [htopic, htrades, normalizeAll_nil]
      | hyperliquid =>
          simp only [decoder, Hyperliquid.decode, fills, hj, Option.bind_some]
          cases Hyperliquid.ChannelEnvelope.deserialize j with
          | none => rfl
          | some envelope =>
              by_cases hchannel : envelope.channel = "trades"
              · cases htrades : asVec Hyperliquid.WsTrade.deserialize envelope.data <;>
                  simp [hchannel, htrades]
              · simp [hchannel, normalizeAll_nil]

end Spec

end Geiger
