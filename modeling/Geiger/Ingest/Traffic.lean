import Geiger.Ingest.Decode

/-!
# Messages that are not trades

Hyperliquid looks at the channel before it reads the entries.  Bybit reads the
entries of every message that has a topic, so an unrelated topic is ignored only
when its data happens to have the shape of trades.
-/

namespace Geiger

open Json (valuesOf structFields asVec)

/-- Traffic that a connection may carry besides the trades. -/
def Unrelated : Exchange → Json → Prop
  | .binance, _ => False
  | .bybit, j => j.get "topic" = none ∨ ∃ topic, j.get "topic" = some (.string topic) ∧
      ¬ "publicTrade.".toList <+: topic.toList
  | .hyperliquid, j => ∃ channel, j.get "channel" = some (.string channel) ∧ channel ≠ "trades"

/-- An entry of a Bybit push with all four fields, by name or by position. -/
def TradeShaped (j : Json) : Prop :=
  ∃ time side price qty,
    (j.get "T" = some (.u64 time) ∧ j.get "S" = some (.string side) ∧
      j.get "p" = some (.string price) ∧ j.get "v" = some (.string qty)) ∨
    j = .array [.u64 time, .string side, .string price, .string qty]

def ArrayOf (shape : Json → Prop) (j : Json) : Prop :=
  ∃ elems, j = .array elems ∧ ∀ e ∈ elems, shape e

/-- Bybit: the data of a message with a topic are trades.  Hyperliquid: the two fields
that are looked at are not repeated in the text. -/
def Tolerable : Exchange → Json → Prop
  | .binance, _ => True
  | .bybit, j => j.get "topic" = none ∨ ∃ data, j.get "data" = some data ∧ ArrayOf TradeShaped data
  | .hyperliquid, j => ∀ fields, j = .object fields →
      (valuesOf "channel" fields).length ≤ 1 ∧ (valuesOf "data" fields).length ≤ 1

namespace Json

theorem structFields_value {fields : List (String × Json)} {names : List String} :
    structFields .value names (.object fields) =
      some (names.map fun name ↦ Json.get name (.object fields)) := by
  rw [structFields]
  induction names with
  | nil => rfl
  | cons name names ih =>
      rw [List.mapM_cons, ih]
      rfl

theorem field_text (fields : List (String × Json)) (name : String) :
    field .text fields name =
      if (valuesOf name fields).length ≤ 1 then some (Json.get name (.object fields)) else none := by
  rcases h : valuesOf name fields with _ | ⟨j, _ | ⟨j', rest⟩⟩ <;> simp [field, Json.get, h]

theorem asVec_isSome_iff {α : Type} {read : Json → Option α} {j : Json} :
    (asVec read j).isSome ↔ ArrayOf (fun e ↦ (read e).isSome) j := by
  unfold ArrayOf
  cases j with
  | array elems =>
      have hall : (elems.mapM read).isSome ↔ ∀ e ∈ elems, (read e).isSome := by
        induction elems with
        | nil => simp
        | cons e elems ih =>
            rw [List.mapM_cons, List.forall_mem_cons, ← ih]
            cases read e <;> cases elems.mapM read <;> simp
      simp [asVec, hall]
  | _ => simp [asVec]

theorem asString_isSome_iff {j : Json} : (asString j).isSome ↔ ∃ s, j = .string s := by
  cases j <;> simp [asString]

theorem asU64_isSome_iff {j : Json} : (asU64 j).isSome ↔ ∃ n, j = .u64 n := by
  cases j <;> simp [asU64]

end Json

/-! ## Bybit -/

namespace Bybit

/-- The four fields of an entry, once they have been looked up. -/
theorem deserialize_isSome {j : Json} {time side price qty : Option Json}
    (h : structFields .value ["T", "S", "p", "v"] j = some [time, side, price, qty]) :
    (BybitTrade.deserialize j).isSome ↔ ∃ t s p q, time = some (.u64 t) ∧ side = some (.string s) ∧
      price = some (.string p) ∧ qty = some (.string q) := by
  simp only [BybitTrade.deserialize, h, bind, Option.bind_some]
  cases time <;> cases side <;> cases price <;> cases qty <;> simp
  rename_i time side price qty
  rw [← Json.asU64_isSome_iff, ← Json.asString_isSome_iff, ← Json.asString_isSome_iff,
    ← Json.asString_isSome_iff]
  cases time.asU64 <;> cases side.asString <;> cases price.asString <;> cases qty.asString <;> simp

theorem tradeShaped_iff {j : Json} : (BybitTrade.deserialize j).isSome ↔ TradeShaped j := by
  unfold TradeShaped
  cases j with
  | object fields =>
      rw [deserialize_isSome Json.structFields_value]
      simp
  | array elems =>
      rcases elems with _ | ⟨time, _ | ⟨side, _ | ⟨price, _ | ⟨qty, _ | ⟨extra, rest⟩⟩⟩⟩⟩
      case cons.cons.cons.cons.nil =>
        have hfields : structFields .value ["T", "S", "p", "v"] (.array [time, side, price, qty]) =
            some [some time, some side, some price, some qty] := rfl
        rw [deserialize_isSome hfields]
        simp [Json.get]
      all_goals simp [BybitTrade.deserialize, structFields, Json.get, List.replicate]
  | _ => simp [BybitTrade.deserialize, structFields, Json.get]

/-- Past the topic, only the data decide. -/
theorem fills_of_topic {j : Json} {topic : String} (htopic : j.get "topic" = some (.string topic))
    (hother : ¬ "publicTrade.".toList <+: topic.toList) :
    fills .bybit j =
      ((j.get "data").bind fun data ↦ asVec BybitTrade.deserialize data).map fun _ ↦ [] := by
  cases j with
  | object fields =>
      have hread : TradeEnvelope.deserialize (.object fields) =
          ((Json.object fields).get "data").bind fun data ↦
            (asVec BybitTrade.deserialize data).map (TradeEnvelope.mk topic) := by
        simp only [TradeEnvelope.deserialize, Json.structFields_value, List.map_cons, List.map_nil,
          htopic, bind, Option.bind_some]
        cases (Json.object fields).get "data" with
        | none => rfl
        | some data =>
            simp only [Json.asString, Option.bind_some]
            cases asVec BybitTrade.deserialize data <;> rfl
      have hprefix : ∀ data, isTrades ⟨topic, data⟩ = false := by
        intro data
        rw [isTrades, Bool.eq_false_iff, ne_eq, List.isPrefixOf_iff_prefix]
        exact hother
      simp only [fills, htopic, hread, Option.isNone_some]
      cases (Json.object fields).get "data" with
      | none => rfl
      | some data => cases h : asVec BybitTrade.deserialize data <;> simp [h, hprefix]
  | _ => cases htopic

end Bybit

/-! ## Hyperliquid -/

namespace Hyperliquid

theorem fills_of_channel {fields : List (String × Json)} {channel : String}
    (hchannel : (Json.object fields).get "channel" = some (.string channel))
    (hother : channel ≠ "trades") :
    fills .hyperliquid (.object fields) =
      if (valuesOf "channel" fields).length ≤ 1 ∧ (valuesOf "data" fields).length ≤ 1 then some []
      else none := by
  simp only [fills, ChannelEnvelope.deserialize, structFields, List.mapM_cons, List.mapM_nil,
    Json.field_text, hchannel]
  by_cases hc : (valuesOf "channel" fields).length ≤ 1
  · by_cases hd : (valuesOf "data" fields).length ≤ 1
    · simp [hc, hd, hother, Json.asString]
    · simp [hc, hd]
  · simp [hc]

end Hyperliquid

/-! ## All venues -/

variable {j : Json}

theorem fills_of_unrelated {venue : Exchange} (h : Unrelated venue j) :
    fills venue j = some [] ∧ Tolerable venue j ∨ fills venue j = none ∧ ¬ Tolerable venue j := by
  cases venue with
  | binance => exact h.elim
  | bybit =>
      rcases h with hnone | ⟨topic, htopic, hother⟩
      · exact .inl ⟨by simp [fills, hnone], .inl hnone⟩
      · have hshape : ∀ data, (asVec Bybit.BybitTrade.deserialize data).isSome ↔
            ArrayOf TradeShaped data := by
          intro data
          simp only [Json.asVec_isSome_iff, Bybit.tradeShaped_iff]
        have hdata : Tolerable .bybit j ↔
            ∃ data, j.get "data" = some data ∧ ArrayOf TradeShaped data := by
          simp [Tolerable, htopic]
        rw [Bybit.fills_of_topic htopic hother, hdata]
        cases hget : j.get "data" with
        | none => simp
        | some data =>
            simp only [Option.bind_some, Option.some.injEq, exists_eq_left', ← hshape]
            cases asVec Bybit.BybitTrade.deserialize data <;> simp
  | hyperliquid =>
      obtain ⟨channel, hchannel, hother⟩ := h
      cases j with
      | object fields =>
          have honce : Tolerable .hyperliquid (.object fields) ↔
              (valuesOf "channel" fields).length ≤ 1 ∧ (valuesOf "data" fields).length ≤ 1 := by
            simp [Tolerable]
          rw [Hyperliquid.fills_of_channel hchannel hother, honce]
          split
          · exact .inl ⟨rfl, ‹_›⟩
          · exact .inr ⟨rfl, ‹_›⟩
      | _ => cases hchannel

/-- A message that is JSON and no trade push leaves the connection and the counter as they
are exactly when it is tolerable. -/
theorem unrelated_ignored_iff (fromStr : String → Option Json) (symbol : Symbol)
    (venue : Exchange) (text : String) (now : ℕ → UInt64) (sequence : UInt64)
    (hjson : fromStr text = some j) (hunrelated : Unrelated venue j) :
    decoder fromStr symbol venue text now sequence = (.ok [], sequence) ↔ Tolerable venue j := by
  rw [decoder_eq, hjson, Option.bind_some]
  rcases fills_of_unrelated hunrelated with ⟨hfills, htolerable⟩ | ⟨hfills, htolerable⟩
  · simp [hfills, htolerable, normalizeAll_nil]
  · simp [hfills, htolerable]

/-! ## Two control messages -/

def pongText : String := "\x7b\"channel\":\"pong\"\x7d"

def bookText : String := "\x7b\"topic\":\"orderbook.50.BTCUSDT\",\"data\":\x7b\x7d\x7d"

def readControl (text : String) : Option Json :=
  if text = pongText then some (.object [("channel", .string "pong")])
  else if text = bookText then
    some (.object [("topic", .string "orderbook.50.BTCUSDT"), ("data", .object [])])
  else none

theorem unrelated_ignored_iff_pong :
    decoder readControl .zeroed .hyperliquid pongText (fun _ ↦ 0) 7 = (.ok [], 7) := by
  have hread : readControl pongText = some (.object [("channel", .string "pong")]) := if_pos rfl
  have hunrelated : Unrelated .hyperliquid (.object [("channel", .string "pong")]) :=
    ⟨"pong", rfl, by decide⟩
  rw [unrelated_ignored_iff readControl .zeroed .hyperliquid pongText (fun _ ↦ 0) 7 hread hunrelated]
  rintro _ ⟨⟩
  decide

/-- A push of another topic is an error on the Bybit connection. -/
theorem book_not_ignored :
    ∃ j, readControl bookText = some j ∧ Unrelated .bybit j ∧
      decoder readControl .zeroed .bybit bookText (fun _ ↦ 0) 0 = (.error .json, 0) ∧
      decoder readControl .zeroed .bybit bookText (fun _ ↦ 0) 0 ≠ (.ok [], 0) := by
  have hread : readControl bookText =
      some (.object [("topic", .string "orderbook.50.BTCUSDT"), ("data", .object [])]) := by
    rw [readControl, if_neg (by decide), if_pos rfl]
  have herror : decoder readControl .zeroed .bybit bookText (fun _ ↦ 0) 0 = (.error .json, 0) := by
    rw [decoder_eq, hread, Option.bind_some]
    rfl
  refine ⟨_, hread, .inr ⟨"orderbook.50.BTCUSDT", rfl, by decide⟩, herror, ?_⟩
  rw [herror]
  simp

end Geiger
