import Mathlib.Data.List.DropRight
import Mathlib.Data.UInt

/-!
# Trades and decimal strings

`Price`, `Qty`, `Symbol` and `Exchange` are the identity types of the feed
handler, of which only the raw contents are used here.
-/

namespace Geiger

structure Price where
  raw : UInt64
deriving DecidableEq

structure Qty where
  raw : UInt64
deriving DecidableEq

structure Symbol where
  bytes : List UInt8
  length_bytes : bytes.length = 16
deriving DecidableEq

def Symbol.zeroed : Symbol := ⟨List.replicate 16 0, rfl⟩

inductive Exchange where
  | binance
  | bybit
  | hyperliquid
deriving DecidableEq

inductive TakerSide where
  | buy
  | sell
deriving DecidableEq

structure NormalizedTrade where
  price : Price
  qty : Qty
  tsExchangeNs : UInt64
  tsRecvNs : UInt64
  symbol : Symbol
  exchange : Exchange
  takerSide : TakerSide
  /-- "The Nth trade this adapter has emitted for this stream." -/
  sequence : UInt64
deriving DecidableEq

inductive IngestError where
  | badDecimal (s : String)
  | webSocket
  | json
deriving DecidableEq

namespace Decimal

/-- The code points with the Unicode property `White_Space`. -/
def isWhitespace (c : Char) : Bool :=
  (9 ≤ c.toNat && c.toNat ≤ 13) || c.toNat == 0x20 || c.toNat == 0x85 || c.toNat == 0xA0 ||
    c.toNat == 0x1680 || (0x2000 ≤ c.toNat && c.toNat ≤ 0x200A) || c.toNat == 0x2028 ||
    c.toNat == 0x2029 || c.toNat == 0x202F || c.toNat == 0x205F || c.toNat == 0x3000

def trim (s : List Char) : List Char :=
  (s.dropWhile isWhitespace).rdropWhile isWhitespace

def utf8Len (s : List Char) : ℕ := (s.map Char.utf8Size).sum

def splitOnce (sep : Char) : List Char → Option (List Char × List Char)
  | [] => none
  | c :: s =>
    if c = sep then some ([], s)
    else (splitOnce sep s).map fun (before, after) ↦ (c :: before, after)

def parseDigits (acc : ℕ) : List Char → Option ℕ
  | [] => some acc
  | c :: s => if c.isDigit then parseDigits (acc * 10 + (c.toNat - 48)) s else none

/-- `str::parse::<u64>`: an optional plus sign and digits whose value fits. -/
def parseU64 (s : List Char) : Option UInt64 :=
  let digits := match s with
    | '+' :: rest => rest
    | _ => s
  if digits.isEmpty then none
  else (parseDigits 0 digits).bind fun n ↦ if n < 2 ^ 64 then some (UInt64.ofNat n) else none

def checkedMul (a b : UInt64) : Option UInt64 :=
  if a.toNat * b.toNat < 2 ^ 64 then some (a * b) else none

def checkedAdd (a b : UInt64) : Option UInt64 :=
  if a.toNat + b.toNat < 2 ^ 64 then some (a + b) else none

def scale : UInt64 := 100000000

/-- The value of a trimmed decimal string in units of `10⁻⁸`. -/
def fixed8 (s : List Char) : Option UInt64 :=
  if s.isEmpty || s.head? = some '-' then none
  else
    let (intPart, fracPart) := (splitOnce '.' s).getD (s, [])
    if 8 < utf8Len fracPart then none
    else do
      let intVal ← parseU64 intPart
      let intVal ← checkedMul intVal scale
      if fracPart.isEmpty then return intVal
      let padded := fracPart ++ List.replicate (8 - utf8Len fracPart) '0'
      let fracVal ← parseU64 padded
      checkedAdd intVal fracVal

end Decimal

/-- Every failure reports the trimmed string. -/
def parseFixed8 (s : String) : Except IngestError UInt64 :=
  let s := Decimal.trim s.toList
  match Decimal.fixed8 s with
  | some raw => .ok raw
  | none => .error (.badDecimal (String.ofList s))

def parsePrice (s : String) : Except IngestError Price := (parseFixed8 s).map Price.mk

def parseQty (s : String) : Except IngestError Qty := (parseFixed8 s).map Qty.mk

example : parseFixed8 "16578.50" = .ok 1657850000000 := by decide +kernel

example : parseFixed8 " abc" = .error (.badDecimal "abc") := by decide +kernel

end Geiger
