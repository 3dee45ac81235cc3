import Mathlib.Data.List.Basic
import Mathlib.Data.UInt

/-!
# Typed reads of JSON

The reader of JSON texts is a parameter of the modules that need one; what it
returns, and what the derived `Deserialize` instances read from it, is here.
-/

namespace Geiger

/-- A JSON text as it is nested, repeated keys included.  `u64` holds the
literals that fit an unsigned 64-bit integer and `number` stands for the rest. -/
inductive Json where
  | null
  | bool (b : Bool)
  | u64 (n : UInt64)
  | number
  | string (s : String)
  | array (elems : List Json)
  | object (fields : List (String × Json))

namespace Json

/-- What a typed read starts from.  Of a repeated key a `Value` has kept the last. -/
inductive Source where
  | text
  | value

def valuesOf (name : String) (fields : List (String × Json)) : List Json :=
  fields.filterMap fun field ↦ if field.1 = name then some field.2 else none

def get (name : String) : Json → Option Json
  | .object fields => (valuesOf name fields).getLast?
  | _ => none

/-- One field of a derived struct.  Repeating it in a text is an error. -/
def field (src : Source) (fields : List (String × Json)) (name : String) :
    Option (Option Json) :=
  match src, valuesOf name fields with
  | .value, found => some found.getLast?
  | .text, [] => some none
  | .text, [j] => some (some j)
  | .text, _ => none

/-- The fields of a derived struct, by name in an object and by position in an
array that is not too long.  Other fields are skipped. -/
def structFields (src : Source) (names : List String) : Json → Option (List (Option Json))
  | .object fields => names.mapM (field src fields)
  | .array elems =>
    if elems.length ≤ names.length then
      some (elems.map some ++ List.replicate (names.length - elems.length) none)
    else none
  | _ => none

def asBool : Json → Option Bool
  | .bool b => some b
  | _ => none

def asU64 : Json → Option UInt64
  | .u64 n => some n
  | _ => none

def asString : Json → Option String
  | .string s => some s
  | _ => none

def asVec {α : Type} (read : Json → Option α) : Json → Option (List α)
  | .array elems => elems.mapM read
  | _ => none

end Json

end Geiger
