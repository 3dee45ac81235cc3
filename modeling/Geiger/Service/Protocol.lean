import Mathlib.Data.UInt

/-!
# Wire messages

`F` stands for the floats of a reading.
-/

namespace Geiger

structure SubscribeRequest where
  exchange : String
  symbol : String

inductive ServerMessage (F : Type*) where
  | reading (exchange symbol : String) (bucketId : ℕ) (tsCloseNs : UInt64)
      (tradesInBucket : UInt32) (vpin vpinCdf : Option F)
  | heartbeat (tsNs : UInt64)
  | error (message : String)
deriving DecidableEq

namespace ServerMessage

variable {F G : Type*}

def map (f : F → G) : ServerMessage F → ServerMessage G
  | reading exchange symbol bucketId tsCloseNs tradesInBucket vpin vpinCdf =>
    reading exchange symbol bucketId tsCloseNs tradesInBucket (vpin.map f) (vpinCdf.map f)
  | heartbeat tsNs => heartbeat tsNs
  | error message => error message

def bucketId? : ServerMessage F → Option ℕ
  | reading _ _ bucketId _ _ _ _ => some bucketId
  | _ => none

def isReading (msg : ServerMessage F) : Bool := msg.bucketId?.isSome

def isScored : ServerMessage F → Bool
  | reading _ _ _ _ _ vpin _ => vpin.isSome
  | _ => false

@[simp] theorem isReading_map (f : F → G) (msg : ServerMessage F) :
    (msg.map f).isReading = msg.isReading := by
  cases msg <;> rfl

end ServerMessage

/-- Writing and reading a message as wire text. -/
structure Codec (F W : Type) where
  toString : ServerMessage F → W
  fromStr : W → Option (ServerMessage F)

/-- What was written is read back, with `reread x` for a float `x`: the reader of the floats
need not give back the one that was printed. -/
def Codec.ReadsBack {F W : Type} (codec : Codec F W) (reread : F → F) : Prop :=
  ∀ msg, codec.fromStr (codec.toString msg) = some (msg.map reread)

end Geiger
