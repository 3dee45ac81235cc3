import Geiger.Capture.Format

/-!
# Recording sessions

The recorder holds the file and what `BufWriter` has not written yet.
-/

namespace Geiger.Capture

structure TradeRecorder where
  file : List UInt8
  buffered : List UInt8

namespace TradeRecorder

def bufferCapacity : ℕ := 8192

/-- Opens for appending; an absent or empty file gets the header, any other file
has its header checked. -/
def create (file : Option (List UInt8)) : Except CaptureError TradeRecorder :=
  let bytes := file.getD []
  if bytes.length = 0 then .ok ⟨headerBytes, []⟩
  else if bytes.length < headerSize then .error .tooShort
  else do
    validateHeader (bytes.take headerSize)
    return ⟨bytes, []⟩

def flush (r : TradeRecorder) : TradeRecorder := ⟨r.file ++ r.buffered, []⟩

def record (r : TradeRecorder) (t : NormalizedTrade) : TradeRecorder :=
  let buf := encodeRecord t
  let r := if bufferCapacity < r.buffered.length + buf.length then r.flush else r
  { r with buffered := r.buffered ++ buf }

def session (file : Option (List UInt8)) (ts : List NormalizedTrade) :
    Except CaptureError (List UInt8) := do
  let r ← create file
  return (ts.foldl record r).flush.file

def contents (r : TradeRecorder) : List UInt8 := r.file ++ r.buffered

@[simp] theorem file_flush (r : TradeRecorder) : r.flush.file = r.contents := rfl

theorem contents_record (r : TradeRecorder) (t : NormalizedTrade) :
    (r.record t).contents = r.contents ++ encodeRecord t := by
  simp only [record]
  split <;> simp [contents, flush]

theorem contents_foldl (ts : List NormalizedTrade) (r : TradeRecorder) :
    (ts.foldl record r).contents = r.contents ++ ts.flatMap encodeRecord := by
  induction ts generalizing r with
  | nil => simp
  | cons t ts ih => simp [ih, contents_record]

end TradeRecorder

def captureFile (ts : List NormalizedTrade) : List UInt8 :=
  headerBytes ++ ts.flatMap encodeRecord

theorem validateHeader_headerBytes : validateHeader headerBytes = .ok () := rfl

theorem take_header (tail : List UInt8) : (headerBytes ++ tail).take headerSize = headerBytes :=
  List.take_left' rfl

theorem drop_header (tail : List UInt8) : (headerBytes ++ tail).drop headerSize = tail :=
  List.drop_left' rfl

theorem session_of_header (tail : List UInt8) (ts : List NormalizedTrade) :
    TradeRecorder.session (some (headerBytes ++ tail)) ts =
      .ok (headerBytes ++ tail ++ ts.flatMap encodeRecord) := by
  have hlen : ¬ (headerBytes ++ tail).length = 0 := by simp [headerBytes]
  have hheader : ¬ (headerBytes ++ tail).length < headerSize := by
    rw [List.length_append]
    exact Nat.not_lt.mpr (Nat.le_add_right _ _)
  have hcreate : TradeRecorder.create (some (headerBytes ++ tail)) =
      .ok ⟨headerBytes ++ tail, []⟩ := by
    simp only [TradeRecorder.create, Option.getD_some, if_neg hlen, if_neg hheader, take_header,
      validateHeader_headerBytes]
    rfl
  simp only [TradeRecorder.session, hcreate, bind, Except.bind, pure, Except.pure,
    TradeRecorder.file_flush, TradeRecorder.contents_foldl]
  simp [TradeRecorder.contents]

end Geiger.Capture
