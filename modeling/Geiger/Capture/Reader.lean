import Geiger.Capture.Recorder
import Geiger.Library.Chunks
import Mathlib.Order.Basic

/-!
# Reading a capture file back

The outcome of each `read` call comes from a script; once it is used up every
call returns as much as was asked for, or the end of the file.
-/

namespace Geiger.Capture

inductive ReadOutcome where
  | short (n : ℕ)
  | interrupted
  | failed
deriving DecidableEq

structure TradeReader where
  rest : List UInt8
  script : List ReadOutcome

theorem recordSize_pos : 0 < recordSize := by decide

namespace TradeReader

def openFile (file : List UInt8) (script : List ReadOutcome) :
    Except CaptureError TradeReader :=
  if file.length < headerSize then .error .tooShort
  else do
    validateHeader (file.take headerSize)
    return ⟨file.drop headerSize, script⟩

/-- The read loop of `next`: `none` on an error other than an interrupt, which
drops what was read so far. -/
def fill (got rest : List UInt8) : List ReadOutcome → Option (List UInt8) × TradeReader
  | [] =>
    (some (got ++ rest.take (recordSize - got.length)),
      ⟨rest.drop (recordSize - got.length), []⟩)
  | .interrupted :: script => fill got rest script
  | .failed :: script => (none, ⟨rest, script⟩)
  | .short n :: script =>
    let bytes := rest.take (min (n + 1) (recordSize - got.length))
    if bytes = [] then (some got, ⟨rest, script⟩)
    else if (got ++ bytes).length = recordSize then
      (some (got ++ bytes), ⟨rest.drop bytes.length, script⟩)
    else fill (got ++ bytes) (rest.drop bytes.length) script

/-- What `next` makes of the bytes it got, when there are any. -/
def decodeItem (buf : List UInt8) : Except CaptureError NormalizedTrade :=
  if h : buf.length = recordSize then decodeRecord buf h else .error (.truncated buf.length)

def next (r : TradeReader) : Option (Except CaptureError NormalizedTrade) × TradeReader :=
  match fill [] r.rest r.script with
  | (none, r) => (some (.error .io), r)
  | (some buf, r) => (if buf = [] then none else some (decodeItem buf), r)

/-- The results of at most `n` calls of `next`, up to the end of the iterator. -/
def calls : ℕ → TradeReader → List (Except CaptureError NormalizedTrade)
  | 0, _ => []
  | n + 1, r =>
    match r.next with
    | (none, _) => []
    | (some item, r) => item :: calls n r

/-- All items: every call that yields one uses up bytes or an outcome. -/
def items (r : TradeReader) : List (Except CaptureError NormalizedTrade) :=
  calls (r.rest.length + r.script.length + 1) r

theorem openFile_header (body : List UInt8) (script : List ReadOutcome) :
    openFile (headerBytes ++ body) script = .ok ⟨body, script⟩ := by
  have hlen : ¬ (headerBytes ++ body).length < headerSize := by
    rw [List.length_append]
    exact Nat.not_lt.mpr (Nat.le_add_right _ _)
  simp only [openFile, if_neg hlen, take_header, drop_header, validateHeader_headerBytes]
  rfl

/-! ## Reads that may be short or interrupted -/

def Benign (script : List ReadOutcome) : Prop := ∀ o ∈ script, o ≠ .failed

theorem benign_short (n : ℕ) : Benign [.short n] := List.forall_mem_singleton.mpr (by simp)

theorem drop_length_take (rest : List UInt8) (k : ℕ) :
    rest.drop (rest.take k).length = rest.drop k := by
  rcases le_total k rest.length with hle | hge
  · rw [List.length_take, min_eq_left hle]
  · rw [List.take_of_length_le hge, List.drop_length, List.drop_eq_nil_of_le hge]

/-- What a read that may be short does: it is at the end of the file, or completes
the record, or the loop goes on. -/
theorem fill_short {got : List UInt8} {n k : ℕ} (hk : min (n + 1) (recordSize - got.length) = k)
    (rest : List UInt8) (script : List ReadOutcome) :
    (rest.take k = [] ∧ fill got rest (.short n :: script) = (some got, ⟨rest, script⟩)) ∨
    (rest.take k ≠ [] ∧ (got ++ rest.take k).length = recordSize ∧
      fill got rest (.short n :: script) = (some (got ++ rest.take k), ⟨rest.drop k, script⟩)) ∨
    (rest.take k ≠ [] ∧ (got ++ rest.take k).length ≠ recordSize ∧
      fill got rest (.short n :: script) = fill (got ++ rest.take k) (rest.drop k) script) := by
  rw [fill, hk, drop_length_take]
  by_cases hempty : rest.take k = []
  · exact .inl ⟨hempty, if_pos hempty⟩
  · refine .inr ?_
    rw [if_neg hempty]
    by_cases hfull : (got ++ rest.take k).length = recordSize
    · exact .inl ⟨hempty, hfull, if_pos hfull⟩
    · exact .inr ⟨hempty, hfull, if_neg hfull⟩

theorem fill_eq {script : List ReadOutcome} (hscript : Benign script)
    {got : List UInt8} (hgot : got.length < recordSize) (rest : List UInt8) :
    ∃ script', Benign script' ∧ fill got rest script =
      (some (got ++ rest.take (recordSize - got.length)),
        ⟨rest.drop (recordSize - got.length), script'⟩) := by
  induction script generalizing got rest with
  | nil => exact ⟨[], hscript, rfl⟩
  | cons o script ih =>
      have htail : Benign script := fun o' ho' ↦ hscript o' (List.mem_cons_of_mem _ ho')
      cases o with
      | interrupted => exact ih htail hgot rest
      | failed => exact absurd rfl (hscript _ List.mem_cons_self)
      | short n =>
          generalize hk : min (n + 1) (recordSize - got.length) = k
          have hkpos : 0 < k := by omega
          -- the bytes of this read are the first `j` of the rest
          obtain ⟨j, hj, hbytes⟩ : ∃ j, (rest.take k).length = j ∧ rest.take k = rest.take j :=
            ⟨_, rfl, by
              rw [List.take_eq_take_iff, List.length_take]
              omega⟩
          have hjk : j ≤ k := hj ▸ List.length_take_le _ _
          have hlen : (got ++ rest.take k).length = got.length + j := by
            rw [List.length_append, hj]
          have hjoin : rest.take (recordSize - got.length) =
              rest.take k ++ (rest.drop k).take (recordSize - (got ++ rest.take k).length) := by
            rw [← drop_length_take rest k, hj, hbytes, ← List.take_add, ← hbytes, hlen]
            congr 1
            omega
          have hdrop : rest.drop (recordSize - got.length) =
              (rest.drop k).drop (recordSize - (got ++ rest.take k).length) := by
            rw [← drop_length_take rest k, hj, List.drop_drop, hlen]
            congr 1
            omega
          rcases fill_short hk rest script with
            ⟨hempty, heq⟩ | ⟨-, hfull, heq⟩ | ⟨-, hfull, heq⟩
          · obtain rfl : rest = [] := (List.take_eq_nil_iff.mp hempty).resolve_left hkpos.ne'
            exact ⟨script, htail, by simp [heq]⟩
          · refine ⟨script, htail, ?_⟩
            rw [heq, hjoin, hdrop, hfull]
            simp
          · have hshort : (got ++ rest.take k).length < recordSize := by omega
            obtain ⟨script', hscript', hfill⟩ := ih htail hshort (rest.drop k)
            refine ⟨script', hscript', ?_⟩
            rw [heq, hfill, hjoin, hdrop, List.append_assoc]

theorem next_eq {r : TradeReader} (hscript : Benign r.script) :
    ∃ script', Benign script' ∧ r.next =
      (if r.rest = [] then none else some (decodeItem (r.rest.take recordSize)),
        ⟨r.rest.drop recordSize, script'⟩) := by
  have hgot : ([] : List UInt8).length < recordSize := recordSize_pos
  obtain ⟨script', hscript', hfill⟩ := fill_eq hscript hgot r.rest
  refine ⟨script', hscript', ?_⟩
  simp only [next, hfill, List.nil_append, List.length_nil, Nat.sub_zero,
    List.take_eq_nil_iff]
  simp [recordSize]

open Chunks

/-- With benign reads, item `i` is decided by the `i`-th chunk of the body. -/
theorem calls_eq_chunks {n : ℕ} {r : TradeReader} (hscript : Benign r.script)
    (hn : chunkCount recordSize r.rest ≤ n) :
    calls n r = (chunks recordSize r.rest).map decodeItem := by
  induction n generalizing r with
  | zero => simp [calls, chunks, Nat.le_zero.mp hn]
  | succ n ih =>
      obtain ⟨script', hscript', hnext⟩ := next_eq hscript
      rw [calls, hnext]
      by_cases hrest : r.rest = []
      · simp only [hrest, if_true, chunks_nil recordSize_pos, List.map_nil]
      · rw [chunkCount_of_ne_nil recordSize_pos hrest] at hn
        simp only [if_neg hrest, chunks_of_ne_nil recordSize_pos hrest, List.map_cons]
        rw [ih hscript' (Nat.le_of_succ_le_succ hn)]

theorem items_eq_chunks {r : TradeReader} (hscript : Benign r.script) :
    r.items = (chunks recordSize r.rest).map decodeItem := by
  apply calls_eq_chunks hscript
  have hle := chunkCount_le_length recordSize_pos r.rest
  omega

theorem decodeItem_encodeRecord (t : NormalizedTrade) :
    decodeItem (encodeRecord t) = .ok t := by
  rw [decodeItem, dif_pos (length_encodeRecord t), decodeRecord_encodeRecord]

theorem encodeRecord_of_decodeItem {buf : List UInt8} {t : NormalizedTrade}
    (h : decodeItem buf = .ok t) : encodeRecord t = buf := by
  unfold decodeItem at h
  split at h
  · exact encodeRecord_of_decodeRecord h
  · cases h

theorem chunks_records (ts : List NormalizedTrade) (tail : List UInt8) :
    (chunks recordSize (ts.flatMap encodeRecord ++ tail)).map decodeItem =
      ts.map .ok ++ (chunks recordSize tail).map decodeItem := by
  induction ts with
  | nil => rfl
  | cons t ts ih =>
      rw [List.flatMap_cons, List.append_assoc,
        chunks_append recordSize_pos (length_encodeRecord t), List.map_cons, ih,
        decodeItem_encodeRecord]
      rfl

end TradeReader

end Geiger.Capture
