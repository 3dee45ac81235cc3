import Geiger.Capture.Resume

/-!
# Recording and reading back

Sessions one after the other on a new file, and the iterator of the reader run to
its end.
-/

namespace Geiger.Capture

namespace TradeRecorder

/-- Consecutive sessions, each on what the one before has left. -/
def sessions (file : Option (List UInt8)) :
    List (List NormalizedTrade) → Except CaptureError (List UInt8)
  | [] => .ok (file.getD [])
  | ts :: rest => do
    let bytes ← session file ts
    sessions (some bytes) rest

theorem session_of_new {file : Option (List UInt8)} (h : file.getD [] = [])
    (ts : List NormalizedTrade) : session file ts = .ok (captureFile ts) := by
  have hcreate : create file = .ok ⟨headerBytes, []⟩ := by simp [create, h]
  simp only [session, hcreate, bind, Except.bind, pure, Except.pure, file_flush, contents_foldl]
  simp [contents, captureFile]

theorem session_of_captureFile (old new : List NormalizedTrade) :
    session (some (captureFile old)) new = .ok (captureFile (old ++ new)) := by
  rw [captureFile, session_of_header, captureFile, List.flatMap_append, List.append_assoc]

theorem sessions_of_captureFile (old : List NormalizedTrade) (rest : List (List NormalizedTrade)) :
    sessions (some (captureFile old)) rest = .ok (captureFile (old ++ rest.flatten)) := by
  induction rest generalizing old with
  | nil => simp [sessions]
  | cons ts rest ih =>
      simp only [sessions, session_of_captureFile, bind, Except.bind, ih, List.flatten_cons,
        List.append_assoc]

/-- The header is written once, whatever the split. -/
theorem sessions_of_new {file : Option (List UInt8)} (h : file.getD [] = [])
    (ts : List NormalizedTrade) (rest : List (List NormalizedTrade)) :
    sessions file (ts :: rest) = .ok (captureFile (ts ++ rest.flatten)) := by
  simp only [sessions, session_of_new h, bind, Except.bind, sessions_of_captureFile]

end TradeRecorder

namespace TradeReader

/-- The iterator yields these items and then `None`. -/
inductive Drains : TradeReader → List (Except CaptureError NormalizedTrade) → Prop where
  | done {r r' : TradeReader} (h : r.next = (none, r')) : Drains r []
  | more {r r' : TradeReader} {item : Except CaptureError NormalizedTrade}
      {items : List (Except CaptureError NormalizedTrade)} (h : r.next = (some item, r'))
      (hrest : Drains r' items) : Drains r (item :: items)

theorem openFile_captureFile (ts : List NormalizedTrade) (script : List ReadOutcome) :
    openFile (captureFile ts) script = .ok ⟨ts.flatMap encodeRecord, script⟩ :=
  openFile_header _ script

theorem eq_headerBytes_of_validateHeader {header : List UInt8}
    (h : validateHeader header = .ok ()) (hlength : header.length = headerSize) :
    header = headerBytes := by
  unfold validateHeader at h
  split at h
  · cases h
  · rename_i hmagic
    split at h
    · cases h
    · rename_i hversion
      have hlast : header.drop 4 = [header.getD 4 0] := by
        rw [LittleEndian.singleton_getD (by rw [hlength]; decide), LittleEndian.slice]
        exact (List.take_of_length_le (by rw [List.length_drop, hlength]; decide)).symm
      rw [← List.take_append_drop 4 header, hlast, not_not.mp hmagic, not_not.mp hversion]
      rfl

theorem openFile_eq_ok {file : List UInt8} {script : List ReadOutcome} {r : TradeReader}
    (h : openFile file script = .ok r) : file = headerBytes ++ r.rest := by
  unfold openFile at h
  split at h
  · cases h
  · rename_i hlen
    obtain ⟨_, hheader, h⟩ := Fallible.ok_of_bind h
    obtain rfl := Except.ok.inj h
    have hlength : (file.take headerSize).length = headerSize :=
      List.length_take_of_le (Nat.le_of_not_lt hlen)
    rw [← eq_headerBytes_of_validateHeader hheader hlength, List.take_append_drop]

/-- A read takes bytes off the front of the file and gives them out, or loses them. -/
theorem fill_bytes {got rest : List UInt8} {script : List ReadOutcome} {out : Option (List UInt8)}
    {r : TradeReader} (h : fill got rest script = (out, r)) :
    ∃ bytes, rest = bytes ++ r.rest ∧ ∀ buf ∈ out, buf = got ++ bytes := by
  induction script generalizing got rest with
  | nil =>
      obtain ⟨rfl, rfl⟩ := Prod.mk.inj h
      exact ⟨_, (List.take_append_drop _ _).symm, by simp⟩
  | cons o script ih =>
      cases o with
      | interrupted => exact ih h
      | failed =>
          obtain ⟨rfl, rfl⟩ := Prod.mk.inj h
          exact ⟨[], rfl, by simp⟩
      | short n =>
          generalize hk : min (n + 1) (recordSize - got.length) = k
          rcases fill_short hk rest script with
            ⟨-, heq⟩ | ⟨-, -, heq⟩ | ⟨-, -, heq⟩
          · obtain ⟨rfl, rfl⟩ := Prod.mk.inj (heq.symm.trans h)
            exact ⟨[], rfl, by simp⟩
          · obtain ⟨rfl, rfl⟩ := Prod.mk.inj (heq.symm.trans h)
            exact ⟨rest.take k, (List.take_append_drop _ _).symm, by simp⟩
          · obtain ⟨bytes, hrest, hbuf⟩ := ih (heq.symm.trans h)
            refine ⟨rest.take k ++ bytes, ?_, ?_⟩
            · rw [List.append_assoc, ← hrest, List.take_append_drop]
            · intro buf hb
              rw [hbuf buf hb, List.append_assoc]

/-- Nothing is read only at the end of the file. -/
theorem eq_nil_of_fill {rest : List UInt8} {script : List ReadOutcome} {r : TradeReader}
    (h : fill [] rest script = (some [], r)) : rest = [] := by
  induction script generalizing rest with
  | nil =>
      obtain ⟨htake, -⟩ := Prod.mk.inj h
      simpa [recordSize] using htake
  | cons o script ih =>
      cases o with
      | interrupted => exact ih h
      | failed => cases h
      | short n =>
          generalize hk : min (n + 1) (recordSize - ([] : List UInt8).length) = k
          have hpos : k ≠ 0 := by
            rw [← hk]
            simp [recordSize]
          rcases fill_short hk rest script with
            ⟨hempty, -⟩ | ⟨hne, -, heq⟩ | ⟨hne, -, heq⟩
          · exact (List.take_eq_nil_iff.mp hempty).resolve_left hpos
          · exact absurd (Option.some.inj (Prod.mk.inj (heq.symm.trans h)).1) hne
          · obtain ⟨bytes, -, hbuf⟩ := fill_bytes (heq.symm.trans h)
            exact absurd (List.append_eq_nil_iff.mp (hbuf [] rfl).symm).1 hne

/-! ## Draining a reader -/

/-- Whole records are read one after the other, whatever follows them. -/
theorem drains_append {rest : List UInt8} {items : List (Except CaptureError NormalizedTrade)}
    (hrest : ∀ script, Benign script → Drains ⟨rest, script⟩ items) {script : List ReadOutcome}
    (hscript : Benign script) (ts : List NormalizedTrade) :
    Drains ⟨ts.flatMap encodeRecord ++ rest, script⟩ (ts.map .ok ++ items) := by
  induction ts generalizing script with
  | nil => exact hrest script hscript
  | cons t ts ih =>
      obtain ⟨script', hscript', hnext⟩ :=
        next_eq (r := ⟨(t :: ts).flatMap encodeRecord ++ rest, script⟩) hscript
      have hlen := length_encodeRecord t
      have hne : encodeRecord t ++ (ts.flatMap encodeRecord ++ rest) ≠ [] := by
        apply List.append_ne_nil_of_left_ne_nil
        exact List.ne_nil_of_length_pos (hlen ▸ recordSize_pos)
      simp only [List.flatMap_cons, List.append_assoc, if_neg hne, List.take_left' hlen,
        List.drop_left' hlen, decodeItem_encodeRecord] at hnext
      simp only [List.flatMap_cons, List.append_assoc]
      exact .more hnext (ih hscript')

theorem drains_nil {script : List ReadOutcome} (hscript : Benign script) :
    Drains ⟨[], script⟩ [] := by
  obtain ⟨script', -, hnext⟩ := next_eq (r := ⟨[], script⟩) hscript
  exact .done (by rw [hnext, if_pos rfl])

theorem drains_records {script : List ReadOutcome} (hscript : Benign script)
    (ts : List NormalizedTrade) : Drains ⟨ts.flatMap encodeRecord, script⟩ (ts.map .ok) := by
  have hdrains := drains_append (fun _ hscript ↦ drains_nil hscript) hscript ts
  rwa [List.append_nil, List.append_nil] at hdrains

theorem rest_of_drains {r : TradeReader} {ts : List NormalizedTrade}
    (h : Drains r (ts.map .ok)) : r.rest = ts.flatMap encodeRecord := by
  induction ts generalizing r with
  | nil =>
      cases h with
      | done hnext =>
          unfold next at hnext
          split at hnext
          · cases hnext
          · rename_i buf r' hfill
            split at hnext
            · rename_i hempty
              rw [hempty] at hfill
              exact eq_nil_of_fill hfill
            · cases hnext
  | cons t ts ih =>
      cases h with
      | more hnext hrest =>
          unfold next at hnext
          split at hnext
          · cases hnext
          · rename_i buf r' hfill
            split at hnext
            · cases hnext
            · obtain ⟨hitem, rfl⟩ := Prod.mk.inj hnext
              obtain ⟨bytes, hsplit, hbuf⟩ := fill_bytes hfill
              rw [List.nil_append] at hbuf
              have hrecord := encodeRecord_of_decodeItem (Option.some.inj hitem)
              rw [hsplit, ← hbuf buf rfl, ← hrecord, ih hrest, List.flatMap_cons]

end TradeReader

/-! ## Both directions -/

open TradeReader in
/-- Sessions on an absent or empty file are read back as one list, however it was
split and however short the reads are; and a file that is read to its end without
an error holds nothing but what recording its trades writes. -/
theorem round_trip (file : Option (List UInt8)) (hfile : file.getD [] = []) :
    (∀ tss script, tss ≠ [] → Benign script →
      ∃ bytes r, TradeRecorder.sessions file tss = .ok bytes ∧ openFile bytes script = .ok r ∧
        Drains r (tss.flatten.map .ok)) ∧
    ∀ bytes script r ts, openFile bytes script = .ok r → Drains r (ts.map .ok) →
      ∀ tss, tss ≠ [] → tss.flatten = ts → TradeRecorder.sessions file tss = .ok bytes := by
  constructor
  · intro tss script htss hscript
    obtain ⟨ts, rest, rfl⟩ := List.exists_cons_of_ne_nil htss
    exact ⟨_, _, TradeRecorder.sessions_of_new hfile ts rest, openFile_captureFile _ script,
      drains_records hscript _⟩
  · intro bytes script r ts hopen hdrains tss htss hts
    obtain ⟨ts', rest, rfl⟩ := List.exists_cons_of_ne_nil htss
    rw [TradeRecorder.sessions_of_new hfile, openFile_eq_ok hopen, rest_of_drains hdrains, ← hts]
    rfl

open TradeReader in
theorem round_trip_withEmptySession :
    (∃ bytes r, TradeRecorder.sessions none [[priced 1], [], [priced 2]] = .ok bytes ∧
      openFile bytes [.short 6, .interrupted] = .ok r ∧
      Drains r [.ok (priced 1), .ok (priced 2)]) ∧
    TradeRecorder.sessions none [[], [priced 1]] = .ok (captureFile [priced 1]) := by
  obtain ⟨hforth, hback⟩ := round_trip none rfl
  have hscript : Benign [.short 6, .interrupted] := by
    intro o ho
    simp only [List.mem_cons, List.not_mem_nil, or_false] at ho
    rcases ho with rfl | rfl <;> simp
  refine ⟨hforth [[priced 1], [], [priced 2]] _ (by simp) hscript, ?_⟩
  have hdrains : Drains ⟨[priced 1].flatMap encodeRecord, []⟩ ([priced 1].map .ok) :=
    drains_records (by rintro o ⟨⟩) [priced 1]
  exact hback _ [] _ [priced 1] (openFile_captureFile _ []) hdrains [[], [priced 1]] (by simp) rfl

end Geiger.Capture
