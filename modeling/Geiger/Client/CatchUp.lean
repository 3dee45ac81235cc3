import Geiger.Client.Session
import Geiger.Service.Delivery

/-!
# Catching a late subscriber up

A client that has processed everything its connection wrote shows the newest
reading among what was written.  Whether that is the newest reading published
depends on what the snapshot was, as the cell it is read from also holds heartbeats, and
on what a connection that fell behind has missed.
-/

namespace Geiger.CatchUp

open Runs Fanout ToxicityClient

variable {F W : Type}

def newestReading (msgs : List (ServerMessage F)) : Option (ServerMessage F) :=
  (msgs.filter ServerMessage.isReading).getLast?

def scoreState : ServerMessage F → Option (ToxicityState F)
  | .reading _ _ _ _ tradesInBucket vpin vpinCdf =>
    some (readingState tradesInBucket vpin vpinCdf)
  | _ => none

theorem newestReading_append (xs ys : List (ServerMessage F)) :
    newestReading (xs ++ ys) = (newestReading ys).or (newestReading xs) := by
  simp only [newestReading, List.filter_append, List.getLast?_append]

theorem newestReading_eq_none {msgs : List (ServerMessage F)} :
    newestReading msgs = none ↔ ∀ msg ∈ msgs, msg.isReading = false := by
  simp [newestReading]

theorem mem_of_newestReading {msgs : List (ServerMessage F)} {r : ServerMessage F}
    (h : newestReading msgs = some r) : r ∈ msgs :=
  List.mem_of_mem_filter (List.mem_of_getLast? h)

theorem newestReading_concat {msg : ServerMessage F} (h : msg.isReading)
    (msgs : List (ServerMessage F)) : newestReading (msgs ++ [msg]) = some msg := by
  simp [newestReading, h]

theorem newestReading_map (f : F → F) (msgs : List (ServerMessage F)) :
    newestReading (msgs.map (ServerMessage.map f)) =
      (newestReading msgs).map (ServerMessage.map f) := by
  have hfilter : ServerMessage.isReading ∘ ServerMessage.map f =
      (ServerMessage.isReading : ServerMessage F → Bool) :=
    funext fun msg ↦ msg.isReading_map f
  rw [newestReading, newestReading, List.filter_map, hfilter, List.getLast?_map]

/-! ## The client's side -/

/-- Heartbeats and errors leave the state of a reading alone. -/
theorem handleMessage_of_not_reading {state : ToxicityState F} {r msg : ServerMessage F}
    (hr : scoreState r = some state) (hmsg : msg.isReading = false) :
    handleMessage state (some msg) = state := by
  cases msg with
  | reading => cases hmsg
  | error => rfl
  | heartbeat =>
      cases r with
      | reading exchange symbol bucketId tsCloseNs n vpin vpinCdf =>
          obtain rfl := Option.some.inj hr
          cases vpin <;> rfl
      | heartbeat => cases hr
      | error => cases hr

theorem scoreState_handleMessage {msg : ServerMessage F} (h : msg.isReading)
    (state : ToxicityState F) :
    scoreState msg = some (handleMessage state (some msg)) := by
  cases msg with
  | reading => rfl
  | heartbeat => cases h
  | error => cases h

theorem scoreState_foldl {msgs : List (ServerMessage F)} {r : ServerMessage F}
    (h : newestReading msgs = some r) (state : ToxicityState F) :
    scoreState r = some (msgs.foldl (fun st msg ↦ handleMessage st (some msg)) state) := by
  induction msgs using List.reverseRecOn with
  | nil => cases h
  | append_singleton msgs msg ih =>
      rw [List.foldl_append]
      by_cases hmsg : msg.isReading
      · obtain rfl := Option.some.inj ((newestReading_concat hmsg msgs).symm.trans h)
        exact scoreState_handleMessage hmsg _
      · have hkeep : newestReading (msgs ++ [msg]) = newestReading msgs := by
          simp [newestReading, hmsg]
        have hstate := ih (hkeep.symm.trans h)
        rw [List.foldl_cons, List.foldl_nil,
          handleMessage_of_not_reading hstate (by simpa using hmsg)]
        exact hstate

def session (codec : Codec F W) (written : List (ServerMessage F)) :
    List (ToxicityClient.Event W) :=
  [.attempt, .established] ++ written.map fun msg ↦ .text (codec.toString msg)

theorem run_texts {codec : Codec F W} {reread : F → F} (hreads : codec.ReadsBack reread)
    (written : List (ServerMessage F)) {c : ToxicityClient F} {lastMsgAt : ℕ}
    (hphase : c.phase = .session lastMsgAt) :
    ∃ c', run (ToxicityClient.step codec.fromStr) c
        (written.map fun msg ↦ .text (codec.toString msg)) = some c' ∧
      c'.state = (written.map (ServerMessage.map reread)).foldl
        (fun st msg ↦ handleMessage st (some msg)) c.state := by
  induction written generalizing c lastMsgAt with
  | nil => exact ⟨c, rfl, rfl⟩
  | cons msg written ih =>
      have hstep : ToxicityClient.step codec.fromStr c (.text (codec.toString msg)) =
          some { c with
            phase := .session c.now
            state := handleMessage c.state (some (msg.map reread)) } := by
        simp only [ToxicityClient.step, hphase, hreads msg]
      obtain ⟨c', hrun, hstate⟩ := ih (c := { c with
        phase := .session c.now
        state := handleMessage c.state (some (msg.map reread)) }) rfl
      exact ⟨c', run_cons_eq_some.mpr ⟨_, hstep, hrun⟩, hstate⟩

/-- After processing a delivery the client shows its newest reading, as it was read back. -/
theorem exists_client {codec : Codec F W} {reread : F → F} (hreads : codec.ReadsBack reread)
    (staleAfter : ℕ) {written : List (ServerMessage F)} {r : ServerMessage F}
    (h : newestReading written = some r) :
    ∃ c : ToxicityClient F, run (ToxicityClient.step codec.fromStr) (connect staleAfter)
        (session codec written) = some c ∧ scoreState (r.map reread) = some c.state := by
  obtain ⟨c, hrun, hstate⟩ := run_texts hreads written
    (c := { (connect staleAfter : ToxicityClient F) with phase := .session 0 }) rfl
  refine ⟨c, ?_, ?_⟩
  · exact run_cons_eq_some.mpr ⟨_, rfl, run_cons_eq_some.mpr ⟨_, rfl, hrun⟩⟩
  · rw [hstate]
    apply scoreState_foldl
    rw [newestReading_map, h, Option.map_some]

/-! ## The server's side -/

def ScoredBefore (s : Fanout (ServerMessage F)) (start : ℕ) : Prop :=
  ∃ msg ∈ s.channel.log.take start, msg.isScored

/-- The floats of a message are read back as they were printed.  At the snapshot of a late
subscriber the stored message is a reading, or a reading has been sent since the
subscribe.  Of the messages that a receive finds gone none is a reading, or a reading is
still held. -/
def ReadingInReach (reread : F → F) (s : Fanout (ServerMessage F)) :
    Fanout.Event (ServerMessage F) → Prop
  | .store msg => msg.map reread = msg
  | .snapshot c => ScoredBefore s (s.conns c).start →
      (∃ msg ∈ s.lastMessage, msg.isReading) ∨
        ∃ msg ∈ s.channel.log.drop (s.conns c).start, msg.isReading
  | .recv c =>
      (∀ msg ∈ (s.channel.log.take s.channel.oldest).drop (s.conns c).next,
        msg.isReading = false) ∨
        ∃ msg ∈ s.channel.log.drop s.channel.oldest, msg.isReading
  | _ => True

/-- The invariant that a snapshot taken under `ReadingInReach` leaves behind. -/
def Reaches (s : Fanout (ServerMessage F)) (start : ℕ) (snap : Option ℕ) : Prop :=
  start ≤ s.channel.log.length ∧ NotBefore s start snap ∧
    (ScoredBefore s start →
      (∃ k ∈ snap, ∃ msg, s.published[k]? = some msg ∧ msg.isReading) ∨
        ∃ msg ∈ s.channel.log.drop start, msg.isReading)

theorem stable_reaches : Stable (Reaches (F := F)) := by
  rintro s s' start snap ⟨more, hlog⟩ ⟨rest, hpub⟩ ⟨hle, hafter, hreach⟩
  refine ⟨?_, hafter, ?_⟩
  · rw [← hlog, List.length_append]
    omega
  · intro hscored
    unfold ScoredBefore at hscored
    rw [← hlog, List.take_append_of_le_length hle] at hscored
    rcases hreach hscored with ⟨k, hk, msg, hmsg, hreading⟩ | ⟨msg, hmem, hreading⟩
    · refine .inl ⟨k, hk, msg, ?_, hreading⟩
      rw [← hpub, List.getElem?_append_left (List.getElem?_eq_some_iff.mp hmsg).1]
      exact hmsg
    · refine .inr ⟨msg, ?_, hreading⟩
      rw [← hlog, List.drop_append_of_le_length hle]
      exact List.mem_append_left _ hmem

theorem reaches_storedAt {reread : F → F} (s : Fanout (ServerMessage F)) {c : ℕ}
    (hguard : ReadingInReach reread s (.snapshot c))
    (hlast : s.lastMessage = s.published.getLast?)
    (hle : (s.conns c).start ≤ s.channel.log.length) :
    Reaches s (s.conns c).start s.storedAt := by
  refine ⟨hle, s.notBefore_storedAt hle, ?_⟩
  intro hscored
  rcases hguard hscored with ⟨msg, hmsg, hreading⟩ | hsent
  · rw [hlast, ← s.getElem?_storedAt] at hmsg
    obtain ⟨k, hk, hget⟩ := Option.bind_eq_some_iff.mp hmsg
    exact .inl ⟨k, hk, msg, hget, hreading⟩
  · exact .inr hsent

/-- The newest reading forwarded is the newest one sent so far from the subscribe on, or a
newer reading is still to come.  The messages missed in between do not matter. -/
structure Tracks (s : Fanout (ServerMessage F)) (conn : Conn (ServerMessage F)) : Prop where
  start_le : conn.start ≤ conn.next
  next_le : conn.next ≤ s.channel.log.length
  written : ∃ (snap : Option ℕ) (forwarded : List (ServerMessage F)),
    Reaches s conn.start snap ∧ (∀ k ∈ snap, k < s.published.length) ∧
    conn.written = (snap.bind fun k ↦ s.published[k]?).toList ++ forwarded ∧
    (newestReading forwarded =
        newestReading ((s.channel.log.take conn.next).drop conn.start) ∨
      ∃ msg ∈ s.channel.log.drop conn.next, msg.isReading)

section Steps

variable {s s' : Fanout (ServerMessage F)} {conn : Conn (ServerMessage F)} {c : ℕ}
  {reread : F → F}

/-- A publisher step leaves every connection where it is. -/
theorem Tracks.mono (h : Tracks s conn) (hlog : s.channel.log <+: s'.channel.log)
    (hpub : s.published <+: s'.published) : Tracks s' conn := by
  obtain ⟨snap, forwarded, hreaches, hlt, hwritten, hnewest⟩ := h.written
  refine ⟨h.start_le, h.next_le.trans hlog.length_le, snap, forwarded,
    stable_reaches s s' _ _ hlog hpub hreaches, fun k hk ↦ (hlt k hk).trans_le hpub.length_le,
    ?_, ?_⟩
  · obtain ⟨rest, hrest⟩ := hpub
    rw [hwritten]
    cases snap with
    | none => rfl
    | some k =>
        simp only [Option.bind_some]
        rw [← hrest, List.getElem?_append_left (hlt k rfl)]
  · obtain ⟨more, hmore⟩ := hlog
    rw [← hmore, List.take_append_of_le_length h.next_le,
      List.drop_append_of_le_length h.next_le]
    exact hnewest.imp_right fun ⟨msg, hmem, hreading⟩ ↦
      ⟨msg, List.mem_append_left _ hmem, hreading⟩

theorem Tracks.snapshot (hinv : Inv NotBefore s) (hphase : (s.conns c).phase = .subscribed)
    (hguard : ReadingInReach reread s (.snapshot c)) :
    Tracks s { s.conns c with phase := .forwarding, written := s.lastMessage.toList } := by
  obtain ⟨hstart, hnext⟩ := hinv.subscribed c hphase
  refine ⟨hstart.le, hnext, s.storedAt, [],
    reaches_storedAt s hguard hinv.last (hstart.trans_le hnext),
    fun k hk ↦ s.lt_of_mem_storedAt hk, ?_, .inl ?_⟩
  · rw [List.append_nil, s.getElem?_storedAt, hinv.last]
  · have hempty : (s.channel.log.take (s.conns c).next).drop (s.conns c).start = [] := by
      rw [List.drop_eq_nil_iff, List.length_take, hstart]
      exact Nat.min_le_left _ _
    rw [hempty]

theorem Tracks.message (h : Tracks s conn) {msg : ServerMessage F} {next : ℕ}
    (hrecv : s.channel.recv conn.next = some (.message msg, next)) :
    Tracks s (recvConn conn (.message msg, next)) := by
  obtain ⟨hget, rfl⟩ := Broadcast.recv_message hrecv
  obtain ⟨snap, forwarded, hreaches, hlt, hwritten, hnewest⟩ := h.written
  refine ⟨h.start_le.trans (Nat.le_succ _), (List.getElem?_eq_some_iff.mp hget).1, snap,
    forwarded ++ [msg], hreaches, hlt, ?_, ?_⟩
  · simp only [recvConn, hwritten, List.append_assoc]
  · simp only [recvConn, Broadcast.drop_take_succ h.start_le hget]
    rcases hnewest with heq | ⟨late, hmem, hreading⟩
    · exact .inl (by rw [newestReading_append, newestReading_append, heq])
    · by_cases hmsg : msg.isReading
      · exact .inl (by rw [newestReading_concat hmsg, newestReading_concat hmsg])
      · refine .inr ⟨late, ?_, hreading⟩
        obtain ⟨hnext, rfl⟩ := List.getElem?_eq_some_iff.mp hget
        rw [List.drop_eq_getElem_cons hnext] at hmem
        rcases List.mem_cons.mp hmem with rfl | hmem
        · exact absurd hreading hmsg
        · exact hmem

/-- What has gone has no reading in it, or a newer one is still to come. -/
theorem Tracks.lagged (h : Tracks s conn)
    (hguard : (∀ msg ∈ (s.channel.log.take s.channel.oldest).drop conn.next,
      msg.isReading = false) ∨ ∃ msg ∈ s.channel.log.drop s.channel.oldest, msg.isReading)
    {n next : ℕ} (hrecv : s.channel.recv conn.next = some (.lagged n, next)) :
    Tracks s (recvConn conn (.lagged n, next)) := by
  obtain ⟨hlt, rfl, rfl⟩ := Broadcast.recv_lagged hrecv
  have hold : s.channel.oldest ≤ s.channel.log.length := Nat.sub_le _ _
  obtain ⟨snap, forwarded, hreaches, hsnap, hwritten, hnewest⟩ := h.written
  refine ⟨h.start_le.trans hlt.le, hold, snap, forwarded, hreaches, hsnap, hwritten, ?_⟩
  simp only [recvConn]
  rcases hguard with hgone | hheld
  · rcases hnewest with heq | ⟨late, hmem, hreading⟩
    · have hsplit : (s.channel.log.take s.channel.oldest).drop conn.start =
          (s.channel.log.take conn.next).drop conn.start ++
            (s.channel.log.take s.channel.oldest).drop conn.next :=
        Broadcast.drop_take_append h.start_le hlt.le h.next_le
      rw [hsplit, newestReading_append, newestReading_eq_none.mpr hgone, Option.none_or]
      exact .inl heq
    · have hsplit : s.channel.log.drop conn.next =
          (s.channel.log.take s.channel.oldest).drop conn.next ++
            s.channel.log.drop s.channel.oldest := by
        conv_lhs => rw [← List.take_append_drop s.channel.oldest s.channel.log]
        rw [List.drop_append_of_le_length]
        rw [List.length_take]
        omega
      rw [hsplit] at hmem
      rcases List.mem_append.mp hmem with hmem | hmem
      · rw [hgone late hmem] at hreading
        cases hreading
      · exact .inr ⟨late, hmem, hreading⟩
  · exact .inr hheld

/-- The invariant of the runs that keep a reading in reach. -/
structure Tracked (reread : F → F) (s : Fanout (ServerMessage F)) : Prop where
  inv : Inv NotBefore s
  exact : ∀ msg ∈ s.published, msg.map reread = msg
  forwarding : ∀ c, (s.conns c).phase = .forwarding → Tracks s (s.conns c)

theorem tracked_new (reread : F → F) (capacity : ℕ) : Tracked reread (Fanout.new capacity) := by
  refine ⟨inv_new capacity, by simp [published, Fanout.new, Broadcast.new], ?_⟩
  intro c hphase
  cases hphase

/-- A connection moves, and the others stay. -/
theorem Tracked.setConn (h : Tracked reread s) (hinv : Inv NotBefore (s.setConn c conn))
    (hconn : conn.phase = .forwarding → Tracks s conn) : Tracked reread (s.setConn c conn) := by
  have hkeep : ∀ conn', Tracks s conn' → Tracks (s.setConn c conn) conn' :=
    fun conn' htracks ↦ htracks.mono (List.prefix_refl _) (List.prefix_refl _)
  refine ⟨hinv, h.exact, fun d hphase ↦ ?_⟩
  by_cases hd : d = c
  · subst hd
    rw [setConn_conns_self] at hphase ⊢
    exact hkeep _ (hconn hphase)
  · rw [setConn_conns_of_ne _ _ hd] at hphase ⊢
    exact hkeep _ (h.forwarding d hphase)

/-- One step, one case for each event. -/
theorem Tracked.step (h : Tracked reread s) {e : Fanout.Event (ServerMessage F)}
    (hguard : ReadingInReach reread s e) (hstep : s.step e = some s') : Tracked reread s' := by
  have hinv : Inv NotBefore s' :=
    h.inv.step (fun _ _ _ _ _ _ h ↦ h) (fun c _ _ hle ↦ s.notBefore_storedAt hle) hstep
  cases e with
  | store msg =>
      have hpub := published_store hstep
      obtain ⟨-, rfl⟩ := store_eq_some hstep
      refine ⟨hinv, fun m hm ↦ ?_, fun c hphase ↦ ?_⟩
      · rw [hpub] at hm
        rcases List.mem_append.mp hm with hm | hm
        · exact h.exact m hm
        · obtain rfl := List.mem_singleton.mp hm
          exact hguard
      · refine (h.forwarding c hphase).mono (List.prefix_refl _) ?_
        rw [hpub]
        exact List.prefix_append _ _
  | send =>
      have hpub := published_send hstep
      obtain ⟨m, -, rfl⟩ := send_eq_some hstep
      refine ⟨hinv, by rw [hpub]; exact h.exact, fun c hphase ↦ ?_⟩
      refine (h.forwarding c hphase).mono (List.prefix_append _ _) ?_
      rw [hpub]
  | subscribe c =>
      obtain ⟨-, rfl⟩ := subscribe_eq_some hstep
      refine h.setConn hinv ?_
      rintro ⟨⟩
  | snapshot c =>
      obtain ⟨hphase, rfl⟩ := snapshot_eq_some hstep
      exact h.setConn hinv fun _ ↦ Tracks.snapshot h.inv hphase hguard
  | recv c =>
      obtain ⟨hphase, ⟨received, next⟩, hr, rfl⟩ := recv_eq_some hstep
      refine h.setConn hinv fun _ ↦ ?_
      cases received with
      | message msg => exact (h.forwarding c hphase).message hr
      | lagged n => exact (h.forwarding c hphase).lagged hguard hr

/-- What was written has a newest reading, and it is the newest one sent or the
one that is being published. -/
theorem newestReading_written (h : Tracks s (s.conns c)) (hdrained : s.Drained c)
    (hscored : ScoredBefore s (s.conns c).start) :
    ∃ r, newestReading (s.conns c).written = some r ∧
      (newestReading s.channel.log = some r ∨ newestReading s.published = some r) := by
  obtain ⟨snap, forwarded, ⟨hle, hafter, hreach⟩, hlt, hwritten, hforwarded⟩ := h.written
  have hnewest : newestReading forwarded =
      newestReading (s.channel.log.drop (s.conns c).start) := by
    rcases hforwarded with heq | ⟨late, hmem, -⟩
    · rw [heq, hdrained.next, List.take_length]
    · rw [hdrained.next, List.drop_length] at hmem
      cases hmem
  have hlog : newestReading s.channel.log =
      (newestReading (s.channel.log.drop (s.conns c).start)).or
        (newestReading (s.channel.log.take (s.conns c).start)) := by
    rw [← newestReading_append, List.take_append_drop]
  rw [hwritten, newestReading_append, hnewest]
  cases hsent : newestReading (s.channel.log.drop (s.conns c).start) with
  | some r => exact ⟨r, rfl, .inl (by rw [hlog, hsent, Option.some_or])⟩
  | none =>
      -- nothing but heartbeats since the subscribe, so the snapshot is a reading
      have hquiet := newestReading_eq_none.mp hsent
      rcases hreach hscored with ⟨k, hk, r, hget, hreading⟩ | ⟨msg, hmem, hreading⟩
      · obtain rfl := Option.mem_def.mp hk
        have hafter : (s.conns c).start ≤ k + 1 := hafter
        refine ⟨r, ?_, ?_⟩
        · simp only [Option.bind_some, hget, Option.toList_some, Option.none_or]
          exact newestReading_concat hreading []
        · rcases Nat.lt_or_ge k s.channel.log.length with hold | hpending
          · left
            have hget' : s.channel.log[k]? = some r := by
              rw [← hget, published, List.getElem?_append_left hold]
            have hbefore : k + 1 = (s.conns c).start := by
              apply le_antisymm _ hafter
              by_contra hlate
              have hmem : r ∈ s.channel.log.drop (s.conns c).start := by
                apply List.mem_of_getElem? (i := k - (s.conns c).start)
                rw [List.getElem?_drop, ← hget']
                congr 1
                omega
              rw [hquiet r hmem] at hreading
              cases hreading
            rw [hlog, hsent, Option.none_or, ← hbefore, List.take_add_one, hget']
            exact newestReading_concat hreading _
          · right
            have hlen : s.published.length = s.channel.log.length + s.pending.toList.length :=
              List.length_append
            cases hmsg : s.pending with
            | none =>
                have := hlt k rfl
                simp [hmsg] at hlen
                omega
            | some msg =>
                have hk : k = s.channel.log.length := by
                  have := hlt k rfl
                  simp [hmsg] at hlen
                  omega
                have hmsg' : r = msg := by
                  simpa [published, hmsg, hk] using hget.symm
                rw [published, hmsg, ← hmsg']
                exact newestReading_concat hreading _
      · rw [hquiet msg hmem] at hreading
        cases hreading

end Steps

/-- In every run in which a reading stays in reach of each late subscriber and the floats are
read back as they were printed, a client that has processed everything it was sent shows
the newest reading published: the newest one sent, or the one whose publish is under way.
It stays in reach if the snapshot is a reading, or one was sent since the subscribe, and
if the messages that a connection has missed had no reading among them, or one is still
held when it goes on. -/
theorem caught_up (codec : Codec F W) (reread : F → F) (hreads : codec.ReadsBack reread)
    (staleAfter capacity : ℕ) (es : List (Fanout.Event (ServerMessage F)))
    (s : Fanout (ServerMessage F))
    (hrun : run Fanout.step (Fanout.new capacity) es = some s)
    (hguard : Along Fanout.step (ReadingInReach reread) (Fanout.new capacity) es) (c : ℕ)
    (hdrained : s.Drained c) (hscored : ScoredBefore s (s.conns c).start) :
    ∃ (client : ToxicityClient F) (r : ServerMessage F),
      run (ToxicityClient.step codec.fromStr) (connect staleAfter)
        (session codec (s.conns c).written) = some client ∧
      scoreState r = some client.state ∧
      (newestReading s.channel.log = some r ∨ newestReading s.published = some r) := by
  have htracked : Tracked reread s :=
    invariant_along (fun s e s' h hreach hstep ↦ h.step hreach hstep)
      (tracked_new reread capacity) hguard hrun
  obtain ⟨r, hwritten, hnewest⟩ :=
    newestReading_written (htracked.forwarding c hdrained.phase) hdrained hscored
  obtain ⟨client, hclient, hstate⟩ := exists_client hreads staleAfter hwritten
  have hpublished : r ∈ s.published := by
    rcases hnewest with hnewest | hnewest
    · exact List.mem_append_left _ (mem_of_newestReading hnewest)
    · exact mem_of_newestReading hnewest
  rw [htracked.exact r hpublished] at hstate
  exact ⟨client, r, hclient, hstate, hnewest⟩

/-! ## A score and a heartbeat -/

def plainCodec (F : Type) : Codec F (ServerMessage F) := ⟨id, some⟩

theorem readsBack_plainCodec (F : Type) : (plainCodec F).ReadsBack id := by
  intro msg
  cases msg <;> simp [plainCodec, ServerMessage.map]

def scored : ServerMessage ℕ := .reading "binance" "BTCUSDT" 0 0 3 (some 1) none

def afterReading : List (Fanout.Event (ServerMessage ℕ)) :=
  [.store scored, .send, .subscribe 0, .snapshot 0]

def afterHeartbeat : List (Fanout.Event (ServerMessage ℕ)) :=
  [.store scored, .send, .store (.heartbeat 1), .send, .subscribe 0, .snapshot 0]

theorem caught_up_afterReading :
    ∃ s, run Fanout.step (Fanout.new 256) afterReading = some s ∧
      ∃ (client : ToxicityClient ℕ) (r : ServerMessage ℕ),
        run (ToxicityClient.step (plainCodec ℕ).fromStr) (connect 10)
          (session (plainCodec ℕ) (s.conns 0).written) = some client ∧
        scoreState r = some client.state ∧
        (newestReading s.channel.log = some r ∨ newestReading s.published = some r) := by
  refine ⟨_, rfl, caught_up (plainCodec ℕ) id (readsBack_plainCodec ℕ) 10 256 afterReading _ rfl
    ?_ 0 ⟨rfl, rfl⟩ ⟨scored, by decide, rfl⟩⟩
  simp only [afterReading, Along, ReadingInReach, true_and]
  refine ⟨rfl, ?_⟩
  rintro s₁ ⟨⟩ s₂ ⟨⟩ s₃ ⟨⟩
  exact ⟨fun _ ↦ .inl ⟨scored, rfl, rfl⟩, fun _ _ ↦ trivial⟩

/-- The client is left warming, with nothing more in its queue. -/
theorem afterHeartbeat_not_caught_up :
    ∃ s, run Fanout.step (Fanout.new 256) afterHeartbeat = some s ∧
      (s.conns 0).lagged = false ∧ s.Drained 0 ∧ ScoredBefore s (s.conns 0).start ∧
      ∃ client : ToxicityClient ℕ,
        run (ToxicityClient.step (plainCodec ℕ).fromStr) (connect 10)
          (session (plainCodec ℕ) (s.conns 0).written) = some client ∧
        newestReading s.published = some scored ∧
        client.state = .warming 0 ∧ scoreState scored = some (.live 1 none 3) :=
  ⟨_, rfl, rfl, ⟨rfl, rfl⟩, ⟨scored, by decide, rfl⟩, _, rfl, rfl, rfl, rfl⟩

end Geiger.CatchUp
