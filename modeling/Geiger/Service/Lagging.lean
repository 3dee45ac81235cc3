import Geiger.Client.CatchUp
import Geiger.Library.Projection

/-!
# Subscribers that fall behind

A connection that has lagged goes on at the oldest message that the channel still
holds.  What it missed was older than that, and its warnings count it.
-/

namespace Geiger.Fanout

open Runs

variable {α : Type*}

/-- The messages of a log from one position up to another. -/
def between (log : List α) (first last : ℕ) : List α := (log.take last).drop first

section Between

variable {log : List α} {i j k : ℕ}

theorem between_append (hij : i ≤ j) (hjk : j ≤ k) (hk : k ≤ log.length) :
    between log i k = between log i j ++ between log j k :=
  Broadcast.drop_take_append hij hjk (hjk.trans hk)

theorem length_between (hk : k ≤ log.length) : (between log i k).length = k - i := by
  rw [between, List.length_drop, List.length_take]
  omega

theorem between_self (log : List α) (i : ℕ) : between log i i = [] := by
  rw [between, List.drop_eq_nil_iff, List.length_take]
  exact min_le_left _ _

theorem between_length (log : List α) (i : ℕ) : between log i log.length = log.drop i := by
  rw [between, List.take_length]

end Between

/-- The number of messages that a receive reports as missed. -/
def skipped : Broadcast.Received α × ℕ → List ℕ
  | (.lagged missed, _) => [missed]
  | (.message _, _) => []

/-- The numbers that the warnings about the connection `c` give. -/
def warned (c : ℕ) (s : Fanout α) : Event α → List ℕ
  | .recv d => if d = c then (s.channel.recv (s.conns c).next).elim [] skipped else []
  | _ => []

/-- From the position `p` on everything has been written, and of what came before all
that is not written has been counted as missed. -/
structure Resumed (s : Fanout α) (conn : Conn α) (missed p : ℕ) : Prop where
  start_le : conn.start ≤ p
  le_next : p ≤ conn.next
  next_le : conn.next ≤ s.channel.log.length
  le_oldest : p ≤ max conn.start s.channel.oldest
  written : ∃ (snapshot : Option α) (older : List α),
    conn.written = snapshot.toList ++ older ++ between s.channel.log p conn.next ∧
    older.Sublist (between s.channel.log conn.start p) ∧ older.length + missed = p - conn.start ∧
    ∀ m ∈ snapshot, m ∈ s.published

/-- What is known of a connection in each of its phases. -/
def Follows (s : Fanout α) (conn : Conn α) (missed : ℕ) : Prop :=
  match conn.phase with
  | .idle => missed = 0 ∧ conn.written = []
  | .subscribed => missed = 0 ∧ conn.written = [] ∧ conn.start = conn.next ∧
      conn.next ≤ s.channel.log.length
  | .forwarding => ∃ p, Resumed s conn missed p

section Steps

variable {s s' : Fanout α} {conn : Conn α} {missed p c : ℕ}

/-- A publisher step leaves every connection where it is. -/
theorem Resumed.mono (h : Resumed s conn missed p) (hlog : s.channel.log <+: s'.channel.log)
    (hcapacity : s'.channel.capacity = s.channel.capacity)
    (hpub : ∀ m ∈ s.published, m ∈ s'.published) : Resumed s' conn missed p := by
  obtain ⟨more, hmore⟩ := hlog
  obtain ⟨snapshot, older, hwritten, hsub, hcount, hmem⟩ := h.written
  have hkeep : ∀ {i j : ℕ}, j ≤ s.channel.log.length →
      between s'.channel.log i j = between s.channel.log i j := by
    intro i j hj
    rw [between, ← hmore, List.take_append_of_le_length hj, between]
  have hlength : s.channel.log.length ≤ s'.channel.log.length := by
    rw [← hmore, List.length_append]
    exact Nat.le_add_right _ _
  refine ⟨h.start_le, h.le_next, h.next_le.trans hlength, h.le_oldest.trans ?_, snapshot, older,
    ?_, ?_, hcount, fun m hm ↦ hpub m (hmem m hm)⟩
  · apply max_le_max_left
    rw [Broadcast.oldest, Broadcast.oldest, hcapacity]
    exact Nat.sub_le_sub_right hlength _
  · rw [hkeep h.next_le]
    exact hwritten
  · rw [hkeep (h.le_next.trans h.next_le)]
    exact hsub

theorem Follows.mono (h : Follows s conn missed) (hlog : s.channel.log <+: s'.channel.log)
    (hcapacity : s'.channel.capacity = s.channel.capacity)
    (hpub : ∀ m ∈ s.published, m ∈ s'.published) : Follows s' conn missed := by
  unfold Follows at h ⊢
  cases hphase : conn.phase <;> simp only [hphase] at h ⊢
  · exact h
  · exact ⟨h.1, h.2.1, h.2.2.1, h.2.2.2.trans hlog.length_le⟩
  · obtain ⟨p, hp⟩ := h
    exact ⟨p, hp.mono hlog hcapacity hpub⟩

/-- A message is forwarded. -/
theorem Resumed.message (h : Resumed s conn missed p) {m : α} {next : ℕ}
    (hrecv : s.channel.recv conn.next = some (.message m, next)) :
    Resumed s (recvConn conn (.message m, next)) missed p := by
  obtain ⟨hget, rfl⟩ := Broadcast.recv_message hrecv
  obtain ⟨snapshot, older, hwritten, hsub, hcount, hmem⟩ := h.written
  have hlt : conn.next < s.channel.log.length := (List.getElem?_eq_some_iff.mp hget).1
  have hmore : between s.channel.log p (conn.next + 1) =
      between s.channel.log p conn.next ++ [m] := Broadcast.drop_take_succ h.le_next hget
  refine ⟨h.start_le, h.le_next.trans (Nat.le_succ _), hlt, h.le_oldest, snapshot, older, ?_,
    hsub, hcount, hmem⟩
  simp only [recvConn]
  rw [hmore, hwritten, List.append_assoc (snapshot.toList ++ older)]

/-- The connection goes on at the oldest message held, and the warning counts what lies
between. -/
theorem Resumed.lagged (h : Resumed s conn missed p) {n next : ℕ}
    (hrecv : s.channel.recv conn.next = some (.lagged n, next)) :
    Resumed s (recvConn conn (.lagged n, next)) (missed + n) s.channel.oldest := by
  obtain ⟨hlt, rfl, rfl⟩ := Broadcast.recv_lagged hrecv
  obtain ⟨snapshot, older, hwritten, hsub, hcount, hmem⟩ := h.written
  have hold : s.channel.oldest ≤ s.channel.log.length := Nat.sub_le _ _
  have hstart := h.start_le
  have hnext := h.le_next
  refine ⟨by simp only [recvConn]; omega, le_rfl, hold, le_max_right _ _, snapshot,
    older ++ between s.channel.log p conn.next, ?_, ?_, ?_, hmem⟩
  · simp only [recvConn]
    rw [between_self, hwritten, List.append_nil, List.append_assoc]
  · have hsub' : (older ++ between s.channel.log p conn.next).Sublist
        (between s.channel.log conn.start p ++ between s.channel.log p conn.next) :=
      hsub.append (List.Sublist.refl _)
    refine hsub'.trans ?_
    simp only [recvConn]
    rw [← between_append h.start_le h.le_next h.next_le,
      between_append (h.start_le.trans h.le_next) hlt.le hold]
    exact List.sublist_append_left _ _
  · rw [List.length_append, length_between h.next_le]
    simp only [recvConn]
    omega

/-- The invariant, for each connection with the number of messages it was warned about. -/
structure Lossy (s : Fanout α) (missed : ℕ → ℕ) : Prop where
  last : s.lastMessage = s.published.getLast?
  conns : ∀ c, Follows s (s.conns c) (missed c)

theorem lossy_new (capacity : ℕ) : Lossy (new capacity : Fanout α) fun _ ↦ 0 :=
  ⟨rfl, fun _ ↦ ⟨rfl, rfl⟩⟩

theorem warned_of_ne_recv {e : Event α} (he : e ≠ .recv c) : warned c s e = [] := by
  cases e with
  | recv d => exact if_neg fun h ↦ he (congrArg Event.recv h)
  | _ => rfl

/-- A connection moves, and the others stay. -/
theorem Lossy.setConn {missed missed' : ℕ → ℕ} (h : Lossy s missed)
    (hothers : ∀ d, d ≠ c → missed' d = missed d) (hconn : Follows s conn (missed' c)) :
    Lossy (s.setConn c conn) missed' := by
  have hkeep : ∀ {conn' : Conn α} {n : ℕ}, Follows s conn' n → Follows (s.setConn c conn) conn' n :=
    fun hfollows ↦ hfollows.mono (List.prefix_refl _) rfl fun _ ↦ id
  refine ⟨h.last, fun d ↦ ?_⟩
  by_cases hd : d = c
  · subst hd
    rw [setConn_conns_self]
    exact hkeep hconn
  · rw [setConn_conns_of_ne _ _ hd, hothers d hd]
    exact hkeep (h.conns d)

theorem Follows.snapshot (h : Follows s conn missed) (hphase : conn.phase = .subscribed)
    (hlast : s.lastMessage = s.published.getLast?) :
    Follows s { conn with phase := .forwarding, written := s.lastMessage.toList } missed := by
  simp only [Follows, hphase] at h
  obtain ⟨rfl, -, hstart, hnext⟩ := h
  refine ⟨conn.start, le_rfl, hstart.le, hnext, le_max_left _ _, s.lastMessage, [], ?_,
    List.nil_sublist _, by simp, ?_⟩
  · simp only
    rw [← hstart, between_self, List.append_nil, List.append_nil]
  · intro m hm
    rw [hlast] at hm
    exact List.mem_of_getLast? hm

theorem follows_of_resumed (hphase : conn.phase = .forwarding) (h : Resumed s conn missed p) :
    Follows s conn missed := by
  rw [Follows, hphase]
  exact ⟨p, h⟩

theorem Follows.recv (h : Follows s conn missed) (hphase : conn.phase = .forwarding)
    {r : Broadcast.Received α × ℕ} (hrecv : s.channel.recv conn.next = some r) :
    Follows s (recvConn conn r) (missed + (skipped r).sum) := by
  simp only [Follows, hphase] at h
  obtain ⟨p, hp⟩ := h
  obtain ⟨received, next⟩ := r
  cases received with
  | message m => exact follows_of_resumed hphase (hp.message hrecv)
  | lagged n =>
      rw [skipped, List.sum_singleton]
      exact follows_of_resumed hphase (hp.lagged hrecv)

/-- One step, one case for each event. -/
theorem Lossy.step {missed : ℕ → ℕ} (h : Lossy s missed) {e : Event α}
    (hstep : s.step e = some s') : Lossy s' fun c ↦ missed c + (warned c s e).sum := by
  cases e with
  | store m =>
      obtain ⟨hpending, rfl⟩ := store_eq_some hstep
      refine ⟨by simp [published], fun c ↦ ?_⟩
      exact (h.conns c).mono (List.prefix_refl _) rfl fun m hm ↦ by
        simpa [published, hpending] using .inl (by simpa [published, hpending] using hm)
  | send =>
      have hpub := published_send hstep
      obtain ⟨m, -, rfl⟩ := send_eq_some hstep
      refine ⟨by rw [hpub]; exact h.last, fun c ↦ ?_⟩
      exact (h.conns c).mono (List.prefix_append _ _) rfl fun m hm ↦ by rwa [hpub]
  | subscribe c =>
      obtain ⟨hphase, rfl⟩ := subscribe_eq_some hstep
      refine h.setConn (fun d _ ↦ rfl) ?_
      have hfollows := h.conns c
      simp only [Follows, hphase] at hfollows
      exact ⟨hfollows.1, rfl, rfl, le_rfl⟩
  | snapshot c =>
      obtain ⟨hphase, rfl⟩ := snapshot_eq_some hstep
      exact h.setConn (fun d _ ↦ rfl) ((h.conns c).snapshot hphase h.last)
  | recv c =>
      obtain ⟨hphase, r, hr, rfl⟩ := recv_eq_some hstep
      refine h.setConn (fun d hd ↦ ?_) ?_
      · rw [warned_of_ne_recv fun h ↦ hd (Event.recv.inj h).symm]
        rfl
      · simp only [warned, if_true, hr, Option.elim_some]
        exact (h.conns c).recv hphase hr

end Steps

/-- In every run: what a connection has written is its snapshot, a part of the older
messages, and everything from some position on which lies no further back than the oldest
message held; what is left out was counted by its warnings. -/
theorem lossy_run {capacity : ℕ} {es : List (Event α)} {s : Fanout α}
    (hrun : run step (new capacity) es = some s) :
    Lossy s fun c ↦ (told step (warned c) (new capacity) es).sum := by
  refine @invariant_trace _ _ _ _ _ _
    (fun es s ↦ Lossy s fun c ↦ (told step (warned c) (new capacity) es).sum) ?_
    (lossy_new capacity) hrun
  intro es s e s' hs h hstep
  have hsum : (fun c ↦ (told step (warned c) (new capacity) (es ++ [e])).sum) =
      fun c ↦ (told step (warned c) (new capacity) es).sum + (warned c s e).sum := by
    funext c
    rw [told_concat e hs, List.sum_append]
  rw [hsum]
  exact h.step hstep

end Geiger.Fanout

namespace Geiger.CatchUp

open Runs Fanout ToxicityClient

variable {F W : Type}

theorem newestReading_drop {log : List (ServerMessage F)} {n : ℕ} {r : ServerMessage F}
    (h : newestReading (log.drop n) = some r) : newestReading log = some r := by
  rw [← List.take_append_drop n log, newestReading_append, h, Option.some_or]

/-- A drained connection has written the newest reading sent, if that is still held. -/
theorem newestReading_of_resumed {s : Fanout (ServerMessage F)} {c missed p : ℕ}
    (h : Resumed s (s.conns c) missed p) (hdrained : s.Drained c) {r : ServerMessage F}
    (hr : newestReading (s.channel.log.drop (max (s.conns c).start s.channel.oldest)) = some r) :
    newestReading s.channel.log = some r ∧ newestReading (s.conns c).written = some r := by
  obtain ⟨snapshot, older, hwritten, -, -, -⟩ := h.written
  rw [hdrained.next, between_length] at hwritten
  have hlate : newestReading (s.channel.log.drop p) = some r := by
    have hdrop : s.channel.log.drop (max (s.conns c).start s.channel.oldest) =
        (s.channel.log.drop p).drop (max (s.conns c).start s.channel.oldest - p) := by
      rw [List.drop_drop, Nat.add_sub_cancel' h.le_oldest]
    rw [hdrop] at hr
    exact newestReading_drop hr
  refine ⟨newestReading_drop hr, ?_⟩
  rw [hwritten, newestReading_append, hlate, Option.some_or]

/-- Three readings into a channel that holds two. -/
def overrun : List (Fanout.Event (ServerMessage ℕ)) :=
  [.subscribe 0, .snapshot 0, .store scored, .send, .store scored, .send, .store scored, .send,
    .recv 0, .recv 0, .recv 0]

end Geiger.CatchUp
