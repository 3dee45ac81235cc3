import Geiger.Service.Fanout
import Mathlib.Data.List.Infix
import Mathlib.Data.List.Nodup
import Mathlib.Order.Basic

/-!
# What a connection has written

A connection that never lagged has written its snapshot followed by a contiguous
stretch of the send log, starting where it subscribed.  What is known about the
position of the snapshot depends on the runs considered, so it is a parameter
`at` of the invariant that may only refer to what was published so far.
-/

namespace Geiger.Fanout

open Runs

variable {α : Type*}

/-- The position of the stored message in the published sequence. -/
def storedAt (s : Fanout α) : Option ℕ :=
  if s.published.length = 0 then none else some (s.published.length - 1)

/-- Later publishes do not revoke what `placed` says. -/
def Stable (placed : Fanout α → ℕ → Option ℕ → Prop) : Prop :=
  ∀ s s' start snap, s.channel.log <+: s'.channel.log → s.published <+: s'.published →
    placed s start snap → placed s' start snap

structure Caught (placed : Fanout α → ℕ → Option ℕ → Prop) (s : Fanout α) (conn : Conn α) :
    Prop where
  start_le : conn.start ≤ conn.next
  next_le : conn.next ≤ s.channel.log.length
  written : ∃ snap : Option ℕ, placed s conn.start snap ∧
    (∀ k ∈ snap, k < s.published.length) ∧
    conn.written = (snap.bind fun k ↦ s.published[k]?).toList ++
      (s.channel.log.take conn.next).drop conn.start

structure Inv (placed : Fanout α → ℕ → Option ℕ → Prop) (s : Fanout α) : Prop where
  last : s.lastMessage = s.published.getLast?
  quiet : ∀ c, (s.conns c).phase ≠ .forwarding → (s.conns c).written = []
  subscribed : ∀ c, (s.conns c).phase = .subscribed →
    (s.conns c).start = (s.conns c).next ∧ (s.conns c).next ≤ s.channel.log.length
  forwarding : ∀ c, (s.conns c).phase = .forwarding → (s.conns c).lagged = false →
    Caught placed s (s.conns c)

section Steps

variable {placed : Fanout α → ℕ → Option ℕ → Prop} {s s' : Fanout α}

theorem log_prefix_published (s : Fanout α) : s.channel.log <+: s.published :=
  List.prefix_append _ _

theorem getElem?_storedAt (s : Fanout α) :
    (s.storedAt.bind fun k ↦ s.published[k]?) = s.published.getLast? := by
  unfold storedAt
  split
  · rename_i hnil
    rw [List.eq_nil_of_length_eq_zero hnil]
    rfl
  · rw [Option.bind_some, List.getLast?_eq_getElem?]

theorem elim_storedAt (s : Fanout α) : s.storedAt.elim 0 Nat.succ = s.published.length := by
  unfold storedAt
  split
  · simp [*]
  · simp only [Option.elim_some]
    omega

theorem lt_of_mem_storedAt {k : ℕ} (h : k ∈ s.storedAt) : k < s.published.length := by
  rw [← s.elim_storedAt, Option.mem_def.mp h]
  exact Nat.lt_succ_self k

theorem inv_new (capacity : ℕ) : Inv placed (new capacity) := by
  refine ⟨rfl, fun _ _ ↦ rfl, ?_, ?_⟩ <;> intro c hphase <;> cases hphase

theorem Caught.mono (hmono : Stable placed) (hpub : s.published <+: s'.published)
    (hlog : s.channel.log <+: s'.channel.log) {conn : Conn α} (h : Caught placed s conn) :
    Caught placed s' conn := by
  obtain ⟨snap, hplaced, hlt, hwritten⟩ := h.written
  refine ⟨h.start_le, h.next_le.trans hlog.length_le, snap,
    hmono s s' _ _ hlog hpub hplaced, ?_, ?_⟩
  · intro k hk
    exact (hlt k hk).trans_le hpub.length_le
  · obtain ⟨more, hmore⟩ := hlog
    rw [hwritten, ← hmore, List.take_append_of_le_length h.next_le]
    congr 2
    cases snap with
    | none => rfl
    | some k =>
        obtain ⟨rest, hrest⟩ := hpub
        simp only [Option.bind_some]
        rw [← hrest, List.getElem?_append_left (hlt k rfl)]

/-- A publisher step touches no connection and only extends the log and what was
published. -/
theorem Inv.of_publisher (hmono : Stable placed)
    (h : Inv placed s) (hconns : s'.conns = s.conns)
    (hlast : s'.lastMessage = s'.published.getLast?) (hpub : s.published <+: s'.published)
    (hlog : s.channel.log <+: s'.channel.log) : Inv placed s' := by
  refine ⟨hlast, by rw [hconns]; exact h.quiet, ?_, ?_⟩
  · intro c hphase
    rw [hconns] at hphase ⊢
    obtain ⟨hstart, hnext⟩ := h.subscribed c hphase
    exact ⟨hstart, hnext.trans hlog.length_le⟩
  · intro c hphase hlag
    rw [hconns] at hphase hlag ⊢
    exact (h.forwarding c hphase hlag).mono hmono hpub hlog

/-- A connection step leaves the entry and the other connections alone. -/
theorem Inv.of_conn (hmono : Stable placed) (h : Inv placed s) {c : ℕ} {conn : Conn α}
    (hquiet : conn.phase ≠ .forwarding → conn.written = [])
    (hsub : conn.phase = .subscribed →
      conn.start = conn.next ∧ conn.next ≤ s.channel.log.length)
    (hfwd : conn.phase = .forwarding → conn.lagged = false → Caught placed s conn) :
    Inv placed (s.setConn c conn) := by
  have hkeep : ∀ conn', Caught placed s conn' → Caught placed (s.setConn c conn) conn' := by
    intro conn' hcaught
    refine hcaught.mono hmono ?_ ?_ <;> exact List.prefix_refl _
  refine ⟨h.last, ?_, ?_, ?_⟩
  · intro d hphase
    by_cases hd : d = c
    · subst hd
      rw [setConn_conns_self] at hphase ⊢
      exact hquiet hphase
    · rw [setConn_conns_of_ne _ _ hd] at hphase ⊢
      exact h.quiet d hphase
  · intro d hphase
    by_cases hd : d = c
    · subst hd
      rw [setConn_conns_self] at hphase ⊢
      exact hsub hphase
    · rw [setConn_conns_of_ne _ _ hd] at hphase ⊢
      exact h.subscribed d hphase
  · intro d hphase hlag
    by_cases hd : d = c
    · subst hd
      rw [setConn_conns_self] at hphase hlag ⊢
      exact hkeep _ (hfwd hphase hlag)
    · rw [setConn_conns_of_ne _ _ hd] at hphase hlag ⊢
      exact hkeep _ (h.forwarding d hphase hlag)

theorem published_store {m : α} (h : s.step (.store m) = some s') :
    s'.published = s.published ++ [m] := by
  obtain ⟨hpending, rfl⟩ := store_eq_some h
  simp [published, hpending]

theorem published_send (h : s.step .send = some s') : s'.published = s.published := by
  obtain ⟨m, hpending, rfl⟩ := send_eq_some h
  simp [published, hpending]

theorem Inv.snapshot (h : Inv placed s) {c : ℕ} (hphase : (s.conns c).phase = .subscribed)
    (hplaced : placed s (s.conns c).start s.storedAt) :
    Caught placed s { s.conns c with
      phase := .forwarding, written := s.lastMessage.toList } := by
  obtain ⟨hstart, hnext⟩ := h.subscribed c hphase
  refine ⟨hstart.le, hnext, s.storedAt, hplaced, fun k hk ↦ lt_of_mem_storedAt hk, ?_⟩
  have hempty : (s.channel.log.take (s.conns c).next).drop (s.conns c).start = [] := by
    rw [List.drop_eq_nil_iff, List.length_take, hstart]
    exact Nat.min_le_left _ _
  simp only [hempty, List.append_nil, h.last, getElem?_storedAt]

theorem Caught.recv {conn : Conn α} (h : Caught placed s conn) {m : α} {next : ℕ}
    (hrecv : s.channel.recv conn.next = some (.message m, next)) :
    Caught placed s { conn with next, written := conn.written ++ [m] } := by
  obtain ⟨hm, rfl⟩ := Broadcast.recv_message hrecv
  obtain ⟨snap, hplaced, hlt, hwritten⟩ := h.written
  refine ⟨h.start_le.trans (Nat.le_succ _), (List.getElem?_eq_some_iff.mp hm).1, snap,
    hplaced, hlt, ?_⟩
  simp only [hwritten, Broadcast.drop_take_succ h.start_le hm, List.append_assoc]

/-- One step, one case for each event.  Only a snapshot has to be placed. -/
theorem Inv.step (hmono : Stable placed) (h : Inv placed s) {e : Event α}
    (hplaced : ∀ c, e = .snapshot c → s.lastMessage = s.published.getLast? →
      (s.conns c).start ≤ s.channel.log.length → placed s (s.conns c).start s.storedAt)
    (hstep : s.step e = some s') : Inv placed s' := by
  cases e with
  | store m =>
      have hpub := published_store hstep
      obtain ⟨-, rfl⟩ := store_eq_some hstep
      refine Inv.of_publisher (s := s) hmono h rfl ?_ ?_ (List.prefix_refl _)
      · rw [hpub, List.getLast?_concat]
      · rw [hpub]
        exact List.prefix_append _ _
  | send =>
      have hpub := published_send hstep
      obtain ⟨m, -, rfl⟩ := send_eq_some hstep
      refine Inv.of_publisher (s := s) hmono h rfl ?_ ?_ (List.prefix_append _ _)
      · rw [hpub]
        exact h.last
      · rw [hpub]
  | subscribe c =>
      obtain ⟨-, rfl⟩ := subscribe_eq_some hstep
      refine h.of_conn hmono (fun _ ↦ rfl) (fun _ ↦ ⟨rfl, le_rfl⟩) ?_
      rintro ⟨⟩
  | snapshot c =>
      obtain ⟨hphase, rfl⟩ := snapshot_eq_some hstep
      obtain ⟨hstart, hnext⟩ := h.subscribed c hphase
      refine h.of_conn hmono (fun hne ↦ absurd rfl hne) ?_ fun _ _ ↦
        h.snapshot hphase (hplaced c rfl h.last (hstart.trans_le hnext))
      rintro ⟨⟩
  | recv c =>
      obtain ⟨hphase, ⟨received, next⟩, hr, rfl⟩ := recv_eq_some hstep
      have hstay : (recvConn (s.conns c) (received, next)).phase = .forwarding := by
        cases received <;> exact hphase
      apply h.of_conn hmono
      · exact fun hne ↦ absurd hstay hne
      · exact fun hsub ↦ absurd (hstay.symm.trans hsub) (by simp)
      · intro _ hlag
        cases received with
        | message m => exact (h.forwarding c hphase hlag).recv hr
        | lagged n => cases hlag

end Steps

/-! ## Every run -/

/-- Without any condition the snapshot is the newest earlier message or a later one. -/
def NotBefore (_ : Fanout α) (start : ℕ) (snap : Option ℕ) : Prop :=
  start ≤ snap.elim 0 Nat.succ

theorem notBefore_storedAt (s : Fanout α) {start : ℕ} (h : start ≤ s.channel.log.length) :
    NotBefore s start s.storedAt := by
  rw [NotBefore, elim_storedAt]
  exact h.trans s.log_prefix_published.length_le

theorem inv_of_run {capacity : ℕ} {es : List (Event α)} {s : Fanout α}
    (hrun : run step (new capacity) es = some s) : Inv NotBefore s := by
  have hinv : ∀ (s : Fanout α) e s', Inv NotBefore s → step s e = some s' → Inv NotBefore s' :=
    fun s e s' h hstep ↦
      h.step (fun _ _ _ _ _ _ h ↦ h) (fun c _ _ hle ↦ s.notBefore_storedAt hle) hstep
  exact invariant hinv (inv_new capacity) hrun

/-- No silent gap: once a connection has drained its queue, it has written a
snapshot at or after the newest message sent before it subscribed, and then
exactly the messages sent since. -/
theorem no_silent_gap (capacity : ℕ) (es : List (Event α)) (s : Fanout α)
    (hrun : run step (new capacity) es = some s) (c : ℕ) (hlag : (s.conns c).lagged = false)
    (hdrained : s.Drained c) :
    ∃ snapshot : Option α,
      (s.conns c).written = snapshot.toList ++ s.channel.log.drop (s.conns c).start ∧
      (0 < (s.conns c).start →
        ∃ k, (s.conns c).start - 1 ≤ k ∧ k < s.published.length ∧
          snapshot = s.published[k]?) := by
  have hcaught := (inv_of_run hrun).forwarding c hdrained.phase hlag
  obtain ⟨snap, hplaced, hlt, hwritten⟩ := hcaught.written
  refine ⟨snap.bind fun k ↦ s.published[k]?, ?_, ?_⟩
  · rw [hwritten, hdrained.next, List.take_length]
  · intro hpos
    cases snap with
    | none => exact absurd (hpos.trans_le hplaced) (lt_irrefl 0)
    | some k => exact ⟨k, Nat.sub_le_of_le_add hplaced, hlt k rfl, rfl⟩

def gapRun : List (Event ℕ) :=
  [.store 0, .send, .store 1, .send, .subscribe 0, .store 2, .send, .snapshot 0, .recv 0]

theorem no_silent_gap_gapRun :
    ∃ s, run step (new 16) gapRun = some s ∧ ∃ snapshot : Option ℕ,
      (s.conns 0).written = snapshot.toList ++ s.channel.log.drop (s.conns 0).start ∧
      (0 < (s.conns 0).start →
        ∃ k, (s.conns 0).start - 1 ≤ k ∧ k < s.published.length ∧
          snapshot = s.published[k]?) :=
  ⟨_, rfl, no_silent_gap 16 gapRun _ rfl 0 rfl ⟨rfl, rfl⟩⟩

/-! ## Runs with at most one message in the gap -/

/-- The delivered sequence is a contiguous run of what was published, up to a
repetition of its first message. -/
def InOrder (published written : List α) : Prop :=
  written <:+: published ∨ ∃ m ms, written = m :: m :: ms ∧ m :: ms <:+: published

/-- At a snapshot at most one message has been stored whose send comes after the
subscribe. -/
def AtMostOneSince (s : Fanout α) : Event α → Prop
  | .snapshot c => s.published.length ≤ (s.conns c).start + 1
  | _ => True

/-- The snapshot is the newest earlier message or the first later one. -/
def Adjacent (s : Fanout α) (start : ℕ) (snap : Option ℕ) : Prop :=
  NotBefore s start snap ∧ snap.elim 0 Nat.succ ≤ start + 1

theorem adjacent_storedAt (s : Fanout α) {start : ℕ} (h : start ≤ s.channel.log.length)
    (hone : s.published.length ≤ start + 1) : Adjacent s start s.storedAt := by
  refine ⟨s.notBefore_storedAt h, ?_⟩
  rw [elim_storedAt]
  exact hone

theorem inv_of_atMostOneSince {capacity : ℕ} {es : List (Event α)} {s : Fanout α}
    (hrun : run step (new capacity) es = some s)
    (hguard : Along step AtMostOneSince (new capacity) es) : Inv Adjacent s := by
  have hinv : ∀ (s : Fanout α) e s', Inv Adjacent s → AtMostOneSince s e →
      step s e = some s' → Inv Adjacent s' := by
    intro s e s' h hone hstep
    refine h.step (fun _ _ _ _ _ _ h ↦ h) ?_ hstep
    rintro c rfl - hle
    exact s.adjacent_storedAt hle hone
  exact invariant_along hinv (inv_new capacity) hguard hrun

theorem Caught.inOrder {s : Fanout α} {conn : Conn α} (h : Caught Adjacent s conn) :
    InOrder s.published conn.written := by
  obtain ⟨snap, ⟨hafter, hbefore⟩, hlt, hwritten⟩ := h.written
  obtain ⟨more, hmore⟩ := s.log_prefix_published
  have htake : s.channel.log.take conn.next = s.published.take conn.next := by
    rw [← hmore, List.take_append_of_le_length h.next_le]
  have hsub : ∀ k, (s.published.take conn.next).drop k <:+: s.published :=
    fun k ↦ (List.drop_suffix _ _).isInfix.trans (List.take_prefix _ _).isInfix
  rw [htake] at hwritten
  cases snap with
  | none => exact .inl (hwritten ▸ hsub _)
  | some k =>
      have hk := hlt k rfl
      simp only [NotBefore, Option.elim_some] at hafter hbefore
      simp only [Option.bind_some, List.getElem?_eq_getElem hk, Option.toList_some,
        List.singleton_append] at hwritten
      have hcons : k < conn.next → (s.published.take conn.next).drop k =
          s.published[k] :: (s.published.take conn.next).drop (k + 1) := by
        intro hnext
        rw [List.drop_eq_getElem_cons (by rw [List.length_take]; omega), List.getElem_take]
      rcases Nat.lt_or_ge k conn.start with hlast | hfirst
      · -- the newest message sent before the subscribe
        obtain hstart : conn.start = k + 1 := by omega
        have hnext : k < conn.next := hlast.trans_le h.start_le
        left
        rw [hwritten, hstart, ← hcons hnext]
        exact hsub k
      · -- the first message sent after it, repeated if it was forwarded already
        obtain rfl : conn.start = k := by omega
        rcases Nat.lt_or_ge conn.start conn.next with hnext | hnone
        · right
          refine ⟨_, _, by rw [hwritten, hcons hnext], ?_⟩
          rw [← hcons hnext]
          exact hsub _
        · left
          have hempty : (s.published.take conn.next).drop conn.start = [] := by
            rw [List.drop_eq_nil_iff, List.length_take]
            omega
          rw [hwritten, hempty]
          exact (List.singleton_infix_iff _ _).mpr (List.getElem_mem hk)

theorem inOrder_of_run {capacity : ℕ} {es : List (Event α)} {s : Fanout α}
    (hrun : run step (new capacity) es = some s)
    (hguard : Along step AtMostOneSince (new capacity) es) {c : ℕ}
    (hlag : (s.conns c).lagged = false) : InOrder s.published (s.conns c).written := by
  have hinv := inv_of_atMostOneSince hrun hguard
  by_cases hphase : (s.conns c).phase = .forwarding
  · exact (hinv.forwarding c hphase hlag).inOrder
  · rw [hinv.quiet c hphase]
    exact .inl (List.nil_infix)

theorem not_inOrder_pair {published : List α} (hnodup : published.Nodup) {i n : ℕ}
    (hn : published.length = n + 1) (hi : i < n) :
    ¬ InOrder published [published[n], published[i]] := by
  rintro (⟨before, after, hsub⟩ | ⟨m, ms, hwritten, -⟩)
  · have hlen := congrArg List.length hsub
    simp only [List.length_append, List.length_cons, List.length_nil] at hlen
    have hget : published[before.length]? = some published[n] := by
      refine (congrArg (fun xs ↦ xs[before.length]?) hsub).symm.trans ?_
      simp
    obtain ⟨hbefore, hget⟩ := List.getElem?_eq_some_iff.mp hget
    have := hnodup.getElem_inj_iff.mp hget
    omega
  · simp only [List.cons.injEq] at hwritten
    have := hnodup.getElem_inj_iff.mp (hwritten.1.trans hwritten.2.1.symm)
    omega

/-- The condition is sharp: with two distinct messages in the gap, the newest one
is written first and an older one right after it. -/
theorem not_inOrder_of_late_snapshot {capacity : ℕ} {es : List (Event α)} {s : Fanout α}
    (hrun : run step (new capacity) es = some s) (hnodup : s.published.Nodup) {c : ℕ}
    (hphase : (s.conns c).phase = .subscribed)
    (hlate : (s.conns c).start + 2 ≤ s.published.length)
    (hkept : s.channel.oldest ≤ (s.conns c).next) :
    ∃ s', run step s [.snapshot c, .recv c] = some s' ∧ s'.published = s.published ∧
      ¬ InOrder s'.published (s'.conns c).written := by
  have hinv := inv_of_run hrun
  obtain ⟨hstart, -⟩ := hinv.subscribed c hphase
  have hpending : s.pending.toList.length ≤ 1 := by cases s.pending <;> simp
  have hsplit : s.published.length = s.channel.log.length + s.pending.toList.length :=
    List.length_append
  have hlt : (s.conns c).next < s.channel.log.length := by omega
  obtain ⟨n, hn⟩ : ∃ n, s.published.length = n + 1 := ⟨s.published.length - 1, by omega⟩
  have hlast : s.lastMessage = some s.published[n] := by
    rw [hinv.last, List.getLast?_eq_getElem?, ← List.getElem?_eq_getElem]
    congr 1
    omega
  have hrecv : s.channel.recv (s.conns c).next =
      some (.message s.channel.log[(s.conns c).next], (s.conns c).next + 1) := by
    simp [Broadcast.recv, Nat.not_lt.mpr hkept, List.getElem?_eq_getElem hlt]
  have hsnapshot : s.step (.snapshot c) = some (s.setConn c { s.conns c with
      phase := .forwarding, written := s.lastMessage.toList }) := if_pos hphase
  have hforward : (s.setConn c { s.conns c with
      phase := .forwarding, written := s.lastMessage.toList }).step (.recv c) =
        some (s.setConn c { s.conns c with
          phase := .forwarding
          next := (s.conns c).next + 1
          written := s.lastMessage.toList ++ [s.channel.log[(s.conns c).next]] }) := by
    simp [step, hrecv, recvConn, setConn]
  refine ⟨_, run_cons_eq_some.mpr ⟨_, hsnapshot, run_cons_eq_some.mpr ⟨_, hforward, rfl⟩⟩,
    rfl, ?_⟩
  have hnext : s.channel.log[(s.conns c).next] = s.published[(s.conns c).next] := by
    simp only [published]
    rw [List.getElem_append_left hlt]
  simp only [setConn_published, setConn_conns_self, hlast, hnext]
  exact not_inOrder_pair hnodup hn (by omega)

end Geiger.Fanout
