import Geiger.Library.Broadcast
import Geiger.Library.Runs

/-!
# One stream, its publisher and its connections

`publish` is two steps: store the message in `lastMessage`, then send it.  A
connection subscribes, later writes the stored snapshot, and then forwards its
queue.  The read lock of the snapshot excludes the store, so the snapshot is one
step.  The registry keeps the sender, so the channel never closes, and a
connection that ends simply takes no further step.
-/

namespace Geiger

inductive Phase where
  | idle
  | subscribed
  | forwarding
deriving DecidableEq

/-- The part of `handle_connection` from the subscribe on. -/
structure Conn (α : Type*) where
  phase : Phase
  /-- How many messages had been sent when this connection subscribed. -/
  start : ℕ
  next : ℕ
  written : List α
  lagged : Bool

/-- A `StreamEntry` with its publisher and all its connections. -/
structure Fanout (α : Type*) where
  channel : Broadcast α
  lastMessage : Option α
  /-- The message that `publish` has stored and not yet sent. -/
  pending : Option α
  conns : ℕ → Conn α

namespace Fanout

variable {α : Type*}

inductive Event (α : Type*) where
  | store (m : α)
  | send
  | subscribe (c : ℕ)
  | snapshot (c : ℕ)
  | recv (c : ℕ)

def new (capacity : ℕ) : Fanout α where
  channel := Broadcast.new capacity
  lastMessage := none
  pending := none
  conns := fun _ ↦ ⟨.idle, 0, 0, [], false⟩

def setConn (s : Fanout α) (c : ℕ) (conn : Conn α) : Fanout α :=
  { s with conns := Function.update s.conns c conn }

def subscribeConn (s : Fanout α) : Conn α where
  phase := .subscribed
  start := s.channel.subscribe
  next := s.channel.subscribe
  written := []
  lagged := false

/-- A forwarded message is written to the client; a lag is only logged. -/
def recvConn (conn : Conn α) : Broadcast.Received α × ℕ → Conn α
  | (.message m, next) => { conn with next, written := conn.written ++ [m] }
  | (.lagged _, next) => { conn with next, lagged := true }

def step (s : Fanout α) : Event α → Option (Fanout α)
  | .store m =>
    if s.pending.isNone then some { s with lastMessage := some m, pending := some m } else none
  | .send =>
    s.pending.map fun m ↦ { s with channel := s.channel.send m, pending := none }
  | .subscribe c =>
    if (s.conns c).phase = .idle then some (s.setConn c s.subscribeConn) else none
  | .snapshot c =>
    if (s.conns c).phase = .subscribed then
      some (s.setConn c { s.conns c with
        phase := .forwarding, written := s.lastMessage.toList })
    else none
  | .recv c =>
    if (s.conns c).phase = .forwarding then
      (s.channel.recv (s.conns c).next).map fun r ↦ s.setConn c (recvConn (s.conns c) r)
    else none

/-- Everything published so far, in publish order: a stored message counts. -/
def published (s : Fanout α) : List α := s.channel.log ++ s.pending.toList

structure Drained (s : Fanout α) (c : ℕ) : Prop where
  phase : (s.conns c).phase = .forwarding
  next : (s.conns c).next = s.channel.log.length

@[simp] theorem setConn_conns_self (s : Fanout α) (c : ℕ) (conn : Conn α) :
    (s.setConn c conn).conns c = conn := Function.update_self ..

theorem setConn_conns_of_ne (s : Fanout α) {c d : ℕ} (conn : Conn α) (h : d ≠ c) :
    (s.setConn c conn).conns d = s.conns d := Function.update_of_ne h ..

@[simp] theorem setConn_published (s : Fanout α) (c : ℕ) (conn : Conn α) :
    (s.setConn c conn).published = s.published := rfl

/-! ## What each step does -/

variable {s s' : Fanout α}

theorem store_eq_some {m : α} (h : s.step (.store m) = some s') :
    s.pending = none ∧ s' = { s with lastMessage := some m, pending := some m } := by
  simp only [step, Option.isNone_iff_eq_none, Option.ite_none_right_eq_some,
    Option.some.injEq] at h
  exact ⟨h.1, h.2.symm⟩

theorem send_eq_some (h : s.step .send = some s') :
    ∃ m, s.pending = some m ∧ s' = { s with channel := s.channel.send m, pending := none } := by
  obtain ⟨m, hm, rfl⟩ := Option.map_eq_some_iff.mp h
  exact ⟨m, hm, rfl⟩

theorem subscribe_eq_some {c : ℕ} (h : s.step (.subscribe c) = some s') :
    (s.conns c).phase = .idle ∧ s' = s.setConn c s.subscribeConn := by
  simp only [step, Option.ite_none_right_eq_some, Option.some.injEq] at h
  exact ⟨h.1, h.2.symm⟩

theorem snapshot_eq_some {c : ℕ} (h : s.step (.snapshot c) = some s') :
    (s.conns c).phase = .subscribed ∧ s' = s.setConn c { s.conns c with
      phase := .forwarding, written := s.lastMessage.toList } := by
  simp only [step, Option.ite_none_right_eq_some, Option.some.injEq] at h
  exact ⟨h.1, h.2.symm⟩

theorem recv_eq_some {c : ℕ} (h : s.step (.recv c) = some s') :
    (s.conns c).phase = .forwarding ∧ ∃ r, s.channel.recv (s.conns c).next = some r ∧
      s' = s.setConn c (recvConn (s.conns c) r) := by
  simp only [step, Option.ite_none_right_eq_some, Option.map_eq_some_iff] at h
  obtain ⟨hphase, r, hr, rfl⟩ := h
  exact ⟨hphase, r, hr, rfl⟩

/-- The entry itself does not change when a connection moves. -/
theorem conns_of_connection {e : Event α} (hstore : ∀ m, e ≠ .store m) (hsend : e ≠ .send)
    (h : s.step e = some s') : ∃ conns, s' = { s with conns } := by
  cases e with
  | store m => exact absurd rfl (hstore m)
  | send => exact absurd rfl hsend
  | subscribe c => exact ⟨_, (subscribe_eq_some h).2⟩
  | snapshot c => exact ⟨_, (snapshot_eq_some h).2⟩
  | recv c =>
      obtain ⟨-, r, -, rfl⟩ := recv_eq_some h
      exact ⟨_, rfl⟩

end Fanout

end Geiger
