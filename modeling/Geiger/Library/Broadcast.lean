import Mathlib.Data.List.Basic

/-!
# A bounded broadcast channel

The log holds everything ever sent.  A receiver is a position in it: it starts at
the end and receives what is sent afterwards, in order, unless it falls behind by
more than the capacity.
-/

namespace Geiger

structure Broadcast (α : Type*) where
  capacity : ℕ
  log : List α

namespace Broadcast

variable {α : Type*}

def new (capacity : ℕ) : Broadcast α := ⟨capacity, []⟩

def send (ch : Broadcast α) (m : α) : Broadcast α := { ch with log := ch.log ++ [m] }

def subscribe (ch : Broadcast α) : ℕ := ch.log.length

def oldest (ch : Broadcast α) : ℕ := ch.log.length - ch.capacity

inductive Received (α : Type*) where
  | message (m : α)
  | lagged (missed : ℕ)

/-- What a receiver gets and its next position; `none` when it has to wait. -/
def recv (ch : Broadcast α) (next : ℕ) : Option (Received α × ℕ) :=
  if next < ch.oldest then some (.lagged (ch.oldest - next), ch.oldest)
  else ch.log[next]?.map fun m ↦ (.message m, next + 1)

@[simp] theorem log_send (ch : Broadcast α) (m : α) : (ch.send m).log = ch.log ++ [m] := rfl

theorem recv_message {ch : Broadcast α} {next next' : ℕ} {m : α}
    (h : ch.recv next = some (.message m, next')) :
    ch.log[next]? = some m ∧ next' = next + 1 := by
  unfold recv at h
  split at h
  · cases h
  · obtain ⟨m', hm', heq⟩ := Option.map_eq_some_iff.mp h
    cases heq
    exact ⟨hm', rfl⟩

theorem recv_lagged {ch : Broadcast α} {next next' missed : ℕ}
    (h : ch.recv next = some (.lagged missed, next')) :
    next < ch.oldest ∧ ch.oldest - next = missed ∧ ch.oldest = next' := by
  unfold recv at h
  split at h
  · rename_i hlt
    cases h
    exact ⟨hlt, rfl, rfl⟩
  · obtain ⟨m, -, heq⟩ := Option.map_eq_some_iff.mp h
    cases heq

/-- The messages between two positions; one more is received at the end. -/
theorem drop_take_succ {log : List α} {start next : ℕ} {m : α} (hle : start ≤ next)
    (h : log[next]? = some m) :
    (log.take (next + 1)).drop start = (log.take next).drop start ++ [m] := by
  have hlt : next < log.length := (List.getElem?_eq_some_iff.mp h).1
  rw [List.take_add_one, h, Option.toList_some, List.drop_append_of_le_length]
  rw [List.length_take]
  omega

theorem drop_take_append {log : List α} {i j k : ℕ} (hij : i ≤ j) (hjk : j ≤ k)
    (hj : j ≤ log.length) :
    (log.take k).drop i = (log.take j).drop i ++ (log.take k).drop j := by
  have hsplit : log.take k = log.take j ++ (log.take k).drop j := by
    have h := List.take_append_drop j (log.take k)
    rw [List.take_take, Nat.min_eq_left hjk] at h
    exact h.symm
  nth_rewrite 1 [hsplit]
  rw [List.drop_append_of_le_length]
  rw [List.length_take]
  omega

end Broadcast

end Geiger
