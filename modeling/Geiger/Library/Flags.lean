import Geiger.Library.Fallible

/-!
# Command lines of flags

Each flag is followed by its value, and a flag may be repeated.  The words are
consumed from the left into a state that a setter updates.
-/

namespace Geiger.Flags

open Fallible

section Walk

variable {α σ ε : Type}

/-- The words of a command line with these flags and values. -/
def words (pairs : List (α × α)) : List α := pairs.flatMap fun p ↦ [p.1, p.2]

def walk (missing : α → ε) (set : σ → α → α → Except ε σ) : σ → List α → Except ε σ
  | s, [] => .ok s
  | _, [flag] => .error (missing flag)
  | s, flag :: value :: rest => set s flag value >>= fun s' ↦ walk missing set s' rest

variable {missing : α → ε} {set : σ → α → α → Except ε σ} {s t : σ}

theorem walk_words_cons (p : α × α) (pairs : List (α × α)) :
    walk missing set s (words (p :: pairs)) =
      set s p.1 p.2 >>= fun s' ↦ walk missing set s' (words pairs) := rfl

/-- A command line that is read to its end consists of whole pairs. -/
theorem exists_words_of_walk : {args : List α} → {s : σ} → walk missing set s args = .ok t →
    ∃ pairs, args = words pairs
  | [], _, _ => ⟨[], rfl⟩
  | [_], _, h => nomatch h
  | flag :: value :: rest, s, h => by
      obtain ⟨s', -, hrest⟩ := ok_of_bind h
      obtain ⟨pairs, rfl⟩ := exists_words_of_walk hrest
      exact ⟨(flag, value) :: pairs, rfl⟩

/-- Where the setter refuses a flag or a value in every state or in none, each pair is
judged by itself. -/
theorem walk_words_isOk {accepts : α → α → Prop}
    (hset : ∀ s flag value, (∃ s', set s flag value = .ok s') ↔ accepts flag value)
    (pairs : List (α × α)) :
    (∃ t, walk missing set s (words pairs) = .ok t) ↔ ∀ p ∈ pairs, accepts p.1 p.2 := by
  induction pairs generalizing s with
  | nil => exact ⟨fun _ _ hp ↦ (nomatch hp), fun _ ↦ ⟨s, rfl⟩⟩
  | cons p pairs ih =>
      rw [List.forall_mem_cons, walk_words_cons]
      constructor
      · rintro ⟨t, ht⟩
        obtain ⟨s', hs', hrest⟩ := ok_of_bind ht
        exact ⟨(hset s p.1 p.2).mp ⟨s', hs'⟩, ih.mp ⟨t, hrest⟩⟩
      · rintro ⟨hp, hpairs⟩
        obtain ⟨s', hs'⟩ := (hset s p.1 p.2).mpr hp
        obtain ⟨t, ht⟩ := ih.mpr hpairs
        exact ⟨t, bind_eq_ok.mpr ⟨s', hs', ht⟩⟩

/-! ## The last value of a flag -/

variable [DecidableEq α]

def lastOf (flag : α) : List (α × α) → Option α
  | [] => none
  | p :: pairs => (lastOf flag pairs).or (if p.1 = flag then some p.2 else none)

theorem lastOf_cons_of_ne {flag : α} {p : α × α} (hp : p.1 ≠ flag) (pairs : List (α × α)) :
    lastOf flag (p :: pairs) = lastOf flag pairs := by
  rw [lastOf, if_neg hp, Option.or_none]

/-- A part of the state that one flag sets, and no other touches, holds what the last value
of that flag says; without that flag it is as it was. -/
theorem get_of_walk {β : Type} {get : σ → β} {flag : α} {reads : α → β → Prop}
    (hother : ∀ s f value s', f ≠ flag → set s f value = .ok s' → get s' = get s)
    (hself : ∀ s value s', set s flag value = .ok s' → reads value (get s'))
    {pairs : List (α × α)} (h : walk missing set s (words pairs) = .ok t) :
    (lastOf flag pairs).elim (get t = get s) fun value ↦ reads value (get t) := by
  induction pairs generalizing s with
  | nil =>
      obtain rfl := Except.ok.inj h
      rfl
  | cons p pairs ih =>
      obtain ⟨s', hs', hrest⟩ := ok_of_bind h
      have hget := ih hrest
      by_cases hp : p.1 = flag
      · rw [lastOf, if_pos hp]
        cases hlast : lastOf flag pairs with
        | none =>
            rw [hlast] at hget
            have hsame : get t = get s' := hget
            have hvalue : reads p.2 (get s') := hself s p.2 s' (hp ▸ hs')
            exact hsame ▸ hvalue
        | some value =>
            rw [hlast] at hget
            exact hget
      · rw [lastOf_cons_of_ne hp, ← hother s p.1 p.2 s' hp hs']
        exact hget

end Walk

end Geiger.Flags
