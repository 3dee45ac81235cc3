import Mathlib.Data.List.Nodup
import Mathlib.Logic.Function.Basic

/-!
# Items found by key

Items are only ever added, each at the end of the list, and an index leads from a
key to the item last added under it.  An item added under a key that is in use
hides the earlier one.
-/

namespace Geiger

structure Directory (κ α : Type*) where
  items : List α
  index : κ → Option ℕ

namespace Directory

variable {κ α : Type*}

def empty : Directory κ α := ⟨[], fun _ ↦ none⟩

def insert [DecidableEq κ] (d : Directory κ α) (k : κ) (a : α) : Directory κ α where
  items := d.items ++ [a]
  index := Function.update d.index k (some d.items.length)

def set (d : Directory κ α) (i : ℕ) (a : α) : Directory κ α := { d with items := d.items.set i a }

/-- Every entry of the index leads to an item with that key, and every item's key
is in the index. -/
structure Sound (key : α → κ) (d : Directory κ α) : Prop where
  of_index : ∀ k i, d.index k = some i → (d.items.map key)[i]? = some k
  of_item : ∀ k ∈ d.items.map key, d.index k ≠ none

/-- Index and items correspond: every item is the one found under its key. -/
def Faithful (key : α → κ) (d : Directory κ α) : Prop :=
  ∀ k i, d.index k = some i ↔ (d.items.map key)[i]? = some k

variable {key : α → κ} {d : Directory κ α}

theorem sound_empty : Sound key (empty : Directory κ α) :=
  ⟨fun _ _ h ↦ (nomatch h), fun _ h ↦ (nomatch h)⟩

theorem Sound.insert [DecidableEq κ] (h : Sound key d) (a : α) :
    Sound key (d.insert (key a) a) := by
  constructor
  · intro k i hi
    simp only [Directory.insert, List.map_append] at hi ⊢
    rw [Function.update_apply] at hi
    split at hi
    · rename_i hka
      obtain rfl := Option.some.inj hi
      simp [hka]
    · have hfound := h.of_index k i hi
      rw [List.getElem?_append_left (List.getElem?_eq_some_iff.mp hfound).1, hfound]
  · intro k hk
    simp only [Directory.insert, Function.update_apply]
    split
    · exact Option.some_ne_none _
    · rename_i hka
      simp only [Directory.insert, List.map_append, List.mem_append, List.map_cons, List.map_nil,
        List.mem_singleton, hka, or_false] at hk
      exact h.of_item k hk

theorem map_items_set {β : Type*} {f : α → β} {i : ℕ} {a b : α} (ha : d.items[i]? = some a)
    (hf : f b = f a) : (d.set i b).items.map f = d.items.map f := by
  have hmap : (d.items.map f)[i]? = some (f a) := by rw [List.getElem?_map, ha]; rfl
  obtain ⟨hi, hget⟩ := List.getElem?_eq_some_iff.mp hmap
  rw [Directory.set, List.map_set, hf, ← hget, List.set_getElem_self]

theorem Sound.set (h : Sound key d) {i : ℕ} {a b : α} (ha : d.items[i]? = some a)
    (hkey : key b = key a) : Sound key (d.set i b) := by
  constructor
  · intro k j hj
    rw [map_items_set ha hkey]
    exact h.of_index k j hj
  · intro k hk
    rw [map_items_set ha hkey] at hk
    exact h.of_item k hk

/-- No item is hidden exactly when no two items have one key. -/
theorem Sound.faithful_iff (h : Sound key d) : Faithful key d ↔ (d.items.map key).Nodup := by
  rw [List.nodup_iff_getElem?_ne_getElem?]
  constructor
  · intro hfaithful i j hij hj heq
    have hkey : (d.items.map key)[i]? = some (d.items.map key)[j] := by
      rw [heq, List.getElem?_eq_getElem hj]
    have hi := (hfaithful _ i).mpr hkey
    have hj' := (hfaithful _ j).mpr (List.getElem?_eq_getElem hj)
    exact (Nat.ne_of_lt hij) (Option.some.inj (hi.symm.trans hj'))
  · intro hnodup k i
    refine ⟨h.of_index k i, ?_⟩
    intro hi
    obtain ⟨j, hj⟩ := Option.ne_none_iff_exists'.mp (h.of_item k (List.mem_of_getElem? hi))
    have hkj := h.of_index k j hj
    rcases Nat.lt_trichotomy i j with hij | rfl | hij
    · exact absurd (hi.trans hkj.symm) (hnodup i j hij (List.getElem?_eq_some_iff.mp hkj).1)
    · exact hj
    · exact absurd (hkj.trans hi.symm) (hnodup j i hij (List.getElem?_eq_some_iff.mp hi).1)

/-! ## Offers -/

def map {β : Type*} (f : α → β) (d : Directory κ α) : Directory κ β := ⟨d.items.map f, d.index⟩

theorem map_insert [DecidableEq κ] {β : Type*} (f : α → β) (k : κ) (a : α) :
    (d.insert k a).map f = (d.map f).insert k (f a) := by
  simp [map, insert]

theorem map_set {β : Type*} {f : α → β} {i : ℕ} {a b : α} (ha : d.items[i]? = some a)
    (hf : f b = f a) : (d.set i b).map f = d.map f := by
  simp only [map, map_items_set ha hf]
  rfl

section Offers

variable [DecidableEq κ]

/-- Adds the item unless its key is in use. -/
def offer (key : α → κ) (d : Directory κ α) (a : α) : Directory κ α :=
  if (d.index (key a)).isSome then d else d.insert (key a) a

def offerAll (key : α → κ) (d : Directory κ α) (as : List α) : Directory κ α :=
  as.foldl (offer key) d

variable {a : α} {as : List α} {k : κ} {i : ℕ}

theorem offerAll_cons : offerAll key d (a :: as) = offerAll key (d.offer key a) as := rfl

theorem offerAll_append (as bs : List α) :
    offerAll key d (as ++ bs) = offerAll key (offerAll key d as) bs :=
  List.foldl_append

theorem offer_of_some (h : d.index (key a) = some i) : d.offer key a = d := by
  rw [offer, h]
  rfl

theorem offer_of_none (h : d.index (key a) = none) : d.offer key a = d.insert (key a) a := by
  rw [offer, h]
  rfl

theorem index_offer (d : Directory κ α) (a : α) (k : κ) :
    (d.offer key a).index k =
      if key a = k then some ((d.index k).getD d.items.length) else d.index k := by
  cases h : d.index (key a) with
  | some i =>
      rw [offer_of_some h]
      split
      · rename_i hk
        rw [← hk, h]
        rfl
      · rfl
  | none =>
      simp only [offer_of_none h, insert, Function.update_apply, eq_comm (b := key a)]
      split
      · rename_i hk
        rw [← hk, h]
        rfl
      · rfl

theorem index_offerAll_of_some (h : d.index k = some i) :
    (offerAll key d as).index k = some i := by
  induction as generalizing d with
  | nil => exact h
  | cons a as ih =>
      apply ih
      rw [index_offer, h]
      split <;> rfl

/-- What was added are some of the offers, under keys that were free and never two
under one key. -/
theorem exists_items_offerAll (key : α → κ) (d : Directory κ α) (as : List α) :
    ∃ added, (offerAll key d as).items = d.items ++ added ∧ added.Sublist as ∧
      (added.map key).Nodup ∧ ∀ a ∈ added, d.index (key a) = none := by
  induction as generalizing d with
  | nil => exact ⟨[], by simp [offerAll]⟩
  | cons a as ih =>
      rw [offerAll_cons]
      obtain ⟨added, hitems, hsub, hnodup, hfree⟩ := ih (d.offer key a)
      cases ha : d.index (key a) with
      | some i =>
          rw [offer_of_some ha] at hitems hfree ⊢
          exact ⟨added, hitems, hsub.cons a, hnodup, hfree⟩
      | none =>
          -- a key found free after the offer was free before it, and is another key
          have hfree' (b : α) (hb : b ∈ added) : key a ≠ key b ∧ d.index (key b) = none := by
            have hnone := hfree b hb
            rw [index_offer] at hnone
            split at hnone
            · cases hnone
            · exact ⟨‹_›, hnone⟩
          refine ⟨a :: added, ?_, hsub.cons_cons a, ?_, ?_⟩
          · rw [hitems, offer_of_none ha, insert, List.append_assoc]
            rfl
          · rw [List.map_cons, List.nodup_cons]
            refine ⟨?_, hnodup⟩
            intro hmem
            obtain ⟨b, hb, hkey⟩ := List.mem_map.mp hmem
            exact (hfree' b hb).1 hkey.symm
          · intro b hb
            rcases List.mem_cons.mp hb with rfl | hb
            · exact ha
            · exact (hfree' b hb).2

theorem getElem?_items_offerAll {b : α} (h : d.items[i]? = some b) :
    (offerAll key d as).items[i]? = some b := by
  obtain ⟨added, hitems, -⟩ := exists_items_offerAll key d as
  rw [hitems, List.getElem?_append_left (List.getElem?_eq_some_iff.mp h).1]
  exact h

/-- Under a free key the first offer wins. -/
theorem found_offerAll_of_none (h : d.index k = none) :
    ((offerAll key d as).index k).map ((offerAll key d as).items[·]?) =
      (as.find? (key · = k)).map some := by
  induction as generalizing d with
  | nil =>
      rw [offerAll, List.foldl_nil, h]
      rfl
  | cons a as ih =>
      rw [offerAll_cons]
      by_cases hk : key a = k
      · subst hk
        have hindex : (d.offer key a).index (key a) = some d.items.length := by
          rw [index_offer, h, if_pos rfl]
          rfl
        have hitem : (d.offer key a).items[d.items.length]? = some a := by
          simp [offer_of_none h, insert]
        rw [List.find?_cons_of_pos (by simp), index_offerAll_of_some hindex, Option.map_some,
          getElem?_items_offerAll hitem]
        rfl
      · rw [List.find?_cons_of_neg (by simpa using hk)]
        apply ih
        rw [index_offer, if_neg hk]
        exact h

end Offers

end Directory

end Geiger
