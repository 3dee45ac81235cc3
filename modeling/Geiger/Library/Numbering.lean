import Mathlib.Data.List.Chain
import Mathlib.Data.List.Forall2
import Mathlib.Data.Option.Basic
import Mathlib.Logic.Function.Iterate

/-!
# Collecting a fallible map that numbers as it goes

The counter moves on before an element can fail, so an element that fails has
used its number up, and the elements after it are never reached.
-/

namespace Geiger.Numbering

section Numbering

variable {C ε α β : Type} (next : C → C) (f : C → α → Except ε β)

def collect (c : C) : List α → Except ε (List β) × C
  | [] => (.ok [], c)
  | a :: as =>
    match f c a with
    | .error e => (.error e, next c)
    | .ok b =>
      match collect (next c) as with
      | (.error e, c') => (.error e, c')
      | (.ok bs, c') => (.ok (b :: bs), c')

variable {next f} {c c' : C} {a : α} {as : List α} {bs : List β} {e : ε}

theorem collect_cons_eq_ok :
    collect next f c (a :: as) = (.ok bs, c') ↔
      ∃ b bs', f c a = .ok b ∧ collect next f (next c) as = (.ok bs', c') ∧ bs = b :: bs' := by
  rw [collect]
  cases f c a with
  | error e => simp
  | ok b => rcases collect next f (next c) as with ⟨_ | _, _⟩ <;> aesop

theorem collect_cons_eq_error :
    collect next f c (a :: as) = (.error e, c') ↔
      f c a = .error e ∧ c' = next c ∨
        ∃ b, f c a = .ok b ∧ collect next f (next c) as = (.error e, c') := by
  rw [collect]
  cases f c a with
  | error e => simp [eq_comm]
  | ok b => rcases collect next f (next c) as with ⟨_ | _, _⟩ <;> simp

/-- A success has used exactly one number for each result, in order. -/
theorem collect_ok (h : collect next f c as = (.ok bs, c')) :
    c' = next^[bs.length] c ∧
      ∀ k b, bs[k]? = some b → ∃ a ∈ as, f (next^[k] c) a = .ok b := by
  induction as generalizing c bs with
  | nil =>
      cases h
      exact ⟨rfl, by simp⟩
  | cons a as ih =>
      obtain ⟨b, bs', hb, hrest, rfl⟩ := collect_cons_eq_ok.mp h
      obtain ⟨hc', hbs'⟩ := ih hrest
      refine ⟨hc', ?_⟩
      intro k x hx
      cases k with
      | zero =>
          cases hx
          exact ⟨a, List.mem_cons_self, hb⟩
      | succ k =>
          obtain ⟨a', ha', hfa'⟩ := hbs' k x hx
          exact ⟨a', List.mem_cons_of_mem _ ha', hfa'⟩

theorem collect_forall₂ (h : collect next f c as = (.ok bs, c')) :
    List.Forall₂ (fun a b ↦ ∃ c, f c a = .ok b) as bs := by
  induction as generalizing c bs with
  | nil =>
      cases h
      exact .nil
  | cons a as ih =>
      obtain ⟨b, bs', hb, hrest, rfl⟩ := collect_cons_eq_ok.mp h
      exact .cons ⟨c, hb⟩ (ih hrest)

theorem collect_error (h : collect next f c as = (.error e, c')) :
    ∃ k < as.length, c' = next^[k + 1] c := by
  induction as generalizing c with
  | nil => cases h
  | cons a as ih =>
      obtain ⟨-, hc'⟩ | ⟨b, -, hrest⟩ := collect_cons_eq_error.mp h
      · exact ⟨0, Nat.zero_lt_succ _, hc'⟩
      · obtain ⟨k, hk, hc'⟩ := ih hrest
        exact ⟨k + 1, Nat.succ_lt_succ hk, hc'⟩

variable (next f) in
/-- Where success does not depend on the number, the map succeeds exactly when
every element does. -/
theorem collect_isOk_iff {ok : α → Prop} (hok : ∀ c a, (∃ b, f c a = .ok b) ↔ ok a) (c : C)
    (as : List α) : (∃ bs c', collect next f c as = (.ok bs, c')) ↔ ∀ a ∈ as, ok a := by
  induction as generalizing c with
  | nil => simp [collect]
  | cons a as ih =>
      rw [List.forall_mem_cons, ← ih (next c), ← hok c a]
      constructor
      · rintro ⟨_, c', h⟩
        obtain ⟨b, bs, hb, hrest, -⟩ := collect_cons_eq_ok.mp h
        exact ⟨⟨b, hb⟩, bs, c', hrest⟩
      · rintro ⟨⟨b, hb⟩, bs, c', hrest⟩
        exact ⟨b :: bs, c', collect_cons_eq_ok.mpr ⟨b, bs, hb, hrest, rfl⟩⟩

end Numbering

/-! ## Two lists matched element by element -/

section Forall₂

variable {α β : Type} {R S : α → β → Prop} {xs : List α} {ys : List β}

/-- A second relation that the first one decides from the left alone. -/
theorem forall₂_iff_left {P : α → Prop} (h : List.Forall₂ R xs ys)
    (hP : ∀ x y, R x y → (S x y ↔ P x)) : List.Forall₂ S xs ys ↔ ∀ x ∈ xs, P x := by
  induction h with
  | nil => simp
  | cons hxy _ ih => rw [List.forall₂_cons, List.forall_mem_cons, hP _ _ hxy, ih]

theorem exists_of_mem_left (h : List.Forall₂ R xs ys) {x : α} (hx : x ∈ xs) :
    ∃ y ∈ ys, R x y := by
  obtain ⟨i, hi, rfl⟩ := List.getElem_of_mem hx
  have hi' : i < ys.length := h.length_eq ▸ hi
  exact ⟨ys[i], List.getElem_mem hi', h.get hi hi'⟩

theorem exists_of_mem_right (h : List.Forall₂ R xs ys) {y : β} (hy : y ∈ ys) :
    ∃ x ∈ xs, R x y :=
  exists_of_mem_left h.flip hy

/-- Two lists that are related to a third one are related. -/
theorem forall₂_of_common {γ : Type*} {U : α → γ → Prop} {T : β → γ → Prop} {zs : List γ}
    (h : List.Forall₂ R xs ys) (h' : List.Forall₂ U xs zs)
    (hT : ∀ x ∈ xs, ∀ y z, R x y → U x z → T y z) : List.Forall₂ T ys zs := by
  induction h generalizing zs with
  | nil =>
      cases h'
      exact .nil
  | cons hxy _ ih =>
      cases h' with
      | cons hxz htail =>
          obtain ⟨hhead, hrest⟩ := List.forall_mem_cons.mp hT
          exact .cons (hhead _ _ hxy hxz) (ih htail hrest)

/-- Neighbours on the left carry over to neighbouring pairs. -/
theorem isChain_zip {N : α → α → Prop} {T : α × β → α × β → Prop} (h : List.Forall₂ S xs ys)
    (hxs : xs.IsChain N)
    (hT : ∀ x x' y y', N x x' → S x y → S x' y' → T (x, y) (x', y')) :
    (xs.zip ys).IsChain T := by
  induction h with
  | nil => exact .nil
  | @cons x y xs ys hxy hrest ih =>
      refine (ih hxs.tail).cons ?_
      intro p hp
      cases hrest with
      | nil => cases hp
      | @cons x' y' _ _ hxy' _ =>
          cases hp
          exact hT x x' y y' hxs.rel hxy hxy'

end Forall₂

end Geiger.Numbering
