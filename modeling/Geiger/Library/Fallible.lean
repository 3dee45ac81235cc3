import Mathlib.Data.List.Basic

/-!
# Fallible computations

Inversion of a successful bind, and computations that return errors but can also
panic.
-/

namespace Geiger.Fallible

variable {ε α β : Type}

theorem bind_eq_ok {x : Except ε α} {f : α → Except ε β} {b : β} :
    x >>= f = .ok b ↔ ∃ a, x = .ok a ∧ f a = .ok b := by
  cases x <;> simp [bind, Except.bind]

theorem ok_of_toOption {x : Except ε α} {a : α} (h : x.toOption = some a) : x = .ok a := by
  cases x with
  | error e => cases h
  | ok b => exact congrArg Except.ok (Option.some.inj h)

theorem ok_of_bind {x : Except ε α} {f : α → Except ε β} {b : β} (h : x >>= f = .ok b) :
    ∃ a, x = .ok a ∧ f a = .ok b := bind_eq_ok.mp h

theorem exists_bind_error {x : Except ε α} {f : α → Except ε β} :
    (∃ e, x >>= f = .error e) ↔ (∃ e, x = .error e) ∨ ∃ a, x = .ok a ∧ ∃ e, f a = .error e := by
  cases x <;> simp [bind, Except.bind]

theorem exists_bind_pure_error {x : Except ε α} {f : α → β} :
    (∃ e, (x >>= fun a ↦ pure (f a)) = .error e) ↔ ∃ e, x = .error e := by
  rw [exists_bind_error]
  simp [pure, Except.pure]

theorem exists_error_iff {x : Except ε α} : (∃ e, x = .error e) ↔ ¬ ∃ a, x = .ok a := by
  cases x <;> simp

theorem exists_mapM_error {f : α → Except ε β} {as : List α} :
    (∃ e, as.mapM f = .error e) ↔ ∃ a ∈ as, ∃ e, f a = .error e := by
  induction as with
  | nil => simp [pure, Except.pure]
  | cons a as ih =>
      rw [List.mapM_cons, exists_bind_error, List.exists_mem_cons_iff]
      cases f a with
      | error e => simp
      | ok b =>
          simp only [reduceCtorEq, exists_false, Except.ok.injEq, exists_eq_left', false_or, ← ih]
          rw [exists_bind_error]
          simp [pure, Except.pure]

theorem mapError_eq_ok {ε' : Type} {x : Except ε α} {f : ε → ε'} {a : α} :
    x.mapError f = .ok a ↔ x = .ok a := by
  cases x <;> simp [Except.mapError]

theorem map_eq_ok {x : Except ε α} {f : α → β} {b : β} :
    x.map f = .ok b ↔ ∃ a, x = .ok a ∧ f a = b := by
  cases x <;> simp [Except.map]

theorem map_eq_error {x : Except ε α} {f : α → β} {e : ε} :
    x.map f = .error e ↔ x = .error e := by
  cases x <;> simp [Except.map]

theorem exists_of_mapM {f : α → Except ε β} {as : List α} {bs : List β}
    (h : as.mapM f = .ok bs) {b : β} (hb : b ∈ bs) : ∃ a ∈ as, f a = .ok b := by
  induction as generalizing bs with
  | nil =>
      obtain rfl := Except.ok.inj h
      cases hb
  | cons a as ih =>
      rw [List.mapM_cons] at h
      obtain ⟨b', hb', h⟩ := ok_of_bind h
      obtain ⟨bs', hbs', h⟩ := ok_of_bind h
      obtain rfl := Except.ok.inj h
      rcases List.mem_cons.mp hb with rfl | hb
      · exact ⟨a, List.mem_cons_self, hb'⟩
      · obtain ⟨a', ha', hf⟩ := ih hbs' hb
        exact ⟨a', List.mem_cons_of_mem _ ha', hf⟩

/-- The invariant rule for a loop that may stop with an error. -/
theorem foldlM_invariant {σ ι : Type} {step : σ → ι → Except ε σ} {inv : σ → Prop} {is : List ι}
    (hstep : ∀ i ∈ is, ∀ s s', inv s → step s i = .ok s' → inv s') {s t : σ} (hinit : inv s)
    (h : is.foldlM step s = .ok t) : inv t := by
  induction is generalizing s with
  | nil =>
      obtain rfl := Except.ok.inj h
      exact hinit
  | cons i is ih =>
      obtain ⟨hfirst, hrest⟩ := List.forall_mem_cons.mp hstep
      rw [List.foldlM_cons] at h
      obtain ⟨s', hs', h⟩ := ok_of_bind h
      exact ih hrest (hfirst s s' hinit hs') h

/-! ## Panics -/

section Panics

variable {π : Type}

def check (x : Except ε α) : ExceptT ε (Except π) α := ExceptT.mk (.ok x)

def attempt (x : Except π α) : ExceptT ε (Except π) α := ExceptT.lift x

def Panics (x : ExceptT ε (Except π) α) : Prop := ∃ p, x.run = .error p

def Returns (x : ExceptT ε (Except π) α) (a : α) : Prop := x.run = .ok (.ok a)

variable {x : ExceptT ε (Except π) α} {f : α → ExceptT ε (Except π) β} {a : α} {b : β}

@[simp] theorem not_panics_check (r : Except ε α) : ¬ Panics (check r : ExceptT ε (Except π) α) := by
  rintro ⟨p, ⟨⟩⟩

theorem check_bind (r : Except ε α) (f : α → Except ε β) :
    (check (r >>= f) : ExceptT ε (Except π) β) = check r >>= fun a ↦ check (f a) := by
  cases r <;> rfl

@[simp] theorem not_panics_pure (a : α) : ¬ Panics (pure a : ExceptT ε (Except π) α) := by
  rintro ⟨p, ⟨⟩⟩

@[simp] theorem returns_check (r : Except ε α) :
    Returns (check r : ExceptT ε (Except π) α) a ↔ r = .ok a := by
  simp [Returns, check]

@[simp] theorem returns_pure (a' : α) :
    Returns (pure a' : ExceptT ε (Except π) α) a ↔ a' = a := by
  simp [Returns, pure, ExceptT.pure, ExceptT.mk, Except.pure, ExceptT.run]

@[simp] theorem panics_attempt (r : Except π α) :
    Panics (attempt r : ExceptT ε (Except π) α) ↔ ∃ p, r = .error p := by
  cases r <;> simp [Panics, attempt, ExceptT.lift, ExceptT.run, ExceptT.mk, Functor.map, Except.map]

@[simp] theorem returns_attempt (r : Except π α) :
    Returns (attempt r : ExceptT ε (Except π) α) a ↔ r = .ok a := by
  cases r <;> simp [Returns, attempt, ExceptT.lift, ExceptT.run, ExceptT.mk, Functor.map, Except.map]

theorem panics_bind : Panics (x >>= f) ↔ Panics x ∨ ∃ a, Returns x a ∧ Panics (f a) := by
  unfold Panics Returns
  rw [ExceptT.run_bind]
  rcases x.run with p | e | a <;> simp [bind, Except.bind, pure, Except.pure]

theorem returns_bind : Returns (x >>= f) b ↔ ∃ a, Returns x a ∧ Returns (f a) b := by
  unfold Returns
  rw [ExceptT.run_bind]
  rcases x.run with p | e | a <;> simp [bind, Except.bind, pure, Except.pure]

@[simp] theorem panics_map {g : α → β} : Panics (g <$> x) ↔ Panics x := by
  rw [← bind_pure_comp, panics_bind]
  simp

@[simp] theorem returns_map {g : α → β} : Returns (g <$> x) b ↔ ∃ a, Returns x a ∧ g a = b := by
  rw [← bind_pure_comp, returns_bind]
  simp

theorem panics_adapt {ε' : Type} {g : ε → ε'} : Panics (x.adapt g) ↔ Panics x := by
  unfold Panics ExceptT.adapt ExceptT.run ExceptT.mk
  cases (x : Except π (Except ε α)) <;> simp [Functor.map, Except.map]

theorem returns_adapt {ε' : Type} {g : ε → ε'} : Returns (x.adapt g) a ↔ Returns x a := by
  unfold Returns ExceptT.adapt ExceptT.run ExceptT.mk
  rcases (x : Except π (Except ε α)) with p | e | a' <;>
    simp [Functor.map, Except.map, Except.mapError]

end Panics

/-! ## Two versions of one computation -/

section Versions

variable {π φ ε' : Type}

/-- `y` is what `x` does when it does not fail. -/
def Approximates (x : Except π α) (y : Except φ α) : Prop := ∀ a, x = .ok a → y = .ok a

/-- `y` is what `x` does when it does not panic; `g` translates the errors. -/
def Implements (g : ε → ε') (x : ExceptT ε' (Except π) α) (y : ExceptT ε (Except φ) α) : Prop :=
  ∀ r, x.run = .ok r → ∃ r', y.run = .ok r' ∧ r = r'.mapError g

theorem Approximates.bind {x : Except π α} {y : Except φ α} (h : Approximates x y)
    {f : α → Except π β} {f' : α → Except φ β} (hf : ∀ a, Approximates (f a) (f' a)) :
    Approximates (x >>= f) (y >>= f') := by
  intro b hb
  obtain ⟨a, ha, hb⟩ := ok_of_bind hb
  exact bind_eq_ok.mpr ⟨a, h a ha, hf a b hb⟩

theorem approximates_pure (a : α) :
    Approximates (pure a : Except π α) (pure a : Except φ α) := by
  intro b hb
  rw [← Except.ok.inj hb]
  rfl

theorem Approximates.mapM {f : α → Except π β} {f' : α → Except φ β}
    (h : ∀ a, Approximates (f a) (f' a)) (as : List α) :
    Approximates (as.mapM f) (as.mapM f') := by
  induction as with
  | nil => exact approximates_pure []
  | cons a as ih =>
      rw [List.mapM_cons, List.mapM_cons]
      exact (h a).bind fun b ↦ ih.bind fun bs ↦ approximates_pure (b :: bs)

theorem Approximates.foldlM {σ ι : Type} {f : σ → ι → Except π σ} {f' : σ → ι → Except φ σ}
    (h : ∀ s i, Approximates (f s i) (f' s i)) (is : List ι) (s : σ) :
    Approximates (is.foldlM f s) (is.foldlM f' s) := by
  induction is generalizing s with
  | nil => exact approximates_pure s
  | cons i is ih =>
      rw [List.foldlM_cons, List.foldlM_cons]
      exact (h s i).bind ih

variable {g : ε → ε'}

theorem implements_pure (g : ε → ε') (a : α) :
    Implements g (pure a : ExceptT ε' (Except π) α) (pure a : ExceptT ε (Except φ) α) := by
  intro r hr
  obtain rfl := Except.ok.inj hr
  exact ⟨.ok a, rfl, rfl⟩

theorem implements_check (g : ε → ε') (r : Except ε α) :
    Implements g (check (r.mapError g) : ExceptT ε' (Except π) α)
      (check r : ExceptT ε (Except φ) α) := by
  intro r' hr'
  obtain rfl := Except.ok.inj hr'
  exact ⟨r, rfl, rfl⟩

theorem Approximates.attempt {x : Except π α} {y : Except φ α} (h : Approximates x y)
    (g : ε → ε') : Implements g (attempt x : ExceptT ε' (Except π) α)
      (attempt y : ExceptT ε (Except φ) α) := by
  intro r hr
  cases x with
  | error p => cases hr
  | ok a =>
      obtain rfl := Except.ok.inj hr
      exact ⟨.ok a, by rw [h a rfl]; rfl, rfl⟩

theorem Implements.bind {x : ExceptT ε' (Except π) α} {y : ExceptT ε (Except φ) α}
    (h : Implements g x y) {f : α → ExceptT ε' (Except π) β} {f' : α → ExceptT ε (Except φ) β}
    (hf : ∀ a, Implements g (f a) (f' a)) : Implements g (x >>= f) (y >>= f') := by
  intro r hr
  rw [ExceptT.run_bind] at hr
  obtain ⟨s, hs, hr⟩ := ok_of_bind hr
  obtain ⟨s', hs', rfl⟩ := h s hs
  rw [ExceptT.run_bind, hs']
  cases s' with
  | error e =>
      obtain rfl := Except.ok.inj hr
      exact ⟨.error e, rfl, rfl⟩
  | ok a => exact hf a r hr

/-- A check for a panic alone. -/
theorem Implements.attempt_bind {x : Except π α} {f : α → ExceptT ε' (Except π) β}
    {y : ExceptT ε (Except φ) β} (h : ∀ a, Implements g (f a) y) :
    Implements g (attempt x >>= f) y := by
  intro r hr
  cases x with
  | error p => cases hr
  | ok a => exact h a r hr

end Versions

end Geiger.Fallible
