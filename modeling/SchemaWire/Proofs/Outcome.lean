import Mathlib.Data.List.Forall2

/-!
# Steps that succeed

A computation of several steps succeeds exactly when each step does. These equivalences take a success
apart into those of its steps, and put it together again.
-/

namespace SchemaWire

variable {ε ε' α β : Type}

theorem Except.map_map {γ : Type} {x : Except ε α} {f : α → β} {g : β → γ} : (x.map f).map g = x.map (g ∘ f) := by
  cases x <;> rfl

theorem Except.map_eq_bind {x : Except ε α} {f : α → β} : x.map f = x >>= fun a => .ok (f a) := by
  cases x <;> rfl

theorem Except.map_bind {γ : Type} {x : Except ε α} {f : α → Except ε β} {g : β → γ} :
    (x >>= f).map g = x >>= fun a => (f a).map g := by
  cases x <;> rfl

theorem Except.map_eq_ok_iff {f : α → β} {x : Except ε α} {b : β} :
    x.map f = .ok b ↔ ∃ a, x = .ok a ∧ f a = b := by
  cases x <;> simp [Except.map]

theorem Except.map_eq_error_iff {f : α → β} {x : Except ε α} {e : ε} : x.map f = .error e ↔ x = .error e := by
  cases x <;> simp [Except.map]

theorem Except.bind_eq_ok_iff {x : Except ε α} {f : α → Except ε β} {b : β} :
    (x >>= f) = .ok b ↔ ∃ a, x = .ok a ∧ f a = .ok b := by
  cases x <;> simp [bind, Except.bind]

theorem Except.mapError_eq_ok_iff {f : ε → ε'} {x : Except ε α} {a : α} :
    x.mapError f = .ok a ↔ x = .ok a := by
  cases x <;> simp [Except.mapError]

/-- As far as it is seen, what two steps give together depends only on what is seen of each step. -/
theorem Except.map_bind_congr {α' β' γ γ' : Type} {x x' : Except ε α} {y y' : Except ε β} {f f' : α → β → γ}
    (k : α → α') (l : β → β') {g : γ → γ'} (F : α' → β' → γ') (hx : x.map k = x'.map k) (hy : y.map l = y'.map l)
    (hf : ∀ a b, g (f a b) = F (k a) (l b)) (hf' : ∀ a b, g (f' a b) = F (k a) (l b)) :
    (do return f (← x) (← y)).map g = (do return f' (← x') (← y')).map g := by
  cases x <;> cases x' <;> cases y <;> cases y' <;>
    simp_all [Except.map, bind, Except.bind, pure, Except.pure]

/-- All items of a list go through exactly if each of them does. -/
theorem Except.mapM_eq_ok_iff {f : α → Except ε β} {items : List α} {results : List β} :
    items.mapM f = .ok results ↔ List.Forall₂ (fun item result => f item = .ok result) items results := by
  induction items generalizing results with
  | nil =>
    simp only [List.mapM_nil, List.forall₂_nil_left_iff]
    exact ⟨fun h => by cases h; rfl, fun h => by rw [h]; rfl⟩
  | cons item items ih =>
    rw [List.mapM_cons, bind_eq_ok_iff, List.forall₂_cons_left_iff]
    constructor
    · rintro ⟨result, hitem, hrest⟩
      obtain ⟨more, hmore, he⟩ := bind_eq_ok_iff.mp hrest
      cases he
      exact ⟨result, more, hitem, ih.mp hmore, rfl⟩
    · rintro ⟨result, more, hitem, hmore, rfl⟩
      exact ⟨result, hitem, bind_eq_ok_iff.mpr ⟨more, ih.mpr hmore, rfl⟩⟩

theorem Except.forM_eq_ok_iff {f : α → Except ε Unit} {items : List α} :
    items.forM f = .ok () ↔ ∀ item ∈ items, f item = .ok () := by
  induction items with
  | nil => simp [pure, Except.pure]
  | cons item items ih =>
    rw [List.forM_eq_forM] at ih ⊢
    rw [List.forM_cons, bind_eq_ok_iff, List.forall_mem_cons]
    exact ⟨fun ⟨_, hitem, hrest⟩ => ⟨hitem, ih.mp hrest⟩, fun ⟨hitem, hrest⟩ => ⟨_, hitem, ih.mpr hrest⟩⟩

/-- Lists whose items do the same one by one do the same together. -/
theorem mapM_congr {γ : Type} {m : Type → Type} [Monad m] [LawfulMonad m] {f : α → m γ} {g : β → m γ} {items : List α}
    {others : List β} (h : List.Forall₂ (fun a b => f a = g b) items others) : items.mapM f = others.mapM g := by
  induction h with
  | nil => rw [List.mapM_nil, List.mapM_nil]
  | cons hab _ ih => rw [List.mapM_cons, List.mapM_cons, hab, ih]

theorem Except.mapM_map_eq_ok {γ : Type} {f : α → Except ε β} {g : γ → α} {k : γ → β} {items : List γ}
    (h : ∀ item ∈ items, f (g item) = .ok (k item)) : (items.map g).mapM f = .ok (items.map k) := by
  rw [mapM_eq_ok_iff, List.forall₂_map_left_iff, List.forall₂_map_right_iff, List.forall₂_same]
  exact h

/-! ## Failures of one kind -/

/-- Whether an outcome is a success, or a failure with a property. -/
def FailsOnly (P : ε → Prop) (x : Except ε α) : Prop :=
  ∀ e, x = .error e → P e

namespace FailsOnly

variable {P : ε → Prop} {x : Except ε α} {f : α → Except ε β}

theorem ok (a : α) : FailsOnly P (.ok a : Except ε α) := by
  intro e h
  cases h

theorem error {e : ε} (he : P e) : FailsOnly P (.error e : Except ε α) := by
  intro e' h
  cases h
  exact he

theorem bind (hx : FailsOnly P x) (hf : ∀ a, x = .ok a → FailsOnly P (f a)) : FailsOnly P (x >>= f) := by
  cases x with
  | error e => exact error (hx e rfl)
  | ok a => exact hf a rfl

theorem map (hx : FailsOnly P x) (g : α → β) : FailsOnly P (x.map g) := by
  intro e h
  exact hx e (Except.map_eq_error_iff.mp h)

theorem mapM {items : List α} (h : ∀ a ∈ items, FailsOnly P (f a)) : FailsOnly P (items.mapM f) := by
  induction items with
  | nil => exact ok []
  | cons a rest ih =>
    rw [List.mapM_cons]
    refine bind (h a List.mem_cons_self) fun b _ => bind ?_ fun bs _ => ok _
    exact ih fun c hc => h c (List.mem_cons_of_mem a hc)

theorem forM {f : α → Except ε Unit} {items : List α} (h : ∀ a ∈ items, FailsOnly P (f a)) :
    FailsOnly P (items.forM f) := by
  induction items with
  | nil => exact ok ()
  | cons a rest ih =>
    rw [List.forM_eq_forM] at ih ⊢
    rw [List.forM_cons]
    rw [List.forall_mem_cons] at h
    exact bind h.1 fun _ _ => ih h.2

theorem mapError (x : Except ε' α) {g : ε' → ε} (h : ∀ e, P (g e)) : FailsOnly P (x.mapError g) := by
  cases x with
  | error e => exact error (h e)
  | ok a => exact ok a

end FailsOnly

end SchemaWire
