import AvroCodec.Generator
import Mathlib.Data.List.Forall2

/-!
# Actions that succeed

The parser and the generator are actions on a state that may fail. An action that succeeds is taken
apart into the actions it is made of, each of which succeeds as well.
-/

namespace AvroCodec

section Except

variable {ε α β : Type} {x : Except ε α}

theorem except_bind_eq_ok {f : α → Except ε β} {b : β} : (x >>= f) = .ok b ↔ ∃ a, x = .ok a ∧ f a = .ok b := by
  cases x <;> simp [bind, Except.bind]

theorem except_map_eq_error {f : α → β} {e : ε} : x.map f = .error e ↔ x = .error e := by
  cases x <;> simp [Except.map]

theorem except_map_eq_ok {f : α → β} {b : β} : x.map f = .ok b ↔ ∃ a, x = .ok a ∧ f a = b := by
  cases x <;> simp [Except.map]

end Except

section State

variable {ε σ α β : Type}

variable {s t : σ} {b : α} {u : PUnit} {f : α → ExceptT ε (StateM σ) β}

theorem bind_eq_ok {x : ExceptT ε (StateM σ) α} {b : β} :
    (x >>= f) s = (.ok b, t) ↔ ∃ a s', x s = (.ok a, s') ∧ f a s' = (.ok b, t) := by
  simp only [bind, ExceptT.bind, ExceptT.mk, ExceptT.bindCont, StateT.bind]
  rcases x s with ⟨e | a, s'⟩
  · constructor
    · intro h
      cases h
    · rintro ⟨a, s'', h, -⟩
      cases h
  · constructor
    · intro h
      exact ⟨a, s', rfl, h⟩
    · rintro ⟨a', s'', ha, h⟩
      cases ha
      exact h

theorem pure_eq_ok {a : α} :
    (pure a : ExceptT ε (StateM σ) α) s = (.ok b, t) ↔ b = a ∧ t = s := by
  constructor
  · intro h
    cases h
    exact ⟨rfl, rfl⟩
  · rintro ⟨rfl, rfl⟩
    rfl

theorem throw_eq_ok {e : ε} :
    (throw e : ExceptT ε (StateM σ) α) s = (.ok b, t) ↔ False := by
  constructor
  · intro h
    cases h
  · exact False.elim

theorem lift_eq_ok {x : Except ε α} :
    (liftM x : ExceptT ε (StateM σ) α) s = (.ok b, t) ↔ x = .ok b ∧ t = s := by
  constructor
  · intro h
    cases h
    exact ⟨rfl, rfl⟩
  · rintro ⟨rfl, rfl⟩
    rfl

theorem get_eq_ok {a : σ} : (get : ExceptT ε (StateM σ) σ) s = (.ok a, t) ↔ a = s ∧ t = s := by
  constructor
  · intro h
    cases h
    exact ⟨rfl, rfl⟩
  · rintro ⟨rfl, rfl⟩
    rfl

theorem set_eq_ok {a : σ} : (set a : ExceptT ε (StateM σ) PUnit) s = (.ok u, t) ↔ t = a := by
  constructor
  · intro h
    cases h
    rfl
  · rintro rfl
    rfl

theorem modify_eq_ok {f : σ → σ} : (modify f : ExceptT ε (StateM σ) PUnit) s = (.ok u, t) ↔ t = f s := by
  constructor
  · intro h
    cases h
    rfl
  · rintro rfl
    rfl

theorem mapM_eq_ok {I : σ → Prop} {Q : α → β → Prop} {xs : List α} {ys : List β}
    (hf : ∀ x ∈ xs, ∀ s y t, I s → f x s = (.ok y, t) → I t ∧ Q x y) (hs : I s)
    (h : xs.mapM f s = (.ok ys, t)) : I t ∧ List.Forall₂ Q xs ys := by
  induction xs generalizing s ys with
  | nil =>
    rw [List.mapM_nil, pure_eq_ok] at h
    obtain ⟨rfl, rfl⟩ := h
    exact ⟨hs, .nil⟩
  | cons x xs ih =>
    simp only [List.mapM_cons, bind_eq_ok, pure_eq_ok] at h
    obtain ⟨y, s₁, hy, ys, s₂, hys, rfl, rfl⟩ := h
    obtain ⟨hs₁, hq⟩ := hf x List.mem_cons_self s y s₁ hs hy
    obtain ⟨hs₂, hqs⟩ := ih (fun x hx => hf x (List.mem_cons_of_mem _ hx)) hs₁ hys
    exact ⟨hs₂, .cons hq hqs⟩

theorem mapM_eq_map {g : α → β} {xs : List α} {ys : List β} (hf : ∀ x s y t, f x s = (.ok y, t) → y = g x)
    (h : xs.mapM f s = (.ok ys, t)) : ys = xs.map g := by
  have hall := (mapM_eq_ok (I := fun _ => True) (Q := fun x y => y = g x)
    (fun x _ s y t _ hy => ⟨trivial, hf x s y t hy⟩) trivial h).2
  rw [← List.forall₂_eq_eq_eq, List.forall₂_map_right_iff]
  exact List.Forall₂.flip hall

end State

namespace Gen

variable {α β : Type} {σ : Setting} {s t a : Generator} {u : PUnit}

theorem bind_eq_ok {x : Gen α} {f : α → Gen β} {b : β} :
    (x >>= f) σ s = (.ok b, t) ↔ ∃ a s', x σ s = (.ok a, s') ∧ f a σ s' = (.ok b, t) :=
  AvroCodec.bind_eq_ok

theorem pure_eq_ok {a b : α} : (pure a : Gen α) σ s = (.ok b, t) ↔ b = a ∧ t = s :=
  AvroCodec.pure_eq_ok

theorem throw_eq_ok {e : SchemaError} {b : α} : (throw e : Gen α) σ s = (.ok b, t) ↔ False :=
  AvroCodec.throw_eq_ok

theorem lift_eq_ok {x : Except SchemaError α} {b : α} :
    (liftM x : Gen α) σ s = (.ok b, t) ↔ x = .ok b ∧ t = s :=
  AvroCodec.lift_eq_ok

theorem read_eq_ok {a : Setting} : (read : Gen Setting) σ s = (.ok a, t) ↔ a = σ ∧ t = s :=
  AvroCodec.pure_eq_ok

theorem get_eq_ok : (get : Gen Generator) σ s = (.ok a, t) ↔ a = s ∧ t = s :=
  AvroCodec.get_eq_ok

theorem set_eq_ok : (set a : Gen PUnit) σ s = (.ok u, t) ↔ t = a :=
  AvroCodec.set_eq_ok (s := s)

theorem modify_eq_ok {f : Generator → Generator} : (modify f : Gen PUnit) σ s = (.ok u, t) ↔ t = f s :=
  AvroCodec.modify_eq_ok

theorem mapM_apply (f : α → Gen β) (xs : List α) :
    xs.mapM f σ = xs.mapM (m := ExceptT SchemaError (StateM Generator)) fun x => f x σ := by
  induction xs with
  | nil => rfl
  | cons x xs ih =>
    rw [List.mapM_cons, List.mapM_cons, ← ih]
    rfl

theorem mapM_eq_ok {I : Generator → Prop} {Q : α → β → Prop} {f : α → Gen β} {xs : List α}
    {ys : List β} (hf : ∀ x ∈ xs, ∀ s y t, I s → f x σ s = (.ok y, t) → I t ∧ Q x y)
    (hs : I s) (h : xs.mapM f σ s = (.ok ys, t)) : I t ∧ List.Forall₂ Q xs ys := by
  rw [mapM_apply] at h
  exact AvroCodec.mapM_eq_ok hf hs h

end Gen

end AvroCodec
