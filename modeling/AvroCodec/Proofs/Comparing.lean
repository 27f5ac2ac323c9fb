import AvroCodec.Proofs.Outcome

/-!
# Comparing two runs

The parser and the generator are run twice, from two states that have something in common. `Compares`
says what the two runs have in common at their ends. `Terms` are the failures that it puts up with: one
run may fail in a way that excuses it, and both may fail in the same way.
-/

namespace AvroCodec

abbrev Action (σ α : Type) := ExceptT SchemaError (StateM σ) α

theorem Action.bind_run {σ α β : Type} (x : Action σ α) (f : α → Action σ β) (s : σ) :
    (x >>= f) s = match x s with
      | (.ok a, t) => f a t
      | (.error e, t) => (.error e, t) := by
  simp only [Bind.bind, ExceptT.bind, ExceptT.mk, StateT.bind]
  rcases x s with ⟨e | a, t⟩ <;> rfl

theorem Action.bind_of_ok {σ α β : Type} {x : Action σ α} {f : α → Action σ β} {s t : σ} {a : α}
    (h : x s = (.ok a, t)) : (x >>= f) s = f a t := by
  rw [Action.bind_run, h]

/-- The failures that are put up with, each with the state that it leaves. -/
structure Terms (σ : Type) where
  /-- The first run fails, whatever the second does. -/
  first : SchemaError → σ → Prop
  /-- The second run fails, whatever the first does. -/
  second : SchemaError → σ → Prop
  both : SchemaError → σ → SchemaError → σ → Prop

variable {σ α β γ δ : Type} {E : Terms σ} {P : σ → σ → Prop}

/-- From states of which `P` holds, two actions end with results and states of which `Q` holds, or they
fail on the given terms. -/
def Compares (E : Terms σ) (P : σ → σ → Prop) (x : Action σ α) (y : Action σ β)
    (Q : α → σ → β → σ → Prop) : Prop :=
  ∀ s s', P s s' →
    match x s, y s' with
    | (.ok a, t), (.ok b, t') => Q a t b t'
    | (.error e, t), (.ok _, _) => E.first e t
    | (.ok _, _), (.error e, t') => E.second e t'
    | (.error e, t), (.error e', t') => E.first e t ∨ E.second e' t' ∨ E.both e t e' t'

namespace Compares

variable {x : Action σ α} {y : Action σ β} {Q : α → σ → β → σ → Prop} {R : γ → σ → δ → σ → Prop}

theorem bind {f : α → Action σ γ} {g : β → Action σ δ} (h : Compares E P x y Q)
    (hf : ∀ a b, Compares E (fun s s' => Q a s b s') (f a) (g b) R) :
    Compares E P (x >>= f) (y >>= g) R := by
  intro s s' hs
  have hxy := h s s' hs
  rw [Action.bind_run, Action.bind_run]
  rcases hxs : x s with ⟨e | a, t⟩ <;> rcases hys : y s' with ⟨e' | b, t'⟩ <;>
    simp only [hxs, hys] at hxy ⊢
  · exact hxy
  · rcases g b t' with ⟨e' | c, u'⟩
    · exact .inl hxy
    · exact hxy
  · rcases f a t with ⟨e | c, u⟩
    · exact .inr (.inl hxy)
    · exact hxy
  · exact hf a b t t' hxy

theorem mono {P' : σ → σ → Prop} {Q' : α → σ → β → σ → Prop} (h : Compares E P x y Q)
    (hP : ∀ s s', P' s s' → P s s') (hQ : ∀ a t b t', Q a t b t' → Q' a t b t') :
    Compares E P' x y Q' := by
  intro s s' hs
  have hxy := h s s' (hP s s' hs)
  rcases hxs : x s with ⟨e | a, t⟩ <;> rcases hys : y s' with ⟨e' | b, t'⟩ <;>
    simp only [hxs, hys] at hxy ⊢
  · exact hxy
  · exact hxy
  · exact hxy
  · exact hQ _ _ _ _ hxy

end Compares

/-- An action that ends alike from all states that have `P` in common, and keeps that. -/
def Blind (E : Terms σ) (P : σ → σ → Prop) (x : Action σ α) : Prop :=
  Compares E P x x fun a t b t' => a = b ∧ P t t'

namespace Blind

theorem pure (a : α) : Blind E P (Pure.pure a : Action σ α) := fun _ _ hs => ⟨rfl, hs⟩

theorem throw {e : SchemaError} (h : ∀ s s', P s s' → E.both e s e s') :
    Blind E P (MonadExcept.throw e : Action σ α) :=
  fun s s' hs => .inr (.inr (h s s' hs))

theorem bind {x : Action σ α} {f : α → Action σ β} (h : Blind E P x) (hf : ∀ a, Blind E P (f a)) :
    Blind E P (x >>= f) := by
  refine Compares.bind h ?_
  rintro a b s s' ⟨rfl, hs⟩
  exact hf a s s' hs

theorem modify {f : σ → σ} (h : ∀ s s', P s s' → P (f s) (f s')) : Blind E P (modify f : Action σ PUnit) :=
  fun s s' hs => ⟨rfl, h s s' hs⟩

end Blind

end AvroCodec
