import AvroCodec.Proofs.Comparing
import Mathlib.Order.Basic

/-!
# Comparing two runs while facts come up

What is known of the two runs of a generator grows while they go on. The facts known so far are a `w` of
some order: what the states have in common depends on it, and so does what is said of results, which stays
true when more is known.
-/

namespace AvroCodec

/-- For two runs of which nothing more comes to be known. -/
inductive Still where
  | still

instance : Preorder Still where
  le _ _ := True
  le_refl _ := trivial
  le_trans _ _ _ _ _ := trivial

variable {σ W α β γ δ ι : Type} [Preorder W] {E : Terms σ} {P : W → σ → σ → Prop} {w : W}

/-- From states of which `P w` holds, two actions end with results of which `Q` holds, and more may be
known then, or they fail on the given terms. -/
def Tracks (E : Terms σ) (P : W → σ → σ → Prop) (w : W) (x : Action σ α) (y : Action σ β)
    (Q : W → α → β → Prop) : Prop :=
  Compares E (P w) x y fun a t b t' => ∃ w', w ≤ w' ∧ P w' t t' ∧ Q w' a b

namespace Tracks

variable {x : Action σ α} {y : Action σ β} {Q : W → α → β → Prop} {R : W → γ → δ → Prop}

theorem pure {a : α} {b : β} (h : Q w a b) :
    Tracks E P w (Pure.pure a : Action σ α) (Pure.pure b) Q :=
  fun _ _ hs => ⟨w, le_rfl, hs, h⟩

theorem throw {e e' : SchemaError} (h : ∀ s s', P w s s' → E.both e s e' s') :
    Tracks E P w (MonadExcept.throw e : Action σ α) (MonadExcept.throw e' : Action σ β) Q :=
  fun s s' hs => .inr (.inr (h s s' hs))

theorem bind {f : α → Action σ γ} {g : β → Action σ δ} (h : Tracks E P w x y Q)
    (hf : ∀ w' a b, w ≤ w' → Q w' a b → Tracks E P w' (f a) (g b) R) :
    Tracks E P w (x >>= f) (y >>= g) R := by
  refine Compares.bind h ?_
  rintro a b s s' ⟨w', hw', hs, hab⟩
  refine (hf w' a b hw' hab).mono (fun _ _ => id) ?_ s s' hs
  rintro c t d t' ⟨w'', hw'', ht, hcd⟩
  exact ⟨w'', hw'.trans hw'', ht, hcd⟩

theorem imp {Q' : W → α → β → Prop} (h : Tracks E P w x y Q)
    (hQ : ∀ w' a b, w ≤ w' → Q w' a b → Q' w' a b) : Tracks E P w x y Q' := by
  refine h.mono (fun _ _ => id) ?_
  rintro a t b t' ⟨w', hw', ht, hab⟩
  exact ⟨w', hw', ht, hQ w' a b hw' hab⟩

end Tracks

end AvroCodec
