import AvroCodec.Proofs.Comparing

/-!
# One run carried over to another

The parser and the generator are run on two schemas of which the second says more than the first.
`Carries` says that the second run succeeds whenever the first does. A failure of the first run says nothing
about the second.
-/

namespace AvroCodec

/-- If the first of two outcomes is a result then so is the second, and `Q` holds of the two. -/
def Succeeds {ε α β : Type} (x : Except ε α) (y : Except ε β) (Q : α → β → Prop) : Prop :=
  ∀ a, x = .ok a → ∃ b, y = .ok b ∧ Q a b

namespace Succeeds

variable {ε α β γ δ : Type} {Q : α → β → Prop} {S : γ → δ → Prop}

theorem ok {a : α} {b : β} (h : Q a b) : Succeeds (.ok a : Except ε α) (.ok b) Q := by
  intro c hc
  cases hc
  exact ⟨b, rfl, h⟩

theorem bind {x : Except ε α} {y : Except ε β} {f : α → Except ε γ} {g : β → Except ε δ} (h : Succeeds x y Q)
    (hf : ∀ a b, Q a b → Succeeds (f a) (g b) S) : Succeeds (x >>= f) (y >>= g) S := by
  intro c hc
  obtain ⟨a, ha, hc⟩ := except_bind_eq_ok.1 hc
  obtain ⟨b, hb, hab⟩ := h a ha
  obtain ⟨d, hd, hcd⟩ := hf a b hab c hc
  exact ⟨d, except_bind_eq_ok.2 ⟨b, hb, hd⟩, hcd⟩

end Succeeds

variable {σ α β γ δ ι κ : Type} {P : σ → σ → Prop}

/-- From states of which `P` holds, the second action succeeds if the first does. `P` holds again then, and
`Q` holds of the results. -/
def Carries (P : σ → σ → Prop) (x : Action σ α) (y : Action σ β) (Q : α → β → Prop) : Prop :=
  ∀ s s' a t, P s s' → x s = (.ok a, t) → ∃ b t', y s' = (.ok b, t') ∧ P t t' ∧ Q a b

namespace Carries

variable {x : Action σ α} {y : Action σ β} {Q : α → β → Prop} {S : γ → δ → Prop}

variable {f : α → Action σ γ} {o : Except SchemaError α} {o' : Except SchemaError β} {is : List ι} {g : β → Action σ δ}

theorem pure {a : α} {b : β} (h : Q a b) :
    Carries P (Pure.pure a : Action σ α) (Pure.pure b : Action σ β) Q := by
  intro s s' c t hs hrun
  obtain ⟨rfl, rfl⟩ := pure_eq_ok.1 hrun
  exact ⟨b, s', rfl, hs, h⟩

theorem throw {e : SchemaError} : Carries P (MonadExcept.throw e : Action σ α) y Q :=
  fun _ _ _ _ _ hrun => (throw_eq_ok.1 hrun).elim

theorem bind (h : Carries P x y Q) (hf : ∀ a b, Q a b → Carries P (f a) (g b) S) : Carries P (x >>= f) (y >>= g) S := by
  intro s s' c u hs hrun
  obtain ⟨a, t, hx, hfa⟩ := bind_eq_ok.1 hrun
  obtain ⟨b, t', hy, ht, hab⟩ := h s s' a t hs hx
  obtain ⟨d, u', hgb, hu, hcd⟩ := hf a b hab t t' c u ht hfa
  exact ⟨d, u', bind_eq_ok.2 ⟨b, t', hy, hgb⟩, hu, hcd⟩

theorem imp {Q' : α → β → Prop} (h : Carries P x y Q) (hQ : ∀ a b, Q a b → Q' a b) :
    Carries P x y Q' := by
  intro s s' a t hs hrun
  obtain ⟨b, t', hy, ht, hab⟩ := h s s' a t hs hrun
  exact ⟨b, t', hy, ht, hQ a b hab⟩

theorem lift (h : Succeeds o o' Q) : Carries P (liftM o : Action σ α) (liftM o' : Action σ β) Q := by
  intro s s' a t hs hrun
  obtain ⟨ho, rfl⟩ := lift_eq_ok.1 hrun
  obtain ⟨b, hb, hab⟩ := h a ho
  exact ⟨b, s', lift_eq_ok.2 ⟨hb, rfl⟩, hs, hab⟩

theorem bind_lifts (hf : ∀ a, o = .ok a → ∃ b, o' = .ok b ∧ Carries P (f a) (g b) S) :
    Carries P (liftM o >>= f) (liftM o' >>= g) S := by
  cases o with
  | ok a =>
    obtain ⟨b, rfl, hab⟩ := hf a rfl
    exact hab
  | error e => exact Carries.throw

theorem bind_lift {g : α → Action σ δ}
    (hf : ∀ a, o = .ok a → Carries P (f a) (g a) S) :
    Carries P (liftM o >>= f) (liftM o >>= g) S :=
  bind_lifts fun a ha => ⟨a, ha, hf a ha⟩

theorem modify {f g : σ → σ} (h : ∀ s s', P s s' → P (f s) (g s')) :
    Carries P (modify f : Action σ PUnit) (modify g) fun _ _ => True := by
  intro s s' a t hs hrun
  obtain rfl := modify_eq_ok.1 hrun
  exact ⟨.unit, g s', rfl, h s s' hs, trivial⟩

theorem mapM {R : ι → κ → Prop} {f : ι → Action σ α} {g : κ → Action σ β} {ks : List κ} (h : List.Forall₂ R is ks)
    (hf : ∀ i ∈ is, ∀ k ∈ ks, R i k → Carries P (f i) (g k) Q) :
    Carries P (is.mapM f) (ks.mapM g) (List.Forall₂ Q) := by
  induction h with
  | nil => exact Carries.pure .nil
  | cons hik _ ih =>
    rw [List.mapM_cons, List.mapM_cons]
    refine (hf _ List.mem_cons_self _ List.mem_cons_self hik).bind fun a b hab => ?_
    have htail := ih fun i hi k hk => hf i (List.mem_cons_of_mem _ hi) k (List.mem_cons_of_mem _ hk)
    exact htail.bind fun as bs habs => Carries.pure (.cons hab habs)

theorem mapM_same {f : ι → Action σ α} {g : ι → Action σ β}
    (hf : ∀ i ∈ is, Carries P (f i) (g i) Q) : Carries P (is.mapM f) (is.mapM g) (List.Forall₂ Q) :=
  Carries.mapM (List.forall₂_same.2 fun i _ => Eq.refl i) fun i hi _ _ heq => heq ▸ hf i hi

end Carries

end AvroCodec
