import AvroCodec.Proofs.Generation

/-!
# What a generator keeps

Most actions of a generator draw variables and load definitions, and do nothing about recursive types. A
relation of states that such actions keep is kept by a whole step, if meeting a recursive type keeps it.
What is known on the way are the numbers of the variables that are drawn next.
-/

namespace AvroCodec

open Code

namespace Gen

variable {σ : Setting} {T : Generator → Generator → Prop}

/-- A relation of states that is kept while nothing is done about recursive types. -/
structure Kept (T : Generator → Generator → Prop) : Prop where
  le : ∀ {s t}, T s t → s.counters ≤ t.counters
  trans : ∀ {s t u}, T s t → T t u → T s u
  still : ∀ {s t : Generator}, s.counters ≤ t.counters → s.handled = t.handled → s.helpers = t.helpers → T s t

theorem Kept.refl (hT : Kept T) (s : Generator) : T s s := hT.still le_rfl rfl rfl

theorem Kept.load (hT : Kept T) {name : String} {s t : Generator} {x : Json} (hx : load name σ s = (.ok x, t)) :
    T s t := by
  obtain ⟨registry, -, rfl⟩ := load_eq_ok hx
  exact hT.still le_rfl rfl rfl

/-- What the actions of the first generator come to, and that the relation is kept. -/
def tracing (σ : Setting) (hT : Kept T) : Lockstep Counters σ σ where
  holds w x _ Q := ∀ ⦃s t a⦄, s.counters = w → x σ s = (.ok a, t) → T s t ∧ ∃ b, Q t.counters a b
  resembles := .refl σ
  of_eq h hx _ s t a hs ha := by
    rw [hx] at ha
    exact h hs ha
  pure h _ _ _ hs ha := by
    cases ha
    subst hs
    exact ⟨hT.refl _, _, h⟩
  throw _ _ _ _ _ _ ha := (throw_eq_ok.1 ha).elim
  bind h hf s t c hs hc := by
    obtain ⟨a, s₁, ha, hc⟩ := bind_eq_ok.1 hc
    obtain ⟨hkept, b, hab⟩ := h hs ha
    obtain ⟨hkept', hd⟩ := hf _ a b (hs ▸ hT.le hkept) hab rfl hc
    exact ⟨hT.trans hkept hkept', hd⟩
  contexts _ _ := True
  drawn w w' kind m n := m = n ∧ Counters.Drew kind w w' m
  stored _ := trivial
  draw hz hf s t c hs hc := by
    obtain ⟨n, u, hu, hrun⟩ := hz.exists_count
    obtain ⟨a, s₁, ha, hc⟩ := bind_eq_ok.1 hc
    cases (hrun σ s).symm.trans ha
    subst hs
    obtain ⟨hkept, hd⟩ := hf _ _ _ (hu _).le ⟨rfl, hu _⟩ rfl hc
    exact ⟨hT.trans (hT.still (t := s.count (u s.counters)) (hu _).le rfl rfl) hkept, hd⟩
  declare _ _ _ _ _ _ ha := by
    cases ha
    exact ⟨hT.still le_rfl rfl rfl, (), trivial⟩
  requireReady _ ha := by
    obtain rfl := requireReady_eq_ok ha
    exact ⟨hT.refl _, (), trivial⟩
  get {_ _ t _} _ ha := by
    obtain ⟨rfl, rfl⟩ := get_eq_ok.1 ha
    exact ⟨hT.refl _, t, trivial⟩
  setContext _ _ _ _ _ ha := by
    cases ha
    exact ⟨hT.still le_rfl rfl rfl, (), trivial⟩

theorem drawn_of_draws {hT : Kept T} {w w' : Counters} {kind : String} {m n : Nat}
    (h : (tracing σ hT).Draws w w' kind m n) :
    w ≤ w' ∧ w.Drawn (variableName kind m) ∧ ∀ y, w'.Drawn y → y ≠ variableName kind m := by
  obtain ⟨w₁, w₂, hw, ⟨rfl, hdrew⟩, hw'⟩ := h
  obtain ⟨hdrawn, hfresh⟩ := drawn_of_drew hdrew
  exact ⟨hw.trans (hdrew.le.trans hw'), drawn_mono hw hdrawn, fun y hy => hfresh y (drawn_mono hw' hy)⟩

end Gen

end AvroCodec
