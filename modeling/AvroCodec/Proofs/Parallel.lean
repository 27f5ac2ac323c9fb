import AvroCodec.Proofs.Lockstep
import AvroCodec.Proofs.Tracking

/-!
# Two runs of a generator

Two runs of a generator, from states that differ in the context and the registry at most, draw the same
variables and make the same code as long as they load the same definitions. A `Parallel` says what the
states have in common besides, and what is to be shown of the code; `Parallel.Rules` are the conditions
under which this can be carried through all shapes of a schema.
-/

namespace AvroCodec

open Code

def Generator.core (s : Generator) : Generator := { s with context := "", registry := [] }

/-- What two runs of a generator have in common, and what is said of the code that they make. -/
structure Parallel (W : Type) where
  terms : Terms Generator
  contexts : String → String → Prop
  /-- Of the declarations. -/
  line : String → Prop
  /-- Of the recursive types whose routines have been begun, and of the routines that are waiting. -/
  held : W → List String → List (String × Routine) → Prop
  /-- The recursive types that may be called. -/
  met : W → String → Prop
  guard : Guard → Prop
  /-- Of code that writes a value of a type at a place. -/
  encoder : W → Json → Place → Encoder → Prop
  decoder : W → Json → Place → Decoder → Prop

namespace Parallel

variable {W α β γ δ : Type}

/-- The states of two runs that are at the same point. -/
structure Aligned (R : Parallel W) (w : W) (s s' : Generator) : Prop where
  contexts : R.contexts s.context s'.context
  core : s.core = s'.core
  lines : ∀ l ∈ s.declarations, R.line l
  held : R.held w s.handled s.helpers

/-- Two actions of a generator that stay aligned. -/
def Follows [Preorder W] (R : Parallel W) (σ : Setting) (w : W) (x : Gen α) (y : Gen β) (Q : W → α → β → Prop) :
    Prop :=
  Tracks R.terms R.Aligned w (x σ) (y σ) Q

variable {R : Parallel W} {σ : Setting} {w : W}

namespace Aligned

variable {s s' : Generator}

theorem congr {f : Generator → β} (h : R.Aligned w s s') (hf : ∀ u : Generator, f u.core = f u) :
    f s = f s' := by
  rw [← hf s, h.core, hf]

theorem update {f : Generator → Generator} (h : R.Aligned w s s')
    (hcore : ∀ u, (f u).core = (f u.core).core) (hcontext : ∀ u, (f u).context = u.context)
    (hlines : ∀ l ∈ (f s).declarations, R.line l) (hhandled : ∀ u, (f u).handled = u.handled)
    (hhelpers : ∀ u, (f u).helpers = u.helpers) : R.Aligned w (f s) (f s') where
  contexts := by
    rw [hcontext, hcontext]
    exact h.contexts
  core := by rw [hcore, h.core, ← hcore]
  lines := hlines
  held := by
    rw [hhandled, hhelpers]
    exact h.held

theorem setContext (h : R.Aligned w s s') {c c' : String} (hc : R.contexts c c') :
    R.Aligned w { s with context := c } { s' with context := c' } :=
  ⟨hc, h.core, h.lines, h.held⟩

theorem setRegistry (h : R.Aligned w s s') (r r' : Schema.Registry) :
    R.Aligned w { s with registry := r } { s' with registry := r' } :=
  ⟨h.contexts, h.core, h.lines, h.held⟩

end Aligned

/-- Failures of one family are put up with, unless they are that of an endless run. -/
def Lenient (R : Parallel W) : Prop :=
  ∀ {w s s'} {e e' : SchemaError}, R.Aligned w s s' → e.family = e'.family → e ≠ .endless →
    R.terms.both e s e' s'

variable [Preorder W]

namespace Follows

variable {x : Gen α} {y : Gen β} {Q : W → α → β → Prop} {S : W → γ → δ → Prop} {f : α → Gen γ} {g : β → Gen δ}

theorem pure {a : α} {b : β} (h : Q w a b) : R.Follows σ w (Pure.pure a) (Pure.pure b) Q :=
  Tracks.pure h

theorem throw {e e' : SchemaError} (hR : R.Lenient) (h : e.family = e'.family) (he : e ≠ .endless) :
    R.Follows σ w (MonadExcept.throw e : Gen α) (MonadExcept.throw e' : Gen β) Q :=
  Tracks.throw fun _ _ hs => hR hs h he

theorem bind (h : R.Follows σ w x y Q) (hf : ∀ w' a b, w ≤ w' → Q w' a b → R.Follows σ w' (f a) (g b) S) :
    R.Follows σ w (x >>= f) (y >>= g) S :=
  Tracks.bind h hf

theorem imp {Q' : W → α → β → Prop} (h : R.Follows σ w x y Q)
    (hQ : ∀ w' a b, w ≤ w' → Q w' a b → Q' w' a b) : R.Follows σ w x y Q' :=
  Tracks.imp h hQ

theorem of_eq {x' : Gen α} {y' : Gen β} (hx : x σ = x' σ) (hy : y σ = y' σ)
    (h : R.Follows σ w x' y' Q) : R.Follows σ w x y Q := by
  unfold Follows
  rw [hx, hy]
  exact h

theorem bind_read {f : Setting → Gen γ} {g : Setting → Gen δ} (h : R.Follows σ w (f σ) (g σ) S) :
    R.Follows σ w (read >>= f) (read >>= g) S :=
  h

theorem bind_ok (h : ∀ s s', R.Aligned w s s' → ∃ a t b t', x σ s = (.ok a, t) ∧ y σ s' = (.ok b, t') ∧
      R.Aligned w t t' ∧ R.Follows σ w (f a) (g b) S) : R.Follows σ w (x >>= f) (y >>= g) S := by
  intro s s' hs
  obtain ⟨a, t, b, t', hx, hy, ht, hfg⟩ := h s s' hs
  have hxf : (x >>= f) σ s = f a σ t := Action.bind_of_ok hx
  have hyg : (y >>= g) σ s' = g b σ t' := Action.bind_of_ok hy
  rw [hxf, hyg]
  exact hfg t t' ht

theorem draw {kind : String} {z : Gen String} {f : String → Gen γ} {g : String → Gen δ} (hz : Gen.Fresh kind z)
    (h : ∀ n, R.Follows σ w (f (Gen.variableName kind n)) (g (Gen.variableName kind n)) S) :
    R.Follows σ w (z >>= f) (z >>= g) S := by
  obtain ⟨n, u, -, hrun⟩ := hz.exists_count
  refine bind_ok fun s s' hs => ⟨_, _, _, _, hrun σ s, hrun σ s', ⟨hs.contexts, ?_, hs.lines, hs.held⟩, ?_⟩
  · rw [hs.congr (f := Generator.counters) fun _ => rfl]
    exact congrArg (fun c => c.count (u s'.counters)) hs.core
  · rw [hs.congr (f := Generator.counters) fun _ => rfl]
    exact h _

theorem requireReady (hR : R.Lenient) :
    R.Follows σ w Gen.requireReady Gen.requireReady fun _ _ _ => True := by
  intro s s' hs
  have hrun : ∀ u : Generator, Gen.requireReady σ u =
      if !u.ready then (.error .templatesNotReady, u) else (.ok (), u) := by
    intro u
    change (if !u.ready then MonadExcept.throw SchemaError.templatesNotReady else Pure.pure () : Gen Unit) σ u = _
    split_ifs <;> rfl
  have hready : s.ready = s'.ready := hs.congr fun _ => rfl
  rw [hrun, hrun, hready]
  split_ifs
  · exact .inr (.inr (hR hs rfl (by simp)))
  · exact ⟨w, le_rfl, hs, trivial⟩

end Follows

def judgement (R : Parallel W) (σ : Setting) (hR : R.Lenient) : Judgement W σ σ where
  holds := R.Follows σ
  resembles := .refl σ
  of_eq h hx hy := Follows.of_eq hx hy h
  pure := Follows.pure
  throw := Follows.throw hR
  bind := Follows.bind

def lockstep (R : Parallel W) (σ : Setting) (hR : R.Lenient)
    (hcontexts : ∀ {name}, σ.store.contains name = true → R.contexts name name)
    (hline : ∀ {type kind n}, (type, kind) ∈ declared → R.line (Gen.declarationText type (Gen.variableName kind n))) :
    Lockstep W σ σ where
  toJudgement := R.judgement σ hR
  contexts := R.contexts
  drawn _ _ _ := Eq
  stored := hcontexts
  draw hz h := Follows.draw hz fun n => h _ n n le_rfl rfl
  declare {w _ _ type kind m _} hkind hmn s s' hs := by
    subst hmn
    refine ⟨w, le_rfl, ⟨hs.contexts, ?_, ?_, hs.held⟩, trivial⟩
    · exact congrArg (fun c : Generator => { c with
        declarations := c.declarations ++ [Gen.declarationText type (Gen.variableName kind m)] }) hs.core
    · exact List.forall_mem_append.2 ⟨hs.lines, List.forall_mem_singleton.2 (hline hkind)⟩
  requireReady := Follows.requireReady hR
  get s s' hs := ⟨_, le_rfl, hs, hs.contexts⟩
  setContext hc s s' hs := ⟨_, le_rfl, hs.setContext hc, trivial⟩

end Parallel

end AvroCodec
