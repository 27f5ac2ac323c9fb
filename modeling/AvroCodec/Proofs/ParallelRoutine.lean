import AvroCodec.Proofs.History
import AvroCodec.Proofs.ParallelDecode

/-!
# Two runs of a whole generator

One step of generating code follows for schemas that are alike. Routines are made of such steps, and
meeting a recursive type makes a routine the first time. What a generator gets through its registry does
not depend on what the registry holds.
-/

namespace AvroCodec

open Code

theorem Recursion.upTo_succ (n : Nat) : Recursion.upTo (n + 1) = (Recursion.upTo n).next := rfl

theorem Recursion.encode_upTo_succ (n : Nat) (d : Json) (p : Place) :
    (Recursion.upTo (n + 1)).encode d p = Gen.encodeStep (.upTo n) d p := rfl

theorem Recursion.decode_upTo_succ (n : Nat) (d : Json) (p : Place) :
    (Recursion.upTo (n + 1)).decode d p = Gen.decodeStep (.upTo n) d p := rfl

namespace Parallel

variable {W : Type} [Preorder W] {R : Parallel W} {σ : Setting} {w : W} {D D' : Json → Prop}
  {r r' : Recursion}

open Gen

section Registry

variable {α β : Type} {Q : α → β → Prop}

/-- Two outcomes that are compared: results of which `Q` holds, or failures that are put up with. -/
inductive Outcomes (R : Parallel W) (w : W) (Q : α → β → Prop) :
    Except SchemaError α → Except SchemaError β → Prop
  | ok {a : α} {b : β} (h : Q a b) : Outcomes R w Q (.ok a) (.ok b)
  | error {e e' : SchemaError} (h : ∀ s s', R.Aligned w s s' →
      R.terms.first e s ∨ R.terms.second e' s' ∨ R.terms.both e s e' s') :
      Outcomes R w Q (.error e) (.error e')

omit [Preorder W] in
theorem Outcomes.imp {Q' : α → β → Prop} {o : Except SchemaError α} {o' : Except SchemaError β}
    (h : R.Outcomes w Q o o') (hQ : ∀ a b, Q a b → Q' a b) : R.Outcomes w Q' o o' := by
  cases h with
  | ok h => exact .ok (hQ _ _ h)
  | error h => exact .error h

theorem withRegistry_run (x : Schema.WithRegistry α) (s : Generator) :
    withRegistry x σ s = ((x s.registry).1, { s with registry := (x s.registry).2 }) := by
  change (do set { s with registry := (x s.registry).2 }; liftM (x s.registry).1 : Gen α) σ s = _
  cases (x s.registry).1 <;> rfl

theorem load_run (name : String) (s : Generator) : load name σ s =
    ((σ.store.load name s.context s.registry).1,
      { s with registry := (σ.store.load name s.context s.registry).2 }) :=
  withRegistry_run (σ := σ) (σ.store.load name s.context) s

theorem follows_withRegistry {x : Schema.WithRegistry α} {y : Schema.WithRegistry β}
    (h : ∀ r r', R.Outcomes w Q (x r).1 (y r').1) :
    R.Follows σ w (withRegistry x) (withRegistry y) fun _ a b => Q a b := by
  intro s s' hs
  rw [withRegistry_run, withRegistry_run]
  have hxy := h s.registry s'.registry
  have hs' := hs.setRegistry (x s.registry).2 (y s'.registry).2
  revert hxy
  cases (x s.registry).1 <;> cases (y s'.registry).1 <;> intro hxy <;> cases hxy
  case error.error h => exact h _ _ hs'
  case ok.ok h => exact ⟨w, le_rfl, hs', h⟩

theorem follows_load {name : String} {Q : Json → Json → Prop}
    (h : ∀ c c' r r', R.contexts c c' →
      R.Outcomes w Q (σ.store.load name c r).1 (σ.store.load name c' r').1) :
    R.Follows σ w (load name) (load name) fun _ x y => Q x y := by
  intro s s' hs
  have hload := follows_withRegistry (σ := σ) (fun r r' => h s.context s'.context r r' hs.contexts) s s' hs
  rw [withRegistry_run, withRegistry_run] at hload
  rw [load_run, load_run]
  exact hload

end Registry

section Guard

/-- What two runs can rely on when they look for the guard of a branch. `G` holds of the documents that
come up, with the number of names that may still be followed. -/
structure GuardRules (R : Parallel W) (σ : Setting) (G : Nat → Json → Prop) : Prop where
  null : R.guard .isNull
  value : ∀ {x name}, valueType? x = some name → R.guard (.hasType name)
  object : ∀ {bound x g}, G bound x → guardOfObject x = .ok g → R.guard g
  load : ∀ {w bound name}, G (bound + 1) (.str name) → σ.store.contains name = true →
    R.Follows σ w (load name) (load name) fun _ x y => x.Alike y ∧ G bound x
  exhausted : ∀ {w s s' x}, G 0 x → R.Aligned w s s' → R.terms.both .endless s .endless s'

variable {G : Nat → Json → Prop}

theorem follows_guardIn (hR : R.Lenient) (hrules : R.GuardRules σ G) {bound : Nat} {x y : Json}
    (hx : G bound x) (halike : x.Alike y) :
    R.Follows σ w (guardIn bound x) (guardIn bound y) fun _ g g' => g = g' ∧ R.guard g :=
  (R.judgement σ hR).guardIn (G := fun bound x y => x.Alike y ∧ G bound x)
    ⟨fun hxy => stable_of_alike hxy.1, ⟨rfl, hrules.null⟩, fun hname => ⟨rfl, hrules.value hname⟩,
      fun hxy hg => ⟨rfl, hrules.object hxy.2 hg⟩, fun hname => hrules.load hname.2,
      fun hxy _ _ hs => .inr (.inr (hrules.exhausted hxy.2 hs))⟩ ⟨halike, hx⟩

theorem follows_guardOf (hR : R.Lenient) (hrules : R.GuardRules σ G) {x : Json}
    (hx : G (σ.store.database.length + 2) x) :
    R.Follows σ w (guardOf x) (guardOf x) fun _ g g' => g = g' ∧ R.guard g :=
  Follows.bind_read (follows_guardIn hR hrules hx (.refl x))

end Guard

end Parallel

/-- The parts of a routine but for the routines that it takes up. -/
structure Draft where
  writerDeclarations : List String
  writer : Encoder
  readerDeclarations : List String
  reader : Decoder

def Draft.complete (m : Draft) (helpers : List (String × Routine)) : Routine :=
  .mk m.writerDeclarations m.writer m.readerDeclarations m.reader helpers

namespace Gen

/-- What comes of a schema before the routines that are waiting are taken up. -/
def draft (r : Recursion) (schema : Json) : Gen Draft := do
  modify fun s => { s with ready := true }
  let parsed ← withRegistry (Schema.parseOpen schema)
  let writer ← r.encode parsed (.of "data")
  let writerDeclarations ← takeDeclarations
  let reader ← r.decode parsed (.of "data")
  let readerDeclarations ← takeDeclarations
  return ⟨writerDeclarations, writer, readerDeclarations, reader⟩

theorem routine_eq (r : Recursion) (schema : Json) : routine r schema = do
    let m ← draft r schema
    let s ← get
    set { s with helpers := [] }
    return m.complete s.helpers := by
  simp only [routine, draft, bind_assoc, pure_bind]
  rfl

theorem handle_eq (r : Recursion) (name : String) : handle r name = (do
    modify fun s => { s with handled := s.handled ++ [name] }
    let m ← load name >>= draft r
    modify fun s => { s with helpers := [(name, m.complete s.helpers)] }) := by
  simp only [handle, routine_eq, bind_assoc, pure_bind]
  rfl

end Gen

namespace Parallel

variable {W : Type} [Preorder W] {R : Parallel W} {σ : Setting} {w : W} {D X : Json → Prop} {r r' : Recursion}
  {d d' : Json}

open Gen

/-- What is known of a routine's code, made from a schema of which `X` holds. -/
structure Fits (R : Parallel W) (X : Json → Prop) (w : W) (m : Draft) : Prop where
  exists_schema : ∃ x, X x ∧ R.encoder w x (.of "data") m.writer ∧ R.decoder w x (.of "data") m.reader
  writerLines : ∀ l ∈ m.writerDeclarations, R.line l
  readerLines : ∀ l ∈ m.readerDeclarations, R.line l

theorem follows_takeDeclarations :
    R.Follows σ w takeDeclarations takeDeclarations fun _ ls ls' => ls = ls' ∧ ∀ l ∈ ls, R.line l := by
  intro s s' hs
  refine ⟨w, le_rfl, ?_, hs.congr (f := Generator.declarations) fun _ => rfl, hs.lines⟩
  exact hs.update (f := fun s => { s with declarations := [] }) (fun _ => rfl) (fun _ => rfl)
    (fun _ h => absurd h List.not_mem_nil) (fun _ => rfl) fun _ => rfl

theorem follows_draft (hm : R.Matches σ D r r')
    (hencoder : ∀ {w w' d p a}, w ≤ w' → R.encoder w d p a → R.encoder w' d p a)
    (hdecoder : ∀ {w w' d p a}, w ≤ w' → R.decoder w d p a → R.decoder w' d p a) (hX : ∀ {x}, X x → D x)
    (hparse : ∀ g g', R.Outcomes w (fun x y => x.Alike y ∧ X x)
      (Schema.parseOpen d g).1 (Schema.parseOpen d' g').1) :
    R.Follows σ w (draft r d) (draft r' d') fun w m m' => m = m' ∧ R.Fits X w m := by
  refine Follows.bind_ok fun s s' hs => ⟨(), _, (), _, rfl, rfl, ?_, ?_⟩
  · exact hs.update (f := fun s => { s with ready := true }) (fun _ => rfl) (fun _ => rfl) hs.lines
      (fun _ => rfl) fun _ => rfl
  · refine (follows_withRegistry hparse).bind ?_
    rintro w₁ x y - ⟨hxy, hx⟩
    refine (hm.encode (hX hx) hxy).bind ?_
    rintro w₂ writer _ hw₂ ⟨rfl, hwriter⟩
    refine follows_takeDeclarations.bind ?_
    rintro w₃ wd _ hw₃ ⟨rfl, hwd⟩
    refine (hm.decode (hX hx) hxy).bind ?_
    rintro w₄ reader _ hw₄ ⟨rfl, hreader⟩
    refine follows_takeDeclarations.bind ?_
    rintro w₅ rd _ hw₅ ⟨rfl, hrd⟩
    have hw : w₂ ≤ w₅ := hw₃.trans (hw₄.trans hw₅)
    exact Follows.pure ⟨rfl, ⟨x, hx, hencoder hw hwriter, hdecoder hw₅ hreader⟩, hwd, hrd⟩

theorem compares_routine (h : R.Follows σ w (draft r d) (draft r' d') fun w m m' => m = m' ∧ R.Fits X w m) :
    Compares R.terms (R.Aligned w) (routine r d σ) (routine r' d' σ) fun a t b t' =>
      a = b ∧ t.core = t'.core ∧ t.helpers = [] ∧ ∃ w' m helpers, w ≤ w' ∧ a = m.complete helpers ∧
        R.Fits X w' m ∧ R.held w' t.handled helpers := by
  rw [routine_eq, routine_eq]
  refine Compares.bind h fun m m' => ?_
  rintro t t' ⟨w', hw', ht, rfl, hfits⟩
  have hhelpers : t.helpers = t'.helpers := ht.congr fun _ => rfl
  have hcore := congrArg (fun c : Generator => { c with helpers := [] }) ht.core
  exact ⟨congrArg m.complete hhelpers, hcore, rfl, w', m, t.helpers, hw', rfl, hfits, ht.held⟩

def holding (R : Parallel W) (held : W → List String → List (String × Routine) → Prop) : Parallel W :=
  { R with held }

/-- Meeting a recursive type follows, if making its routine does under the condition `held` that holds
when the routine has been begun. -/
theorem follows_meet (held : W → List String → List (String × Routine) → Prop) (X : Json → Prop)
    {name : String} (hknown : ∀ {handled helpers}, R.held w handled helpers → name ∈ handled →
      R.met w name)
    (hbegin : ∀ {handled helpers}, R.held w handled helpers → name ∉ handled →
      ∃ w₁, w ≤ w₁ ∧ held w₁ (handled ++ [name]) helpers)
    (hmake : ∀ {w₁ handled helpers}, w ≤ w₁ → held w₁ handled helpers →
      (R.holding held).Follows σ w₁ (load name >>= draft r) (load name >>= draft r') fun w m m' =>
        m = m' ∧ (R.holding held).Fits X w m)
    (hfinish : ∀ {w₂ m handled helpers}, w ≤ w₂ → (R.holding held).Fits X w₂ m →
      held w₂ handled helpers → R.held w₂ handled [(name, m.complete helpers)] ∧ R.met w₂ name) :
    R.Follows σ w (meet r name) (meet r' name) fun w _ _ => R.met w name := by
  intro s s' hs
  have hhandled : s.handled = s'.handled := hs.congr fun _ => rfl
  have hrun : ∀ (r : Recursion) (s : Generator), meet r name σ s =
      if !s.handled.contains name then handle r name σ s else (.ok (), s) := by
    intro r s
    change (if !s.handled.contains name then handle r name else pure () : Gen Unit) σ s = _
    split_ifs <;> rfl
  rw [hrun, hrun, ← hhandled]
  split_ifs with hnew
  · rw [Bool.not_eq_true', List.contains_eq_mem, decide_eq_false_iff_not] at hnew
    obtain ⟨w₁, hw₁, hheld⟩ := hbegin hs.held hnew
    rw [handle_eq, handle_eq]
    have hstart : (R.holding held).Aligned w₁ { s with handled := s.handled ++ [name] }
        { s' with handled := s'.handled ++ [name] } := by
      refine ⟨hs.contexts, ?_, hs.lines, hheld⟩
      exact congrArg (fun c : Generator => { c with handled := c.handled ++ [name] }) hs.core
    refine Compares.bind (hmake hw₁ hheld) (fun m m' => ?_) _ _ hstart
    rintro t t' ⟨w₂, hw₂, ht, rfl, hfits⟩
    obtain ⟨hheld', hmet⟩ := hfinish (hw₁.trans hw₂) hfits ht.held
    refine ⟨w₂, hw₁.trans hw₂, ⟨ht.contexts, ?_, ht.lines, hheld'⟩, hmet⟩
    exact congrArg (fun c : Generator => { c with helpers := [(name, m.complete c.helpers)] }) ht.core
  · rw [Bool.not_eq_true', Bool.not_eq_false, List.contains_eq_mem, decide_eq_true_eq] at hnew
    exact ⟨w, le_rfl, hs, hknown hs.held hnew⟩

end Parallel

end AvroCodec
