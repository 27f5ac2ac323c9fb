import AvroCodec.Proofs.ParallelRoutine

/-!
# One run of a generator

A run of a generator that is compared with itself loads the same definitions, whatever the registry knows,
and so the rules of a `Parallel` say what holds of all code that the run makes.

The second run may have visits: an action that is done at the beginning and at the end of every step. If
it does nothing in the states that the run goes through, then it has no influence on the run.
-/

namespace AvroCodec

open Code Schema

def Gen.visiting {α : Type} (visit : Gen Unit) (x : Gen α) : Gen α := do
  visit
  let a ← x
  visit
  return a

/-- Generating code with at most so many steps inside one another, and a visit before and after each. -/
def Recursion.visited (visit : Gen Unit) : Nat → Recursion
  | 0 => .upTo 0
  | steps + 1 =>
    { encode := fun schema place => Gen.visiting visit ((visited visit steps).next.encode schema place)
      decode := fun schema place => Gen.visiting visit ((visited visit steps).next.decode schema place) }

theorem Recursion.visited_pure (steps : Nat) : Recursion.visited (pure ()) steps = .upTo steps := by
  have hvisit : ∀ {α : Type} (x : Gen α), Gen.visiting (pure ()) x = x := fun x => by
    simp only [Gen.visiting, pure_bind, bind_pure]
  induction steps with
  | zero => rfl
  | succ steps ih =>
    rw [visited, upTo_succ, ih]
    simp only [hvisit]

namespace Parallel

variable {W : Type} [Preorder W] {R : Parallel W} {σ : Setting} {w : W} {D : Json → Prop}
  {r r' : Recursion}

open Gen

/-- Two runs in the same contexts, of which all failures are put up with. -/
structure Single (R : Parallel W) : Prop where
  both : ∀ e s e' s', R.terms.both e s e' s'
  contexts : ∀ {c c'}, R.contexts c c' ↔ c = c'

namespace Single

variable (hR : R.Single)
include hR

omit [Preorder W] in
theorem lenient : R.Lenient := fun _ _ _ => hR.both _ _ _ _

omit [Preorder W] in
theorem outcomes {α : Type} {Q : α → α → Prop} {o o' : Except SchemaError α} (h : o = o')
    (hQ : ∀ a, o = .ok a → Q a a) : R.Outcomes w Q o o' := by
  subst h
  cases o with
  | ok a => exact .ok (hQ a rfl)
  | error e => exact .error fun _ _ _ => .inr (.inr (hR.both _ _ _ _))

theorem follows_load (name : String) :
    R.Follows σ w (load name) (load name) fun _ x y => x = y ∧ σ.store.Loads name x := by
  refine Parallel.follows_load fun c c' q q' hcc' => ?_
  obtain rfl := hR.contexts.1 hcc'
  refine hR.outcomes ((Store.oblivious_load σ.store name c).outcome q q') fun x hx => ⟨rfl, c, q, ?_⟩
  exact ⟨_, Prod.ext hx rfl⟩

omit [Preorder W] in
theorem outcomes_parseOpen (d : Json) (q q' : Schema.Registry) :
    R.Outcomes w (fun x y => x = y ∧ x = normal d) (parseOpen d q).1
      (parseOpen d q').1 := by
  refine hR.outcomes (parseOpen_alike d q q') fun x hx => ⟨rfl, ?_⟩
  exact parseOpen_eq (Prod.ext hx rfl : parseOpen d q = (.ok x, _))

theorem follows_draft {X : Json → Prop} {d : Json} (hm : R.Matches σ D r r')
    (hencoder : R.EncoderRules σ D) (hdecoder : R.DecoderRules σ D) (hX : ∀ {x}, X x → D x)
    (hd : X (normal d)) :
    R.Follows σ w (draft r d) (draft r' d) fun w m m' => m = m' ∧ R.Fits X w m := by
  refine Parallel.follows_draft hm hencoder.mono hdecoder.mono hX fun q q' => ?_
  refine (hR.outcomes_parseOpen d q q').imp ?_
  rintro x _ ⟨rfl, rfl⟩
  exact ⟨.refl _, hd⟩

theorem follows_load_draft {name : String} (hm : R.Matches σ D r r') (hencoder : R.EncoderRules σ D)
    (hdecoder : R.DecoderRules σ D) (hX : ∀ {x}, σ.store.Loads name x → D (normal x)) :
    R.Follows σ w (load name >>= draft r) (load name >>= draft r') fun w m m' =>
      m = m' ∧ R.Fits (fun y => ∃ x, σ.store.Loads name x ∧ y = normal x) w m := by
  refine (hR.follows_load name).bind ?_
  rintro w' x _ - ⟨rfl, hx⟩
  refine hR.follows_draft hm hencoder hdecoder ?_ ⟨x, hx, rfl⟩
  rintro _ ⟨y, hy, rfl⟩
  exact hX hy

end Single

theorem follows_visiting {α : Type} {x y : Gen α} {Q : W → α → α → Prop} {visit : Gen Unit}
    (hvisit : ∀ {w s s'}, R.Aligned w s s' → visit σ s' = (.ok (), s')) (h : R.Follows σ w x y Q) :
    R.Follows σ w x (visiting visit y) Q := by
  have hlast : R.Follows σ w x (do let a ← y; visit; return a) Q := by
    rw [← bind_pure x]
    refine h.bind fun w' a b _ hab s s' hs => ?_
    have hrun : (do visit; return b : Gen α) σ s' = (.ok b, s') := Action.bind_of_ok (hvisit hs)
    rw [hrun]
    exact ⟨w', le_rfl, hs, hab⟩
  intro s s' hs
  have hrun : visiting visit y σ s' = (do let a ← y; visit; return a : Gen α) σ s' :=
    Action.bind_of_ok (hvisit hs)
  rw [hrun]
  exact hlast s s' hs

/-- What a `Parallel` has to keep for one run. -/
structure SingleRules (R : Parallel W) (σ : Setting) (D : Json → Prop) : Prop extends R.Single where
  parts : ∀ {d x}, D d → x ∈ d.parts → D x
  loads : ∀ {d name x}, D d → d.Refers name → σ.store.Loads name x → D x
  line : ∀ {type kind n}, (type, kind) ∈ declared → R.line (declarationText type (variableName kind n))
  guardNull : R.guard .isNull
  guardValue : ∀ {x name}, valueType? x = some name → R.guard (.hasType name)
  guardObject : ∀ {x g}, D x → guardOfObject x = .ok g → R.guard g
  encoder : R.EncoderRules σ D
  decoder : R.DecoderRules σ D
  meet : ∀ {w d name r r'}, R.Matches σ D r r' → D d → d.Refers name → σ.store.isCycleStarting name = true →
    R.Follows σ w (meet r name) (meet r' name) fun w _ _ => R.met w name

namespace SingleRules

variable (hrules : R.SingleRules σ D)
include hrules

theorem follows_guardOf {x : Json} (hx : D x) :
    R.Follows σ w (guardOf x) (guardOf x) fun _ g g' => g = g' ∧ R.guard g := by
  refine Parallel.follows_guardOf (G := fun _ => D) hrules.lenient ?_ hx
  exact
    { null := hrules.guardNull
      value := hrules.guardValue
      object := hrules.guardObject
      load := fun {_ _ name} hd _ => (hrules.follows_load name).imp fun _ x y _ h =>
        ⟨h.1 ▸ .refl x, hrules.loads hd (.inl rfl) h.2⟩
      exhausted := fun _ _ => hrules.both _ _ _ _ }

/-- Every step of a run keeps to the rules. -/
theorem matches_visited (visit : Gen Unit)
    (hdotted : ∀ {name}, σ.store.contains name = true → hasDot name = true)
    (hvisit : ∀ {w s s'}, R.Aligned w s s' → visit σ s' = (.ok (), s')) (steps : Nat) :
    R.Matches σ D (.upTo steps) (.visited visit steps) := by
  induction steps with
  | zero =>
    exact ⟨fun _ _ => Tracks.throw fun _ _ _ => hrules.both _ _ _ _,
      fun _ _ => Tracks.throw fun _ _ _ => hrules.both _ _ _ _⟩
  | succ steps ih =>
    have hp : R.Premises σ D D (.upTo steps) (.visited visit steps) :=
      { lenient := hrules.lenient
        contexts := fun _ => hrules.contexts.2 rfl
        dotted := hdotted
        parts := hrules.parts
        load := fun {_ _ name} hd hname _ => (hrules.follows_load name).imp fun _ x y _ h =>
          ⟨h.1 ▸ .refl x, h.2, fun _ => hrules.loads hd hname h.2⟩
        meet := hrules.meet ih
        guard := hrules.follows_guardOf
        line := hrules.line
        inner := ih }
    have hnext := Matches.next D hp hrules.encoder hrules.decoder
    exact ⟨fun hd halike => follows_visiting hvisit (hnext.encode hd halike),
      fun hd halike => follows_visiting hvisit (hnext.decode hd halike)⟩

end SingleRules

end Parallel

end AvroCodec
