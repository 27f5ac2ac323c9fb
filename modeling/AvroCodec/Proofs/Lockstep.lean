import AvroCodec.Proofs.Alike
import AvroCodec.Proofs.Bare
import Mathlib.Order.Basic

/-!
# Two generators in step

Two generators that make code for schemas of the same shape go through the same actions, be it at different
places, in different states or with different stores. A `Lockstep` tells something of two actions if it tells
it of the actions that they are made of. Facts may come up while the generators work: what is known is a `w`
of some order, and what is told of results stays true when more is known.

`Lockstep.Premises` is what the generators can rely on in one step, and `Lockstep.guardIn` is the first thing
that is carried through here: looking for the guard of a branch.
-/

namespace AvroCodec

open Code Json

/-- What is told apart of failures when they are compared. -/
inductive SchemaError.Family where
  | refused
  | unknownType
  | missing
  | wrongShape
  | noSuchAttribute
  | unsupported
  | failed
  | templatesNotReady
  | endless

def SchemaError.family : SchemaError → Family
  | .unnamed _ | .redefined _ | .scaleNotInteger _ | .precisionNotInteger _ | .aliasesNotList _ =>
    .refused
  | .unknownType _ => .unknownType
  | .missing _ => .missing
  | .wrongShape => .wrongShape
  | .noSuchAttribute => .noSuchAttribute
  | .unhandled _ | .severalArrays => .unsupported
  | .notStored _ | .nanoTime | .undistinguished _ => .failed
  | .templatesNotReady => .templatesNotReady
  | .endless => .endless

/-- A definition that a name may stand for. -/
def Store.Loads (store : Store) (name : String) (d : Json) : Prop :=
  ∃ context r r', store.load name context r = (.ok d, r')

/-- The types inside a schema that code is made for as they stand there. -/
inductive Json.Inner : Json → Json → Prop
  | items {d x : Json} (hlogical : d.get? "logicalType" = none) (htype : d.get? "type" = some (.str "array"))
      (h : d.get? "items" = some x) : Inner d x
  | values {d x : Json} (hlogical : d.get? "logicalType" = none) (htype : d.get? "type" = some (.str "map"))
      (h : d.get? "values" = some x) : Inner d x
  | type {d : Json} {ms : Members} (hlogical : d.get? "logicalType" = none)
      (h : d.get? "type" = some (.obj ms)) : Inner d (.obj ms)
  | option {d x : Json} {types : List Json} (hlogical : d.get? "logicalType" = none)
      (h : d.get? "type" = some (.arr types)) (hx : x ∈ types) : Inner d x
  | branch {x : Json} {types : List Json} (hx : x ∈ types) : Inner (.arr types) x

theorem Json.Inner.mem_parts {d x : Json} (h : d.Inner x) : x ∈ d.parts := by
  cases h with
  | items _ _ h => exact mem_parts_items h
  | values _ _ h => exact mem_parts_values h
  | type _ h => exact mem_parts_type h
  | option _ h hx => exact mem_parts_branch h hx
  | branch hx => exact hx

namespace Parallel

open Gen

variable {d x : Json} {key : String}

/-- The place that a type without further structure is at, which may be that of a field. -/
def ownPlace (d : Json) (p : Place) : Place :=
  if ((d.get? "name").getD .null).truthy then p.member ((d.get? "name").getD .null) else p

def logicalOf (kind : String) (base d : Json) : Logical :=
  { kind := Text.replaceAll "-" "_" kind, base, params := Logical.paramsOf d }

def declared : List (String × String) :=
  [("dict", "d_dict"), ("str", "key"), ("str", "type"), ("long long", "i"), ("unicode", "key"), ("long", "i")]

theorem need_ne_endless : d.need key ≠ .error .endless := by
  unfold need
  split
  · split <;> simp
  · simp

theorem needElements_ne_endless : d.needElements ≠ .error .endless := by
  unfold needElements
  split <;> simp

theorem get?_of_need (h : d.need key = .ok x) : d.get? key = some x := by
  unfold need at h
  split at h
  · split at h
    · cases h
      assumption
    · cases h
  · cases h

theorem fieldList_of_need {members : Members} {fields : Json} {elements : List Json}
    (hfields : (obj members).need "fields" = .ok fields) (h : fields.needElements = .ok elements) :
    Schema.fieldList members = elements := by
  refine Schema.fieldList_of_needElements ?_
  rw [Schema.need_eq_ok.1 hfields]
  exact h

theorem exists_members_of_need {xs : List Json} (h : d.need "fields" >>= needElements = .ok xs) :
    ∃ ms, d = .obj ms ∧ Schema.fieldList ms = xs := by
  cases hfields : d.need "fields" with
  | error e => simp [hfields, Bind.bind, Except.bind] at h
  | ok fields =>
    rw [hfields] at h
    cases d with
    | obj ms => exact ⟨ms, rfl, fieldList_of_need hfields h⟩
    | _ => cases hfields

theorem mem_of_inTrialOrder {types : List Json} {t : Json × Nat} (h : t ∈ inTrialOrder types) :
    t.1 ∈ types := by
  unfold inTrialOrder at h
  rcases List.mem_append.1 h with h | h
  · split_ifs at h with hnull
    · obtain ⟨u, hu, hsame⟩ := List.any_eq_true.1 hnull
      cases same_str_iff.1 hsame
      rw [List.mem_singleton.1 h]
      exact hu
    · cases h
  · obtain ⟨u, hu, rfl⟩ := List.mem_map.1 h
    exact (List.mem_filter.1 hu).1

def stableKeys : List String :=
  ["type", "name", "logicalType", "items", "values", "symbols", "scale", "size", "precision"]

/-- Two schemas that are gone through in the same way. -/
structure Stable (d d' : Json) : Prop where
  shape : d = d' ∨ ∃ ms ms', d = .obj ms ∧ d' = .obj ms'
  get? : ∀ {key}, key ∈ stableKeys → d'.get? key = d.get? key

namespace Stable

variable {d d' : Json} (h : Stable d d')
include h

theorem need {key : String} (hkey : key ∈ stableKeys) : d'.need key = d.need key := by
  rcases h.shape with rfl | ⟨ms, ms', rfl, rfl⟩
  · rfl
  · rw [need, need, show lookup key ms' = lookup key ms from h.get? hkey]

theorem inner {x : Json} (hx : d.Inner x) : d'.Inner x := by
  cases hx with
  | items hlogical htype hx =>
    exact .items ((h.get? (by decide)).trans hlogical) ((h.get? (by decide)).trans htype)
      ((h.get? (by decide)).trans hx)
  | values hlogical htype hx =>
    exact .values ((h.get? (by decide)).trans hlogical) ((h.get? (by decide)).trans htype)
      ((h.get? (by decide)).trans hx)
  | type hlogical htype => exact .type ((h.get? (by decide)).trans hlogical) ((h.get? (by decide)).trans htype)
  | option hlogical htype hx =>
    exact .option ((h.get? (by decide)).trans hlogical) ((h.get? (by decide)).trans htype) hx
  | branch hx =>
    rcases h.shape with rfl | ⟨_, _, hd, -⟩
    · exact .branch hx
    · cases hd

theorem ownPlace (p : Place) : Parallel.ownPlace d' p = Parallel.ownPlace d p := by
  rw [Parallel.ownPlace, Parallel.ownPlace, h.get? (by decide)]

theorem paramsOf : Logical.paramsOf d' = Logical.paramsOf d := by
  unfold Logical.paramsOf Logical.scaleAndSize
  rw [h.get? (by decide), h.get? (by decide), h.get? (by decide)]

theorem guardOfObject : guardOfObject d = guardOfObject d' ∨
    guardOfObject d = .error (.undistinguished d) ∧ guardOfObject d' = .error (.undistinguished d') := by
  unfold Gen.guardOfObject Logical.forTest Logical.scaleAndSize
  rw [h.get? (show "type" ∈ stableKeys by decide), h.get? (show "logicalType" ∈ stableKeys by decide),
    h.get? (show "scale" ∈ stableKeys by decide), h.get? (show "size" ∈ stableKeys by decide),
    h.need (show "symbols" ∈ stableKeys by decide), h.need (show "type" ∈ stableKeys by decide),
    h.need (show "logicalType" ∈ stableKeys by decide)]
  split <;> try exact .inl rfl
  split <;> try exact .inl rfl
  all_goals
    cases d.need "type" with
    | error e => exact .inl rfl
    | ok type =>
      cases htype : type.isStr "record"
      · refine .inr ⟨?_, ?_⟩ <;> simp [htype, Bind.bind, Except.bind, MonadExcept.throw, throwThe, MonadExceptOf.throw]
      · exact .inl (by simp [htype, Bind.bind, Except.bind])

end Stable

theorem stable_of_alike {d' : Json} (h : d.Alike d') : Stable d d' where
  shape := by
    rcases alike_cases h with rfl | ⟨ms, ms', rfl, rfl, -⟩
    · exact .inl rfl
    · exact .inr ⟨ms, ms', rfl, rfl⟩
  get? hkey := by
    refine (h.get? ?_).symm
    rintro rfl
    exact absurd hkey (by decide)

theorem guardOfObject_ne_endless : guardOfObject x ≠ .error .endless := by
  have hkind : ∀ {k : Json}, Logical.kindOf k ≠ .error .endless := by
    intro k
    unfold Logical.kindOf
    split <;> simp
  have hbind : ∀ {α β : Type} {o : Except SchemaError α} {f : α → Except SchemaError β},
      o ≠ .error .endless → (∀ a, f a ≠ .error .endless) → o >>= f ≠ .error .endless := by
    intro α β o f ho hf
    cases o with
    | ok a => exact hf a
    | error e => exact fun h => ho (by cases h; rfl)
  unfold guardOfObject Logical.forTest
  split
  · simp [pure, Except.pure]
  · simp [pure, Except.pure]
  · simp [pure, Except.pure]
  · exact hbind need_ne_endless fun _ => by simp [pure, Except.pure]
  · split
    · exact hbind need_ne_endless fun _ => by split_ifs <;> simp [pure, Except.pure, throw, throwThe,
        MonadExceptOf.throw]
    · exact hbind need_ne_endless fun _ => by split_ifs <;> simp [pure, Except.pure, throw, throwThe,
        MonadExceptOf.throw]
    · exact hbind (hbind need_ne_endless fun _ => hbind hkind fun _ => hbind need_ne_endless fun _ => by
        simp [pure, Except.pure]) fun _ => by simp [pure, Except.pure]

end Parallel

/-- The actions that draw a variable, by its kind. -/
inductive Gen.Fresh : String → Gen String → Prop
  | map : Fresh "d_dict" Gen.freshMap
  | value : Fresh "val" Gen.freshValue
  | key : Fresh "key" Gen.freshKey
  | tag : Fresh "type" Gen.freshTag
  | integer : Fresh "i" Gen.freshInteger

/-- The numbers of the variables that a generator draws next. -/
structure Counters where
  maps : Nat
  values : Nat
  keys : Nat
  tags : Nat
  integers : Nat

def Generator.counters (s : Generator) : Counters := ⟨s.maps, s.values, s.keys, s.tags, s.integers⟩

def Generator.count (s : Generator) (c : Counters) : Generator :=
  { s with maps := c.maps, values := c.values, keys := c.keys, tags := c.tags, integers := c.integers }

namespace Counters

def number (c : Counters) : String → Nat
  | "d_dict" => c.maps
  | "val" => c.values
  | "key" => c.keys
  | "type" => c.tags
  | _ => c.integers

instance : Preorder Counters := Preorder.lift number

theorem le_of_le {c c' : Counters} (hmaps : c.maps ≤ c'.maps) (hvalues : c.values ≤ c'.values)
    (hkeys : c.keys ≤ c'.keys) (htags : c.tags ≤ c'.tags) (hintegers : c.integers ≤ c'.integers) : c ≤ c' := by
  intro kind
  unfold number
  split <;> assumption

/-- The counters before and after a variable of a kind is drawn, with its number. -/
structure Drew (kind : String) (c c' : Counters) (n : Nat) : Prop where
  le : c ≤ c'
  eq : n = c.number kind
  next : c'.number kind = n + 1

end Counters

theorem Gen.Fresh.exists_count {kind : String} {x : Gen String} (h : Gen.Fresh kind x) :
    ∃ (n : Counters → Nat) (u : Counters → Counters), (∀ c, Counters.Drew kind c (u c) (n c)) ∧
      ∀ σ s, x σ s = (.ok (Gen.variableName kind (n s.counters)), s.count (u s.counters)) := by
  cases h with
  | map =>
    exact ⟨Counters.maps, fun c => { c with maps := c.maps + 1 },
      fun c => ⟨by apply Counters.le_of_le <;> simp, rfl, rfl⟩, fun _ _ => rfl⟩
  | value =>
    exact ⟨Counters.values, fun c => { c with values := c.values + 1 },
      fun c => ⟨by apply Counters.le_of_le <;> simp, rfl, rfl⟩, fun _ _ => rfl⟩
  | key =>
    exact ⟨Counters.keys, fun c => { c with keys := c.keys + 1 },
      fun c => ⟨by apply Counters.le_of_le <;> simp, rfl, rfl⟩, fun _ _ => rfl⟩
  | tag =>
    exact ⟨Counters.tags, fun c => { c with tags := c.tags + 1 },
      fun c => ⟨by apply Counters.le_of_le <;> simp, rfl, rfl⟩, fun _ _ => rfl⟩
  | integer =>
    exact ⟨Counters.integers, fun c => { c with integers := c.integers + 1 },
      fun c => ⟨by apply Counters.le_of_le <;> simp, rfl, rfl⟩, fun _ _ => rfl⟩

/-- What is told of two lists of actions and their results, one by one. -/
inductive Rows {ι κ α β : Type} (R : ι → κ → α → β → Prop) : List ι → List κ → List α → List β → Prop
  | nil : Rows R [] [] [] []
  | cons {i k a b is ks as bs} (h : R i k a b) (hrest : Rows R is ks as bs) :
      Rows R (i :: is) (k :: ks) (a :: as) (b :: bs)

namespace Rows

variable {ι κ α β : Type} {R : ι → κ → α → β → Prop} {is : List ι} {ks : List κ} {as : List α} {bs : List β}

theorem results {S : α → β → Prop} (h : Rows R is ks as bs) (hR : ∀ {i k a b}, R i k a b → S a b) :
    List.Forall₂ S as bs := by
  induction h with
  | nil => exact .nil
  | cons h _ ih => exact .cons (hR h) ih

theorem exists_of_mem (h : Rows R is ks as bs) {a : α} (ha : a ∈ as) : ∃ i k b, R i k a b := by
  induction h with
  | nil => cases ha
  | cons h _ ih =>
    rcases List.mem_cons.1 ha with rfl | ha
    · exact ⟨_, _, _, h⟩
    · exact ih ha

theorem firsts (h : Rows R is ks as bs) : List.Forall₂ (fun i a => ∃ k b, R i k a b) is as := by
  induction h with
  | nil => exact .nil
  | cons h _ ih => exact .cons ⟨_, _, h⟩ ih

theorem same {R : ι → κ → α → α → Prop} {bs : List α} {S : ι → α → Prop} (h : Rows R is ks as bs)
    (hR : ∀ {i k a b}, R i k a b → a = b ∧ S i a) : as = bs ∧ List.Forall₂ S is as := by
  induction h with
  | nil => exact ⟨rfl, .nil⟩
  | cons h _ ih =>
    obtain ⟨rfl, ha⟩ := hR h
    obtain ⟨rfl, has⟩ := ih
    exact ⟨rfl, .cons ha has⟩

end Rows

/-- What is told of two lists of actions that are done one after the other, with what is known before and after each. -/
inductive Chain {W ι κ α β : Type} [LE W] (R : W → W → ι → κ → α → β → Prop) :
    W → W → List ι → List κ → List α → List β → Prop
  | nil {w} : Chain R w w [] [] [] []
  | cons {w w₁ w₂ i k a b is ks as bs} (hw : w ≤ w₁) (h : R w w₁ i k a b) (hrest : Chain R w₁ w₂ is ks as bs) :
      Chain R w w₂ (i :: is) (k :: ks) (a :: as) (b :: bs)

namespace Chain

variable {W ι κ α β : Type} [Preorder W] {R : W → W → ι → κ → α → β → Prop} {w w' : W} {is : List ι} {ks : List κ}
  {as : List α} {bs : List β}

theorem le (h : Chain R w w' is ks as bs) : w ≤ w' := by
  induction h with
  | nil => exact le_rfl
  | cons hw _ _ ih => exact hw.trans ih

theorem rows {S : ι → κ → α → β → Prop} (h : Chain R w w' is ks as bs)
    (hR : ∀ {w₁ w₂ i k a b}, w ≤ w₁ → w₂ ≤ w' → R w₁ w₂ i k a b → S i k a b) : Rows S is ks as bs := by
  induction h with
  | nil => exact .nil
  | cons hw h hrest ih => exact .cons (hR le_rfl hrest.le h) (ih fun hw' => hR (hw.trans hw'))

theorem firsts {S : ι → α → Prop} (h : Chain R w w' is ks as bs)
    (hR : ∀ {w₁ w₂ i k a b}, w ≤ w₁ → R w₁ w₂ i k a b → S i a) : List.Forall₂ S is as :=
  (h.rows (S := fun i _ a _ => S i a) fun hw _ => hR hw).firsts.imp fun _ _ ⟨_, _, h⟩ => h

end Chain

/-- Settings that tell the same of names. -/
structure Setting.Resembles (σ σ' : Setting) : Prop where
  contains : ∀ name, σ'.store.contains name = σ.store.contains name
  cycles : ∀ name, σ'.store.isCycleStarting name = σ.store.isCycleStarting name
  extended : σ'.extended = σ.extended

theorem Setting.Resembles.refl (σ : Setting) : σ.Resembles σ := ⟨fun _ => rfl, fun _ => rfl, rfl⟩

instance unitPreorder : Preorder Unit where
  le _ _ := True
  lt _ _ := False
  le_refl _ := trivial
  le_trans _ _ _ _ _ := trivial
  lt_iff_le_not_ge _ _ := iff_of_false id fun h => h.2 trivial

/-- Something that is told of two actions, each of a generator with a setting of its own. -/
structure Judgement (W : Type) [Preorder W] (σ σ' : Setting) where
  holds : {α β : Type} → W → Gen α → Gen β → (W → α → β → Prop) → Prop
  resembles : σ.Resembles σ'
  of_eq : ∀ {α β : Type} {w} {x x' : Gen α} {y y' : Gen β} {Q : W → α → β → Prop}, holds w x' y' Q →
    x σ = x' σ → y σ' = y' σ' → holds w x y Q
  pure : ∀ {α β : Type} {w} {a : α} {b : β} {Q : W → α → β → Prop}, Q w a b →
    holds w (Pure.pure a) (Pure.pure b) Q
  throw : ∀ {α β : Type} {w} {e e' : SchemaError} {Q : W → α → β → Prop}, e.family = e'.family → e ≠ .endless →
    holds w (MonadExcept.throw e) (MonadExcept.throw e') Q
  bind : ∀ {α β γ δ : Type} {w} {x : Gen α} {y : Gen β} {f : α → Gen γ} {g : β → Gen δ} {Q : W → α → β → Prop}
    {S : W → γ → δ → Prop}, holds w x y Q → (∀ w' a b, w ≤ w' → Q w' a b → holds w' (f a) (g b) S) →
    holds w (x >>= f) (y >>= g) S

namespace Judgement

variable {W : Type} [Preorder W] {σ σ' : Setting} (J : Judgement W σ σ') {α β γ δ ι κ : Type} {w : W} {x : Gen α}
  {y : Gen β} {Q : W → α → β → Prop} {S : W → γ → δ → Prop} {is : List ι} {f : ι → Gen α}

open Gen Parallel

theorem imp {Q' : W → α → β → Prop} (h : J.holds w x y Q) (hQ : ∀ w' a b, w ≤ w' → Q w' a b → Q' w' a b) :
    J.holds w x y Q' := by
  rw [← bind_pure x, ← bind_pure y]
  exact J.bind h fun w' a b hw hab => J.pure (hQ w' a b hw hab)

theorem bind_unit {x y : Gen Unit} {f : Unit → Gen γ} {g : Unit → Gen δ} (h : J.holds w x y fun _ _ _ => True)
    (hf : ∀ w', w ≤ w' → J.holds w' (f ()) (g ()) S) : J.holds w (x >>= f) (y >>= g) S :=
  J.bind h fun w' _ _ hw _ => hf w' hw

theorem bind_lift {o : Except SchemaError α} {f : α → Gen γ} {g : α → Gen δ} (h : o ≠ .error .endless)
    (hf : ∀ a, o = .ok a → J.holds w (f a) (g a) S) : J.holds w (liftM o >>= f) (liftM o >>= g) S := by
  cases o with
  | ok a => exact hf a rfl
  | error e => exact J.throw rfl fun he => h (he ▸ rfl)

theorem bind_read {f : Setting → Gen γ} {g : Setting → Gen δ} (h : J.holds w (f σ) (g σ') S) :
    J.holds w (read >>= f) (read >>= g) S :=
  J.of_eq h rfl rfl

theorem mapM {P : ι → κ → Prop} {R : W → W → ι → κ → α → β → Prop} {g : κ → Gen β} {ks : List κ}
    (h : List.Forall₂ P is ks) (hf : ∀ w' i k, w ≤ w' → P i k → J.holds w' (f i) (g k) fun w'' => R w' w'' i k) :
    J.holds w (is.mapM f) (ks.mapM g) fun w' => Chain R w w' is ks := by
  induction h generalizing w with
  | nil => exact J.pure .nil
  | cons hik _ ih =>
    rw [List.mapM_cons, List.mapM_cons]
    refine J.bind (hf w _ _ le_rfl hik) fun w₁ a b hw₁ hab => ?_
    refine J.bind (ih fun w' i k hw' => hf w' i k (hw₁.trans hw')) fun w₂ as bs _ habs => ?_
    exact J.pure (.cons hw₁ hab habs)

theorem mapM_same {R : W → W → ι → α → β → Prop} {g : ι → Gen β}
    (hf : ∀ w' i, w ≤ w' → i ∈ is → J.holds w' (f i) (g i) fun w'' => R w' w'' i) :
    J.holds w (is.mapM f) (is.mapM g) fun w' =>
      Chain (fun w w' i k a b => (i = k ∧ i ∈ is) ∧ R w w' i a b) w w' is is := by
  refine J.mapM (P := fun i k => i = k ∧ i ∈ is) (List.forall₂_same.2 fun i hi => ⟨rfl, hi⟩) ?_
  rintro w' i _ hw ⟨rfl, hi⟩
  exact J.imp (hf w' i hw hi) fun _ _ _ _ hab => ⟨⟨rfl, hi⟩, hab⟩

/-- What the generators can rely on when they look for the guards of two branches. `G` holds of the documents that come
up, with the number of names that may still be followed. -/
structure GuardRules (G : Nat → Json → Json → Prop) (guard : Guard → Guard → Prop) : Prop where
  stable : ∀ {bound x y}, G bound x y → Stable x y
  null : guard .isNull .isNull
  value : ∀ {x name}, valueType? x = some name → guard (.hasType name) (.hasType name)
  object : ∀ {bound x y g}, G bound x y → guardOfObject x = .ok g → guard g g
  load : ∀ {w bound name}, G (bound + 1) (.str name) (.str name) → σ.store.contains name = true →
    J.holds w (Gen.load name) (Gen.load name) fun _ => G bound
  exhausted : ∀ {w x y}, G 0 x y →
    J.holds w (MonadExcept.throw .endless) (MonadExcept.throw .endless) fun _ => guard

theorem guardIn {G : Nat → Json → Json → Prop} {guard : Guard → Guard → Prop} (h : J.GuardRules G guard)
    {bound : Nat} {x y : Json} (hxy : G bound x y) :
    J.holds w (Gen.guardIn bound x) (Gen.guardIn bound y) fun _ => guard := by
  induction bound generalizing w x y with
  | zero => exact h.exhausted hxy
  | succ bound ih =>
    have hobject : J.holds w (liftM (guardOfObject x)) (liftM (guardOfObject y)) fun _ => guard := by
      rcases (h.stable hxy).guardOfObject with heq | ⟨hx, hy⟩
      · rw [← heq, ← bind_pure (liftM _)]
        exact J.bind_lift guardOfObject_ne_endless fun g hg => J.pure (h.object hxy hg)
      · rw [hx, hy]
        exact J.throw rfl (by simp)
    rcases (h.stable hxy).shape with rfl | ⟨ms, ms', rfl, rfl⟩
    · unfold Gen.guardIn
      split
      next => exact J.pure h.null
      next name hname => exact J.pure (h.value hname)
      next =>
        split
        next => exact hobject
        next name =>
          refine J.bind_read ?_
          rw [J.resembles.contains]
          split_ifs with hstored
          · exact J.bind (h.load hxy hstored) fun w' x y _ hxy => ih hxy
          · exact J.throw rfl (by simp)
        next => exact J.throw rfl (by simp)
    · exact hobject

end Judgement

/-- Two generators that go in step: a judgement of the actions that draw variables and change contexts. -/
structure Lockstep (W : Type) [Preorder W] (σ σ' : Setting) extends Judgement W σ σ' where
  /-- Of the contexts that the generators are in. -/
  contexts : String → String → Prop
  /-- Of the numbers of the variables of a kind that they draw, with what is known before and after. -/
  drawn : W → W → String → Nat → Nat → Prop
  stored : ∀ {name}, σ.store.contains name = true → contexts name name
  draw : ∀ {γ δ : Type} {w kind x} {f : String → Gen γ} {g : String → Gen δ} {S : W → γ → δ → Prop},
    Gen.Fresh kind x →
    (∀ w' m n, w ≤ w' → drawn w w' kind m n →
      holds w' (f (Gen.variableName kind m)) (g (Gen.variableName kind n)) S) →
    holds w (x >>= f) (x >>= g) S
  declare : ∀ {w w₁ w₂ type kind m n}, (type, kind) ∈ Parallel.declared → drawn w₁ w₂ kind m n →
    holds w (Gen.declare type (Gen.variableName kind m)) (Gen.declare type (Gen.variableName kind n))
      fun _ _ _ => True
  requireReady : ∀ {w}, holds w Gen.requireReady Gen.requireReady fun _ _ _ => True
  get : ∀ {w}, holds w (MonadState.get : Gen Generator) MonadState.get fun _ s s' => contexts s.context s'.context
  setContext : ∀ {w c c'}, contexts c c' → holds w (Gen.setContext c) (Gen.setContext c') fun _ _ _ => True

namespace Lockstep

variable {W : Type} [Preorder W] {σ σ' : Setting} (J : Lockstep W σ σ') {α β γ δ : Type} {w : W} {x : Gen α} {y : Gen β}
  {Q : W → α → β → Prop} {S : W → γ → δ → Prop} {f : Bool → Gen γ} {g : Bool → Gen δ}

open Gen Parallel

/-- A variable of a kind is drawn on the way from one to the other. -/
def Draws (w w' : W) (kind : String) (m n : Nat) : Prop :=
  ∃ w₁ w₂, w ≤ w₁ ∧ J.drawn w₁ w₂ kind m n ∧ w₂ ≤ w'

theorem bind_isStored {type : String}
    (h : ∀ b, (σ.store.contains type && !isBasic type) = b → J.holds w (f b) (g b) S) :
    J.holds w (isStored type >>= f) (isStored type >>= g) S :=
  J.of_eq (h _ rfl) rfl (by rw [← J.resembles.contains type]; rfl)

theorem bind_isRecursive {name : String}
    (h : ∀ b, (σ.store.isCycleStarting name && !isBasic name) = b → J.holds w (f b) (g b) S) :
    J.holds w (isRecursive name >>= f) (isRecursive name >>= g) S :=
  J.of_eq (h _ rfl) rfl (by rw [← J.resembles.cycles name]; rfl)

theorem within {c : String} (hc : σ.store.contains c = true) (h : ∀ w', w ≤ w' → J.holds w' x y Q)
    (hQ : ∀ {w w' a b}, w ≤ w' → Q w a b → Q w' a b) : J.holds w (Gen.within c x) (Gen.within c y) Q := by
  refine J.bind J.get fun w₁ s s' hw₁ hs => J.bind_unit (J.setContext (J.stored hc)) fun w₂ hw₂ => ?_
  refine J.bind (h w₂ (hw₁.trans hw₂)) fun w₃ a b _ hab => ?_
  exact J.bind_unit (J.setContext hs) fun w₄ hw₄ => J.pure (hQ hw₄ hab)

def FirstMayFail : Prop :=
  ∀ {α β : Type} {w} {y : Gen β} {Q : W → α → β → Prop} {e : SchemaError}, J.holds w (MonadExcept.throw e) y Q

def SecondMayFail : Prop :=
  ∀ {α β : Type} {w} {x : Gen α} {Q : W → α → β → Prop} {e : SchemaError}, J.holds w x (MonadExcept.throw e) Q

/-- What two generators can rely on when they make code for schemas of which `X` holds: `X'` holds of the types inside
them and of the definitions that they refer to, and recursive types are met. -/
structure Premises (X X' : Json → Json → Prop) (met : W → String → Prop) (r r' : Recursion) : Prop where
  fixed : σ.store.contains "fixed" = false
  stable : ∀ {d d'}, X d d' → Stable d d'
  part : ∀ {d d' x}, X d d' → d.Inner x → X' x x
  elements : ∀ {w d d'}, X d d' → d.get? "logicalType" = none → d.get? "type" = some (.str "record") →
    J.holds w (liftM (d.need "fields" >>= needElements)) (liftM (d'.need "fields" >>= needElements))
      fun w' xs ys => w' = w ∧ d.need "fields" >>= needElements = .ok xs ∧ List.Forall₂ X' xs ys
  load : ∀ {w d d' name}, X d d' → d.Refers name → σ.store.contains name = true →
    J.holds w (Gen.load name) (Gen.load name) fun _ x y =>
      σ.store.Loads name x ∧ (σ.store.isCycleStarting name = false → X' x y)
  meet : ∀ {w d d' name}, X d d' → d = .str name ∨ d.get? "type" = some (.str name) ∧ σ.store.contains name = true →
    isBasic name = false → σ.store.isCycleStarting name = true →
    J.holds w (Gen.meet r name) (Gen.meet r' name) fun w _ _ => met w name

namespace Premises

variable {J} {X X' : Json → Json → Prop} {met : W → String → Prop} {r r' : Recursion} {d d' : Json}
  (h : J.Premises X X' met r r')
include h

theorem bind_need {key : String} {f : Json → Gen γ} {g : Json → Gen δ} (hd : X d d') (hkey : key ∈ stableKeys)
    (hf : ∀ x, d.get? key = some x → d'.get? key = some x → J.holds w (f x) (g x) S) :
    J.holds w (liftM (d.need key) >>= f) (liftM (d'.need key) >>= g) S := by
  rw [(h.stable hd).need hkey]
  refine J.bind_lift need_ne_endless fun x hx => ?_
  exact hf x (get?_of_need hx) (((h.stable hd).get? hkey).trans (get?_of_need hx))

theorem bind_fields {f : List Json → Gen γ} {g : List Json → Gen δ} (hd : X d d')
    (hlogical : d.get? "logicalType" = none) (htype : d.get? "type" = some (.str "record"))
    (hf : ∀ xs ys, d.need "fields" >>= needElements = .ok xs → List.Forall₂ X' xs ys →
      J.holds w (f xs) (g ys) S) :
    J.holds w (do let fields ← (← d.need "fields").needElements; f fields)
      (do let fields ← (← d'.need "fields").needElements; g fields) S := by
  have hassoc : ∀ {ζ : Type} (d : Json) (f : List Json → Gen ζ),
      (do let fields ← (← d.need "fields").needElements; f fields) =
        (liftM (d.need "fields" >>= needElements) >>= f : Gen ζ) := by
    intro ζ d f
    cases d.need "fields" <;> rfl
  rw [hassoc, hassoc]
  refine J.bind (h.elements hd hlogical htype) ?_
  rintro _ xs ys - ⟨rfl, hxs, hxys⟩
  exact hf xs ys hxs hxys

theorem bind_logicalType {kind base : Json} {f : Logical → Gen γ} {g : Logical → Gen δ} (hd : X d d')
    (hf : ∀ s, kind = .str s → J.holds w (f (logicalOf s base d)) (g (logicalOf s base d)) S) :
    J.holds w (logicalType kind base d >>= f) (logicalType kind base d' >>= g) S := by
  unfold logicalType
  rw [(h.stable hd).paramsOf, bind_assoc, bind_assoc]
  refine J.bind_lift ?_ fun name hname => ?_
  · unfold Logical.kindOf
    split <;> simp
  · rw [bind_assoc, bind_assoc]
    refine J.bind_read ?_
    rw [J.resembles.extended]
    unfold Logical.kindOf at hname
    split at hname
    next s =>
      cases hname
      split_ifs
      · exact J.throw rfl (by simp)
      · exact hf s rfl
    next => cases hname

omit h in
/-- For schemas that are alike. -/
theorem of_alike (hX : ∀ {d d'}, X d d' → d.Alike d') (hpart : ∀ {d d' x}, X d d' → x ∈ d.parts → X' x x)
    (fixed : σ.store.contains "fixed" = false)
    (load : ∀ {w d d' name}, X d d' → d.Refers name → σ.store.contains name = true →
      J.holds w (Gen.load name) (Gen.load name) fun _ x y =>
        σ.store.Loads name x ∧ (σ.store.isCycleStarting name = false → X' x y))
    (meet : ∀ {w d d' name}, X d d' → d.Refers name → isBasic name = false → σ.store.isCycleStarting name = true →
      J.holds w (Gen.meet r name) (Gen.meet r' name) fun w _ _ => met w name) : J.Premises X X' met r r' where
  fixed := fixed
  stable hd := stable_of_alike (hX hd)
  part hd hx := hpart hd hx.mem_parts
  elements {w d d'} hd _ _ := by
    have hneed : d'.need "fields" = d.need "fields" := by
      rcases alike_cases (hX hd) with rfl | ⟨ms, ms', rfl, rfl, -, -, hms⟩
      · rfl
      · rw [need, need, lookup_eq_of_unmarkedMembers hms (by decide)]
    have hendless : d.need "fields" >>= needElements ≠ .error .endless := by
      cases hfields : d.need "fields" with
      | error e => exact fun he => need_ne_endless (hfields.trans (by cases he; rfl))
      | ok fields => exact needElements_ne_endless
    rw [hneed, ← bind_pure (liftM _)]
    refine J.bind_lift hendless fun xs hxs => J.pure ⟨rfl, hxs, List.forall₂_same.2 fun x hx => hpart hd ?_⟩
    obtain ⟨ms, rfl, rfl⟩ := exists_members_of_need hxs
    exact mem_parts_fieldList hx
  load := load
  meet hd hname := meet hd (hname.imp_right And.left)

end Premises

end Lockstep

end AvroCodec
