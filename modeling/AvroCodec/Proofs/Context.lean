import AvroCodec.Proofs.Consistent
import AvroCodec.Proofs.ParallelRoutine
import AvroCodec.Proofs.Compiled

/-!
# Independence of the context

A generator loads definitions in the context of the schema that it is working on. In a consistent store
the context has no influence: the same code comes out in all contexts, and a field whose type is a name
has the code of a field whose type is the definition itself.
-/

namespace AvroCodec

open Code Recursion Store

namespace Store

variable {schemata : Schemata} {store : Store} {r r' : Schema.Registry} {extended : Bool}
  {W : Type} [Preorder W] {R : Parallel W} {w : W}

theorem follows_load (h : build schemata r = (.ok store, r')) (hc : store.Consistent)
    (hR : R.Lenient)
    (hcontexts : ∀ {c c'}, R.contexts c c' → store.contains c = true ∧ store.contains c' = true)
    (name : String) :
    R.Follows ⟨store, extended⟩ w (Gen.load name) (Gen.load name) fun _ x y => x.Alike y ∧
      store.Loads name x ∧ ∃ d, Json.lookup name store.database = some d ∧ d.Alike x := by
  refine Parallel.follows_load fun c c' q q' hcc' => ?_
  obtain ⟨hc₁, hc₂⟩ := hcontexts hcc'
  by_cases hname : store.contains name = true
  · obtain ⟨d, hd⟩ := Option.isSome_iff_exists.1 hname
    obtain ⟨x, t, hx, halike⟩ := exists_load h hc hc₁ q hd
    obtain ⟨y, t', hy, halike'⟩ := exists_load h hc hc₂ q' hd
    rw [hx, hy]
    exact .ok ⟨halike.trans halike'.symm, ⟨c, q, t, hx⟩, d, hd, halike.symm⟩
  · rw [Bool.not_eq_true] at hname
    rw [load_of_not_contains h hc hc₁ q hname, load_of_not_contains h hc hc₂ q' hname]
    exact .error fun _ _ hs => .inr (.inr (hR hs rfl (by simp)))

theorem Loads.exists_lookup (h : build schemata r = (.ok store, r')) (hc : store.Consistent)
    {name : String} {x : Json} (hx : store.Loads name x) :
    ∃ d, Json.lookup name store.database = some d ∧ d.Alike x := by
  obtain ⟨context, q, q', hload⟩ := hx
  rcases lookup_or_brings_of_load hload with hd | ⟨schema, hschema, -⟩
  · exact ⟨x, hd, .refl x⟩
  · have hcontext := contains_of_lookup hschema
    by_cases hname : store.contains name = true
    · obtain ⟨d, hd⟩ := Option.isSome_iff_exists.1 hname
      obtain ⟨y, t, hy, halike⟩ := exists_load h hc hcontext q hd
      cases hload.symm.trans hy
      exact ⟨d, hd, halike.symm⟩
    · rw [Bool.not_eq_true] at hname
      have hfails := load_of_not_contains h hc hcontext q hname
      rw [hload] at hfails
      cases hfails

omit [Preorder W] in
theorem outcomes_parseOpen {x y : Json} (hx : Schema.IsParsed x) (halike : x.Alike y)
    (q q' : Schema.Registry) : R.Outcomes w (fun x' y' => x'.Alike y' ∧ x.Alike x')
      (Schema.parseOpen x q).1 (Schema.parseOpen y q').1 := by
  obtain ⟨z, t, hz, hzx⟩ := hx.exists_parseOpen q
  obtain ⟨z', t', hz', hzy⟩ := (hx.alike halike).exists_parseOpen q'
  rw [hz, hz']
  exact .ok ⟨hzx.trans (halike.trans hzy.symm), hzx.symm⟩

end Store

/-- Two runs in contexts of their own. -/
def Store.anywhere (store : Store) : Parallel Still where
  terms :=
    { first := fun _ _ => False
      second := fun _ _ => False
      both := fun e _ e' _ => e.family = e'.family }
  contexts c c' := store.contains c = true ∧ store.contains c' = true
  line _ := True
  held _ _ _ := True
  met _ _ := True
  guard _ := True
  encoder _ _ _ _ := True
  decoder _ _ _ _ := True

namespace Store

variable {schemata : Schemata} {store : Store} {r r' : Schema.Registry} {extended : Bool}

theorem anywhere_lenient : store.anywhere.Lenient := fun _ h _ => h

section Anywhere

variable (h : build schemata r = (.ok store, r')) (hc : store.Consistent)
include h hc

theorem follows_meet_anywhere {rec : Recursion} (name : String)
    (hm : store.anywhere.Matches ⟨store, extended⟩ (fun _ => True) rec rec) :
    store.anywhere.Follows ⟨store, extended⟩ .still (Gen.meet rec name) (Gen.meet rec name)
      fun _ _ _ => True := by
  refine Parallel.follows_meet (fun _ _ _ => True) (fun _ => True) (fun _ _ => trivial)
    (fun _ _ => ⟨.still, le_rfl, trivial⟩) (fun _ _ => ?_) fun _ _ _ => ⟨trivial, trivial⟩
  refine (follows_load h hc anywhere_lenient (fun h => h) name).bind ?_
  rintro _ x y - ⟨hxy, -, d, hd, halike⟩
  refine Parallel.follows_draft hm (fun _ => id) (fun _ => id) (fun _ => trivial) fun q q' => ?_
  exact (outcomes_parseOpen ((hc.parsed hd).alike halike) hxy q q').imp fun _ _ h => ⟨h.1, trivial⟩

/-- Whatever can be generated is generated alike in both contexts. -/
theorem matches_anywhere (steps : Nat) :
    store.anywhere.Matches ⟨store, extended⟩ (fun _ => True) (.upTo steps) (.upTo steps) := by
  induction steps with
  | zero => exact ⟨fun _ _ => Tracks.throw fun _ _ _ => rfl, fun _ _ => Tracks.throw fun _ _ _ => rfl⟩
  | succ steps ih =>
    rw [upTo_succ]
    refine Parallel.Matches.next (fun _ => True) ?_ ?_ ?_
    · refine
        { lenient := anywhere_lenient
          contexts := fun hname => ⟨hname, hname⟩
          dotted := hasDot_of_contains h
          parts := fun _ _ => trivial
          load := fun {_ _ name} _ _ _ => ?_
          meet := fun {_ _ name} _ _ _ => follows_meet_anywhere h hc name ih
          guard := fun _ => ?_
          line := fun _ => trivial
          inner := ih }
      · refine (follows_load h hc anywhere_lenient (fun h => h) name).imp fun _ _ _ _ hxy => ?_
        exact ⟨hxy.1, hxy.2.1, fun _ => trivial⟩
      · refine Parallel.follows_guardOf (G := fun _ _ => True) anywhere_lenient ?_ trivial
        exact
          { null := trivial
            value := fun _ => trivial
            object := fun _ _ => trivial
            load := fun _ _ => (follows_load h hc anywhere_lenient (fun h => h) _).imp
              fun _ _ _ _ hxy => ⟨hxy.1, trivial⟩
            exhausted := fun _ _ => rfl }
    · constructor <;> intros <;> trivial
    · constructor <;> intros <;> trivial

end Anywhere

end Store

namespace Gen

variable {σ : Setting} {r : Recursion} {name : String} {f : Json} {p : Place}

theorem encode_eq (schema : Json) (p : Place) :
    encode schema p σ = (upTo (Generator.reach σ.store schema)).encode schema p σ := rfl

theorem decode_eq (schema : Json) (p : Place) :
    decode schema p σ = (upTo (Generator.reach σ.store schema)).decode schema p σ := rfl

def fieldOf (name type : Json) : Json := .obj [("name", name), ("type", type)]

/-- Code that is made from a definition, in the context of the definition. -/
def inlined {α : Type} (name : String) (go : Json → Gen α) : Gen α := do
  let loaded ← load name
  let outer := (← get).context
  setContext name
  let code ← go loaded
  setContext outer
  return code

theorem encodeReferenceField_eq (h : σ.store.isCycleStarting name = false) (type : Json) :
    encodeReferenceField r (fieldOf f type) name p σ =
      inlined name (fun x => r.encode x (p.member f)) σ := by
  change (do
    let loaded ← load name
    let outer := (← get).context
    setContext name
    if σ.store.isCycleStarting name then do
      meet r name
      return .recur name p
    let code ← r.encode loaded (p.member f)
    setContext outer
    return code : Gen Encoder) σ = _
  rw [h]
  rfl

theorem decodeReferenceField_eq (h : σ.store.isCycleStarting name = false) (type : Json) :
    decodeReferenceField r (fieldOf f type) name p σ =
      inlined name (fun x => r.decode x (p.member f)) σ := by
  change (do
    let loaded ← load name
    let outer := (← get).context
    setContext name
    if σ.store.isCycleStarting name then do
      meet r name
      return .recur name p
    let code ← r.decode loaded (p.member f)
    setContext outer
    return code : Gen Decoder) σ = _
  rw [h]
  rfl

theorem encodeStep_nested (members : Members) :
    encodeStep r (fieldOf f (.obj members)) p σ = r.encode (.obj members) (p.member f) σ := by
  change (r.encode (.obj members) (p.member f) >>= pure) σ = _
  rw [bind_pure]

theorem decodeStep_nested (members : Members) :
    decodeStep r (fieldOf f (.obj members)) p σ = r.decode (.obj members) (p.member f) σ :=
  rfl

end Gen

/-- Two outcomes of a generator that are the same but for the context and the registry, where of two
failures the family is the same. -/
def SameCode {α : Type} (x y : Except SchemaError α × Generator) : Prop :=
  match x, y with
  | (.ok a, s), (.ok b, t) => a = b ∧ s.core = t.core
  | (.error e, _), (.error e', _) => e.family = e'.family
  | _, _ => False

namespace Store

variable {schemata : Schemata} {store : Store} {r r' : Schema.Registry} {extended : Bool}
  {α : Type}

theorem aligned_anywhere (s : Generator) {c c' : String} (hc : store.contains c = true)
    (hc' : store.contains c' = true) (q q' : Schema.Registry) :
    store.anywhere.Aligned .still { s with context := c, registry := q }
      { s with context := c', registry := q' } :=
  ⟨⟨hc, hc'⟩, rfl, fun _ _ => trivial, trivial⟩

theorem sameCode_of_follows {σ : Setting} {x y : Gen α} {s s' : Generator}
    (h : store.anywhere.Follows σ .still x y fun _ a b => a = b ∧ True) (hs : store.anywhere.Aligned .still s s') :
    SameCode (x σ s) (y σ s') := by
  have hxy := h s s' hs
  rcases hx : x σ s with ⟨e | a, t⟩ <;> rcases hy : y σ s' with ⟨e' | b, t'⟩ <;>
    simp only [hx, hy] at hxy
  · exact (hxy.resolve_left id).resolve_left id
  · exact hxy
  · exact hxy
  · obtain ⟨_, -, ht, rfl, -⟩ := hxy
    exact ⟨rfl, ht.core⟩

/-- Code that is made from a loaded definition is the code that is made from what is stored. -/
theorem sameCode_inlined (h : build schemata r = (.ok store, r')) (hc : store.Consistent)
    {name : String} {d : Json} (hd : Json.lookup name store.database = some d) (go : Json → Gen α)
    (hgo : ∀ x, x.Alike d → store.anywhere.Follows ⟨store, extended⟩ .still (go x) (go d)
      fun _ a b => a = b ∧ True) {s : Generator} (hs : store.contains s.context = true) :
    SameCode (Gen.inlined name go ⟨store, extended⟩ s) (go d ⟨store, extended⟩ s) := by
  obtain ⟨x, q, hx, halike⟩ := exists_load h hc hs s.registry hd
  have hload : Gen.load name ⟨store, extended⟩ s = (.ok x, { s with registry := q }) := by
    rw [Parallel.load_run, hx]
  have hrun : Gen.inlined name go ⟨store, extended⟩ s =
      match go x ⟨store, extended⟩ { s with context := name, registry := q } with
      | (.ok a, t) => (.ok a, { t with context := s.context })
      | (.error e, t) => (.error e, t) := by
    refine (Action.bind_of_ok hload).trans ?_
    change (go x ⟨store, extended⟩ >>= fun code =>
      (Gen.setContext s.context >>= fun _ => pure code : Gen α) ⟨store, extended⟩ :
        Action Generator α) { s with context := name, registry := q } = _
    rw [Action.bind_run]
    rcases go x ⟨store, extended⟩ { s with context := name, registry := q } with ⟨e | a, t⟩ <;> rfl
  have hname : store.contains name = true := Option.isSome_iff_exists.2 ⟨d, hd⟩
  have hsame := sameCode_of_follows (hgo x halike) (aligned_anywhere s hname hs q s.registry)
  rw [hrun]
  revert hsame
  generalize go x ⟨store, extended⟩ { s with context := name, registry := q } = o
  generalize go d ⟨store, extended⟩ s = o'
  intro hsame
  rcases o with ⟨e | a, t⟩ <;> rcases o' with ⟨e' | b, t'⟩ <;> exact hsame

end Store

/-- In a consistent store the code of a schema does not depend on the context that it is made in, and the
code of a field is the same whether its type is given by a name that stands for no recursive type or by
the definition itself. -/
theorem code_independent_of_context {schemata : Schemata} {store : Store}
    {r r' : Schema.Registry} (h : build schemata r = (.ok store, r')) (hc : store.Consistent)
    (extended : Bool) {c c' : String} (hkey : store.contains c = true)
    (hkey' : store.contains c' = true) (s : Generator) (schema : Json) (place : Place) :
    SameCode (Gen.encode schema place ⟨store, extended⟩ { s with context := c })
        (Gen.encode schema place ⟨store, extended⟩ { s with context := c' }) ∧
      SameCode (Gen.decode schema place ⟨store, extended⟩ { s with context := c })
        (Gen.decode schema place ⟨store, extended⟩ { s with context := c' }) ∧
      ∀ name members f steps, store.isCycleStarting name = false →
        Json.lookup name store.database = some (.obj members) →
        SameCode
            ((upTo steps).encode (Gen.fieldOf f (.str name)) place ⟨store, extended⟩
              { s with context := c })
            ((upTo steps).encode (Gen.fieldOf f (.obj members)) place ⟨store, extended⟩
              { s with context := c }) ∧
          SameCode
            ((upTo steps).decode (Gen.fieldOf f (.str name)) place ⟨store, extended⟩
              { s with context := c })
            ((upTo steps).decode (Gen.fieldOf f (.obj members)) place ⟨store, extended⟩
              { s with context := c }) := by
  have hm : ∀ steps, store.anywhere.Matches ⟨store, extended⟩ (fun _ => True) (.upTo steps)
      (.upTo steps) := matches_anywhere h hc
  have hs := aligned_anywhere s hkey hkey' s.registry s.registry
  refine ⟨?_, ?_, fun name members f steps hflag hd => ?_⟩
  · rw [Gen.encode_eq]
    exact sameCode_of_follows ((hm _).encode trivial (.refl schema)) hs
  · rw [Gen.decode_eq]
    exact sameCode_of_follows ((hm _).decode trivial (.refl schema)) hs
  · cases steps with
    | zero => exact ⟨rfl, rfl⟩
    | succ steps =>
      have hname : store.contains name = true := Option.isSome_iff_exists.2 ⟨_, hd⟩
      have hdot := hasDot_of_contains h hname
      constructor
      · rw [encode_upTo_succ, encode_upTo_succ, Gen.encodeStep_reference (d := Gen.fieldOf f _) rfl rfl hdot hname,
          Gen.encodeReferenceField_eq hflag, Gen.encodeStep_nested]
        exact sameCode_inlined h hc hd (fun x => (upTo steps).encode x (place.member f))
          (fun x hx => (hm steps).encode trivial hx) hkey
      · rw [decode_upTo_succ, decode_upTo_succ, Gen.decodeStep_reference (d := Gen.fieldOf f _) rfl rfl hdot hname,
          Gen.decodeReferenceField_eq hflag, Gen.decodeStep_nested]
        exact sameCode_inlined h hc hd (fun x => (upTo steps).decode x (place.member f))
          (fun x hx => (hm steps).decode trivial hx) hkey

def shelfSchemata : Schemata :=
  [("lib.shelf", .obj [("type", .str "record"), ("name", .str "shelf"), ("namespace", .str "lib"),
      ("fields", .arr [.field "first" (.record "book" [.field "title" (.str "string")])])]),
    ("lib.loan", .obj [("type", .str "record"), ("name", .str "loan"), ("namespace", .str "lib"),
      ("fields", .arr [.field "item" (.str "book")])])]

theorem code_independent_of_context_shelf : ∃ store registry members,
    build shelfSchemata [] = (.ok store, registry) ∧ store.Consistent ∧
    store.contains "lib.shelf" = true ∧ store.contains "lib.loan" = true ∧
    store.isCycleStarting "lib.book" = false ∧
    Json.lookup "lib.book" store.database = some (.obj members) ∧
    (∀ s : Generator, SameCode
      (Gen.encode (.str "lib.book") (.of "data") ⟨store, false⟩ { s with context := "lib.shelf" })
      (Gen.encode (.str "lib.book") (.of "data") ⟨store, false⟩ { s with context := "lib.loan" })) ∧
    ∀ (s : Generator) (steps : Nat), SameCode
      ((upTo steps).encode (Gen.fieldOf (.str "item") (.str "lib.book")) (.of "data")
        ⟨store, false⟩ { s with context := "lib.loan" })
      ((upTo steps).encode (Gen.fieldOf (.str "item") (.obj members)) (.of "data")
        ⟨store, false⟩ { s with context := "lib.loan" }) := by
  obtain ⟨store, registry, hstore, hcheck, hshelf, hloan, hflag, hbook⟩ :=
    Codec.exists_store shelfSchemata (fun store =>
      store.isConsistent = true ∧
      store.contains "lib.shelf" = true ∧ store.contains "lib.loan" = true ∧
      store.isCycleStarting "lib.book" = false ∧
      Json.lookup "lib.book" store.database = some (.obj [("type", .str "record"),
        ("name", .str "lib.book"), ("fields", .arr [.obj [("name", .str "title"),
          ("type", .str "string")]])])) (by decide +kernel)
  have hc := consistent_of_isConsistent hcheck
  refine ⟨store, registry, _, hstore, hc, hshelf, hloan, hflag, hbook, fun s => ?_, fun s steps => ?_⟩
  · exact (code_independent_of_context hstore hc false hshelf hloan s (.str "lib.book") (.of "data")).1
  · exact ((code_independent_of_context hstore hc false hloan hshelf s .null (.of "data")).2.2
      "lib.book" _ (.str "item") steps hflag hbook).1

end AvroCodec
