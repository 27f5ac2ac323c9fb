import AvroCodec.Proofs.Consistent
import AvroCodec.Proofs.RoundTrip

/-!
# Definitions that shadow others

A name that is loaded in a context is looked for inside the schema of the context first. For that the schema is
parsed once more, which gives it back but for the mark of a parser. What it defines is then found, whatever the
rest of the store holds, and only a name that no object inside it carries is looked for in the store.
-/

namespace AvroCodec

open Json

theorem Json.unmarkedMembers_put {members : Members} (h : lookup Schema.parsedMark members = none) :
    unmarkedMembers (put Schema.parsedMark (.bool true) members) = unmarkedMembers members := by
  induction members with
  | nil => simp [put, unmarkedMembers]
  | cons m rest ih =>
    rw [lookup] at h
    split_ifs at h with hm
    rw [put, if_neg hm, unmarkedMembers_cons, unmarkedMembers_cons, ih h]

namespace Schema

variable {members : Members}

/-- What parsing gives, for a document or for a definition inside of one. -/
inductive Output : Json → Prop
  | document {schema d : Json} {r r' : Registry} (h : parseOpen schema r = (.ok d, r')) : Output d
  | definition {hint : Bool} {space schema : Json} {members : Members} {s t : Parsing}
      (h : parseWith false hint space schema s = (.ok (.obj members), t)) : Output (.obj members)

theorem normalIn_of_not_marked {n : Nat} {hint : Bool} {space schema : Json}
    (h : normalIn (n + 1) hint space schema = .obj members) (hmark : lookup parsedMark members = none) :
    normalIn (n + 1) false space schema = .obj members := by
  cases hint with
  | false => exact h
  | true =>
    cases schema with
    | obj ms =>
      by_cases hrecord : isRecord ms = true
      · obtain ⟨complete, -, hmarked⟩ := normalIn_hinted n space hrecord
        cases h.symm.trans hmarked
        rw [lookup_put_self] at hmark
        cases hmark
      · rwa [← normalIn_of_not_isRecord (Bool.not_eq_true _ ▸ hrecord)]
    | _ => exact h

theorem alike_normalIn {n : Nat} {space : Json} (h : normalIn (n + 1) false space (.obj members) = .obj members)
    (hmark : lookup parsedMark members = none) :
    (normalIn (n + 1) true space (.obj members)).Alike (.obj members) := by
  by_cases hrecord : isRecord members = true
  · obtain ⟨complete, hcomplete, hmarked⟩ := normalIn_hinted n space hrecord
    cases h.symm.trans hcomplete
    have hput : isRecord (put parsedMark (.bool true) members) = true := by
      rwa [isRecord, lookup_put_of_ne (by decide)]
    rw [hmarked, Json.Alike, unmarked, unmarked, if_pos hput, if_pos hrecord, unmarkedMembers_put hmark]
  · rw [normalIn_of_not_isRecord (Bool.not_eq_true _ ▸ hrecord), h]
    exact .refl _

/-- What has been parsed is given back by the parser. -/
theorem Output.exists_parseOpen {d : Json} (h : Output d) (q : Registry) :
    ∃ x q', parseOpen d q = (.ok x, q') ∧ x.Alike d := by
  cases h with
  | document h =>
    obtain ⟨t, hagain⟩ := exists_parse_again h
    obtain ⟨q', hq'⟩ := exists_parseOpen_of_parse hagain q
    exact ⟨d, q', hq', .refl d⟩
  | @definition hint space schema members s t h =>
    by_cases hmark : (lookup parsedMark members).isSome = true
    · obtain ⟨q', hq'⟩ := exists_parseOpen_of_parse (parse_of_marked hmark q) q
      exact ⟨_, q', hq', .refl _⟩
    · have hnone := Option.not_isSome_iff_eq_none.1 hmark
      have hnormal := normalIn_of_not_marked (parseIn_eq h).symm hnone
      obtain ⟨x, u, hx⟩ := exists_parseWith_again (u := ⟨s.registry, []⟩) h ⟨List.nil_subset _, fun _ => id⟩ true
      have hparse : parse (.obj members) {} s.registry = (.ok x, u.registry) := by
        rw [parse, parseTop]
        simp only [Bool.or_self, Bool.false_eq_true, if_false, if_neg hmark]
        exact parseFresh_eq_iff.2 ⟨u, hx, rfl⟩
      obtain ⟨q', hq'⟩ := exists_parseOpen_of_parse hparse q
      refine ⟨x, q', hq', ?_⟩
      rw [parseIn_eq hx]
      refine alike_normalIn ?_ hnone
      rw [← hnormal]
      exact normalIn_normalIn space (Nat.lt_succ_self _) _

end Schema

namespace Store

theorem load_global (store : Store) (name : String) (q : Schema.Registry) :
    (store.load name "" q).1 = store.loadGlobal name := by
  rw [load, if_pos rfl]
  cases store.loadGlobal name <;> rfl

theorem loadGlobal_eq_error {store : Store} {name : String} (e : SchemaError) :
    store.loadGlobal name = .error e ↔ store.contains name = false ∧ e = .notStored name := by
  rw [loadGlobal, contains]
  cases lookup name store.database with
  | none => simp [eq_comm]
  | some d => simp

/-- Definitions inside the schema of a context shadow all others. A name that is carried by one object there is
loaded as this object, and a name that no object there carries is loaded as it is without a context. -/
theorem load_shadowed {schemata : Schemata} {store : Store} {r r' : Schema.Registry}
    (h : Store.build schemata r = (.ok store, r')) {context : String} {d : Json}
    (hd : lookup context store.database = some d) (hparsed : Schema.Output d) (name : String)
    (q : Schema.Registry) :
    (∀ y, (name, y) ∈ d.named → (∀ z, (name, z) ∈ d.named → z = y) →
      ∃ w q', store.load name context q = (.ok w, q') ∧ w.Alike y) ∧
    (name ≠ context → (∀ y, (name, y) ∉ d.named) →
      (store.load name context q).1 = (store.load name "" q).1 ∧
        ∀ e, (store.load name context q).1 = .error e ↔ store.contains name = false ∧ e = .notStored name) := by
  obtain ⟨x, q₁, hx, halike⟩ := hparsed.exists_parseOpen q
  obtain ⟨q', hload⟩ := load_eq h hd hx halike name
  rcases Database.lookup_store x.named [(context, x)] name with ⟨y, hy, hlookup⟩ | ⟨hnone, hlookup⟩
  · rw [hlookup] at hload
    obtain ⟨⟨_, e⟩, he, rfl, halike'⟩ := halike.exists_named hy
    refine ⟨fun z _ hunique => ⟨y, q', hload, ?_⟩, fun _ hnot => absurd he (hnot e)⟩
    exact hunique e he ▸ halike'.symm
  · constructor
    · intro y hy
      obtain ⟨⟨_, e⟩, he, rfl, -⟩ := halike.symm.exists_named hy
      exact absurd he (hnone e)
    · intro hname _
      rw [lookup, if_neg (Ne.symm hname)] at hlookup
      rw [hlookup] at hload
      rw [hload, load_global]
      exact ⟨rfl, loadGlobal_eq_error⟩

def kindOf (symbol : String) : Json :=
  .obj [("type", .str "enum"), ("name", .str "wood.Kind"), ("symbols", .arr [.str symbol])]

def crownMembers : Members :=
  [("type", .str "record"), ("name", .str "wood.Crown"), ("fields", .arr [
    .field "kind" (kindOf "leaf")])]

def woodSchemata : Schemata :=
  [("wood.Tree", .record "wood.Tree" [
      .field "crown" (.obj crownMembers)]),
    ("wood.Stone", .record "wood.Stone" [
      .field "kind" (kindOf "hard")])]

theorem wood_shadowed : ∃ store registry, Store.build woodSchemata [] = (.ok store, registry) ∧
    lookup "wood.Kind" store.database = some (kindOf "hard") ∧
    (∃ w q, store.load "wood.Kind" "wood.Crown" registry = (.ok w, q) ∧ w.Alike (kindOf "leaf")) ∧
    (store.load "wood.Stone" "wood.Crown" registry).1 = (store.load "wood.Stone" "" registry).1 ∧
    (store.load "wood.Moss" "wood.Crown" registry).1 = .error (.notStored "wood.Moss") := by
  obtain ⟨store, registry, hstore, hcrown, hkind, hmoss⟩ := Codec.exists_store woodSchemata
    (fun store => lookup "wood.Crown" store.database = some (.obj crownMembers) ∧
      lookup "wood.Kind" store.database = some (kindOf "hard") ∧
      store.contains "wood.Moss" = false) (by decide +kernel)
  have hparsed : Schema.Output (.obj crownMembers) := .definition (show Schema.parseWith false false (.str "")
    (.obj crownMembers) ⟨[], []⟩ = (.ok (.obj crownMembers), _) from rfl)
  have hnamed : (obj crownMembers).named = [("wood.Crown", .obj crownMembers), ("wood.Kind", kindOf "leaf")] := rfl
  have hload := fun name => load_shadowed hstore hcrown hparsed name registry
  rw [hnamed] at hload
  refine ⟨store, registry, hstore, hkind, (hload "wood.Kind").1 (kindOf "leaf") (by simp) (by simp), ?_, ?_⟩
  · exact ((hload "wood.Stone").2 (by decide) (by simp)).1
  · exact (((hload "wood.Moss").2 (by decide) (by simp)).2 _).2 ⟨hmoss, rfl⟩

end Store

end AvroCodec
