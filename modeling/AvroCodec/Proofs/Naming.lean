import AvroCodec.Proofs.Definition

/-!
# Names and their definitions

A list of schemas defines the identifiers in it and the dotted names that stand inside its schemas. If no
name is defined in two ways, then a name means the same in every context.
-/

namespace AvroCodec

open Json

namespace Json

variable {e : String × Json} {d : Json} {members : Members}

/-- An object with the dotted name that it carries. -/
def ownName (members : Members) : Members :=
  match lookup "name" members with
  | some (.str name) => if Schema.hasDot name then [(name, .obj members)] else []
  | _ => []

mutual

/-- The objects inside a document that carry a dotted name, each with this name. -/
def named : Json → List (String × Json)
  | .arr items => namedItems items
  | .obj members => ownName members ++ namedMembers members
  | _ => []

def namedItems : List Json → List (String × Json)
  | [] => []
  | x :: xs => named x ++ namedItems xs

def namedMembers : List (String × Json) → List (String × Json)
  | [] => []
  | (_, x) :: xs => named x ++ namedMembers xs

end

theorem eq_of_mem_ownName (h : e ∈ ownName members) : Schema.hasDot e.1 = true ∧ e.2 = .obj members := by
  unfold ownName at h
  split at h
  · split_ifs at h with hdot
    · rw [List.mem_singleton.1 h]
      exact ⟨hdot, rfl⟩
    · cases h
  · cases h

/-- The first document is the second one or stands somewhere inside it. -/
inductive Inside : Json → Json → Prop
  | refl (d : Json) : Inside d d
  | item {x y : Json} {items : List Json} (hy : y ∈ items) (h : Inside x y) : Inside x (.arr items)
  | member {x : Json} {m : String × Json} {members : Members} (hm : m ∈ members)
      (h : Inside x m.2) : Inside x (.obj members)

theorem Inside.trans {x y z : Json} (h : Inside x y) (h' : Inside y z) : Inside x z := by
  induction h' with
  | refl => exact h
  | item hy _ ih => exact .item hy ih
  | member hm _ ih => exact .member hm ih

theorem namedItems_eq (items : List Json) : namedItems items = items.flatMap named := by
  induction items with
  | nil => rfl
  | cons x xs ih => rw [namedItems, ih, List.flatMap_cons]

theorem namedMembers_eq (members : Members) :
    namedMembers members = members.flatMap fun m => named m.2 := by
  induction members with
  | nil => rfl
  | cons m rest ih => rw [namedMembers, ih, List.flatMap_cons]

mutual

theorem exists_inside : ∀ {d : Json} {e : String × Json}, e ∈ d.named →
    ∃ members, (obj members).Inside d ∧ e ∈ ownName members
  | .arr _, _, h => by
    obtain ⟨x, hx, members, hinside, he⟩ := exists_inside_items h
    exact ⟨members, .item hx hinside, he⟩
  | .obj members, _, h => by
    rcases List.mem_append.1 h with h | h
    · exact ⟨members, .refl _, h⟩
    · obtain ⟨m, hm, members, hinside, he⟩ := exists_inside_members h
      exact ⟨members, .member hm hinside, he⟩

theorem exists_inside_items : ∀ {items : List Json} {e : String × Json}, e ∈ namedItems items →
    ∃ x ∈ items, ∃ members, (obj members).Inside x ∧ e ∈ ownName members
  | x :: _, _, h => by
    rcases List.mem_append.1 h with h | h
    · exact ⟨x, List.mem_cons_self, exists_inside h⟩
    · obtain ⟨y, hy, hinside⟩ := exists_inside_items h
      exact ⟨y, List.mem_cons_of_mem _ hy, hinside⟩

theorem exists_inside_members : ∀ {members : Members} {e : String × Json}, e ∈ namedMembers members →
    ∃ m ∈ members, ∃ inner, (obj inner).Inside m.2 ∧ e ∈ ownName inner
  | m :: _, _, h => by
    rcases List.mem_append.1 h with h | h
    · exact ⟨m, List.mem_cons_self, exists_inside h⟩
    · obtain ⟨m', hm', hinside⟩ := exists_inside_members h
      exact ⟨m', List.mem_cons_of_mem _ hm', hinside⟩

end

theorem mem_named_iff :
    e ∈ d.named ↔ ∃ members, (obj members).Inside d ∧ e ∈ ownName members := by
  refine ⟨exists_inside, ?_⟩
  rintro ⟨members, hinside, he⟩
  generalize hx : obj members = x at hinside
  induction hinside with
  | refl =>
    subst hx
    exact List.mem_append_left _ he
  | item hy _ ih =>
    rw [named, namedItems_eq]
    exact List.mem_flatMap.2 ⟨_, hy, ih⟩
  | member hm _ ih =>
    rw [named, namedMembers_eq]
    exact List.mem_append_right _ (List.mem_flatMap.2 ⟨_, hm, ih⟩)

theorem hasDot_of_named (h : e ∈ d.named) : Schema.hasDot e.1 = true := by
  obtain ⟨members, -, he⟩ := exists_inside h
  exact (eq_of_mem_ownName he).1

theorem inside_of_named (h : e ∈ d.named) : e.2.Inside d := by
  obtain ⟨members, hinside, he⟩ := exists_inside h
  rwa [(eq_of_mem_ownName he).2]

theorem named_trans {e' : String × Json} (he : e ∈ d.named) (he' : e' ∈ e.2.named) : e' ∈ d.named := by
  obtain ⟨members, hinside, he'⟩ := exists_inside he'
  exact mem_named_iff.2 ⟨members, hinside.trans (inside_of_named he), he'⟩

end Json

namespace Database

variable {db db' : Database} {name identifier : String} {x d schema : Json} {r r' : Schema.Registry}

/-- Documents are put into a database one after the other. -/
def store (db : Database) (entries : List (String × Json)) : Database :=
  entries.foldl (fun db e => put e.1 e.2 db) db

theorem store_append (db : Database) (es es' : Database) :
    store db (es ++ es') = store (store db es) es' :=
  List.foldl_append

theorem lookup_store (es : Database) (db : Database) (name : String) :
    (∃ x, (name, x) ∈ es ∧ lookup name (store db es) = some x) ∨
      (∀ x, (name, x) ∉ es) ∧ lookup name (store db es) = lookup name db := by
  induction es generalizing db with
  | nil => exact .inr ⟨fun _ => List.not_mem_nil, rfl⟩
  | cons e es ih =>
    rcases ih (put e.1 e.2 db) with ⟨x, hx, hlookup⟩ | ⟨hnone, hlookup⟩
    · exact .inl ⟨x, List.mem_cons_of_mem _ hx, hlookup⟩
    · by_cases hname : name = e.1
      · subst hname
        exact .inl ⟨e.2, List.mem_cons_self, hlookup.trans (lookup_put_self ..)⟩
      · refine .inr ⟨fun x hx => ?_, hlookup.trans (lookup_put_of_ne hname ..)⟩
        rcases List.mem_cons.1 hx with rfl | hx
        · exact hname rfl
        · exact hnone x hx

/-- A step that stores these documents, whatever is stored already. -/
def Stores (f : Database → Except SchemaError Database) (es : Database) : Prop :=
  ∀ db, f db = .ok (store db es)

/-- A step that refuses to store anything. -/
def Refuses (f : Database → Except SchemaError Database) : Prop := ∀ db, f db = .error .wrongShape

theorem stores_enter (name : Option Json) :
    (∀ members, lookup "name" members = name → Stores (enter members) (ownName members)) ∨
      ∀ members, lookup "name" members = name → Refuses (enter members) := by
  obtain ⟨refused, h⟩ : ∃ refused : Bool, ∀ members, lookup "name" members = name → ∀ db,
      enter members db = if refused then .error .wrongShape else .ok (store db (ownName members)) := by
    unfold enter ownName
    cases name with
    | none => exact ⟨false, fun members hname db => by rw [hname]; rfl⟩
    | some name =>
      cases name with
      | str name =>
        refine ⟨false, fun members hname db => ?_⟩
        by_cases hdot : Schema.hasDot name = true <;> simp [hname, hdot, store]
      | _ => exact ⟨_, fun members hname db => by rw [hname]; rfl⟩
  cases refused with
  | false => exact .inl h
  | true => exact .inr h

theorem stores_bind {f g : Database → Except SchemaError Database} {es es' : Database}
    (hf : Stores f es ∨ Refuses f) (hg : Stores g es' ∨ Refuses g) :
    Stores (fun db => f db >>= g) (es ++ es') ∨ Refuses fun db => f db >>= g := by
  rcases hf with hf | hf
  · refine hg.imp (fun hg db => ?_) fun hg db => (congrArg (· >>= g) (hf db)).trans (hg _)
    rw [store_append]
    exact (congrArg (· >>= g) (hf db)).trans (hg _)
  · exact .inr fun db => congrArg (· >>= g) (hf db)

mutual

theorem stores_scan : ∀ d : Json, Stores (scan d) d.named ∨ Refuses (scan d)
  | .arr items => stores_scanItems items
  | .obj members => stores_bind ((stores_enter _).imp (· members rfl) (· members rfl)) (stores_scanMembers members)
  | .null | .bool _ | .int _ | .fraction _ _ | .str _ => .inl fun _ => rfl

theorem stores_scanItems : ∀ items : List Json,
    Stores (scanItems items) (namedItems items) ∨ Refuses (scanItems items)
  | [] => .inl fun _ => rfl
  | x :: xs => stores_bind (stores_scan x) (stores_scanItems xs)

theorem stores_scanMembers : ∀ members : Members,
    Stores (scanMembers members) (namedMembers members) ∨ Refuses (scanMembers members)
  | [] => .inl fun _ => rfl
  | (_, x) :: rest => stores_bind (stores_scan x) (stores_scanMembers rest)

end

/-- A document whose named objects can be stored. -/
def Scans (d : Json) : Prop := Stores (scan d) d.named

theorem Stores.of_ok {f : Database → Except SchemaError Database} {es : Database}
    (hf : Stores f es ∨ Refuses f) (h : f db = .ok db') : Stores f es :=
  hf.resolve_right fun hno => by cases h.symm.trans (hno db)

theorem scans_of_ok (h : scan d db = .ok db') : Scans d := .of_ok (stores_scan d) h

theorem eq_of_scan (h : scan d db = .ok db') : db' = store db d.named :=
  Except.ok.inj (h.symm.trans (scans_of_ok h db))

/-- What a database holds under a name if a schema is stored in it. -/
inductive Brings (identifier : String) (schema : Json) : String → Json → Prop
  | itself (hdot : Schema.hasDot identifier = true) :
      Brings identifier schema identifier (Schema.normal (Schema.normal schema))
  | inside {e : String × Json} (h : e ∈ (Schema.normal schema).named) :
      Brings identifier schema e.1 e.2

theorem Brings.hasDot (h : Brings identifier schema name x) : Schema.hasDot name = true := by
  cases h with
  | itself hdot => exact hdot
  | inside h => exact hasDot_of_named h

/-- What a schema brings into a database: itself, and then the named objects inside it. -/
def brought (entry : String × Json) : List (String × Json) :=
  (if Schema.hasDot entry.1 then [(entry.1, Schema.normal (Schema.normal entry.2))] else []) ++
    (Schema.normal entry.2).named

theorem brings_of_mem_brought {entry : String × Json} (h : (name, x) ∈ brought entry) :
    Brings entry.1 entry.2 name x := by
  rcases List.mem_append.1 h with h | h
  · split_ifs at h with hdot
    · cases List.mem_singleton.1 h
      exact .itself hdot
    · cases h
  · exact .inside h

theorem add_eq (h : add db identifier schema r = (.ok db', r')) :
    db' = store db (brought (identifier, schema)) ∧ Scans (Schema.normal schema) ∧
      ∃ q q', Schema.parseOpen schema q = (.ok (Schema.normal schema), q') := by
  simp only [add, bind_eq_ok] at h
  obtain ⟨parsed, r₁, hparsed, h⟩ := h
  obtain rfl := Schema.parseOpen_eq hparsed
  rw [brought, store_append]
  by_cases hdot : Schema.hasDot identifier = true
  · simp only [hdot, if_true, bind_eq_ok, pure_eq_ok, lift_eq_ok] at h
    obtain ⟨again, r₂, hagain, start, r₃, ⟨rfl, rfl⟩, hscan, rfl⟩ := h
    obtain rfl := Schema.parse_eq hagain
    exact ⟨by rw [eq_of_scan hscan, if_pos hdot]; rfl, scans_of_ok hscan, r, _, hparsed⟩
  · simp only [if_neg hdot, bind_eq_ok, pure_eq_ok, lift_eq_ok] at h
    obtain ⟨start, r₃, ⟨rfl, rfl⟩, hscan, rfl⟩ := h
    exact ⟨by rw [eq_of_scan hscan, if_neg hdot]; rfl, scans_of_ok hscan, r, _, hparsed⟩

/-- A database is what its schemas bring, put in one after the other. -/
theorem gather_eq {schemata : Schemata} (h : gather schemata r = (.ok db, r')) :
    db = store [] (schemata.flatMap brought) ∧ ∀ e ∈ schemata, Scans (Schema.normal e.2) ∧
      ∃ q q', Schema.parseOpen e.2 q = (.ok (Schema.normal e.2), q') := by
  have hfold : ∀ (schemata : Schemata) (start : Database) (r : Schema.Registry),
      schemata.foldlM (fun db entry => add db entry.1 entry.2) start r = (.ok db, r') →
        db = store start (schemata.flatMap brought) ∧ ∀ e ∈ schemata, Scans (Schema.normal e.2) ∧
          ∃ q q', Schema.parseOpen e.2 q = (.ok (Schema.normal e.2), q') := by
    intro schemata
    induction schemata with
    | nil =>
      intro start r h
      rw [List.foldlM_nil, pure_eq_ok] at h
      exact ⟨h.1, List.forall_mem_nil _⟩
    | cons entry schemata ih =>
      intro start r h
      rw [List.foldlM_cons, bind_eq_ok] at h
      obtain ⟨next, r₁, hadd, h⟩ := h
      obtain ⟨rfl, hentry⟩ := add_eq hadd
      obtain ⟨rfl, hrest⟩ := ih _ r₁ h
      exact ⟨by rw [List.flatMap_cons, store_append], List.forall_mem_cons.2 ⟨hentry, hrest⟩⟩
  exact hfold schemata [] r h

theorem lookup_gather {schemata : Schemata} (h : gather schemata r = (.ok db, r'))
    (hx : lookup name db = some x) : ∃ e ∈ schemata, Brings e.1 e.2 name x := by
  rw [(gather_eq h).1] at hx
  rcases lookup_store (schemata.flatMap brought) [] name with ⟨y, hy, hlookup⟩ | ⟨-, hlookup⟩
  · cases hx.symm.trans hlookup
    obtain ⟨e, he, hx⟩ := List.mem_flatMap.1 hy
    exact ⟨e, he, brings_of_mem_brought hx⟩
  · cases hx.symm.trans hlookup

theorem isSome_lookup_of_brought {schemata : Schemata} (h : gather schemata r = (.ok db, r'))
    {e : String × Json} (he : e ∈ schemata) (hx : (name, x) ∈ brought e) : (lookup name db).isSome = true := by
  rw [(gather_eq h).1]
  rcases lookup_store (schemata.flatMap brought) [] name with ⟨y, -, hlookup⟩ | ⟨hnone, -⟩
  · rw [hlookup]
    rfl
  · exact absurd (List.mem_flatMap.2 ⟨e, he, hx⟩) (hnone x)

end Database

namespace Schema

variable {schemata : Schemata}

/-- What a list of schemas defines: its identifiers, and the dotted names inside what it defines. The
normal form of a definition, where all names are full names, is a definition too. -/
inductive Defines (schemata : Schemata) : String → Json → Prop
  | listed {e : String × Json} (h : e ∈ schemata) : Defines schemata e.1 e.2
  | normal {name : String} {d : Json} (h : Defines schemata name d) : Defines schemata name (normal d)
  | inside {name : String} {d : Json} {e : String × Json} (h : Defines schemata name d)
      (he : e ∈ (Schema.normal d).named) : Defines schemata e.1 e.2

/-- The normal form of a definition, and the definitions inside it. -/
def derived (e : String × Json) : List (String × Json) := (e.1, normal e.2) :: (normal e.2).named

/-- What a name stands for: a definition in which all names are full names. -/
def StandsFor (schemata : Schemata) (name : String) (d : Json) : Prop :=
  ∃ outer schema, Defines schemata outer schema ∧ (name, d) ∈ derived (outer, schema)

/-- A name is not defined in two ways. -/
def Single (schemata : Schemata) (name : String) : Prop :=
  ∀ d d', StandsFor schemata name d → StandsFor schemata name d' → ∀ f, form? d = some f → form? d' = some f

/-- Definitions, and what is derived from them in so many steps. -/
def derivedIn : Nat → List (String × Json) → List (String × Json)
  | 0, table => table
  | steps + 1, table => table ++ derivedIn steps (table.flatMap derived)

theorem Defines.mem_table {name : String} {d : Json} (h : Defines schemata name d)
    (table : List (String × Json)) (hlisted : ∀ e ∈ schemata, e ∈ table)
    (hderived : ∀ e ∈ table, ∀ e' ∈ derived e, e' ∈ table) : (name, d) ∈ table := by
  induction h with
  | listed h => exact hlisted _ h
  | normal _ ih => exact hderived _ ih _ List.mem_cons_self
  | inside _ he ih => exact hderived _ ih _ (List.mem_cons_of_mem _ he)

theorem single_of_table (table : List (String × Json))
    (hlisted : ∀ e ∈ schemata, e ∈ table) (hderived : ∀ e ∈ table, ∀ e' ∈ derived e, e' ∈ table)
    (hone : ∀ e ∈ table.flatMap derived, ∀ e' ∈ table.flatMap derived, e.1 = e'.1 → form? e.2 = form? e'.2) :
    ∀ name, Single schemata name := by
  have hmem : ∀ {name d}, StandsFor schemata name d → (name, d) ∈ table.flatMap derived := by
    rintro name d ⟨outer, schema, h, hd⟩
    exact List.mem_flatMap.2 ⟨_, h.mem_table table hlisted hderived, hd⟩
  intro name d d' h h' f hf
  rw [← hf]
  exact hone _ (hmem h') _ (hmem h) rfl

theorem Defines.brings {identifier name : String} {schema d : Json}
    (h : Defines schemata identifier schema) (hb : Database.Brings identifier schema name d) :
    StandsFor schemata name d := by
  cases hb with
  | itself => exact ⟨identifier, Schema.normal schema, h.normal, List.mem_cons_self⟩
  | inside he => exact ⟨identifier, schema, h, List.mem_cons_of_mem _ he⟩

theorem StandsFor.defines {name : String} {d : Json} (h : StandsFor schemata name d) : Defines schemata name d := by
  obtain ⟨outer, schema, h, hd⟩ := h
  rcases List.mem_cons.1 hd with heq | hd
  · cases heq
    exact h.normal
  · exact h.inside hd

end Schema

namespace Store

variable {schemata : Schemata} {store : Store} {r r' : Schema.Registry}

variable {name : String} {d : Json}

theorem gather_of_build (h : Store.build schemata r = (.ok store, r')) :
    ∃ r', Database.gather schemata r = (.ok store.database, r') := by
  simp only [Store.build, bind_eq_ok, pure_eq_ok] at h
  obtain ⟨db, r₁, hdb, cycles, r₂, -, rfl, -⟩ := h
  exact ⟨r₁, hdb⟩

theorem lookup_build (h : Store.build schemata r = (.ok store, r'))
    (hd : lookup name store.database = some d) : ∃ e ∈ schemata, Database.Brings e.1 e.2 name d := by
  obtain ⟨_, hdb⟩ := gather_of_build h
  exact Database.lookup_gather hdb hd

theorem hasDot_of_contains (h : Store.build schemata r = (.ok store, r'))
    (hc : store.contains name = true) : Schema.hasDot name = true := by
  obtain ⟨d, hd⟩ := Option.isSome_iff_exists.1 hc
  obtain ⟨e, -, hb⟩ := lookup_build h hd
  exact hb.hasDot

theorem contains_of_lookup (hd : lookup name store.database = some d) :
    store.contains name = true := by
  rw [Store.contains, hd]
  rfl

theorem standsFor_of_lookup (h : Store.build schemata r = (.ok store, r'))
    (hd : lookup name store.database = some d) : Schema.StandsFor schemata name d := by
  obtain ⟨e, he, hb⟩ := lookup_build h hd
  exact (Schema.Defines.listed he).brings hb

/-- A name is loaded with the form that is stored under it, in any context and with any registry. -/
def Unambiguous (store : Store) (name : String) : Prop :=
  ∀ (context : String) (r r' : Schema.Registry) (d : Json) (f : Form),
    store.load name context r = (.ok d, r') → store.form? name = some f → AvroCodec.form? d = some f

section Load

variable {context : String} {q q' : Schema.Registry} (hload : store.load name context q = (.ok d, q'))
include hload

/-- What is loaded is stored under its name, or stands inside the schema of the context. -/
theorem lookup_or_brings_of_load : lookup name store.database = some d ∨
    ∃ schema, lookup context store.database = some schema ∧ Database.Brings context schema name d := by
  have hglobal : store.loadGlobal name = .ok d → lookup name store.database = some d := by
    unfold loadGlobal
    split
    next schema hd =>
      rintro ⟨⟩
      exact hd
    next => exact fun h => by cases h
  unfold load at hload
  split_ifs at hload
  · exact .inl (hglobal (lift_eq_ok.1 hload).1)
  · obtain ⟨inside, q₁, hinside, hload⟩ := bind_eq_ok.1 hload
    cases hd : lookup name inside with
    | none =>
      rw [hd] at hload
      exact .inl (hglobal (lift_eq_ok.1 hload).1)
    | some schema =>
      rw [hd] at hload
      obtain ⟨rfl, -⟩ := pure_eq_ok.1 hload
      cases houter : lookup context store.database with
      | none =>
        rw [localDatabase, houter] at hinside
        cases hinside
      | some outer =>
        rw [localDatabase, houter] at hinside
        obtain ⟨e, he, hb⟩ := Database.lookup_gather hinside hd
        rw [List.mem_singleton.1 he] at hb
        exact .inr ⟨outer, rfl, hb⟩

theorem hasDot_of_load (h : Store.build schemata r = (.ok store, r')) : Schema.hasDot name = true := by
  rcases lookup_or_brings_of_load hload with hd | ⟨schema, -, hb⟩
  · exact hasDot_of_contains h (contains_of_lookup hd)
  · exact hb.hasDot

theorem standsFor_of_load (h : Store.build schemata r = (.ok store, r')) : Schema.StandsFor schemata name d := by
  rcases lookup_or_brings_of_load hload with hd | ⟨schema, hschema, hb⟩
  · exact standsFor_of_lookup h hd
  · exact (standsFor_of_lookup h hschema).defines.brings hb

end Load

/-- A name that is not defined in two ways means the same in every context. -/
theorem unambiguous_of_single (h : Store.build schemata r = (.ok store, r'))
    (hs : Schema.Single schemata name) : store.Unambiguous name := by
  intro context q q' d f hload hf
  obtain ⟨stored, hstored, hform⟩ := Option.bind_eq_some_iff.1 hf
  exact hs stored d (standsFor_of_lookup h hstored) (standsFor_of_load hload h) f hform

end Store

end AvroCodec
