import AvroCodec.Proofs.Consistent

/-!
# What a database holds

A list of schemas is gathered by parsing one after the other and storing what each of them brings: the schema
under its identifier, and then the objects inside it that carry a dotted name. So a database is all of this put
in one after the other, and the last document under a name stays.

No dotted name that a schema defines is lost. A record that is marked as parsed is taken as it is, with the names
that stand in it.
-/

namespace AvroCodec

open Schema

namespace Json

variable {e : String × Json} {members : Members}

theorem mem_named_of_lookup {key : String} {x : Json} (h : lookup key members = some x) (he : e ∈ x.named) :
    e ∈ (obj members).named := by
  rw [named, namedMembers_eq]
  exact List.mem_append_right _ (List.mem_flatMap.2 ⟨_, mem_of_lookup h, he⟩)

theorem mem_named_of_item {x : Json} {items : List Json} (h : x ∈ items) (he : e ∈ x.named) :
    e ∈ (arr items).named := by
  rw [named, namedItems_eq]
  exact List.mem_flatMap.2 ⟨x, h, he⟩

theorem mem_named_self {name : String} (h : lookup "name" members = some (.str name))
    (hdot : hasDot name = true) :
    (name, obj members) ∈ (obj members).named := by
  rw [named, ownName, h]
  simp only [hdot, if_true]
  exact List.mem_append_left _ List.mem_cons_self

theorem lookup_of_mem_ownName (h : e ∈ ownName members) : lookup "name" members = some (.str e.1) := by
  unfold ownName at h
  split at h
  next name hname =>
    split_ifs at h
    · rw [List.mem_singleton.1 h]
      exact hname
    · cases h
  next => cases h

theorem exists_name_of_named {d : Json} (h : e ∈ d.named) :
    ∃ members, e.2 = .obj members ∧ lookup "name" members = some (.str e.1) := by
  obtain ⟨members, -, he⟩ := exists_inside h
  exact ⟨members, (eq_of_mem_ownName he).2, lookup_of_mem_ownName he⟩

end Json

namespace Schema

variable {members : Members} {name : String}

theorem mem_named_of_fieldTypes {e : String × Json} {type : Json} (h : type ∈ fieldTypes members)
    (he : e ∈ type.named) :
    e ∈ (Json.obj members).named := by
  obtain ⟨field, hfield, rfl⟩ := List.mem_map.1 h
  rcases mem_fieldList_cases hfield with ⟨text, rfl⟩ | ⟨items, hitems, hitem⟩
  · cases he
  · refine Json.mem_named_of_lookup hitems (Json.mem_named_of_item hitem ?_)
    cases field with
    | obj inner =>
      cases htype : Json.lookup "type" inner with
      | none =>
        rw [Json.get?, htype] at he
        cases he
      | some type =>
        rw [Json.get?, htype] at he
        exact Json.mem_named_of_lookup htype he
    | _ => cases he

theorem mem_named_of_inner {e : String × Json} {d x : Json} (h : x ∈ inner d) (he : e ∈ x.named) : e ∈ d.named := by
  cases d with
  | arr branches => exact Json.mem_named_of_item h he
  | obj members =>
    rw [inner_obj] at h
    generalize shapeOf members = shape at h
    cases shape with
    | container key =>
      cases List.mem_singleton.1 h
      cases hx : Json.lookup key members with
      | none =>
        rw [hx] at he
        cases he
      | some x =>
        rw [hx] at he
        exact Json.mem_named_of_lookup hx he
    | record => exact mem_named_of_fieldTypes h he
    | _ => cases h
  | _ => cases h

theorem mem_named_of_schemas {e : String × Json} {depth : Nat} {d x : Json} (h : x ∈ schemas depth d)
    (he : e ∈ x.named) : e ∈ d.named := by
  induction depth generalizing d with
  | zero => cases h
  | succ depth ih =>
    rcases List.mem_cons.1 h with rfl | h
    · exact he
    · obtain ⟨y, hy, hx⟩ := List.mem_flatMap.1 h
      exact mem_named_of_inner hy (ih hx)

theorem mem_named_of_fields {e : String × Json} {space type : Json} {normalType : Json → Json → Json}
    (h : type ∈ fieldTypes members) (hnull : normalType space .null = .null) (he : e ∈ (normalType space type).named) :
    e ∈ (Json.arr ((fieldList members).map (normalField normalType space))).named := by
  obtain ⟨field, hfield, rfl⟩ := List.mem_map.1 h
  refine Json.mem_named_of_item (List.mem_map_of_mem hfield) ?_
  cases field with
  | obj inner => exact Json.mem_named_of_lookup (Json.lookup_put_self ..) he
  | _ =>
    change e ∈ (normalType space .null).named at he
    rw [hnull] at he
    cases he

theorem normalIn_null (depth : Nat) (hint : Bool) (space : Json) : normalIn depth hint space .null = .null := by
  cases depth <;> rfl

/-- A definition with a dotted name that a parser meets is a named object of the normal form. -/
theorem exists_named_of_definition (hdot : hasDot name = true) {depth : Nat} (hint : Bool) {space d : Json}
    (h : .definition (.str name) ∈ mentions depth space d) : ∃ x, (name, x) ∈ (normalIn depth hint space d).named := by
  induction depth generalizing hint space d with
  | zero => cases h
  | succ depth ih =>
    cases d with
    | arr branches =>
      obtain ⟨branch, hbranch, h⟩ := List.mem_flatMap.1 h
      obtain ⟨x, hx⟩ := ih false h
      exact ⟨x, Json.mem_named_of_item (List.mem_map_of_mem hbranch) hx⟩
    | obj members =>
      have hself : isDefinition (.obj members) = true →
          Mention.definition (.str name) = .definition (definedName space members) →
          ∃ x, (name, x) ∈ (normalIn (depth + 1) hint space (.obj members)).named := by
        intro hdef h
        rw [normalIn_obj]
        refine ⟨_, Json.mem_named_self ?_ hdot⟩
        rw [lookup_normalMembers_name, if_pos hdef, Mention.definition.inj h]
      rw [isDefinition_obj] at hself
      rw [mentions_obj] at h
      cases hshape : shapeOf members with
      | container key =>
        rw [hshape] at h
        obtain ⟨x, hx⟩ := ih false h
        rw [normalIn_obj, hshape]
        exact ⟨x, Json.mem_named_of_lookup (Json.lookup_put_self ..) hx⟩
      | leaf key =>
        rw [hshape] at h hself
        exact hself rfl (List.mem_singleton.1 h)
      | record =>
        rw [hshape] at h hself
        rcases List.mem_cons.1 h with h | h
        · exact hself rfl h
        · obtain ⟨type, htype, h⟩ := List.mem_flatMap.1 h
          obtain ⟨x, hx⟩ := ih false h
          rw [normalIn_obj]
          exact ⟨x, Json.mem_named_of_lookup (lookup_normalMembers_record hshape).2
            (mem_named_of_fields htype (normalIn_null ..) hx)⟩
      | plain =>
        rw [hshape] at h
        cases h
    | str reference =>
      rw [mentions] at h
      split_ifs at h with hp
      · cases h
      · cases List.mem_singleton.1 h
    | _ => cases h

/-- The names that a schema defines in a list. What is marked as parsed is not parsed again, so that the names of its
definitions are those that they carry. -/
inductive Declares : Json → String → Prop
  | fresh {members : Members} {name : String}
      (hmark : (Json.lookup parsedMark members).isSome = false)
      (h : .definition (.str name) ∈ mentions ((Json.obj members).depth + 1) (.str "") (.obj members)) :
      Declares (.obj members) name
  | marked {members : Members} {name : String} {d : Json}
      (hmark : (Json.lookup parsedMark members).isSome = true)
      (h : d ∈ schemas ((Json.obj members).depth + 1) (.obj members)) (hdef : isDefinition d = true)
      (hname : nameOf d = .str name) : Declares (.obj members) name
  | branch {branches : List Json} {branch : Json} {name : String} (hbranch : branch ∈ branches)
      (h : Declares branch name) : Declares (.arr branches) name

theorem mem_named_of_isDefinition {d : Json} (hdef : isDefinition d = true) (hname : nameOf d = .str name)
    (hdot : hasDot name = true) : (name, d) ∈ d.named := by
  cases d with
  | obj members => exact Json.mem_named_self (Json.lookup_of_getD hname) hdot
  | _ => cases hdef

/-- A dotted name that a schema defines is carried by an object of its normal form. -/
theorem Declares.exists_named {d : Json} (h : Declares d name) (hdot : hasDot name = true) :
    ∃ x, (name, x) ∈ (normal d).named := by
  suffices hdepth : ∀ depth, d.depth < depth → ∃ x, (name, x) ∈ (normalTop depth d).named from
    hdepth _ (Nat.lt_succ_self _)
  induction h with
  | fresh hmark h =>
    rintro (_ | depth) hdepth
    · exact absurd hdepth (Nat.not_lt_zero _)
    · rw [normalTop, if_neg (Bool.eq_false_iff.1 hmark)]
      exact exists_named_of_definition hdot true h
  | marked hmark h hdef hname =>
    rintro (_ | depth) hdepth
    · exact absurd hdepth (Nat.not_lt_zero _)
    · rw [normalTop, if_pos hmark]
      exact ⟨_, mem_named_of_schemas h (mem_named_of_isDefinition hdef hname hdot)⟩
  | branch hbranch _ ih =>
    rintro (_ | depth) hdepth
    · exact absurd hdepth (Nat.not_lt_zero _)
    · have hle := Json.depth_le_of_mem_items hbranch
      rw [Json.depth] at hdepth
      obtain ⟨x, hx⟩ := ih hdot depth (by omega)
      exact ⟨x, Json.mem_named_of_item (List.mem_map_of_mem hbranch) hx⟩

end Schema

namespace Database

variable {schemata : Schemata} {db db' : Database} {name : String} {x : Json} {r r' : Schema.Registry}

theorem lookup_store_eq (es : Database) (name : String) :
    Json.lookup name (store [] es) = ((es.filter fun e => e.1 == name).getLast?).map Prod.snd := by
  induction es using List.reverseRecOn with
  | nil => rfl
  | append_singleton es e ih =>
    rw [store_append, List.filter_append]
    change Json.lookup name (Json.put e.1 e.2 (store [] es)) = _
    by_cases hname : e.1 = name
    · subst hname
      rw [Json.lookup_put_self, List.filter_cons_of_pos (by exact beq_self_eq_true _), List.filter_nil,
        List.getLast?_append]
      rfl
    · rw [Json.lookup_put_of_ne (Ne.symm hname), ih, List.filter_cons_of_neg (by simpa using hname), List.filter_nil,
        List.append_nil]

theorem getLast?_named_of_lookup (h : gather schemata r = (.ok db, r')) (hname : name ∉ schemata.map Prod.fst)
    (hx : Json.lookup name db = some x) :
    (((schemata.map fun e => normal e.2).flatMap Json.named).filter fun e => e.1 == name).getLast? =
      some (name, x) := by
  have hfilter : (schemata.flatMap brought).filter (fun e => e.1 == name) =
      ((schemata.map fun e => normal e.2).flatMap Json.named).filter fun e => e.1 == name := by
    rw [List.flatMap_map, List.filter_flatMap, List.filter_flatMap]
    refine List.flatMap_congr fun e he => ?_
    have hne : ¬ e.1 = name := by
      rintro rfl
      exact hname (List.mem_map_of_mem he)
    rw [brought, List.filter_append]
    split_ifs
    · rw [List.filter_cons_of_neg (by simpa using hne), List.filter_nil, List.nil_append]
    · rfl
  rw [(gather_eq h).1, lookup_store_eq, hfilter, Option.map_eq_some_iff] at hx
  obtain ⟨e, he, rfl⟩ := hx
  have hmem := List.mem_filter.1 (List.mem_of_getLast? he)
  rw [he, ← eq_of_beq hmem.2]

/-- No dotted name is lost. Identifiers are keys, and so are the names that the schemas define. What stands under a key
that is not an identifier is an object with this name, the last one among the parsed schemas. -/
theorem names_kept (h : gather schemata r = (.ok db, r')) :
    (∀ e ∈ schemata, hasDot e.1 = true → (Json.lookup e.1 db).isSome = true) ∧
    (∀ e ∈ schemata, ∀ name, Schema.Declares e.2 name → hasDot name = true →
      (Json.lookup name db).isSome = true) ∧
    ∃ parsed, List.Forall₂ (fun e d => ∃ q q', parseOpen e.2 q = (.ok d, q')) schemata parsed ∧
      ∀ name x, Json.lookup name db = some x → name ∉ schemata.map Prod.fst →
        (∃ members, x = .obj members ∧ Json.lookup "name" members = some (.str name)) ∧
        ((parsed.flatMap Json.named).filter fun e => e.1 == name).getLast? = some (name, x) := by
  refine ⟨fun e he hdot => ?_, fun e he name hname hdot => ?_, schemata.map fun e => normal e.2, ?_, ?_⟩
  · refine isSome_lookup_of_brought h he (x := normal (normal e.2)) ?_
    rw [brought, if_pos hdot]
    exact List.mem_append_left _ List.mem_cons_self
  · obtain ⟨x, hx⟩ := hname.exists_named hdot
    exact isSome_lookup_of_brought h he (List.mem_append_right _ hx)
  · rw [List.forall₂_map_right_iff, List.forall₂_same]
    exact fun e he => ((gather_eq h).2 e he).2
  · intro name x hx hname
    have hlast := getLast?_named_of_lookup h hname hx
    obtain ⟨d, -, hmem⟩ := List.mem_flatMap.1 (List.mem_filter.1 (List.mem_of_getLast? hlast)).1
    exact ⟨Json.exists_name_of_named hmem, hlast⟩

/-- Two schemas with an enumeration of the same name inside. -/
def crateSchemata : Schemata :=
  [("shop.box", .obj [("type", .str "record"), ("name", .str "Box"), ("namespace", .str "shop"),
      ("fields", .arr [.field "kind" (.obj [("type", .str "enum"), ("name", .str "Kind"),
        ("symbols", .arr [.str "flat"])])])]),
    ("crate", .obj [("type", .str "array"), ("items", .obj [("type", .str "enum"), ("name", .str "shop.Kind"),
      ("symbols", .arr [.str "tall"])])])]

theorem exists_gather (schemata : Schemata) (P : Database → Prop) [DecidablePred P]
    (h : (match gather schemata [] with
      | (.ok db, _) => decide (P db)
      | (.error _, _) => false) = true) :
    ∃ db r', gather schemata [] = (.ok db, r') ∧ P db := by
  split at h
  next db r' hdb => exact ⟨db, r', hdb, of_decide_eq_true h⟩
  next => cases h

theorem crate_names_kept : ∃ db r', gather crateSchemata [] = (.ok db, r') ∧
    (Json.lookup "shop.box" db).isSome = true ∧ (Json.lookup "shop.Box" db).isSome = true ∧
    ∃ (parsed : List Json) (x : Json), Json.lookup "shop.Kind" db = some x ∧
      ((parsed.flatMap Json.named).filter fun e => e.1 == "shop.Kind").getLast? = some ("shop.Kind", x) ∧
      x.get? "symbols" = some (.arr [.str "tall"]) := by
  obtain ⟨db, r', hdb, hkind⟩ := exists_gather crateSchemata
    (fun db => (Json.lookup "shop.Kind" db).bind (·.get? "symbols") = some (.arr [.str "tall"])) (by decide +kernel)
  obtain ⟨hidentifiers, hnames, parsed, -, hlast⟩ := names_kept hdb
  obtain ⟨x, hx, hsymbols⟩ := Option.bind_eq_some_iff.1 hkind
  refine ⟨db, r', hdb, ?_, ?_, parsed, x, hx, (hlast _ x hx (by decide)).2, hsymbols⟩
  · exact hidentifiers _ List.mem_cons_self (by decide)
  · exact hnames _ List.mem_cons_self "shop.Box" (.fresh rfl List.mem_cons_self) (by decide)

/-- A record that is marked as parsed, though its name is not a full name. -/
def markedBox : Members :=
  [("type", .str "record"), ("name", .str "Box"), ("namespace", .str "shop"), ("fields", .arr []),
    (parsedMark, .bool true)]

/-- The full name of a record is lost if it is marked as parsed. -/
theorem marked_name_lost : ∃ db r', gather [("shop.crate", .obj markedBox)] [] = (.ok db, r') ∧
    definedName (.str "") markedBox = .str "shop.Box" ∧ Json.lookup "shop.Box" db = none := by
  obtain ⟨db, r', hdb, hlost⟩ := exists_gather [("shop.crate", .obj markedBox)]
    (fun db => Json.lookup "shop.Box" db = none) (by decide +kernel)
  exact ⟨db, r', hdb, by decide, hlost⟩

end Database

end AvroCodec
