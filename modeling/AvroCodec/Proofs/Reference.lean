import AvroCodec.Proofs.Definition

/-!
# References of a schema

A parser goes through a schema in one order, and meets references to names and definitions of names on its
way, which stand where a type can stand. `Schema.mentions` lists them, each with the full name that it means
there. There are no more references than strings.
-/

namespace AvroCodec.Schema

open Json

variable {members : Members}

def fieldTypes (members : Members) : List Json :=
  (fieldList members).map fun field => (field.get? "type").getD .null

theorem fieldList_of_needElements {fields : List Json}
    (h : ((lookup "fields" members).getD (.arr [])).needElements = .ok fields) : fieldList members = fields := by
  rw [fieldList, needElements_eq_ok.1 h, Option.getD_some]

theorem mem_fieldTypes {field : Json}
    (h : field ∈ fieldList members) : (field.get? "type").getD .null ∈ fieldTypes members :=
  List.mem_map.2 ⟨field, h, rfl⟩

theorem mem_fieldList_cases {x : Json} (h : x ∈ fieldList members) :
    (∃ s, x = .str s) ∨ ∃ items, lookup "fields" members = some (.arr items) ∧ x ∈ items := by
  unfold fieldList at h
  cases hfields : lookup "fields" members with
  | none => simp [hfields, elements?] at h
  | some fields =>
    rw [hfields, Option.getD_some] at h
    cases fields with
    | arr items => exact .inr ⟨items, rfl, h⟩
    | str s =>
      obtain ⟨c, -, rfl⟩ := List.mem_map.1 (show x ∈ s.toList.map fun c => str c.toString from h)
      exact .inl ⟨_, rfl⟩
    | obj inner =>
      obtain ⟨m, -, rfl⟩ := List.mem_map.1 (show x ∈ inner.map fun m => str m.1 from h)
      exact .inl ⟨_, rfl⟩
    | _ => simp [elements?] at h

theorem depth_le_of_mem_fieldList {x : Json} (h : x ∈ fieldList members) : x.depth ≤ depthMembers members := by
  rcases mem_fieldList_cases h with ⟨s, rfl⟩ | ⟨items, hfields, hx⟩
  · exact Nat.zero_le _
  · have hitems := depth_le_of_mem_items hx
    exact (hitems.trans (Nat.le_succ _)).trans (depth_le_of_lookup hfields)

theorem depth_le_of_mem_fieldTypes {type : Json}
    (h : type ∈ fieldTypes members) : type.depth ≤ depthMembers members := by
  obtain ⟨field, hfield, rfl⟩ := List.mem_map.1 h
  refine Nat.le_trans ?_ (depth_le_of_mem_fieldList hfield)
  cases field with
  | obj inner => exact (depth_getD_le "type" inner).trans (Nat.le_succ _)
  | _ => exact Nat.zero_le _

/-- What a parser meets: a reference to a name, or a definition of one. -/
inductive Mention where
  | reference (name : String)
  | definition (name : Json)

/-- The full name that a definition gives to its type. -/
def definedName (space : Json) (members : Members) : Json :=
  qualify (normalSpace space members) ((lookup "name" members).getD .null)

/-- What a parser meets in a schema, in this order, down to a depth. -/
def mentions : Nat → Json → Json → List Mention
  | 0, _, _ => []
  | depth + 1, space, schema =>
    match schema with
    | .arr branches => branches.flatMap (mentions depth space)
    | .obj members =>
      let inner (key : String) : Json := (lookup key members).getD .null
      match inner "type" with
      | .str "array" => mentions depth space (inner "items")
      | .str "map" => mentions depth space (inner "values")
      | .str "enum" | .str "fixed" => [.definition (definedName space members)]
      | .str "record" | .str "error" =>
        .definition (definedName space members) ::
          (fieldTypes members).flatMap (mentions depth (normalSpace space members))
      | _ => []
    | .str reference =>
      if primitives.contains reference then [] else [.reference (normalName space reference)]
    | _ => []

theorem mentions_obj (depth : Nat) (space : Json) (members : Members) :
    mentions (depth + 1) space (.obj members) = match shapeOf members with
      | .container key => mentions depth space ((lookup key members).getD .null)
      | .leaf _ => [.definition (definedName space members)]
      | .record => .definition (definedName space members) ::
          (fieldTypes members).flatMap (mentions depth (normalSpace space members))
      | .plain => [] := by
  rw [mentions, shapeOf]
  dsimp only
  split <;> simp_all

/-- What an attempt to parse a schema meets. -/
def topMentions : Nat → Json → List Mention
  | 0, _ => []
  | depth + 1, schema =>
    match schema with
    | .obj members =>
      if (lookup parsedMark members).isSome then []
      else mentions (schema.depth + 1) (.str "") schema
    | .arr branches => branches.flatMap (topMentions depth)
    | _ => mentions (schema.depth + 1) (.str "") schema

/-- Every object has a type that there is, wherever a schema stands. -/
inductive Recognised : Json → Prop
  | union {branches : List Json} : (∀ branch ∈ branches, Recognised branch) →
      Recognised (.arr branches)
  | array {members : Members} : lookup "type" members = some (.str "array") →
      (∀ items, lookup "items" members = some items → Recognised items) →
      Recognised (.obj members)
  | map {members : Members} : lookup "type" members = some (.str "map") →
      (∀ values, lookup "values" members = some values → Recognised values) →
      Recognised (.obj members)
  | record {members : Members} {type : String} :
      lookup "type" members = some (.str type) → type ∈ ["record", "error"] →
      (∀ inner ∈ fieldTypes members, Recognised inner) → Recognised (.obj members)
  | leaf {members : Members} {type : String} :
      lookup "type" members = some (.str type) → type ∈ "enum" :: "fixed" :: primitives →
      Recognised (.obj members)
  | plain {d : Json} : d.isObj = false → d.isArr = false → Recognised d

namespace Recognised

variable {members : Members} {x : Json}

theorem branch {branches : List Json} (h : Recognised (.arr branches)) {branch : Json}
    (hb : branch ∈ branches) : Recognised branch := by
  cases h with
  | union h => exact h branch hb
  | plain _ h => cases h

theorem inner (h : Recognised (.obj members)) :
    (∀ key, shapeOf members = .container key → lookup key members = some x → Recognised x) ∧
      (shapeOf members = .record → x ∈ fieldTypes members → Recognised x) ∧
      (shapeOf members = .plain → isPrimitive ((lookup "type" members).getD .null) = true) := by
  unfold shapeOf
  cases h with
  | array ht h | map ht h =>
    rw [ht]
    refine ⟨?_, nofun, nofun⟩
    rintro _ ⟨⟩ hx
    exact h x hx
  | record ht hmem h =>
    rw [ht]
    simp only [List.mem_cons, List.not_mem_nil, or_false] at hmem
    rcases hmem with rfl | rfl <;> exact ⟨nofun, fun _ => h x, nofun⟩
  | leaf ht hmem =>
    rw [ht]
    simp only [primitives, List.mem_cons, List.not_mem_nil, or_false] at hmem
    refine ⟨?_, ?_, ?_⟩ <;> rcases hmem with rfl | rfl | rfl | rfl | rfl | rfl | rfl | rfl | rfl | rfl <;>
      first | exact fun _ => rfl | exact nofun
  | plain h _ => cases h

end Recognised

theorem stringCount_le_of_lookup {key : String} {x : Json}
    (h : lookup key members = some x) : x.stringCount ≤ stringCountMembers members := by
  induction members with
  | nil => cases h
  | cons m rest ih =>
    obtain ⟨k, y⟩ := m
    rw [lookup] at h
    rw [stringCountMembers]
    split_ifs at h with hk
    · cases h
      exact Nat.le_add_right ..
    · exact Nat.le_trans (ih h) (Nat.le_add_left ..)

section Count

variable {depth : Nat} {space schema : Json} {p : Mention → Bool}

theorem countP_flatMap_le {f : Json → List Mention} {items : List Json}
    (h : ∀ x ∈ items, (f x).countP p ≤ x.stringCount) :
    (items.flatMap f).countP p ≤ stringCountItems items := by
  induction items with
  | nil => exact Nat.le_refl _
  | cons x xs ih =>
    rw [List.flatMap_cons, List.countP_append, stringCountItems]
    exact Nat.add_le_add (h x List.mem_cons_self) (ih fun y hy => h y (List.mem_cons_of_mem _ hy))

theorem stringCountItems_types_le (items : List Json) :
    stringCountItems (items.map fun field => (field.get? "type").getD .null) ≤
      stringCountItems items := by
  induction items with
  | nil => exact Nat.le_refl _
  | cons x xs ih =>
    rw [List.map_cons, stringCountItems, stringCountItems]
    refine Nat.add_le_add ?_ ih
    cases x with
    | obj members =>
      cases htype : lookup "type" members with
      | none => simp only [get?, htype, Option.getD_none, stringCount, Nat.zero_le]
      | some type =>
        simp only [get?, htype, Option.getD_some]
        exact stringCount_le_of_lookup htype
    | _ => exact Nat.zero_le _

theorem stringCountItems_names {α : Type} (f : α → String) (xs : List α) :
    stringCountItems ((xs.map fun a => str (f a)).map fun field =>
      (field.get? "type").getD .null) = 0 := by
  induction xs with
  | nil => rfl
  | cons x xs ih =>
    rw [List.map_cons, List.map_cons, stringCountItems, ih]
    rfl

theorem stringCountItems_fieldTypes_le (members : Members) :
    stringCountItems (fieldTypes members) ≤ stringCountMembers members := by
  unfold fieldTypes fieldList
  cases h : lookup "fields" members with
  | none => exact Nat.zero_le _
  | some fields =>
    cases fields with
    | arr items =>
      exact Nat.le_trans (stringCountItems_types_le items) (stringCount_le_of_lookup h)
    | str s => exact Nat.le_trans (Nat.le_of_eq (stringCountItems_names _ s.toList)) (Nat.zero_le _)
    | obj inner => exact Nat.le_trans (Nat.le_of_eq (stringCountItems_names _ inner)) (Nat.zero_le _)
    | _ => exact Nat.zero_le _

theorem countP_mentions_le (hp : ∀ d, p (.definition d) = false) :
    (mentions depth space schema).countP p ≤ schema.stringCount := by
  induction depth generalizing space schema with
  | zero => exact Nat.zero_le _
  | succ depth ih =>
    have hinner : ∀ (members : Members) (key : String),
        (mentions depth space ((lookup key members).getD .null)).countP p ≤
          stringCountMembers members := by
      intro members key
      cases h : lookup key members with
      | none => exact Nat.le_trans ih (Nat.zero_le _)
      | some x => exact Nat.le_trans ih (stringCount_le_of_lookup h)
    cases schema with
    | arr branches => exact countP_flatMap_le fun x _ => ih
    | obj members =>
      have hdefinition : ∀ d ms, (Mention.definition d :: ms).countP p = ms.countP p := fun d ms =>
        List.countP_cons_of_neg (by rw [hp]; exact Bool.false_ne_true)
      have hfields : ∀ space, ((fieldTypes members).flatMap (mentions depth space)).countP p ≤
          stringCountMembers members := fun space =>
        Nat.le_trans (countP_flatMap_le fun x _ => ih) (stringCountItems_fieldTypes_le members)
      rw [mentions_obj]
      cases shapeOf members with
      | container key => exact hinner members key
      | leaf => exact (hdefinition _ []).trans_le (Nat.zero_le _)
      | record => exact (hdefinition _ _).trans_le (hfields _)
      | plain => exact Nat.zero_le _
    | str reference =>
      rw [mentions]
      split_ifs
      · exact Nat.zero_le _
      · exact List.countP_le_length
    | _ => exact Nat.zero_le _

theorem countP_topMentions_le (hp : ∀ d, p (.definition d) = false) :
    (topMentions depth schema).countP p ≤ schema.stringCount := by
  induction depth generalizing schema with
  | zero => exact Nat.zero_le _
  | succ depth ih =>
    cases schema with
    | obj members =>
      rw [topMentions]
      split_ifs
      · exact Nat.zero_le _
      · exact countP_mentions_le hp
    | arr branches => exact countP_flatMap_le fun x _ => ih
    | _ => exact countP_mentions_le hp

end Count

end AvroCodec.Schema
