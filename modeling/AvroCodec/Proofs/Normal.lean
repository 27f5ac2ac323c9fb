import AvroCodec.Proofs.Comparing

/-!
# Normal forms

What a parser makes of a schema depends on the schema alone, and not on what the registry holds: an
attempt that succeeds gives the schema's normal form.
-/

namespace AvroCodec

open Json

namespace Json

abbrev field (name : String) (type : Json) : Json := .obj [("name", .str name), ("type", type)]

abbrev record (name : String) (fields : List Json) : Json :=
  .obj [("type", .str "record"), ("name", .str name), ("fields", .arr fields)]

end Json

namespace Schema

variable {members : Members} {d space schema type : Json} {s t : Parsing} {hint : Bool} {r r' : Registry}
  {depth : Nat} {key name reference : String}

/-- A reference as it stands in a normal form. -/
def normalName (space : Json) (reference : String) : String :=
  if primitives.contains reference || hasDot reference || !space.truthy then reference
  else space.pasted ++ "." ++ reference

def normalSpace (space : Json) (members : Members) : Json :=
  (lookup "namespace" members).getD space

def withName (space : Json) (members : Members) : Members :=
  put "name" (qualify (normalSpace space members) ((lookup "name" members).getD .null))
    (carried members ((lookup "type" members).getD .null))

def normalField (normalType : Json → Json → Json) (space : Json) : Json → Json
  | .obj members =>
    .obj (put "type" (normalType space ((lookup "type" members).getD .null))
      (put "name" ((lookup "name" members).getD .null) (carriedInField members)))
  | field => field

/-- The normal form of a schema in a namespace, down to a depth. -/
def normalIn : Nat → Bool → Json → Json → Json
  | 0, _, _, schema => schema
  | depth + 1, hint, space, schema =>
    match schema with
    | .arr branches => .arr (branches.map (normalIn depth false space))
    | .obj members =>
      let type := (lookup "type" members).getD .null
      let inner (key : String) : Json := (lookup key members).getD .null
      match type with
      | .str "array" =>
        .obj (put "items" (normalIn depth false space (inner "items")) (carried members type))
      | .str "map" =>
        .obj (put "values" (normalIn depth false space (inner "values")) (carried members type))
      | .str "enum" => .obj (put "symbols" (inner "symbols") (withName space members))
      | .str "fixed" => .obj (put "size" (inner "size") (withName space members))
      | .str "record" | .str "error" =>
        let fields := (((lookup "fields" members).getD (.arr [])).elements?).getD []
        let parsed := fields.map (normalField (normalIn depth false) (normalSpace space members))
        let complete := put "fields" (.arr parsed) (withName space members)
        .obj (if hint then put parsedMark (.bool true) complete else complete)
      | _ => .obj (carried members type)
    | .str reference => .str (normalName space reference)
    | schema => schema

/-- What a loop over the fields of a record runs through. -/
def fieldList (members : Members) : List Json :=
  (((lookup "fields" members).getD (.arr [])).elements?).getD []

/-! ### Shapes

A parser takes an object apart by its type. Types that are taken apart in the same way have the same shape. -/

/-- What the type of an object says of its members. -/
inductive Shape where
  /-- Another type stands under the key. -/
  | container (key : String)
  /-- A definition is completed by what stands under the key. -/
  | leaf (key : String)
  | record
  | plain

def shapeOf (members : Members) : Shape :=
  match (lookup "type" members).getD .null with
  | .str "array" => .container "items"
  | .str "map" => .container "values"
  | .str "enum" => .leaf "symbols"
  | .str "fixed" => .leaf "size"
  | .str "record" | .str "error" => .record
  | _ => .plain

abbrev kept (members : Members) : Members :=
  carried members ((lookup "type" members).getD .null)

def normalMembers (normalType : Json → Json → Json) (hint : Bool) (space : Json) (members : Members) :
    Shape → List (String × Json)
  | .container key => put key (normalType space ((lookup key members).getD .null)) (kept members)
  | .leaf key => put key ((lookup key members).getD .null) (withName space members)
  | .record =>
    let parsed := (fieldList members).map (normalField normalType (normalSpace space members))
    let complete := put "fields" (.arr parsed) (withName space members)
    if hint then put parsedMark (.bool true) complete else complete
  | .plain => kept members

theorem normalIn_obj (depth : Nat) (hint : Bool) (space : Json) (members : Members) :
    normalIn (depth + 1) hint space (.obj members) =
      .obj (normalMembers (normalIn depth false) hint space members (shapeOf members)) := by
  unfold normalIn shapeOf
  dsimp only
  split <;> rfl

/-- Parses an object that has a type. -/
def parseMembers (parseType : Json → Json → Parse Json) (hint : Bool) (space : Json) (members : Members) :
    Shape → Parse Json
  | .container key => do
    let x ← (obj members).need key
    return .obj (put key (← parseType space x) (kept members))
  | .leaf key => parseLeaf (.obj members) space (kept members) key
  | .record => parseRecord (parseFieldWith parseType) hint (.obj members) space (kept members)
  | .plain =>
    let type := (lookup "type" members).getD .null
    if isPrimitive type then return .obj (kept members)
    else if type.isScalar then throw (.unknownType (obj members).literal)
    else throw .wrongShape

theorem parseIn_obj (depth : Nat) (expand hint : Bool) (space : Json) (members : Members) :
    parseIn (depth + 1) expand hint space (.obj members) = (do
      let _ ← (obj members).need "type"
      checkDecimal (kept members)
      parseMembers (parseIn depth expand false) hint space members (shapeOf members)) := by
  unfold parseIn shapeOf
  cases htype : lookup "type" members with
  | none =>
    rw [need, htype]
    rfl
  | some type =>
    rw [need, htype, kept, htype, Option.getD_some]
    change ((liftM (checkDecimal (carried members type)) : Parse Unit) >>= fun _ => _) =
      ((liftM (checkDecimal (carried members type)) : Parse Unit) >>= fun _ => _)
    refine bind_congr fun _ => ?_
    split <;> simp_all [parseMembers, kept]

theorem need_eq_ok {x : Json} : (obj members).need key = .ok x ↔ lookup key members = some x := by
  cases h : lookup key members <;> simp [need, h]

theorem needElements_eq_ok {items : List Json} :
    d.needElements = .ok items ↔ d.elements? = some items := by
  cases h : d.elements? <;> simp [needElements, h]

namespace Registry

def knows (r : Registry) (name : String) : Bool := (r.find? (.str name)).isSome

end Registry

theorem normalName_of_resolve (hp : primitives.contains reference = false)
    (h : resolve space reference = .ok name) : normalName space reference = name := by
  unfold resolve at h
  unfold normalName
  rw [hp, Bool.false_or]
  split_ifs at h ⊢
  · cases h
    rfl
  · split at h
    · cases h
      rfl
    · cases h

theorem parseReference_run (hp : primitives.contains reference = false) (h : resolve space reference = .ok name)
    (s : Parsing) : parseReference false space reference s =
      if s.registry.knows name then (.ok (.str name), s) else (.error (.unknownType name), s) := by
  unfold parseReference Registry.knows
  rw [if_neg (by rw [hp]; exact Bool.false_ne_true), h]
  refine (Action.bind_of_ok (show (liftM (Except.ok name) : Parse String) s = (.ok name, s) from rfl)).trans ?_
  refine (Action.bind_of_ok (show (get : Parse Parsing) s = (.ok s, s) from rfl)).trans ?_
  cases s.registry.find? (.str name) <;> rfl

theorem parseReference_eq (h : parseReference false space reference s = (.ok d, t)) :
    d = .str (normalName space reference) ∧ t = s ∧
      (primitives.contains reference = true ∨ s.registry.knows (normalName space reference) = true) := by
  by_cases hp : primitives.contains reference = true
  · rw [parseReference, if_pos hp] at h
    obtain ⟨rfl, rfl⟩ := pure_eq_ok.1 h
    exact ⟨by rw [normalName, hp]; rfl, rfl, .inl hp⟩
  · rw [Bool.not_eq_true] at hp
    cases hname : resolve space reference with
    | error e =>
      rw [parseReference, if_neg (by rw [hp]; exact Bool.false_ne_true), hname] at h
      exact (throw_eq_ok.1 h).elim
    | ok name =>
      rw [parseReference_run hp hname] at h
      rw [normalName_of_resolve hp hname]
      split_ifs at h with hknown
      · cases h
        exact ⟨rfl, rfl, .inr hknown⟩
      · cases h

theorem fullName_eq {inner name : Json}
    (h : fullName (.obj members) space = .ok (inner, name)) :
    inner = normalSpace space members ∧
      name = qualify inner ((lookup "name" members).getD .null) := by
  unfold fullName at h
  cases hn : lookup "name" members with
  | none => simp [hn] at h
  | some given =>
    simp only [hn, Except.ok.injEq, Prod.mk.injEq] at h
    obtain ⟨rfl, rfl⟩ := h
    exact ⟨rfl, rfl⟩

theorem parseLeaf_eq (h : parseLeaf (.obj members) space (kept members) key s = (.ok d, t)) :
    d = .obj (put key ((lookup key members).getD .null) (withName space members)) := by
  simp only [parseLeaf, bind_eq_ok, lift_eq_ok, pure_eq_ok] at h
  obtain ⟨⟨inner, name⟩, s₁, ⟨hname, rfl⟩, -, s₂, -, -, s₃, -, x, s₄, ⟨hx, rfl⟩, -, s₅, -, rfl, rfl⟩ := h
  obtain ⟨rfl, rfl⟩ := fullName_eq hname
  rw [need_eq_ok] at hx
  rw [hx]
  rfl

theorem parseFieldWith_eq {parseType : Json → Json → Parse Json} {normalType : Json → Json → Json}
    (ht : ∀ space type s d t, parseType space type s = (.ok d, t) → d = normalType space type)
    {field : Json} (h : parseFieldWith parseType space field s = (.ok d, t)) :
    d = normalField normalType space field := by
  cases field with
  | obj members =>
    rw [parseFieldWith] at h
    by_cases ha : (!((lookup "aliases" (carriedInField members)).getD (.arr [])).isArr) = true
    · simp only [ha, if_true, bind_eq_ok, throw_eq_ok, false_and, exists_false] at h
    · simp only [if_neg ha, bind_eq_ok, lift_eq_ok, pure_eq_ok, need_eq_ok] at h
      obtain ⟨name, s₂, ⟨hname, rfl⟩, type, s₃, ⟨htype, rfl⟩, parsed, s₄, hparsed, rfl, rfl⟩ := h
      rw [ht _ _ _ _ _ hparsed, normalField, hname, htype]
      rfl
  | _ => exact (throw_eq_ok.1 h).elim

theorem parseRecord_eq {parseType : Json → Json → Parse Json} {normalType : Json → Json → Json}
    (ht : ∀ space type s d t, parseType space type s = (.ok d, t) → d = normalType space type)
    (h : parseRecord (parseFieldWith parseType) hint (.obj members) space (kept members) s = (.ok d, t)) :
    d = .obj (normalMembers normalType hint space members .record) := by
  simp only [parseRecord, bind_eq_ok, lift_eq_ok, pure_eq_ok, needElements_eq_ok] at h
  obtain ⟨⟨inner, name⟩, s₁, ⟨hname, rfl⟩, -, s₂, -, -, s₃, -, fields, s₄, ⟨hfields, rfl⟩, parsed, s₅,
    hparsed, -, s₆, -, rfl, rfl⟩ := h
  obtain ⟨rfl, rfl⟩ := fullName_eq hname
  replace hfields : fieldList members = fields := congrArg (·.getD []) hfields
  obtain rfl := mapM_eq_map (g := normalField normalType (normalSpace space members))
    (fun _ _ _ _ hy => parseFieldWith_eq ht hy) hparsed
  rw [normalMembers, hfields]
  rfl

/-- An attempt that succeeds gives the normal form. -/
theorem parseIn_eq (h : parseIn depth false hint space schema s = (.ok d, t)) :
    d = normalIn depth hint space schema := by
  induction depth generalizing hint space schema s d t with
  | zero => exact (throw_eq_ok.1 h).elim
  | succ depth ih =>
    cases schema with
    | arr branches =>
      simp only [parseIn, bind_eq_ok, pure_eq_ok] at h
      obtain ⟨parsed, s₁, hparsed, rfl, rfl⟩ := h
      exact congrArg arr (mapM_eq_map (fun _ _ _ _ => ih) hparsed)
    | str reference => exact (parseReference_eq h).1
    | obj members =>
      simp only [parseIn_obj, bind_eq_ok, lift_eq_ok] at h
      obtain ⟨-, s₁, -, -, s₂, -, h⟩ := h
      rw [normalIn_obj]
      generalize shapeOf members = shape at h ⊢
      cases shape with
      | container key =>
        simp only [parseMembers, bind_eq_ok, lift_eq_ok, pure_eq_ok, need_eq_ok] at h
        obtain ⟨x, s₃, ⟨hx, rfl⟩, parsed, s₄, hparsed, rfl, rfl⟩ := h
        rw [normalMembers, hx, ih hparsed]
        rfl
      | leaf key => exact parseLeaf_eq h
      | record => exact parseRecord_eq (fun _ _ _ _ _ => ih) h
      | plain =>
        rw [parseMembers] at h
        split_ifs at h
        · exact (pure_eq_ok.1 h).1
        · exact (throw_eq_ok.1 h).elim
        · exact (throw_eq_ok.1 h).elim
    | _ => exact (throw_eq_ok.1 h).elim

/-- The normal form of a schema that stands for itself. What is marked as parsed is left alone, and the
branches of a union stand each for itself. -/
def normalTop : Nat → Json → Json
  | 0, schema => schema
  | depth + 1, schema =>
    match schema with
    | .obj members =>
      if (lookup parsedMark members).isSome then schema
      else normalIn (schema.depth + 1) true (.str "") schema
    | .arr branches => .arr (branches.map (normalTop depth))
    | _ => normalIn (schema.depth + 1) true (.str "") schema

def normal (schema : Json) : Json := normalTop (schema.depth + 1) schema

theorem parseFresh_eq_iff {expand : Bool} {t : Registry} {o : Except SchemaError Json} :
    parseFresh expand hint schema r = (o, t) ↔
      ∃ s, parseWith expand hint (.str "") schema ⟨r, []⟩ = (o, s) ∧ s.registry = t := by
  constructor
  · rintro ⟨⟩
    exact ⟨_, rfl, rfl⟩
  · rintro ⟨s, hs, rfl⟩
    rw [parseFresh, hs]

theorem parseFresh_eq
    (h : parseFresh false hint schema r = (.ok d, r')) :
    d = normalIn (schema.depth + 1) hint (.str "") schema := by
  obtain ⟨s, hs, -⟩ := parseFresh_eq_iff.1 h
  exact parseIn_eq hs

theorem parseTop_eq (h : parseTop depth {} schema r = (.ok d, r')) : d = normalTop depth schema := by
  induction depth generalizing schema d r r' with
  | zero => exact (throw_eq_ok.1 h).elim
  | succ depth ih =>
    cases schema with
    | obj members =>
      rw [parseTop] at h
      simp only [Bool.or_self, Bool.false_eq_true, if_false] at h
      rw [normalTop]
      by_cases hm : (lookup parsedMark members).isSome = true
      · simp only [if_pos hm, pure_eq_ok] at h
        simp only [if_pos hm, h.1]
      · simp only [if_neg hm] at h
        simp only [if_neg hm]
        exact parseFresh_eq h
    | arr branches =>
      rw [parseTop] at h
      simp only [Bool.or_self, Bool.false_eq_true, if_false, bind_eq_ok, pure_eq_ok] at h
      obtain ⟨parsed, s₁, hparsed, rfl, rfl⟩ := h
      exact congrArg arr (mapM_eq_map (fun _ _ _ _ => ih) hparsed)
    | _ =>
      simp only [parseTop, Bool.or_self, Bool.false_eq_true, if_false] at h
      exact parseFresh_eq h

theorem parse_eq (h : parse schema {} r = (.ok d, r')) :
    d = normal schema :=
  parseTop_eq h

theorem retry_eq {attempts : Nat}
    (h : retry attempts schema r = (.ok d, r')) : d = normal schema := by
  induction attempts generalizing r with
  | zero => exact (throw_eq_ok.1 h).elim
  | succ attempts ih =>
    rw [retry] at h
    beta_reduce at h
    split at h
    · exact ih h
    · exact parse_eq h

theorem parseOpen_eq (h : parseOpen schema r = (.ok d, r')) :
    d = normal schema :=
  retry_eq h

end Schema

end AvroCodec
