import AvroCodec.Generator.Routine

/-!
# Generating code that writes

One function for each shape of a schema, and `Gen.encodeStep` that chooses among them. All work for any
way to generate the code of the schemas inside, which is their first argument.
-/

namespace AvroCodec

open Code

namespace Gen

def encodeType (r : Recursion) (type : String) (place : Place) : Gen Encoder := do
  if type = "null" then return .null
  if ← isStored type then
    let schema ← load type
    within type (r.encode schema place)
  else return .primitive type place

/-- What is known of a logical type before any code is made for it. -/
def logicalType (kind base schema : Json) : Gen Logical := do
  let kind ← Logical.kindOf kind
  if Text.occurs "nano_time" kind && !(← read).extended then throw .nanoTime
  return { kind, base, params := Logical.paramsOf schema }

def encodeArray (r : Recursion) (schema : Json) (place : Place) : Gen Encoder := do
  let item ← freshValue
  let items ← schema.need "items"
  let body ← r.encode items (.of item)
  return .array place item body

def encodeEnum (schema : Json) (place : Place) : Gen Encoder := do
  return .enum place (← schema.need "symbols")

def encodeMap (r : Recursion) (schema : Json) (place : Place) : Gen Encoder := do
  let name ← freshMap
  declare "dict" name
  let values ← schema.need "values"
  let key ← freshKey
  let value ← freshValue
  declare "str" key
  requireReady
  let body ← r.encode values (.of value)
  return .map place key value body

/-- The types of a union in the order in which they are tried, each with its position in the schema:
`null` comes first. Equal types share the position of the first of them. -/
def inTrialOrder (types : List Json) : List (Json × Nat) :=
  let position (t : Json) : Nat := types.findIdx fun u => u = t || u.same t
  let nullType := Json.str "null"
  let nulls := if types.any (·.same nullType) then [(nullType, position nullType)] else []
  nulls ++ (types.filter (!·.same nullType)).map fun t => (t, position t)

def isArrayType (type : Json) : Bool :=
  (type.get? "type").any (Json.isStr "array")

def encodePlain (r : Recursion) (place : Place) (types : List (Json × Nat)) :
    Gen (List Encoder) :=
  types.mapM fun t => if t.1.isStr "null" then encodeType r "null" place else r.encode t.1 place

def encodeTagged (r : Recursion) (data : String) (types : List (Json × Nat)) :
    Gen (List (String × Encoder)) :=
  types.mapM fun t => do
    requireReady
    let tag ← tagOf t.1
    return (tag.pasted, ← r.encode t.1 (.of data))

def branches : List (Json × Nat) → List Encoder → List (String × Encoder) → List Guard →
    List (Branch Encoder)
  | t :: ts, p :: ps, (tag, tagged) :: tgs, g :: gs =>
    ⟨tag, t.2, g, tagged, p⟩ :: branches ts ps tgs gs
  | _, _, _, _ => []

/-- A union of the given types. The subject is missing if it cannot be written down. -/
def encodeBranches (r : Recursion) (types : List Json) (inner : Place) (subject : Option Subject) :
    Gen Encoder := do
  if (types.filter isArrayType).length > 1 then throw .severalArrays
  let ordered := inTrialOrder types
  let plain ← encodePlain r inner ordered
  let tag ← freshTag
  declare "str" tag
  let data ← freshValue
  match subject with
  | none => throw .wrongShape
  | some subject =>
    let tagged ← encodeTagged r data ordered
    let guards ← ordered.mapM fun t => guardOf t.1
    return .union subject tag data (branches ordered plain tagged guards)

def encodeUnion (r : Recursion) (schema : Json) (place : Place) : Gen Encoder := do
  let types ← schema.needElements
  encodeBranches r types place (if place.text = "" then none else some (.value place))

def encodeUnionField (r : Recursion) (schema : Json) (place : Place) : Gen Encoder := do
  match schema with
  | .obj _ =>
    let name ← schema.need "name"
    let types ← (← schema.need "type").needElements
    let subject :=
      match name with
      | .str key => some (Subject.member place key)
      | _ => none
    encodeBranches r types (place.member name) subject
  | _ => throw (.unhandled schema)

/-- Code that first puts the schema's default where nothing is. -/
def filledFrom (schema : Json) (place : Place) (next : Encoder) : Encoder :=
  match schema.get? "default" with
  | none | some .null => next
  | some value => .filled place value next

/-- A field whose type is a definition of the store. A recursive type is entered at the record's own
place, in the context of the type. -/
def encodeReferenceField (r : Recursion) (schema : Json) (type : String) (place : Place) :
    Gen Encoder := do
  let loaded ← load type
  let outer := (← get).context
  setContext type
  if (← read).store.isCycleStarting type then
    meet r type
    return .recur type place
  let name ← schema.need "name"
  let code ← r.encode loaded (place.member name)
  setContext outer
  return code

def encodeObject (r : Recursion) (schema type : Json) (place : Place) : Gen Encoder := do
  match schema.get? "logicalType" with
  | some kind => return .logical (← logicalType kind type schema) place
  | none =>
    match type with
    | .str "record" =>
      let fields ← (← schema.need "fields").needElements
      return .fields (← fields.mapM (r.encode · place))
    | .str "array" => encodeArray r schema place
    | .str "enum" => encodeEnum schema place
    | .str "map" => encodeMap r schema place
    | .str "fixed" => encodeType r "fixed" place
    | .obj _ =>
      let inner := place.member (← schema.need "name")
      return filledFrom schema inner (← r.encode type inner)
    | .arr _ => encodeUnionField r schema place
    | .str name =>
      if isBasic name then
        let given := (schema.get? "name").getD .null
        let inner := if given.truthy then place.member given else place
        return filledFrom schema inner (← encodeType r name inner)
      else if (← read).store.contains name then encodeReferenceField r schema name place
      else throw (.unhandled schema)
    | _ => throw (.unhandled schema)

/-- One step of generating code that writes the value at a place. -/
def encodeStep (r : Recursion) (schema : Json) (place : Place) : Gen Encoder := do
  match schema with
  | .str name =>
    if ← isRecursive name then
      meet r name
      return .recur name place
    else encodeType r name place
  | .arr _ => encodeUnion r schema place
  | _ => encodeObject r schema (← schema.need "type") place

end Gen

end AvroCodec
