import AvroCodec.Generator.Encode

/-!
# Generating code that reads

The counterpart of code that writes: one function for each shape of a schema, and `Gen.decodeStep` that
chooses among them.
-/

namespace AvroCodec

open Code

namespace Gen

/-- A type given by its name, with the schema that a reader of fixed size is told. -/
def decodeType (r : Recursion) (type : String) (schema : Json) (place : Place) : Gen Decoder := do
  if type = "null" then return .null place
  if ← isStored type then
    let loaded ← load type
    within type (r.decode loaded place)
  else return .primitive type schema place

def decodeArray (r : Recursion) (schema : Json) (place : Place) : Gen Decoder := do
  let index ← freshInteger
  let count ← freshInteger
  let item ← freshValue
  declare "long long" index
  declare "long long" count
  let items ← schema.need "items"
  requireReady
  let body ← r.decode items (.of item)
  return .array place index count item body

def decodeEnum (schema : Json) (place : Place) : Gen Decoder := do
  return .enum place (← schema.need "symbols")

def decodeMap (r : Recursion) (schema : Json) (place : Place) : Gen Decoder := do
  let key ← freshKey
  declare "unicode" key
  let count ← freshInteger
  declare "long" count
  let index ← freshInteger
  declare "long" index
  let values ← schema.need "values"
  requireReady
  let body ← r.decode values (place.entry key)
  return .map place key count index body

def decodeBranches (r : Recursion) (index : String) (types : Json) (place : Place) :
    Gen Decoder := do
  let cases ← (← types.needElements).mapM fun type => do
    requireReady
    return (type, ← r.decode type place)
  return .union place index (← read).extended cases

def unionIndex : Gen String := do
  let index ← freshInteger
  declare "long" index
  return index

def decodeUnion (r : Recursion) (schema : Json) (place : Place) : Gen Decoder := do
  decodeBranches r (← unionIndex) schema place

def decodeUnionField (r : Recursion) (schema : Json) (place : Place) : Gen Decoder := do
  let index ← unionIndex
  match schema with
  | .obj _ =>
    let name ← schema.need "name"
    decodeBranches r index (← schema.need "type") (place.member name)
  | _ => throw (.unhandled schema)

/-- A field whose type is a definition of the store. A recursive type is read to the record's own
place, in the context of the type. -/
def decodeReferenceField (r : Recursion) (schema : Json) (type : String) (place : Place) :
    Gen Decoder := do
  let loaded ← load type
  let outer := (← get).context
  setContext type
  if (← read).store.isCycleStarting type then
    meet r type
    return .recur type place
  let name ← schema.need "name"
  let code ← r.decode loaded (place.member name)
  setContext outer
  return code

def decodeObject (r : Recursion) (schema type : Json) (place : Place) : Gen Decoder := do
  match schema.get? "logicalType" with
  | some kind => return .logical (← logicalType kind type schema) place
  | none =>
    match type with
    | .str "record" =>
      let fields ← (← schema.need "fields").needElements
      return .record place (← fields.mapM (r.decode · place))
    | .str "array" => decodeArray r schema place
    | .str "enum" => decodeEnum schema place
    | .str "map" => decodeMap r schema place
    | .str "fixed" => decodeType r "fixed" schema place
    | .obj _ => r.decode type (place.member (← schema.need "name"))
    | .arr _ => decodeUnionField r schema place
    | .str name =>
      if isBasic name then
        let given := (schema.get? "name").getD .null
        let inner := if given.truthy then place.member given else place
        decodeType r name schema inner
      else if (← read).store.contains name then decodeReferenceField r schema name place
      else throw (.unhandled schema)
    | _ => throw (.unhandled schema)

/-- One step of generating code that reads a value to a place. -/
def decodeStep (r : Recursion) (schema : Json) (place : Place) : Gen Decoder := do
  match schema with
  | .str name =>
    if ← isRecursive name then
      meet r name
      return .recur name place
    else decodeType r name .null place
  | .arr _ => decodeUnion r schema place
  | .obj _ => decodeObject r schema (← schema.need "type") place
  | _ => throw (.unhandled schema)

end Gen

end AvroCodec
