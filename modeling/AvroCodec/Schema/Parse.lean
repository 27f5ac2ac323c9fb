import AvroCodec.Schema.Name
import AvroCodec.Schema.Registry

/-!
# Parsing schemas

Parsing brings a schema into its normal form. Names become full names, references are resolved and
checked against the registry, members that carry structure come last and in a fixed order, and members
that mean nothing for the type are dropped. Every named type is recorded as soon as its name is known,
so that it can refer to itself; a failed attempt leaves what it has recorded.

`Schema.parse` is one attempt. `Schema.parseOpen` tries again as long as an attempt fails at an unknown
name, with an empty definition recorded for it.
-/

namespace AvroCodec.Schema

/-- What an attempt has recorded, and the names that the schema has defined so far. -/
structure Parsing where
  registry : Registry
  named : List Json

abbrev Parse := ExceptT SchemaError (StateM Parsing)

def parsedMark : String := "__fastavro_parsed"

/-- Members of a type that are not carried over as they are. -/
def reserved : List String :=
  ["type", "name", "namespace", "fields", "items", "size", "symbols", "values", "doc"]

/-- Members of a field that stand before its name and type. -/
def fieldOptions : List String := ["doc", "aliases", "default"]

def reservedInFields : List String := "type" :: "name" :: fieldOptions

/-- The members of a type that are carried over, then its type and its doc. -/
def carried (members : Members) (type : Json) : List (String × Json) :=
  let kept := members.filter fun m => !reserved.contains m.1
  let typed := Json.put "type" type kept
  match Json.lookup "doc" members with
  | some doc => Json.put "doc" doc typed
  | none => typed

/-- The members of a field that are carried over, then those of `fieldOptions`. -/
def carriedInField (members : Members) : Members :=
  let kept := members.filter fun m => !reservedInFields.contains m.1
  fieldOptions.foldl (fun acc option =>
    match Json.lookup option members with
    | some v => Json.put option v acc
    | none => acc) kept

def isInteger : Json → Bool
  | .int _ | .bool _ => true
  | _ => false

def checkDecimal (members : Members) : Except SchemaError Unit :=
  let scale := (Json.lookup "scale" members).getD .null
  let precision := (Json.lookup "precision" members).getD .null
  if !((Json.lookup "logicalType" members).any (Json.isStr "decimal")) then .ok ()
  else if scale.truthy && !isInteger scale then .error (.scaleNotInteger scale)
  else if precision.truthy && !isInteger precision then .error (.precisionNotInteger precision)
  else .ok ()

def record (name : Json) (members : Members) : Parse Unit :=
  modify fun s => { s with registry := s.registry.record name (.obj members) }

def claim (name : Json) : Parse Unit := do
  let s ← get
  if !name.isScalar then throw .wrongShape
  else if s.named.any (·.same name) then throw (.redefined name)
  else set { s with named := s.named ++ [name] }

def parseReference (expand : Bool) (space : Json) (reference : String) : Parse Json := do
  if primitives.contains reference then return .str reference
  let name ← resolve space reference
  match (← get).registry.find? (.str name) with
  | none => throw (.unknownType name)
  | some definition =>
    -- A definition without a name is still being parsed, or is an empty one.
    if expand && (definition.get? "name").isSome then return definition
    else return .str name

/-- A type that is defined by one more member, such as an enumeration by its symbols. -/
def parseLeaf (schema space : Json) (members : Members) (key : String) : Parse Json := do
  let (_, name) ← fullName schema space
  claim name
  let named := Json.put "name" name members
  record name named
  let value ← schema.need key
  let complete := Json.put key value named
  record name complete
  return .obj complete

def parseRecord (parseField : Json → Json → Parse Json) (hint : Bool) (schema space : Json)
    (members : Members) : Parse Json := do
  let (inner, name) ← fullName schema space
  claim name
  record name members
  let fields ← ((schema.get? "fields").getD (.arr [])).needElements
  let parsed ← fields.mapM (parseField inner)
  let complete := Json.put "fields" (.arr parsed) (Json.put "name" name members)
  let marked := if hint then Json.put parsedMark (.bool true) complete else complete
  record name marked
  return .obj marked

def parseFieldWith (parseType : Json → Json → Parse Json) (space : Json) : Json → Parse Json
  | .obj members => do
    let kept := carriedInField members
    let aliases := (Json.lookup "aliases" kept).getD (.arr [])
    if !aliases.isArr then throw (.aliasesNotList aliases)
    let name ← (Json.obj members).need "name"
    let type ← (Json.obj members).need "type"
    let parsed ← parseType space type
    return .obj (Json.put "type" parsed (Json.put "name" name kept))
  | _ => throw .noSuchAttribute

/-- A schema in the namespace `space`. References to complete definitions are replaced by them if
`expand` holds, and a record is marked as parsed if `hint` holds. The first argument bounds the depth
of nesting that is followed. -/
def parseIn : Nat → Bool → Bool → Json → Json → Parse Json
  | 0, _, _, _, _ => throw .endless
  | depth + 1, expand, hint, space, schema =>
    let inner := parseIn depth expand false
    match schema with
    | .arr branches => do return .arr (← branches.mapM (inner space))
    | .obj members => do
      let type ← schema.need "type"
      let kept := carried members type
      checkDecimal kept
      match type with
      | .str "array" => do
        let items ← schema.need "items"
        return .obj (Json.put "items" (← inner space items) kept)
      | .str "map" => do
        let values ← schema.need "values"
        return .obj (Json.put "values" (← inner space values) kept)
      | .str "enum" => parseLeaf schema space kept "symbols"
      | .str "fixed" => parseLeaf schema space kept "size"
      | .str "record" | .str "error" =>
        parseRecord (parseFieldWith inner) hint schema space kept
      | _ =>
        if isPrimitive type then return .obj kept
        else if type.isScalar then throw (.unknownType schema.literal)
        else throw .wrongShape
    | .str reference => parseReference expand space reference
    | _ => throw .wrongShape

def parseField (expand : Bool) (space field : Json) : Parse Json :=
  parseFieldWith (parseIn (field.depth + 1) expand false) space field

def parseWith (expand hint : Bool) (space schema : Json) : Parse Json :=
  parseIn (schema.depth + 1) expand hint space schema

abbrev WithRegistry := ExceptT SchemaError (StateM Registry)

/-- Parses a schema on its own: in no namespace and with no name taken. -/
def parseFresh (expand hint : Bool) (schema : Json) : WithRegistry Json := fun registry =>
  let (result, s) := parseWith expand hint (.str "") schema ⟨registry, []⟩
  (result, s.registry)

structure Options where
  expand : Bool := false
  hint : Bool := true
  /-- Parse also what is marked as parsed. -/
  force : Bool := false

def parseTop : Nat → Options → Json → WithRegistry Json
  | 0, _, _ => throw .endless
  | depth + 1, o, schema =>
    if o.force || o.expand then parseFresh o.expand o.hint schema
    else
      match schema with
      | .obj members =>
        if (Json.lookup parsedMark members).isSome then return schema
        else parseFresh o.expand o.hint schema
      | .arr branches => do return .arr (← branches.mapM (parseTop depth o))
      | _ => parseFresh o.expand o.hint schema

/-- One attempt to parse a schema. A record that is marked as parsed is left as it is, and the branches
of a union are parsed each on its own. -/
def parse (schema : Json) (o : Options := {}) : WithRegistry Json :=
  parseTop (schema.depth + 1) o schema

/-- Attempts to parse a schema until none fails at an unknown name. A schema that fails so with every
attempt that the first argument allows would do so for ever. -/
def retry : Nat → Json → WithRegistry Json
  | 0, _ => throw .endless
  | attempts + 1, schema => fun registry =>
    match parse schema {} registry with
    | (.error (.unknownType name), registry') =>
      retry attempts schema (registry'.record (.str name) (.obj []))
    | outcome => outcome

/-- Parses a schema whose references need not be known. Each failed attempt makes one more name known,
and there are no more names than strings. -/
def parseOpen (schema : Json) : WithRegistry Json :=
  retry (schema.stringCount + 1) schema

end AvroCodec.Schema
