import AvroCodec.Generator.State

/-!
# Guards of union branches

The test that chooses a branch for a value without a tag. A named type is tested as its definition is.
-/

namespace AvroCodec

open Code

/-- The type of values that a type given by its name alone stands for. -/
def valueType? : Json → Option String
  | .str "string" => some "str"
  | .str "boolean" => some "bool"
  | .str "long" => some "int"
  | .str "double" => some "float"
  | .str s => if ["int", "null", "float", "bytes"].contains s then some s else none
  | _ => none

/-- The tag of a branch: the name that the type is or has. -/
def tagOf (type : Json) : Except SchemaError Json :=
  match type with
  | .str _ => .ok type
  | .obj members => .ok ((Json.lookup "name" members).getD .null)
  | _ => .error .noSuchAttribute

namespace Gen

def guardOfObject (type : Json) : Except SchemaError Guard := do
  match type.get? "type" with
  | some (.str "fixed") => return .hasType "bytes"
  | some (.str "array") => return .hasType "list"
  | some (.str "map") => return .hasType "dict"
  | some (.str "enum") => return .isSymbol (← type.need "symbols")
  | _ =>
    match type.get? "logicalType" with
    | none | some .null =>
      if (← type.need "type").isStr "record" then return .hasType "dict"
      else throw (.undistinguished type)
    | some _ => return .prepared (← Logical.forTest type)

/-- The guard of a branch. The first argument bounds the number of names that are followed. -/
def guardIn : Nat → Json → Gen Guard
  | 0, _ => throw .endless
  | bound + 1, type =>
    match valueType? type with
    | some "null" => return .isNull
    | some name => return .hasType name
    | none =>
      match type with
      | .obj _ => guardOfObject type
      | .str name => do
        if (← read).store.contains name then guardIn bound (← load name)
        else throw (.undistinguished type)
      | _ => throw (.undistinguished type)

/-- The guard of a branch. A name that leads back to itself through names alone has none. -/
def guardOf (type : Json) : Gen Guard := do
  guardIn ((← read).store.database.length + 2) type

end Gen

end AvroCodec
