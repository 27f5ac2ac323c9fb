import AvroCodec.Schema.Error
import AvroCodec.Text.Lines

/-!
# Names

Named types have full names: the namespace and the name with a dot between them, or the name alone
where there is no namespace. A reference without a dot is a name of the namespace around it.
-/

namespace AvroCodec.Schema

def primitives : List String :=
  ["boolean", "bytes", "double", "float", "int", "long", "null", "string"]

def isPrimitive : Json → Bool
  | .str s => primitives.contains s
  | _ => false

def hasDot (s : String) : Bool := Text.hasChar '.' s

def qualify (space name : Json) : Json :=
  if space.truthy then .str (space.pasted ++ "." ++ name.pasted) else name

/-- Namespace and full name of a definition inside the namespace `parent`. -/
def fullName (schema parent : Json) : Except SchemaError (Json × Json) :=
  match schema with
  | .obj members =>
    match Json.lookup "name" members with
    | none => .error (.unnamed schema)
    | some name =>
      let space := (Json.lookup "namespace" members).getD parent
      .ok (space, qualify space name)
  | _ => .error .wrongShape

def resolve (space : Json) (reference : String) : Except SchemaError String :=
  if hasDot reference || !space.truthy then .ok reference
  else
    match space with
    | .str s => .ok (s ++ "." ++ reference)
    | _ => .error .wrongShape

end AvroCodec.Schema
