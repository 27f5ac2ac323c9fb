import AvroCodec.Code.Place
import AvroCodec.Schema.Error

/-!
# Logical types in code

A logical type is written by preparing the value and writing the result as the underlying type, and
read the other way round. Decimals are told scale, size and precision; the preparation of a decimal
depends on the underlying type.
-/

namespace AvroCodec.Code

structure Logical where
  /-- The logical type's name, with underscores. -/
  kind : String
  /-- The underlying type. -/
  base : Json
  /-- Scale, size and precision as they stand in the schema. -/
  params : List (String × Json)

namespace Logical

def kindOf (logicalType : Json) : Except SchemaError String :=
  match logicalType with
  | .str s => .ok (Text.replaceAll "-" "_" s)
  | _ => .error .noSuchAttribute

def scaleAndSize (schema : Json) : List (String × Json) :=
  [("scale", (schema.get? "scale").getD (.int 0)), ("size", (schema.get? "size").getD (.int 0))]

def paramsOf (schema : Json) : List (String × Json) :=
  scaleAndSize schema ++ [("precision", (schema.get? "precision").getD .null)]

def isDecimal (l : Logical) : Bool := l.kind == "decimal"

def paramsText (l : Logical) : String := (Json.obj l.params).literal

def prepareText (l : Logical) (location : String) : String :=
  if l.isDecimal then
    "prepare.prepare_" ++ l.base.pasted ++ "_" ++ l.kind ++ "(" ++ location ++ ", " ++ l.paramsText
      ++ ")"
  else "prepare.prepare_" ++ l.kind ++ "(" ++ location ++ ")"

def writeText (l : Logical) (location : String) : String :=
  "write.write_" ++ l.base.pasted ++ "(buffer, " ++ l.prepareText location ++ ")"

def readArguments (l : Logical) : String :=
  if l.base.isStr "fixed" then "fo, " ++ l.paramsText else "fo"

def readText (l : Logical) (location : String) : String :=
  let inner := "read.read_" ++ l.base.pasted ++ "(" ++ l.readArguments ++ ")"
  let arguments := if l.isDecimal then inner ++ ", " ++ l.paramsText else inner
  location ++ " = prepare.read_" ++ l.kind ++ "(" ++ arguments ++ ")"

def testText (l : Logical) (location : String) : String :=
  "type(" ++ l.prepareText location ++ ") is " ++ l.base.pasted

/-- A schema's logical type as a test knows it, without precision. -/
def forTest (schema : Json) : Except SchemaError Logical := do
  let kind ← kindOf (← schema.need "logicalType")
  let base ← schema.need "type"
  return { kind, base, params := scaleAndSize schema }

end Logical

end AvroCodec.Code
