import AvroCodec.Json.Literal

/-!
# What can be wrong with a schema

The causes for which a schema, a set of schemata or the generation of code from them is refused, and
the wording of those that are reported with a text.
-/

namespace AvroCodec

inductive SchemaError where
  /-- A type that has to be named is not. -/
  | unnamed (schema : Json)
  /-- A full name is defined twice in one schema. -/
  | redefined (fullName : Json)
  | scaleNotInteger (found : Json)
  | precisionNotInteger (found : Json)
  | aliasesNotList (found : Json)
  /-- A reference to a name, or an object whose type is no type. -/
  | unknownType (name : String)
  /-- A member that has to be there is not. -/
  | missing (key : String)
  /-- A document of one shape stands where another shape is needed. -/
  | wrongShape
  /-- Something that only objects or strings offer is asked of another document. -/
  | noSuchAttribute
  /-- No code can be generated for the schema. -/
  | unhandled (schema : Json)
  /-- A union has more than one array among its branches. -/
  | severalArrays
  | notStored (identifier : String)
  /-- The type counts nanoseconds, which only the extended setting offers. -/
  | nanoTime
  /-- A union branch cannot be told from a value. -/
  | undistinguished (type : Json)
  /-- A template is used before its functions are known to it. -/
  | templatesNotReady
  /-- References lead round in a circle, or attempts fail one after the other, without end. -/
  | endless
deriving Inhabited

namespace SchemaError

def message? : SchemaError → Option String
  | unnamed schema =>
    some ("\"name\" is a required field missing from the schema: " ++ schema.literal)
  | redefined fullName => some ("redefined named type: " ++ fullName.pasted)
  | scaleNotInteger found => some ("decimal scale must be a postive integer, not " ++ found.pasted)
  | precisionNotInteger found =>
    some ("decimal precision must be a postive integer, not " ++ found.pasted)
  | aliasesNotList found => some ("aliases must be a list, not " ++ found.pasted)
  | unknownType name => some name
  | missing key => some (Text.quote key)
  | unhandled schema => some ("Cant handle schema = " ++ schema.pasted)
  | severalArrays =>
    some ("One of your schemas contains a union of more than one array types. "
      ++ "This is not yet implemented.")
  | notStored identifier =>
    some ("Schema with identifier = " ++ identifier ++ " not found in schema database.")
  | nanoTime =>
    some "Trying to serialize Nano Time logical type without the flag quantlane being True. "
  | undistinguished type => some ("invalid constraint for type == " ++ type.pasted)
  | wrongShape | noSuchAttribute | templatesNotReady | endless => none

end SchemaError

namespace Json

def need (doc : Json) (key : String) : Except SchemaError Json :=
  match doc with
  | .obj members =>
    match lookup key members with
    | some v => .ok v
    | none => .error (.missing key)
  | _ => .error .wrongShape

def needElements (doc : Json) : Except SchemaError (List Json) :=
  match doc.elements? with
  | some items => .ok items
  | none => .error .wrongShape

end Json

end AvroCodec
