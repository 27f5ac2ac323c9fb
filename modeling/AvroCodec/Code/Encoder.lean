import AvroCodec.Code.Logical

/-!
# Code that writes

An `Encoder` is the code that writes the value at a place. It has the shape of the schema it was made
for. `Encoder.render` is its text; what it does is defined with the codec.
-/

namespace AvroCodec.Code

/-- How a branch of a union is told from a value that carries no tag. -/
inductive Guard where
  | isNull
  /-- The value is of exactly the named type. -/
  | hasType (name : String)
  | isSymbol (symbols : Json)
  /-- The value, once prepared, is of the underlying type. -/
  | prepared (type : Logical)

namespace Guard

def render (subject : Subject) : Guard → String
  | isNull =>
    match subject with
    | .value place => place.text ++ " is None"
    | .member place key =>
      "\"" ++ key ++ "\" not in " ++ place.text ++ " or " ++ place.text ++ "[\"" ++ key
        ++ "\"] is None"
  | hasType name => "type(" ++ subject.testText ++ ") is " ++ name
  | isSymbol symbols =>
    "type(" ++ subject.testText ++ ") is str and " ++ subject.testText ++ " in " ++ symbols.pasted
  | prepared type => type.testText subject.testText

def headText (subject : Subject) (first : Bool) (g : Guard) : String :=
  (if first then "if " else "elif ") ++ g.render subject ++ ":"

end Guard

/-- A branch of a union: the tag that chooses it, its position in the schema, the guard that chooses it
for a value without a tag, and the code in either case. -/
structure Branch (α : Type) where
  tag : String
  index : Nat
  guard : Guard
  tagged : α
  plain : α

inductive Encoder where
  | null
  | primitive (type : String) (place : Place)
  | logical (type : Logical) (place : Place)
  /-- One after the other, as the fields of a record. -/
  | fields (parts : List Encoder)
  /-- Puts a default where nothing is, and goes on. -/
  | filled (place : Place) (value : Json) (next : Encoder)
  | array (place : Place) (item : String) (body : Encoder)
  | enum (place : Place) (symbols : Json)
  | map (place : Place) (key value : String) (body : Encoder)
  | union (subject : Subject) (tag data : String) (branches : List (Branch Encoder))
  /-- Hands over to the function of a recursive type. -/
  | recur (name : String) (place : Place)

def functionSuffix (name : String) : String :=
  Text.replaceAll "." "_" (Text.replaceAll ":" "_" name)

def writerName (name : String) : String := "serialize_" ++ functionSuffix name

def readerName (name : String) : String := "deserialize_" ++ functionSuffix name

def indexText (index : String) : String := "write.write_long(buffer, " ++ index ++ ")"

namespace Encoder

def primitiveText (type location : String) : String :=
  "write.write_" ++ type ++ "(buffer, " ++ location ++ ")"

def arrayText (location item body : String) : String :=
  "if len(" ++ location ++ ") > 0:\n    write.write_long(buffer, len(" ++ location ++ "))\n    for "
    ++ item ++ " in " ++ location ++ ":\n        " ++ Text.indent 8 body
    ++ "\nwrite.write_long(buffer, 0)"

def enumText (symbols : Json) (location : String) : String :=
  "write.write_int(buffer, " ++ symbols.pasted ++ ".index(" ++ location ++ "))"

def mapText (location key value body : String) : String :=
  "datum = <dict>" ++ location ++ "\n\nif len(datum) > 0:\n    write.write_long(buffer, len(datum))"
    ++ "\n    for " ++ key ++ ", " ++ value ++ " in datum.items():\n        write.write_string(buffer, "
    ++ key ++ ")\n        " ++ Text.indent 8 body ++ "\n\nwrite.write_long(buffer, 0)"

def recurText (name location : String) : String :=
  "output.write(buffer)\nbuffer = bytearray()\n"
    ++ Text.replaceAll "(data," ("(" ++ location ++ ",") (writerName name ++ "(data, output)")

def taggedText (tagVariable : String) (first : Bool) (tag index body : String) : String :=
  "\n    " ++ (if first then "if" else "elif") ++ " " ++ tagVariable ++ " == '" ++ tag
    ++ "':\n        " ++ indexText index ++ "\n        " ++ Text.indent 8 body ++ "\n    "

def plainText (head index body : String) : String :=
  "\n    " ++ head ++ "\n        " ++ indexText index ++ "\n        " ++ Text.indent 8 body

def unionText (subject : Subject) (tag data tagged plain : String) : String :=
  "if type(" ++ subject.optionalText ++ ") is tuple:\n    " ++ tag ++ ", " ++ data ++ " = "
    ++ subject.presentText ++ "\n    " ++ tagged ++ "\nelse:" ++ plain

mutual

def render : Encoder → String
  | .null => "write.write_null(buffer)"
  | .primitive type place => primitiveText type place.text
  | .logical type place => type.writeText place.text
  | .fields parts => "\n".intercalate (renderParts parts)
  | .filled place value next => fillText place.text value ++ "\n" ++ render next
  | .array place item body => arrayText place.text item (render body)
  | .enum place symbols => enumText symbols place.text
  | .map place key value body => mapText place.text key value (render body)
  | .union subject tag data branches =>
    unionText subject tag data (renderTagged tag true branches) (renderPlain subject true branches)
  | .recur name place => recurText name place.text

def renderParts : List Encoder → List String
  | [] => []
  | e :: es => render e :: renderParts es

def renderTagged (tag : String) (first : Bool) : List (Branch Encoder) → String
  | [] => ""
  | ⟨t, index, _, tagged, _⟩ :: rest =>
    taggedText tag first t (toString index) (render tagged) ++ renderTagged tag false rest

def renderPlain (subject : Subject) (first : Bool) : List (Branch Encoder) → String
  | [] => ""
  | ⟨_, index, guard, _, plain⟩ :: rest =>
    plainText (guard.headText subject first) (toString index) (render plain)
      ++ renderPlain subject false rest

end

end Encoder

end AvroCodec.Code
