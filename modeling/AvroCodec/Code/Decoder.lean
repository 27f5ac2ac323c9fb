import AvroCodec.Code.Encoder

/-!
# Code that reads

A `Decoder` is the code that reads a value to a place. `Decoder.render` is its text; what it does is
defined with the codec.
-/

namespace AvroCodec.Code

inductive Decoder where
  | null (place : Place)
  /-- Reads a type by its name. The schema is told to the reader of types of fixed size. -/
  | primitive (type : String) (schema : Json) (place : Place)
  | logical (type : Logical) (place : Place)
  | record (place : Place) (parts : List Decoder)
  | array (place : Place) (index count item : String) (body : Decoder)
  | enum (place : Place) (symbols : Json)
  | map (place : Place) (key count index : String) (body : Decoder)
  /-- Reads an index and then the branch with that index. Dictionaries are wrapped so that they can
  carry their schema if `wrapped` holds. -/
  | union (place : Place) (index : String) (wrapped : Bool) (cases : List (Json × Decoder))
  /-- Hands over to the function of a recursive type. -/
  | recur (name : String) (place : Place)

namespace Decoder

def primitiveText (type : String) (schema : Json) (location : String) : String :=
  location ++ " = read.read_" ++ type ++ "("
    ++ (if type = "fixed" then "fo, " ++ schema.pasted else "fo") ++ ")"

def arrayText (location index count item body : String) : String :=
  location ++ " = []\n\n" ++ count ++ " = read.read_long(fo)\nwhile " ++ count ++ " != 0:\n    if "
    ++ count ++ " < 0:\n        " ++ count ++ " = -" ++ count
    ++ "\n        read.read_long(fo)\n    for " ++ index ++ " in range(" ++ count ++ "):\n        "
    ++ Text.indent 8 body ++ "\n        " ++ location ++ ".append(" ++ item ++ ")\n    " ++ count
    ++ " = read.read_long(fo)"

def enumText (symbols : Json) (location : String) : String :=
  location ++ " = " ++ symbols.pasted ++ "[read.read_int(fo)]"

def mapText (location key count index body : String) : String :=
  location ++ " = \x7b\x7d\n" ++ count ++ " = read.read_long(fo)\nwhile " ++ count
    ++ " != 0:\n    if " ++ count ++ " < 0:\n        " ++ count ++ " = -" ++ count
    ++ "\n        read.read_long(fo)\n\n    for " ++ index ++ " in range(" ++ count ++ "):\n        "
    ++ key ++ " = read.read_string(fo)\n        " ++ Text.indent 8 body ++ "\n\n    " ++ count
    ++ " = read.read_long(fo)"

/-- Whether a wrapped dictionary is told the name inside its type. -/
def carriesName : Json → Bool
  | .obj members => (Json.lookup "name" members).isSome
  | .arr items => items.any (Json.isStr "name")
  | _ => false

def wrapText (location : String) (type : Json) : String :=
  "\n    if isinstance(" ++ location ++ ", dict):\n        " ++ location ++ " = DictWrapper("
    ++ location ++ ")\n        "
    ++ match type with
      | .str s => "\n        " ++ location ++ ".schema = '" ++ s ++ "'\n        "
      | _ =>
        if carriesName type then
          "\n        " ++ location ++ ".schema = " ++ type.literal ++ "['name']\n        "
        else ""

def caseText (location index : String) (wrapped : Bool) (position : Nat) (type : Json)
    (body : String) : String :=
  "\nif " ++ index ++ " == " ++ toString position ++ ":\n    " ++ Text.indent 4 body
    ++ (if wrapped then wrapText location type else "")

mutual

def render : Decoder → String
  | .null place => place.text ++ " = None"
  | .primitive type schema place => primitiveText type schema place.text
  | .logical type place => type.readText place.text
  | .record place parts => place.text ++ " = \x7b\x7d\n" ++ "\n".intercalate (renderParts parts)
  | .array place index count item body => arrayText place.text index count item (render body)
  | .enum place symbols => enumText symbols place.text
  | .map place key count index body => mapText place.text key count index (render body)
  | .union place index wrapped cases =>
    index ++ " = read.read_int(fo)" ++ renderCases place.text index wrapped 0 cases
  | .recur name place => place.text ++ " = " ++ readerName name ++ "(fo)"

def renderParts : List Decoder → List String
  | [] => []
  | d :: ds => render d :: renderParts ds

def renderCases (location index : String) (wrapped : Bool) (position : Nat) :
    List (Json × Decoder) → String
  | [] => ""
  | (type, body) :: rest =>
    caseText location index wrapped position type (render body)
      ++ renderCases location index wrapped (position + 1) rest

end

end Decoder

end AvroCodec.Code
