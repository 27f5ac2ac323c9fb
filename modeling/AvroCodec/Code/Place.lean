import AvroCodec.Json.Literal
import AvroCodec.Text.Lines

/-!
# Places

Generated code works on a variable or on something inside it, reached by subscripts. A place is the
variable and the subscripts, the outermost first.
-/

namespace AvroCodec.Code

inductive Subscript where
  /-- The entry of a record's field, `['name']`. -/
  | member (name : String)
  /-- The entry under the key that a variable holds, `[key]`. -/
  | bound (key : String)

structure Place where
  root : String
  path : List Subscript := []

namespace Place

def of (root : String) : Place := { root }

def member (p : Place) (name : Json) : Place :=
  { p with path := p.path ++ [.member name.pasted] }

/-- The entry at a place under the key that a variable holds. -/
def entry (p : Place) (key : String) : Place :=
  { p with path := p.path ++ [.bound key] }

def subscriptText : Subscript → String
  | .member name => "['" ++ name ++ "']"
  | .bound key => "[" ++ key ++ "]"

def text (p : Place) : String :=
  p.root ++ String.join (p.path.map subscriptText)

end Place

/-- What a union's value is: a variable or place, or the entry of a field at a place. -/
inductive Subject where
  | value (place : Place)
  | member (place : Place) (key : String)

namespace Subject

/-- The subject in a test, where a field is named in double quotes. -/
def testText : Subject → String
  | value place => place.text
  | member place key => place.text ++ "[\"" ++ key ++ "\"]"

def optionalText : Subject → String
  | value place => place.text
  | member place key => place.text ++ ".get('" ++ key ++ "')"

def presentText : Subject → String
  | value place => place.text
  | member place key => place.text ++ "['" ++ key ++ "']"

end Subject

def lastIndex? (c : Char) (cs : List Char) : Option Nat :=
  (cs.reverse.findIdx? (· == c)).map (cs.length - 1 - ·)

/-- The test whether nothing is at a place. The last subscript, if there is one, is looked up so that
it may be missing. The subscript is found in the text, by its brackets. -/
def absentTest (location : String) : String :=
  let cs := location.toList
  match lastIndex? '[' cs with
  | none => "if " ++ location ++ " is None:"
  | some l =>
    let r := (lastIndex? ']' cs).getD (cs.length - 1)
    let key := String.ofList ((cs.take r).drop (l + 1))
    "if " ++ String.ofList (cs.take l) ++ ".get(" ++ key ++ ") is None:"

/-- A default as it is pasted into code. The text `null` means nothing, any other text is code. -/
def defaultText (value : Json) : String :=
  if value.isStr "null" then "None" else value.pasted

/-- The statement that puts a default where nothing is. There is none for the default `null`. -/
def fillText (location : String) : Json → String
  | .null => ""
  | value => absentTest location ++ "\n    " ++ location ++ " = " ++ defaultText value

end AvroCodec.Code
