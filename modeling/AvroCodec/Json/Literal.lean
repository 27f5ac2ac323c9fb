import AvroCodec.Json
import AvroCodec.Text.Quoted

/-!
# Documents as literals

A document as it stands in generated text: `None`, `True` and `False`, strings in quotes, lists in
brackets and objects in braces with a blank after each comma and colon.
-/

namespace AvroCodec.Json

/-- A number with a fraction in positional notation, with at least one digit on either side of the
point. -/
def fractionText (mantissa : Int) (places : Nat) : String :=
  let digits := (toString mantissa.natAbs).toList
  let padded := List.replicate (places + 1 - digits.length) '0' ++ digits
  let cut := padded.length - places
  let whole := String.ofList (padded.take cut)
  let part := if places = 0 then "0" else String.ofList (padded.drop cut)
  (if mantissa < 0 then "-" else "") ++ whole ++ "." ++ part

mutual

def literal : Json → String
  | .null => "None"
  | .bool b => if b then "True" else "False"
  | .int n => toString n
  | .fraction m p => fractionText m p
  | .str s => Text.quote s
  | .arr items => "[" ++ ", ".intercalate (literalItems items) ++ "]"
  | .obj members => "\x7b" ++ ", ".intercalate (literalMembers members) ++ "\x7d"

def literalItems : List Json → List String
  | [] => []
  | x :: xs => literal x :: literalItems xs

def literalMembers : List (String × Json) → List String
  | [] => []
  | (k, x) :: xs => (Text.quote k ++ ": " ++ literal x) :: literalMembers xs

end

/-- A document pasted into text: a string stands as it is, all else as a literal. -/
def pasted : Json → String
  | .str s => s
  | d => d.literal

end AvroCodec.Json
