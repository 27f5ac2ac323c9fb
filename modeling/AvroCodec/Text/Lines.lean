/-!
# Lines

Splitting text into lines and indenting it. Lines end at a line feed, a carriage return (with or
without a line feed), at vertical tab, form feed, the separators U+001C to U+001E, next line U+0085
and the Unicode separators U+2028 and U+2029. `indent` joins with line feeds only, so other line ends
turn into line feeds.
-/

namespace AvroCodec.Text

def isLineBreak (c : Char) : Bool :=
  c == '\n' || c == '\r' || c == '\x0b' || c == '\x0c' || c == '\x1c' || c == '\x1d' || c == '\x1e'
    || c == '\u0085' || c == '\u2028' || c == '\u2029'

/-- The lines of a text whose first line starts with the characters of `line`, last one first. -/
def linesFrom (line : List Char) : List Char → List (List Char)
  | [] => if line.isEmpty then [] else [line.reverse]
  | '\r' :: '\n' :: rest => line.reverse :: linesFrom [] rest
  | c :: rest =>
    if isLineBreak c then line.reverse :: linesFrom [] rest else linesFrom (c :: line) rest

def lines (cs : List Char) : List (List Char) := linesFrom [] cs

def spaces (n : Nat) : List Char := List.replicate n ' '

def indentedLine (n : Nat) (line : List Char) : List Char :=
  '\n' :: (if line.isEmpty then [] else spaces n ++ line)

def indentChars (n : Nat) (cs : List Char) : List Char :=
  match lines (cs ++ ['\n']) with
  | [] => []
  | first :: rest => first ++ rest.flatMap (indentedLine n)

/-- Puts a margin in front of every line but the first and those that are empty. -/
def indent (n : Nat) (s : String) : String :=
  String.ofList (indentChars n s.toList)

/-- Puts the margin in front of the first line as well. -/
def indentAll (n : Nat) (s : String) : String :=
  String.ofList (spaces n ++ indentChars n s.toList)

/-- Replaces what starts with `pattern`, from the left and without overlap. The last argument is the
number of characters of the previous match that are still to be skipped. -/
def replaceFrom (pattern by' : List Char) : Nat → List Char → List Char
  | _, [] => []
  | skip + 1, _ :: rest => replaceFrom pattern by' skip rest
  | 0, c :: rest =>
    if pattern.isPrefixOf (c :: rest) then by' ++ replaceFrom pattern by' (pattern.length - 1) rest
    else c :: replaceFrom pattern by' 0 rest

def replaceAll (pattern replacement s : String) : String :=
  String.ofList (replaceFrom pattern.toList replacement.toList 0 s.toList)

def occursIn (pattern : List Char) : List Char → Bool
  | [] => pattern.isEmpty
  | c :: rest => pattern.isPrefixOf (c :: rest) || occursIn pattern rest

def occurs (pattern s : String) : Bool := occursIn pattern.toList s.toList

def hasChar (c : Char) (s : String) : Bool := s.toList.contains c

end AvroCodec.Text
