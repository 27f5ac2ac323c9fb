import AvroCodec.Text.Lines
import AvroCodec.Text.Quoted
import AvroCodec.Value

/-!
# Defaults

A default that is not a text stands for itself. A text is taken as an expression, so a string has to be
written with its quotes. The expressions are numbers, strings, bytes, the constants and lists, tuples
and dictionaries of expressions.
-/

namespace AvroCodec.Default

def isSpace (c : Char) : Bool := c == ' ' || c == '\t'

def skipSpace (cs : List Char) : List Char := cs.dropWhile isSpace

/-- Decimal digits in which single low lines may stand between two digits. -/
def isDigitRun (cs : List Char) : Bool :=
  match cs with
  | [] => false
  | c :: _ =>
    c.isDigit && (cs.getLast?.any Char.isDigit) && cs.all (fun c => c.isDigit || c == '_')
      && !Text.occursIn ['_', '_'] cs

def digitsValue (cs : List Char) : Nat :=
  cs.foldl (fun n c => if c == '_' then n else 10 * n + (c.toNat - '0'.toNat)) 0

def takeRun (cs : List Char) : List Char × List Char :=
  let inRun (c : Char) : Bool := c.isDigit || c == '_'
  (cs.takeWhile inRun, cs.dropWhile inRun)

def exponent? : List Char → Option (Option Int × List Char)
  | c :: rest =>
    if c = 'e' || c = 'E' then
      let (negative, rest) := match rest with
        | '-' :: more => (true, more)
        | '+' :: more => (false, more)
        | _ => (false, rest)
      let (run, after) := takeRun rest
      if isDigitRun run then
        some (some (if negative then -(digitsValue run : Int) else digitsValue run), after)
      else none
    else some (none, c :: rest)
  | [] => some (none, [])

def floatOf (mantissa : Nat) (power : Int) : Value :=
  .ofNumber ((Decimal.finite false mantissa power).toNumber .double)

def number? (cs : List Char) : Option (Value × List Char) := do
  let (whole, rest) := takeRun cs
  match rest with
  | '.' :: more =>
    let (part, after) := takeRun more
    if (whole.isEmpty && part.isEmpty) || !(whole.isEmpty || isDigitRun whole)
      || !(part.isEmpty || isDigitRun part) then none
    else
      let (power, after) ← exponent? after
      let places := (part.filter (· != '_')).length
      some (floatOf (digitsValue (whole ++ part)) (power.getD 0 - places), after)
  | _ =>
    if !isDigitRun whole then none
    else
      let (power, after) ← exponent? rest
      match power with
      | some p => some (floatOf (digitsValue whole) p, after)
      | none =>
        if whole.head? == some '0' && digitsValue whole != 0 then none
        else some (.int (digitsValue whole), after)

def quotedBody? (quote : Char) : List Char → Option (List Char × List Char)
  | [] => none
  | '\\' :: c :: rest => (quotedBody? quote rest).map fun p => ('\\' :: c :: p.1, p.2)
  | c :: rest =>
    if c = quote then some ([], rest) else (quotedBody? quote rest).map fun p => (c :: p.1, p.2)

def string? (quote : Char) (cs : List Char) : Option (Value × List Char) := do
  let (body, rest) ← quotedBody? quote cs
  let s ← Text.unescape? quote (String.ofList body)
  some (.str s, rest)

def bytes? (quote : Char) (cs : List Char) : Option (Value × List Char) := do
  let (body, rest) ← quotedBody? quote cs
  let named := [['\\', 'u'], ['\\', 'U'], ['\\', 'N']].any (Text.occursIn · body)
  let s ← Text.unescape? quote (String.ofList body)
  if named || body.any (fun c => 128 ≤ c.toNat) || s.toList.any (fun c => 256 ≤ c.toNat) then none
  else some (.bytes (s.toList.map fun c => c.toNat.toUInt8), rest)

def constant? (name : String) : Option Value :=
  match name with
  | "None" => some .null
  | "True" => some (.bool true)
  | "False" => some (.bool false)
  | _ => none

def isNameChar (c : Char) : Bool := c.isAlphanum || c == '_'

def negate? : Value → Option Value
  | .int n => some (.int (-n))
  | .bool b => some (.int (if b then -1 else 0))
  | .float bits =>
    match Value.numberOf bits with
    | .finite negative m e => some (.ofNumber (.finite (!negative) m e))
    | .infinite negative => some (.ofNumber (.infinite !negative))
    | .nan => some (.ofNumber .nan)
  | _ => none

def isKey : Value → Bool
  | .list _ | .map _ | .buffer _ => false
  | _ => true

def addEntry (entries : List (Value × Value)) (key value : Value) : List (Value × Value) :=
  match key with
  | .str s => Value.putEntry s value entries
  | _ => entries ++ [(key, value)]

mutual

def expression? : Nat → List Char → Option (Value × List Char)
  | 0, _ => none
  | fuel + 1, cs =>
    match skipSpace cs with
    | '-' :: rest => do
      let (v, rest) ← expression? fuel rest
      some (← negate? v, rest)
    | '[' :: rest => do
      let (items, rest) ← items? fuel ']' [] rest
      some (.list items, rest)
    | '(' :: rest => do
      let (items, rest) ← items? fuel ')' [] rest
      match items with
      | [v] => some (v, rest)
      | _ => some (.tuple items, rest)
    | '\x7b' :: rest => do
      let (entries, rest) ← entries? fuel [] rest
      some (.map entries, rest)
    | 'b' :: '\'' :: rest => bytes? '\'' rest
    | 'b' :: '"' :: rest => bytes? '"' rest
    | '\'' :: rest => string? '\'' rest
    | '"' :: rest => string? '"' rest
    | c :: rest =>
      if c.isDigit || c = '.' then number? (c :: rest)
      else
        let name := (c :: rest).takeWhile isNameChar
        (constant? (String.ofList name)).map fun v => (v, (c :: rest).dropWhile isNameChar)
    | [] => none

def items? : Nat → Char → List Value → List Char → Option (List Value × List Char)
  | 0, _, _, _ => none
  | fuel + 1, close, items, cs =>
    match skipSpace cs with
    | [] => none
    | c :: rest =>
      if c = close then some (items, rest)
      else do
        let (v, rest) ← expression? fuel (c :: rest)
        match skipSpace rest with
        | ',' :: rest => items? fuel close (items ++ [v]) rest
        | d :: rest => if d = close then some (items ++ [v], rest) else none
        | [] => none

def entries? : Nat → List (Value × Value) → List Char → Option (List (Value × Value) × List Char)
  | 0, _, _ => none
  | fuel + 1, entries, cs =>
    match skipSpace cs with
    | '\x7d' :: rest => some (entries, rest)
    | rest => do
      let (key, rest) ← expression? fuel rest
      match skipSpace rest with
      | ':' :: rest =>
        let (v, rest) ← expression? fuel rest
        if !isKey key then none
        else
          match skipSpace rest with
          | ',' :: rest => entries? fuel (addEntry entries key v) rest
          | '\x7d' :: rest => some (addEntry entries key v, rest)
          | _ => none
      | _ => none

end

def ofText? (s : String) : Option Value :=
  let cs := s.toList
  if cs.any Text.isLineBreak then none
  else
    match expression? (2 * cs.length + 2) cs with
    | some (v, rest) => if (skipSpace rest).isEmpty then some v else none
    | none => none

def value? : Json → Option Value
  | .str "null" => some .null
  | .str s => ofText? s
  | j => some (.ofJson j)

end AvroCodec.Default
