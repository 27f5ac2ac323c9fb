import AvroCodec.Text.Printable

/-!
# Quoted text

A string in quotes, as it stands in generated text and in messages. Single quotes are used unless the
string has a single quote and no double quote. The quote in use and the backslash are escaped, and so
are characters that are not printable.

`unescape?` reads the inside of such a literal back. It is also used for text that was pasted between
quotes as it is, so it fails where the literal would not end where the quotes say.
-/

namespace AvroCodec.Text

def hex (width n : Nat) : List Char :=
  let digits := Nat.toDigits 16 n
  List.replicate (width - digits.length) '0' ++ digits

def escapeChar (quote c : Char) : List Char :=
  if c = quote || c = '\\' then ['\\', c]
  else if c = '\n' then ['\\', 'n']
  else if c = '\r' then ['\\', 'r']
  else if c = '\t' then ['\\', 't']
  else if isPrintable c then [c]
  else if c.toNat < 0x100 then '\\' :: 'x' :: hex 2 c.toNat
  else if c.toNat < 0x10000 then '\\' :: 'u' :: hex 4 c.toNat
  else '\\' :: 'U' :: hex 8 c.toNat

def quoteFor (s : List Char) : Char :=
  if s.contains '\'' && !s.contains '"' then '"' else '\''

def quoteChars (s : List Char) : List Char :=
  let q := quoteFor s
  q :: (s.flatMap (escapeChar q) ++ [q])

def quote (s : String) : String :=
  String.ofList (quoteChars s.toList)

def hexValue? (c : Char) : Option Nat :=
  if '0' ≤ c && c ≤ '9' then some (c.toNat - '0'.toNat)
  else if 'a' ≤ c && c ≤ 'f' then some (c.toNat - 'a'.toNat + 10)
  else if 'A' ≤ c && c ≤ 'F' then some (c.toNat - 'A'.toNat + 10)
  else none

def octalValue? (c : Char) : Option Nat :=
  if '0' ≤ c && c ≤ '7' then some (c.toNat - '0'.toNat) else none

def hexNumber? (cs : List Char) : Option Nat :=
  cs.foldlM (fun n c => (hexValue? c).map (16 * n + ·)) 0

def scalar? (n : Nat) : Option Char :=
  if n.isValidChar then some (Char.ofNat n) else none

def simpleEscape? (c : Char) : Option Char :=
  match c with
  | '\\' => some '\\'
  | '\'' => some '\''
  | '"' => some '"'
  | 'a' => some '\x07'
  | 'b' => some '\x08'
  | 'f' => some '\x0c'
  | 'n' => some '\n'
  | 'r' => some '\r'
  | 't' => some '\t'
  | 'v' => some '\x0b'
  | _ => none

def takeOctal (cs : List Char) : Nat × List Char :=
  let digits := (cs.take 3).takeWhile fun c => (octalValue? c).isSome
  (digits.foldl (fun n c => 8 * n + (octalValue? c).getD 0) 0, cs.drop digits.length)

/-- Reads the inside of a literal between the given quotes. It fails at a bare quote or line end and
at a numeric escape without its digits. An unknown escape stands for itself. -/
def unescapeChars? (quote : Char) : Nat → List Char → Option (List Char)
  | _, [] => some []
  | 0, _ => none
  | fuel + 1, '\\' :: rest =>
    match rest with
    | [] => none
    | c :: tail =>
      if c = 'x' || c = 'u' || c = 'U' then do
        let width := if c = 'x' then 2 else if c = 'u' then 4 else 8
        if tail.length < width then none
        else
          let n ← hexNumber? (tail.take width)
          let ch ← scalar? n
          (ch :: ·) <$> unescapeChars? quote fuel (tail.drop width)
      else if (octalValue? c).isSome then do
        let (n, after) := takeOctal rest
        let ch ← scalar? n
        (ch :: ·) <$> unescapeChars? quote fuel after
      else
        match simpleEscape? c with
        | some ch => (ch :: ·) <$> unescapeChars? quote fuel tail
        | none => if c = 'N' then none else ('\\' :: c :: ·) <$> unescapeChars? quote fuel tail
  | fuel + 1, c :: rest =>
    if c = quote || c = '\n' || c = '\r' then none
    else (c :: ·) <$> unescapeChars? quote fuel rest

def unescape? (quote : Char) (s : String) : Option String :=
  String.ofList <$> unescapeChars? quote (s.toList.length + 1) s.toList

end AvroCodec.Text
