import AvroCodec.Text.Blank
import AvroCodec.Text.Digit
import AvroCodec.Text.Lines
import AvroCodec.Text.Quoted

/-!
# Universally unique identifiers

An identifier is a number of 128 bits. It is written as 32 hexadecimal digits in five groups. When it
is read, the marks `urn:` and `uuid:`, braces at the ends and all dashes are left out, and the 32
characters that must remain are read as a hexadecimal number.
-/

namespace AvroCodec

structure Uuid where
  value : Nat
deriving DecidableEq, Inhabited

namespace Uuid

def count : Nat := Nat.pow 2 128

def text (u : Uuid) : String :=
  let digits := Text.hex 32 u.value
  let group (start length : Nat) : String := String.ofList ((digits.drop start).take length)
  "-".intercalate [group 0 8, group 8 4, group 12 4, group 16 4, group 20 12]

/-- Reads hexadecimal digits to the end. A single low line may stand between two of them. -/
def hexFrom? (n : Nat) (afterLine : Bool) : List Char → Option Nat
  | [] => if afterLine then none else some n
  | '_' :: rest => if afterLine then none else hexFrom? n true rest
  | c :: rest => (Text.hexDigit? c).bind fun d => hexFrom? (16 * n + d) false rest

/-- A hexadecimal number. A mark `0x` may stand in front, and a low line after the mark. -/
def magnitude? (cs : List Char) : Option Nat :=
  let digits? (cs : List Char) : Option Nat :=
    match cs with
    | [] | '_' :: _ => none
    | _ => hexFrom? 0 false cs
  match cs with
  | '0' :: x :: rest =>
    if x = 'x' || x = 'X' then
      match rest with
      | '_' :: more => digits? more
      | _ => digits? rest
    else digits? cs
  | _ => digits? cs

def integer? (cs : List Char) : Option Int :=
  match Text.trimBlank cs with
  | '-' :: rest => (magnitude? rest).map fun n => -(n : Int)
  | '+' :: rest => (magnitude? rest).map Int.ofNat
  | rest => (magnitude? rest).map Int.ofNat

def isBrace (c : Char) : Bool := c == '\x7b' || c == '\x7d'

def stripBraces (cs : List Char) : List Char :=
  ((cs.dropWhile isBrace).reverse.dropWhile isBrace).reverse

def parse? (s : String) : Option Uuid :=
  let unmarked := Text.replaceAll "uuid:" "" (Text.replaceAll "urn:" "" s)
  let digits := (stripBraces unmarked.toList).filter (· != '-')
  if digits.length = 32 then
    (integer? digits).bind fun n =>
      if 0 ≤ n && n < count then some ⟨n.toNat⟩ else none
  else none

end Uuid

end AvroCodec
