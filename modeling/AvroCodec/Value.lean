import AvroCodec.Binary
import AvroCodec.Calendar
import AvroCodec.Codec.Error
import AvroCodec.Decimal
import AvroCodec.Uuid

/-!
# Values

What is written and read. A dictionary keeps its entries in the order in which they were added, and
any value may be a key. Besides the data of the format there are values that stand for logical types,
and tuples, which carry the tag of a union's branch.
-/

namespace AvroCodec

inductive Value where
  | null
  | bool (b : Bool)
  | int (n : Int)
  /-- A floating-point number of 64 bits, by its bits. -/
  | float (bits : UInt64)
  | str (s : String)
  | bytes (data : List UInt8)
  /-- Bytes that may still grow. -/
  | buffer (data : List UInt8)
  | list (items : List Value)
  | tuple (items : List Value)
  | map (entries : List (Value × Value))
  | date (d : Date)
  | clock (c : Clock)
  | dateTime (d : DateTime)
  | decimal (d : Decimal)
  | uuid (u : Uuid)
deriving Inhabited

namespace Value

def isNull : Value → Bool
  | .null => true
  | _ => false

def isStr : Value → Bool
  | .str _ => true
  | _ => false

def numberOf (bits : UInt64) : Binary.Number := .ofBits .double bits.toNat

def ofNumber (x : Binary.Number) : Value := .float (x.toBits .double).toUInt64

def toInt? : Value → Option Int
  | .int n => some n
  | .bool b => some (if b then 1 else 0)
  | _ => none

/-- Zero, nothing, `false` and whatever is empty count as false. -/
def truthy : Value → Bool
  | .null => false
  | .bool b => b
  | .int n => n != 0
  | .float bits =>
    match numberOf bits with
    | .finite _ m _ => m != 0
    | _ => true
  | .str s => s != ""
  | .bytes data | .buffer data => !data.isEmpty
  | .list items | .tuple items => !items.isEmpty
  | .map entries => !entries.isEmpty
  | .decimal d => !d.isZero
  | _ => true

/-- Whether a value is of exactly the type with the given name. -/
def hasType (name : String) : Value → Bool
  | .null => false
  | .bool _ => name == "bool"
  | .int _ => name == "int" || name == "long"
  | .float _ => name == "float"
  | .str _ => name == "str"
  | .bytes _ => name == "bytes"
  | .buffer _ => false
  | .list _ => name == "list"
  | .tuple _ => false
  | .map _ => name == "dict"
  | _ => false

@[grind =] def find? (key : String) : List (Value × Value) → Option Value
  | [] => none
  | (.str k, v) :: rest => if k = key then some v else find? key rest
  | _ :: rest => find? key rest

/-- Replaces the entry under a text where it stands, or adds it at the end. -/
@[grind =] def putEntry (key : String) (value : Value) : List (Value × Value) → List (Value × Value)
  | [] => [(.str key, value)]
  | (.str k, v) :: rest =>
    if k = key then (.str k, value) :: rest else (.str k, v) :: putEntry key value rest
  | e :: rest => e :: putEntry key value rest

@[grind =] def walk : List String → Value → Except CodecError Value
  | [], v => .ok v
  | key :: path, .map entries =>
    match find? key entries with
    | some v => walk path v
    | none => .error (.missing (.str key))
  | _ :: _, _ => .error .wrongKind

/-- Puts a value at the end of a path of entries. The last entry may be new, the others must be there. -/
@[grind =] def store (new : Value) : List String → Value → Except CodecError Value
  | [], _ => .ok new
  | [key], .map entries => .ok (.map (putEntry key new entries))
  | key :: path, .map entries =>
    match find? key entries with
    | some v => do return .map (putEntry key (← store new path v) entries)
    | none => .error (.missing (.str key))
  | _ :: _, _ => .error .wrongKind

/-- What a loop over a value runs through: items, characters, bytes, or the keys of a dictionary. -/
def elements? : Value → Option (List Value)
  | .list items | .tuple items => some items
  | .str s => some (s.toList.map fun c => .str c.toString)
  | .bytes data | .buffer data => some (data.map fun b => .int b.toNat)
  | .map entries => some (entries.map (·.1))
  | _ => none

def toRat? : Value → Option Rat
  | .bool b => some (if b then 1 else 0)
  | .int n => some n
  | .float bits => (numberOf bits).toRat?
  | .decimal (.finite negative m e) =>
    let size : Rat := match e with
      | .ofNat n => (m * Nat.pow 10 n : Nat)
      | .negSucc n => mkRat m (Nat.pow 10 (n + 1))
    some (if negative then -size else size)
  | _ => none

mutual

def ofJson : Json → Value
  | .null => .null
  | .bool b => .bool b
  | .int n => .int n
  | .fraction m p => ofNumber (.ofRat .double (mkRat m (Nat.pow 10 p)))
  | .str s => .str s
  | .arr items => .list (ofItems items)
  | .obj members => .map (ofMembers members)

def ofItems : List Json → List Value
  | [] => []
  | x :: xs => ofJson x :: ofItems xs

def ofMembers : List (String × Json) → List (Value × Value)
  | [] => []
  | (k, x) :: xs => (.str k, ofJson x) :: ofMembers xs

end

mutual

/-- Whether a value is equal to what a document stands for: numbers by value, dictionaries without
regard to order. -/
def equals : Json → Value → Bool
  | .null, v => v.isNull
  | .str s, .str t => s == t
  | .arr items, .list values => equalsItems items values
  | .obj members, .map entries => members.length == entries.length && equalsMembers members entries
  | .bool b, v => v.toRat? == some (if b then 1 else 0)
  | .int n, v => v.toRat? == some (n : Rat)
  | .fraction m p, v => v.toRat? == some (mkRat m (Nat.pow 10 p))
  | _, _ => false

def equalsItems : List Json → List Value → Bool
  | [], [] => true
  | x :: xs, v :: vs => equals x v && equalsItems xs vs
  | _, _ => false

def equalsMembers : List (String × Json) → List (Value × Value) → Bool
  | [], _ => true
  | (k, x) :: xs, entries =>
    (match find? k entries with
      | some v => equals x v
      | none => false) && equalsMembers xs entries

end

end Value

end AvroCodec
