import AvroCodec.Code.Decoder
import AvroCodec.Codec.Variables

/-!
# Reading

What the code that reads does. It works through the bytes and assigns what it reads to variables of
the function, or into what they hold. The loops over the items of an array and the entries of a map have
variables for the number of parts and for the turn, and a union has one for its index.
-/

namespace AvroCodec

open Code

/-- The bytes that are left and the variables of a function. -/
structure Reading where
  rest : List UInt8
  bindings : Variables

namespace Reading

def get (r : Reading) (name : String) : Except CodecError Value := Variables.get r.bindings name

def set (r : Reading) (name : String) (v : Value) : Reading :=
  { r with bindings := Variables.set r.bindings name v }

def keys (r : Reading) (path : List Subscript) : Except CodecError (List String) := Variables.keys r.bindings path

def assign (place : Place) (v : Value) (r : Reading) : Except CodecError Reading := do
  match place.path with
  | [] => return r.set place.root v
  | path =>
    let held ← r.get place.root
    return r.set place.root (← Value.store v (← r.keys path) held)

def append (place : Place) (item : String) (r : Reading) : Except CodecError Reading := do
  let held ← r.get place.root
  let path ← r.keys place.path
  match ← held.walk path with
  | .list items =>
    let v ← r.get item
    return r.set place.root (← Value.store (.list (items ++ [v])) path held)
  | _ => throw .unsupported

def integer (r : Reading) : Except CodecError (Int × Reading) := do
  let (n, rest) ← Varint.decode r.rest
  return (n, { r with rest })

def integerTo (name : String) (r : Reading) : Except CodecError (Int × Reading) := do
  let (n, r) ← r.integer
  return (n, r.set name (.int n))

def holds (r : Reading) (name : String) (n : Int) : Bool :=
  match Variables.lookup name r.bindings with
  | some (.int m) => m = n
  | _ => false

def readTo (place : Place) (f : List UInt8 → Except CodecError (Value × List UInt8))
    (r : Reading) : Except CodecError Reading := do
  let (v, rest) ← f r.rest
  assign place v { r with rest }

end Reading

namespace Code.Decoder

/-- So many times the same, with the number of the turn in a variable. -/
@[grind =] def times (index : String) (step : Reading → Except CodecError Reading) :
    Nat → Nat → Reading → Except CodecError Reading
  | _, 0, r => .ok r
  | turn, n + 1, r =>
    match step (r.set index (.int turn)) with
    | .ok r' => times index step (turn + 1) n r'
    | .error e => .error e

/-- A negative number of parts becomes a positive one, and the size of the block follows it. The least integer
has no opposite. -/
def negate (count : String) (n : Int) (r : Reading) : Except CodecError Reading := do
  if n = -9223372036854775808 then throw .unchecked
  let (_, r) ← (r.set count (.int (-n))).integer
  return r

/-- Blocks of parts, each with its number in front, up to the number zero. Each block takes a byte at least,
which bounds their number. -/
@[grind =] def blocks (count index : String) (step : Reading → Except CodecError Reading) :
    Nat → Reading → Except CodecError Reading
  | 0, _ => .error .endless
  | bound + 1, r => do
    let (n, r) ← r.integerTo count
    if n = 0 then return r
    let r ← if n < 0 then negate count n r else pure r
    blocks count index step bound (← times index step 0 n.natAbs r)

def allBlocks (count index : String) (step : Reading → Except CodecError Reading) (r : Reading) :
    Except CodecError Reading :=
  blocks count index step (r.rest.length + 1) r

/-- The symbol at a position. The position is not checked. -/
def readSymbol (symbols : Json) (bytes : List UInt8) : Except CodecError (Value × List UInt8) := do
  let (n, rest) ← Varint.decode bytes
  match symbols, n with
  | .arr items, .ofNat i =>
    match items[i]? with
    | some s => return (.ofJson s, rest)
    | none => throw .unchecked
  | .arr _, _ => throw .unchecked
  | _, n => throw (.missing (.int n))

def readLogical (type : Logical) (bytes : List UInt8) : Except CodecError (Value × List UInt8) := do
  match type.base with
  | .str name =>
    let (x, rest) ← Primitive.read name (.obj type.params) bytes
    return (← type.interpret x, rest)
  | _ => throw .unsupported

mutual

/-- What code does to the bytes and the variables, given what the functions of recursive types do. -/
def run (call : String → List UInt8 → Except CodecError (Value × List UInt8)) :
    Decoder → Reading → Except CodecError Reading
  | .null place, r => r.assign place .null
  | .primitive type schema place, r => r.readTo place (Primitive.read type schema)
  | .logical type place, r => r.readTo place (readLogical type)
  | .record place parts, r => do runParts call parts (← r.assign place (.map []))
  | .array place index count item body, r => do
    allBlocks count index (fun r => do (← run call body r).append place item) (← r.assign place (.list []))
  | .enum place symbols, r => r.readTo place (readSymbol symbols)
  | .map place key count index body, r => do
    let entry (r : Reading) : Except CodecError Reading := do
      let (k, rest) ← Primitive.readText r.rest
      run call body (Reading.set { r with rest } key (.str k))
    allBlocks count index entry (← r.assign place (.map []))
  | .union _ index _ cases, r => do
    let (_, r) ← r.integerTo index
    runCases call index 0 cases r
  | .recur name place, r => r.readTo place (call name)

def runParts (call : String → List UInt8 → Except CodecError (Value × List UInt8)) :
    List Decoder → Reading → Except CodecError Reading
  | [], r => .ok r
  | d :: ds, r => do runParts call ds (← run call d r)

/-- The cases of a union one after the other, from a position on. Each looks at the variable for the index
anew. -/
def runCases (call : String → List UInt8 → Except CodecError (Value × List UInt8)) (index : String) :
    Nat → List (Json × Decoder) → Reading → Except CodecError Reading
  | _, [], r => .ok r
  | i, (_, d) :: rest, r => do
    let r ← if r.holds index i then run call d r else pure r
    runCases call index (i + 1) rest r

end

attribute [grind =] run runParts runCases

/-- What a function with this code returns, and what it leaves of the bytes. -/
def apply (call : String → List UInt8 → Except CodecError (Value × List UInt8)) (d : Decoder)
    (bytes : List UInt8) : Except CodecError (Value × List UInt8) := do
  let r ← run call d { rest := bytes, bindings := [] }
  return (← r.get "data", r.rest)

end Code.Decoder

end AvroCodec
