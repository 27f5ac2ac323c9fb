import AvroCodec.Codec.Check
import AvroCodec.Codec.Execute
import AvroCodec.Generator

/-!
# Codecs

A codec is the compiled routine of a schema. `Codec.build` makes it from a list of schemas and an
identifier, `Codec.execute` writes a value and `Codec.deserialize` reads one. `Codec.serialize` says what is
written without the variables of the code, which keeps to them.

Functions of recursive types may call one another. Calls are followed up to a bound that is more than a
value or some bytes can keep them busy: beyond it the same call comes round again.
-/

namespace AvroCodec

open Code

inductive BuildError where
  | schema (cause : SchemaError)
  /-- The generated text cannot be compiled. -/
  | notCompilable

structure Codec where
  routine : Routine

structure Serialized where
  value : Value
  result : Except CodecError (List UInt8)

namespace Value

mutual

def depth : Value → Nat
  | .list items | .tuple items => depthItems items + 1
  | .map entries => depthEntries entries + 1
  | _ => 0

def depthItems : List Value → Nat
  | [] => 0
  | v :: vs => max (depth v) (depthItems vs)

def depthEntries : List (Value × Value) → Nat
  | [] => 0
  | (_, v) :: rest => max (depth v) (depthEntries rest)

end

end Value

namespace Code.Routine

/-- The function with a name. The last definition counts. -/
def function? (table : List (String × Routine)) (name : String) : Option Routine :=
  (table.reverse.find? (·.1 == functionSuffix name)).map (·.2)

/-- The variables for tags that a writer declares as text. -/
def typedTags (r : Routine) : List String :=
  r.writerDeclarations.filterMap fun line =>
    if "cdef str ".isPrefixOf line then some (String.ofList (line.toList.drop 9)) else none

/-- What the writers of recursive types do, with at most so many calls inside one another. -/
def writeCall (table : List (String × Routine)) : Nat → String → Value → Written
  | 0, _, v => ⟨v, .error .endless⟩
  | depth + 1, name, v =>
    match function? table name with
    | none => ⟨v, .error .unset⟩
    | some r => r.writer.run ⟨r.typedTags, writeCall table depth⟩ v

def executeCall (table : List (String × Routine)) : Nat → String → Value → Written
  | 0, _, v => ⟨v, .error .endless⟩
  | depth + 1, name, v =>
    match function? table name with
    | none => ⟨v, .error .unset⟩
    | some r => r.writer.applied ⟨r.typedTags, executeCall table depth⟩ v

def readCall (table : List (String × Routine)) :
    Nat → String → List UInt8 → Except CodecError (Value × List UInt8)
  | 0, _, _ => .error .endless
  | depth + 1, name, bytes =>
    match function? table name with
    | none => .error .unset
    | some r => r.reader.apply (readCall table depth) bytes

/-- More calls inside one another than writing a value can need, whether or not it has its defaults. -/
def writeBound (r : Routine) (v : Value) : Nat :=
  let weight := r.functions.foldr (fun f n => f.2.writer.defaultWeight + n) r.writer.defaultWeight
  (r.functions.length + 1) * (max v.depth weight + weight + 2) + 1

def readBound (r : Routine) (bytes : List UInt8) : Nat :=
  (bytes.length + 1) * (r.functions.length + 1) + 1

end Code.Routine

namespace Codec

def generate (store : Store) (registry : Schema.Registry) (identifier : String) :
    Except SchemaError Routine :=
  let action : Gen Routine := do
    let schema ← Gen.withRegistry (store.load identifier identifier)
    Gen.routine (← Gen.recursionFor schema) schema
  (action { store } (.new identifier registry)).1

def build (schemata : Schemata) (identifier : String) : Except BuildError Codec :=
  match Store.build schemata [] with
  | (.error e, _) => .error (.schema e)
  | (.ok store, registry) =>
    match generate store registry identifier with
    | .error e => .error (.schema e)
    | .ok routine => if routine.compiles then .ok { routine } else .error .notCompilable

/-- Writes a value. What is left of the value holds the defaults that were put into it. -/
def serialize (c : Codec) (v : Value) : Serialized :=
  let r := c.routine
  let w := r.writer.run ⟨r.typedTags, Routine.writeCall r.functions (r.writeBound v)⟩ v
  ⟨kept v w.value, w.result.map fun body => body.outputAfter []⟩

/-- Writes a value, with the variables of the code. -/
def execute (c : Codec) (v : Value) : Serialized :=
  let r := c.routine
  let w := r.writer.applied ⟨r.typedTags, Routine.executeCall r.functions (r.writeBound v)⟩ v
  ⟨kept v w.value, w.result.map fun body => body.outputAfter []⟩

/-- Reads a value, and leaves the bytes after it. -/
def deserializeFrom (c : Codec) (bytes : List UInt8) : Except CodecError (Value × List UInt8) :=
  let r := c.routine
  r.reader.apply (Routine.readCall r.functions (r.readBound bytes)) bytes

/-- Reads a value. Bytes after it are not looked at. -/
def deserialize (c : Codec) (bytes : List UInt8) : Except CodecError Value :=
  (·.1) <$> c.deserializeFrom bytes

end Codec

end AvroCodec
