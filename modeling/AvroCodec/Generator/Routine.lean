import AvroCodec.Generator.Guard

/-!
# Routines from schemas

Generating code for a schema means generating code for the schemas inside it, and for the definitions it
refers to. `Recursion` stands for generating the latter. A routine and the entry of a recursive type are
made from it here.
-/

namespace AvroCodec

open Code

/-- How code is generated for the schemas inside a schema. -/
structure Recursion where
  encode : Json → Place → Gen Encoder
  decode : Json → Place → Gen Decoder

namespace Gen

/-- Adds the routine of a recursive type, unless its text is there already. -/
def addHelper (name : String) (routine : Routine) : Gen Unit :=
  modify fun s =>
    let known := s.helpers.any fun h => Routine.helperText h == Routine.helperText (name, routine)
    if known then s else { s with helpers := s.helpers ++ [(name, routine)] }

/-- The declarations collected so far, which are given up with this. -/
def takeDeclarations : Gen (List String) := do
  let s ← get
  set { s with declarations := [] }
  return s.declarations

/-- The routine of a schema. It takes up what has been declared before it, and every routine of a
recursive type that is still waiting. -/
def routine (r : Recursion) (schema : Json) : Gen Routine := do
  modify fun s => { s with ready := true }
  let parsed ← withRegistry (Schema.parseOpen schema)
  let writer ← r.encode parsed (.of "data")
  let writerDeclarations ← takeDeclarations
  let reader ← r.decode parsed (.of "data")
  let readerDeclarations ← takeDeclarations
  let s ← get
  set { s with helpers := [] }
  return .mk writerDeclarations writer readerDeclarations reader s.helpers

/-- Makes the routine of a recursive type. The type is noted first, since it may refer to itself. -/
def handle (r : Recursion) (name : String) : Gen Unit := do
  modify fun s => { s with handled := s.handled ++ [name] }
  let schema ← load name
  let made ← routine r schema
  addHelper name made

/-- Meets a recursive type. The first time, its routine is made. -/
def meet (r : Recursion) (name : String) : Gen Unit := do
  let s ← get
  if !s.handled.contains name then handle r name

end Gen

end AvroCodec
