import AvroCodec.Generator.Decode

/-!
# The code generator

The steps of generating code are tied together with a bound on how deep they may follow one another.
`Generator.reach` is more than they can go before a definition comes round again in the same context with
no recursive type met in between, after which they would go on for ever.
-/

namespace AvroCodec

open Code

namespace Recursion

/-- Generating code with at most so many steps inside one another. -/
def upTo : Nat → Recursion
  | 0 => ⟨fun _ _ => throw .endless, fun _ _ => throw .endless⟩
  | steps + 1 =>
    { encode := fun schema place => Gen.encodeStep (upTo steps) schema place
      decode := fun schema place => Gen.decodeStep (upTo steps) schema place }

end Recursion

namespace Generator

def new (identifier : String) (registry : Schema.Registry) : Generator :=
  { context := identifier, registry }

def reach (store : Store) (schema : Json) : Nat :=
  (store.database.namedCount + store.database.length + 2) * (store.cycles.length + 2)
    * (max store.database.depth schema.depth + 3)

end Generator

namespace Gen

def recursionFor (schema : Json) : Gen Recursion := do
  return .upTo (Generator.reach (← read).store schema)

def encode (schema : Json) (place : Place) : Gen Encoder := do
  (← recursionFor schema).encode schema place

def decode (schema : Json) (place : Place) : Gen Decoder := do
  (← recursionFor schema).decode schema place

def renderRoutine (schema : Json) : Gen String := do
  return (← routine (← recursionFor schema) schema).render

def renderModule (schema : Json) : Gen String := do
  return Routine.moduleText (← read).extended (← renderRoutine schema)

end Gen

end AvroCodec
