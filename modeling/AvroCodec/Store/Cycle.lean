import AvroCodec.Store.Database

/-!
# Names that start a cycle

A walk through a definition notes the names it passes and follows references into the database. A
reference to a name that was passed on the way starts a cycle. The walk looks at fields, at the branches
of a field's union and at references that stand as a field's type; what a name was passed for, a type or
a field, makes no difference to it.

Names passed inside a definition are forgotten after it, but the definition's own name is kept for what
comes after it at the same level.
-/

namespace AvroCodec

/-- The names passed so far, and the names found to start a cycle. -/
structure Trail where
  passed : List String
  cycles : List String

namespace Trail

def insert (name : String) (names : List String) : List String :=
  if names.contains name then names else names ++ [name]

def pass (t : Trail) (name : String) : Trail := { t with passed := insert name t.passed }

def found (t : Trail) (name : String) : Trail := { t with cycles := insert name t.cycles }

/-- Notes the name a definition carries. Only texts are ever looked up again. -/
def passName (t : Trail) : Json → Except SchemaError Trail
  | .str name => .ok (t.pass name)
  | .arr _ | .obj _ => .error .wrongShape
  | _ => .ok t

/-- What a walk goes on to from a type: an object, the branches of a union, or the definition that a
reference stands for. -/
def typeStops (db : Database) : Json → List Json
  | .obj members => [.obj members]
  | .arr branches => branches
  | .str reference => (Json.lookup reference db).toList
  | _ => []

/-- Goes on to the fields and the type of a definition that has a name. The names passed there are
forgotten after it. -/
def descend (db : Database) (next : Trail → Json → Except SchemaError Trail)
    (members : Members) (type : Json) (t : Trail) : Except SchemaError Trail := do
  let name := (Json.lookup "name" members).getD .null
  if !name.truthy then return t
  let outer ← t.passName name
  let fields ← ((Json.lookup "fields" members).getD (.arr [])).needElements
  let inner ← (fields ++ typeStops db type).foldlM next outer
  return { outer with cycles := inner.cycles }

/-- Follows a document, one step nearer to the bound with every level and every reference. -/
def follow (db : Database) : Nat → Trail → Json → Except SchemaError Trail
  | 0, _, _ => .error .endless
  | bound + 1, t, schema =>
    match schema with
    | .str name => .ok (if t.passed.contains name then t.found name else t)
    | .obj members => do
      let type ← schema.need "type"
      match type with
      | .str s =>
        if t.passed.contains s then return t.found s
        else descend db (follow db bound) members type t
      | _ => descend db (follow db bound) members type t
    | _ => .ok t

/-- More steps than a walk can take without coming back to a definition with the same names passed,
after which it would go on for ever. -/
def bound (db : Database) : Nat :=
  (db.length * (db.namedCount + 1) + 1) * (db.depth + 2)

def cyclesOf (db : Database) : Except SchemaError (List String) :=
  db.foldlM (fun cycles entry => do
    let t ← follow db (bound db) ⟨[], cycles⟩ entry.2
    return t.cycles) []

end Trail

end AvroCodec
