import AvroCodec.Store.Cycle

/-!
# The store of schemata

The database of a list of schemata together with the names that start a cycle in it. A definition is
loaded by its name, and if a context is given, a definition inside the context's own schema is preferred
to any other of the same name.
-/

namespace AvroCodec

structure Store where
  database : Database
  cycles : List String

namespace Store

def build (schemata : Schemata) : Schema.WithRegistry Store := do
  let database ← Database.gather schemata
  let cycles ← Trail.cyclesOf database
  return { database, cycles }

def contains (store : Store) (identifier : String) : Bool :=
  (Json.lookup identifier store.database).isSome

def isCycleStarting (store : Store) (identifier : String) : Bool :=
  store.cycles.contains identifier

/-- The definitions inside the schema that is stored under the context. -/
def localDatabase (store : Store) (context : String) : Schema.WithRegistry Database :=
  match Json.lookup context store.database with
  | some schema => Database.gather [(context, schema)]
  | none => throw (.missing context)

def loadGlobal (store : Store) (identifier : String) : Except SchemaError Json :=
  match Json.lookup identifier store.database with
  | some schema => .ok schema
  | none => .error (.notStored identifier)

/-- Loads a definition. An empty context is no context. -/
def load (store : Store) (identifier context : String) : Schema.WithRegistry Json := do
  if context = "" then store.loadGlobal identifier
  else
    match Json.lookup identifier (← store.localDatabase context) with
    | some schema => return schema
    | none => store.loadGlobal identifier

def identifier (space name : Json) : String := space.pasted ++ "." ++ name.pasted

end Store

end AvroCodec
