import AvroCodec.Schema.Parse

/-!
# The database of definitions

A list of schemata, each with an identifier, is gathered into one database. A schema is stored under
its identifier if that has a dot in it, and whatever is nested in it and carries a dotted name is
stored under that name. Later entries take the place of earlier ones.
-/

namespace AvroCodec

abbrev Database := List (String × Json)

/-- Schemas, each with its identifier. -/
abbrev Schemata := List (String × Json)

namespace Database

/-- Stores a document under the name it carries, if that is a dotted name. A name that is no text is
refused where a dot could not be looked for in it, or is found there. -/
def enter (members : Members) (db : Database) : Except SchemaError Database :=
  match Json.lookup "name" members with
  | some (.str name) =>
    .ok (if Schema.hasDot name then Json.put name (.obj members) db else db)
  | some (.arr items) => if items.any (Json.isStr ".") then .error .wrongShape else .ok db
  | some (.obj inner) => if (Json.lookup "." inner).isSome then .error .wrongShape else .ok db
  | some name => if name.truthy then .error .wrongShape else .ok db
  | none => .ok db

mutual

/-- Stores every named document inside a document, an outer one before those inside it. -/
def scan : Json → Database → Except SchemaError Database
  | .arr items, db => scanItems items db
  | .obj members, db => do scanMembers members (← enter members db)
  | _, db => .ok db

def scanItems : List Json → Database → Except SchemaError Database
  | [], db => .ok db
  | x :: xs, db => do scanItems xs (← scan x db)

def scanMembers : List (String × Json) → Database → Except SchemaError Database
  | [], db => .ok db
  | (_, x) :: xs, db => do scanMembers xs (← scan x db)

end

def add (db : Database) (identifier : String) (schema : Json) : Schema.WithRegistry Database := do
  let parsed ← Schema.parseOpen schema
  let db' ←
    if Schema.hasDot identifier then do
      let again ← Schema.parse parsed
      pure (Json.put identifier again db)
    else pure db
  scan parsed db'

def gather (schemata : Schemata) : Schema.WithRegistry Database :=
  schemata.foldlM (fun db entry => add db entry.1 entry.2) []

def depth (db : Database) : Nat := Json.depthMembers db

def namedCount (db : Database) : Nat := Json.namedCountMembers db

end Database

end AvroCodec
