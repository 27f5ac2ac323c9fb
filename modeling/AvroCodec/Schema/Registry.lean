import AvroCodec.Json

/-!
# The registry of definitions

Parsing records every named type it meets under its full name, and a reference is known exactly if its
name is recorded. A name is usually a string, but any scalar can be one; names are compared as data.
-/

namespace AvroCodec.Schema

abbrev Registry := List (Json × Json)

namespace Registry

def find? (name : Json) : Registry → Option Json
  | [] => none
  | (n, d) :: rest => if n.same name then some d else find? name rest

def record (name definition : Json) : Registry → Registry
  | [] => [(name, definition)]
  | (n, d) :: rest =>
    if n.same name then (n, definition) :: rest else (n, d) :: record name definition rest

end Registry

end AvroCodec.Schema
