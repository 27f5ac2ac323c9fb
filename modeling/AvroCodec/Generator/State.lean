import AvroCodec.Code.Routine
import AvroCodec.Store

/-!
# The state of a generator

A generator draws variable names from five counters, collects the declarations of the function it is
working on, and remembers the recursive types it has already made routines for. A failed step keeps the
state it has reached.
-/

namespace AvroCodec

open Code

/-- What a generator works with and never changes. -/
structure Setting where
  store : Store
  /-- Offer nanosecond times, and wrap dictionaries that are read as a union's branch. -/
  extended : Bool := false

structure Generator where
  /-- The schema whose own definitions are preferred. -/
  context : String
  registry : Schema.Registry
  declarations : List String := []
  maps : Nat := 0
  values : Nat := 0
  keys : Nat := 0
  tags : Nat := 0
  integers : Nat := 0
  /-- The recursive types whose routines have been made or begun, in order. -/
  handled : List String := []
  /-- Routines of recursive types that no routine has taken up yet. -/
  helpers : List (String × Routine) := []
  /-- Whether the templates know their functions, which they do from the first routine on. -/
  ready : Bool := false

abbrev Gen := ReaderT Setting (ExceptT SchemaError (StateM Generator))

namespace Gen

def variableName (kind : String) (n : Nat) : String := kind ++ "_" ++ toString n

def freshMap : Gen String := do
  let s ← get
  set { s with maps := s.maps + 1 }
  return variableName "d_dict" s.maps

def freshValue : Gen String := do
  let s ← get
  set { s with values := s.values + 1 }
  return variableName "val" s.values

def freshKey : Gen String := do
  let s ← get
  set { s with keys := s.keys + 1 }
  return variableName "key" s.keys

def freshTag : Gen String := do
  let s ← get
  set { s with tags := s.tags + 1 }
  return variableName "type" s.tags

def freshInteger : Gen String := do
  let s ← get
  set { s with integers := s.integers + 1 }
  return variableName "i" s.integers

def declarationText (type name : String) : String := "cdef " ++ type ++ " " ++ name

def declare (type name : String) : Gen Unit :=
  modify fun s => { s with declarations := s.declarations ++ [declarationText type name] }

def setContext (context : String) : Gen Unit :=
  modify fun s => { s with context }

def withRegistry {α : Type} (action : Schema.WithRegistry α) : Gen α := do
  let s ← get
  let (result, registry) := action s.registry
  set { s with registry }
  result

def load (identifier : String) : Gen Json := do
  let s ← get
  withRegistry ((← read).store.load identifier s.context)

/-- Runs an action in another context, which is left again if the action succeeds. -/
def within {α : Type} (context : String) (action : Gen α) : Gen α := do
  let outer := (← get).context
  setContext context
  let result ← action
  setContext outer
  return result

/-- Fails unless the templates know their functions. -/
def requireReady : Gen Unit := do
  if !(← get).ready then throw .templatesNotReady

def basicTypes : List String := ["boolean", "int", "long", "float", "double", "bytes", "string"]

def isBasic (type : String) : Bool := basicTypes.contains type

def isStored (type : String) : Gen Bool := do
  return (← read).store.contains type && !isBasic type

def isRecursive (name : String) : Gen Bool := do
  return (← read).store.isCycleStarting name && !isBasic name

end Gen

end AvroCodec
