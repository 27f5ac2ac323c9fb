import AvroCodec.Code.Encoder
import AvroCodec.Codec.Default
import AvroCodec.Codec.Primitive
import AvroCodec.Logical

/-!
# Writing

What the code that writes does to the value of its variable and to its output. It leaves an effect on
the output or a failure, and the value with the defaults that were put into it. A failure keeps the
defaults that were put in before.

A function collects its bytes in a buffer of its own. It hands the buffer over to the output before it
calls another function, and once at its end.

A variable that holds nothing may be given a default. What holds the variable's value then still holds
nothing, since only the variable has changed.
-/

namespace AvroCodec

open Code

/-- An output, and the buffer of the function that writes to it. -/
structure Sink where
  output : List UInt8
  buffer : List UInt8

/-- What code does to an output and a buffer. -/
abbrev Effect := Sink → Sink

namespace Effect

def none : Effect := id

def put (bytes : List UInt8) : Effect := fun s => { s with buffer := s.buffer ++ bytes }

def flush : Effect := fun s => ⟨s.output ++ s.buffer, []⟩

def andThen (first second : Effect) : Effect := fun s => second (first s)

/-- What an output holds after a function with this body, which has a buffer of its own and hands it
over at its end. -/
def outputAfter (body : Effect) (output : List UInt8) : List UInt8 :=
  (flush (body ⟨output, []⟩)).output

/-- Calls a function with this body. The caller's buffer is handed over before. -/
def call (body : Effect) : Effect := fun s => ⟨body.outputAfter (flush s).output, []⟩

end Effect

/-- What writing a value leaves: the value, and the effect on the output or a failure. -/
structure Written where
  value : Value
  result : Except CodecError Effect

namespace Written

def andThen (w : Written) (next : Value → Written) : Written :=
  match w.result with
  | .error _ => w
  | .ok front =>
    let w' := next w.value
    ⟨w'.value, w'.result.map front.andThen⟩

def called (w : Written) : Written := { w with result := w.result.map Effect.call }

end Written

/-- What a container holds after the variable for one of its values was worked on. -/
def kept (old new : Value) : Value := if old.isNull then old else new

namespace Code

/-- The key that a name between quotes stands for. -/
def literalText (name : String) : String := (Text.unescape? '\'' name).getD name

def Place.keys (p : Place) : List String :=
  p.path.map fun s => match s with
    | .member name => literalText name
    | .bound key => key

namespace Subject

def keys : Subject → List String
  | value place => place.keys
  | member place key => place.keys ++ [literalText key]

/-- The value, or nothing if it is the entry of a field and not there. -/
def look (v : Value) : Subject → Except CodecError Value
  | value place => v.walk place.keys
  | member place key => do
    match ← v.walk place.keys with
    | .map entries => return (Value.find? (literalText key) entries).getD .null
    | _ => throw .unsupported

end Subject

def isAmong (symbols : Json) (v : Value) : Bool :=
  (symbols.elements?.getD []).any (Value.equals · v)

def Guard.passes (subject : Subject) (v : Value) : Guard → Except CodecError Bool
  | isNull => do return (← subject.look v).isNull
  | hasType name => do return (← v.walk subject.keys).hasType name
  | isSymbol symbols => do
    let x ← v.walk subject.keys
    return x.isStr && isAmong symbols x
  | prepared type => do
    let x ← type.prepare (← v.walk subject.keys)
    match type.base with
    | .str name => return x.hasType name
    | _ => return false

/-- What the code of a function relies on: the variables for tags that take nothing but text, and what
the functions of recursive types do. -/
structure WriteScope where
  typedTags : List String
  call : String → Value → Written

namespace Encoder

def fill (path : List String) (default : Value) (v : Value) : Except CodecError Value :=
  match path.getLast? with
  | none => .ok (if v.isNull then default else v)
  | some key => do
    match ← v.walk path.dropLast with
    | .map entries =>
      if ((Value.find? key entries).getD .null).isNull then Value.store default path v else return v
    | _ => throw .unsupported

def writeSymbol (symbols : Json) (v : Value) : Except CodecError (List UInt8) :=
  match symbols with
  | .arr items =>
    match items.findIdx? (Value.equals · v) with
    | some i => Varint.encode i
    | none => .error .invalid
  | _ => .error .unsupported

@[grind =] def writeItems (f : Value → Written) : List Value → List Value × Except CodecError Effect
  | [] => ([], .ok .none)
  | v :: rest =>
    let w := f v
    match w.result with
    | .error e => (kept v w.value :: rest, .error e)
    | .ok front =>
      let (rest', result) := writeItems f rest
      (kept v w.value :: rest', result.map front.andThen)

/-- Works on the entries of a dictionary one after the other. Each key is written before its value. -/
@[grind =] def writeEntries (f : Value → Written) :
    List (Value × Value) → List (Value × Value) × Except CodecError Effect
  | [] => ([], .ok .none)
  | (k, v) :: rest =>
    match Primitive.writeString k with
    | .error e => ((k, v) :: rest, .error e)
    | .ok key =>
      let w := f v
      match w.result with
      | .error e => ((k, kept v w.value) :: rest, .error e)
      | .ok front =>
        let (rest', result) := writeEntries f rest
        ((k, kept v w.value) :: rest', result.map ((Effect.put key).andThen front).andThen)

/-- A number of parts, the parts and the number zero, or only the latter if there are no parts. -/
def writeCounted (count : Nat) (parts : Except CodecError Effect) : Except CodecError Effect := do
  if count = 0 then return .put (← Varint.encode 0)
  else
    let front ← Varint.encode count
    let body ← parts
    let back ← Varint.encode 0
    return ((Effect.put front).andThen body).andThen (.put back)

/-- Replaces the values that a loop has run through where they can change. -/
def replaceElements (items : List Value) : Value → Value
  | .list _ => .list items
  | .tuple _ => .tuple items
  | v => v

def writeArray (f : Value → Written) (v : Value) : Written :=
  match v.elements? with
  | none => ⟨v, .error .wrongKind⟩
  | some items =>
    let (items', parts) := writeItems f items
    ⟨replaceElements items' v, writeCounted items.length parts⟩

def writeMap (f : Value → Written) : Value → Written
  | .map entries =>
    let (entries', parts) := writeEntries f entries
    ⟨.map entries', writeCounted entries.length parts⟩
  | .null => ⟨.null, .error .wrongKind⟩
  | v => ⟨v, .error .notDictionary⟩

def inside (path : List String) (f : Value → Written) (v : Value) : Written :=
  match v.walk path with
  | .error e => ⟨v, .error e⟩
  | .ok x =>
    let w := f x
    ⟨((Value.store (kept x w.value) path v).toOption).getD v, w.result⟩

def only (f : Value → Except CodecError (List UInt8)) (v : Value) : Written :=
  ⟨v, (f v).map Effect.put⟩

def writeLogical (type : Logical) (v : Value) : Except CodecError (List UInt8) := do
  let x ← type.prepare v
  match type.base with
  | .str name => Primitive.write name x
  | _ => throw .unsupported

def writeBranch (index : Nat) (f : Value → Written) (v : Value) : Written :=
  Written.andThen ⟨v, (Varint.encode index).map Effect.put⟩ f

/-- Whether a value may be held by the variable for a tag. -/
def isTag (scope : WriteScope) (variableName : String) (tag : Value) : Bool :=
  tag.isStr || tag.isNull || !scope.typedTags.contains variableName

def writePair (scope : WriteScope) (variableName : String) (f : Value → Value → Written) :
    List Value → Written
  | [tag, payload] =>
    if isTag scope variableName tag then
      let w := f tag payload
      ⟨.tuple [tag, kept payload w.value], w.result⟩
    else ⟨.tuple [tag, payload], .error .wrongKind⟩
  | items => ⟨.tuple items, .error .invalid⟩

mutual

/-- What code does to the value of its variable. -/
def run (scope : WriteScope) : Encoder → Value → Written
  | .null, v => ⟨v, .ok .none⟩
  | .primitive type place, v => inside place.keys (only (Primitive.write type)) v
  | .logical type place, v => inside place.keys (only (writeLogical type)) v
  | .fields parts, v => runParts scope parts v
  | .filled place default next, v =>
    match fill place.keys ((Default.value? default).getD .null) v with
    | .error e => ⟨v, .error e⟩
    | .ok v' => run scope next v'
  | .array place _ body, v => inside place.keys (writeArray fun x => run scope body x) v
  | .enum place symbols, v => inside place.keys (only (writeSymbol symbols)) v
  | .map place _ _ body, v => inside place.keys (writeMap fun x => run scope body x) v
  | .union subject tag _ branches, v =>
    match subject.look v with
    | .error e => ⟨v, .error e⟩
    | .ok (.tuple items) =>
      let w := writePair scope tag (fun t payload => runTagged scope t branches payload) items
      ⟨((Value.store w.value subject.keys v).toOption).getD v, w.result⟩
    | .ok _ => runPlain scope subject branches v
  | .recur name place, v => inside place.keys (fun x => (scope.call name x).called) v

def runParts (scope : WriteScope) : List Encoder → Value → Written
  | [], v => ⟨v, .ok .none⟩
  | e :: es, v => (run scope e v).andThen fun v' => runParts scope es v'

/-- The first branch with a tag. Without one nothing is written. -/
def runTagged (scope : WriteScope) (tag : Value) : List (Branch Encoder) → Value → Written
  | [], v => ⟨v, .ok .none⟩
  | ⟨t, index, _, tagged, _⟩ :: rest, v =>
    if Value.equals (.str (literalText t)) tag then
      writeBranch index (fun x => run scope tagged x) v
    else runTagged scope tag rest v

/-- The first branch whose guard lets the value pass. Without one nothing is written. -/
def runPlain (scope : WriteScope) (subject : Subject) : List (Branch Encoder) → Value → Written
  | [], v => ⟨v, .ok .none⟩
  | ⟨_, index, guard, _, plain⟩ :: rest, v =>
    match guard.passes subject v with
    | .error e => ⟨v, .error e⟩
    | .ok true => writeBranch index (fun x => run scope plain x) v
    | .ok false => runPlain scope subject rest v

end

attribute [grind =] run runParts runTagged runPlain

end Encoder

end Code

end AvroCodec
