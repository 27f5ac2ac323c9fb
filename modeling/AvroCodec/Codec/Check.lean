import AvroCodec.Code.Routine
import AvroCodec.Codec.Read

/-!
# Code that can be compiled

Generated text is only of use if it can be compiled. It cannot if it names a function that does not
exist, if a name that was pasted between quotes ends its literal, if a default is no expression, if a
loop or a union has no body, or if a variable is used that no statement assigns.
-/

namespace AvroCodec.Code

def isLiteral (quote : Char) (text : String) : Bool :=
  (Text.unescape? quote text).isSome && !text.toList.any Text.isLineBreak

def isIdentifier (text : String) : Bool :=
  text.toList.all fun c => c.isAlphanum || c == '_'

namespace Place

def isSound (p : Place) : Bool :=
  p.path.all fun s => match s with
    | .member name => isLiteral '\'' name
    | .bound _ => true

/-- Whether the last subscript of a place is found by its bracket. -/
def isSplit (p : Place) : Bool :=
  match p.path.getLast? with
  | some (.member name) => !Text.hasChar '[' name
  | _ => true

end Place

def Subject.isSound : Subject → Bool
  | .value place => place.isSound
  | .member place key => place.isSound && isLiteral '\'' key && isLiteral '"' key

def isSymbols (symbols : Json) : Bool := symbols.isArr || symbols.isObj

def Logical.isSound (l : Logical) : Bool :=
  match LogicalKind.ofName? l.kind, l.base with
  | some .decimal, .str base => ["bytes", "fixed"].contains base
  | some _, .str base => Primitive.isKnown base
  | _, _ => false

/-- The underlying types whose names are also names of types of values. -/
def testableTypes : List String := ["int", "long", "float", "bytes"]

def Guard.isSound : Guard → Bool
  | .isNull | .hasType _ => true
  | .isSymbol symbols => isSymbols symbols
  | .prepared type =>
    (LogicalKind.ofName? type.kind).isSome && testableTypes.any fun t => type.base.isStr t

namespace Encoder

mutual

def isBlank : Encoder → Bool
  | .fields parts => areBlank parts
  | _ => false

def areBlank : List Encoder → Bool
  | [] => true
  | e :: es => isBlank e && areBlank es

end

mutual

/-- Whether code can be compiled, with functions for the given recursive types. -/
def isSound (functions : List String) : Encoder → Bool
  | .null => true
  | .primitive type place => Primitive.isKnown type && place.isSound
  | .logical type place => type.isSound && place.isSound
  | .fields parts => areSound functions parts
  | .filled place default next =>
    place.isSound && place.isSplit && (Default.value? default).isSome && isSound functions next
  | .array place _ body => place.isSound && !isBlank body && isSound functions body
  | .enum place symbols => place.isSound && isSymbols symbols
  | .map place _ _ body => place.isSound && isSound functions body
  | .union subject _ _ branches =>
    subject.isSound && !branches.isEmpty && branchesSound functions branches
  | .recur name place =>
    place.isSound && isIdentifier (functionSuffix name) && functions.contains (functionSuffix name)

def areSound (functions : List String) : List Encoder → Bool
  | [] => true
  | e :: es => isSound functions e && areSound functions es

def branchesSound (functions : List String) : List (Branch Encoder) → Bool
  | [] => true
  | ⟨tag, _, guard, tagged, plain⟩ :: rest =>
    isLiteral '\'' tag && guard.isSound && isSound functions tagged && isSound functions plain
      && branchesSound functions rest

end

mutual

/-- A bound for the size of all defaults that code can put in. -/
def defaultWeight : Encoder → Nat
  | .fields parts => defaultWeights parts
  | .filled _ default next => default.pasted.length + 1 + defaultWeight next
  | .array _ _ body => defaultWeight body
  | .map _ _ _ body => defaultWeight body
  | .union _ _ _ branches => branchWeights branches
  | _ => 0

def defaultWeights : List Encoder → Nat
  | [] => 0
  | e :: es => defaultWeight e + defaultWeights es

def branchWeights : List (Branch Encoder) → Nat
  | [] => 0
  | ⟨_, _, _, tagged, plain⟩ :: rest =>
    defaultWeight tagged + defaultWeight plain + branchWeights rest

end

end Encoder

namespace Decoder

/-- The variable that an assignment to a place gives a value to, if it is one. -/
def target (p : Place) : List String := if p.path.isEmpty then [p.root] else []

mutual

def assigned : Decoder → List String
  | .null place | .primitive _ _ place | .logical _ place | .enum place _ | .recur _ place =>
    target place
  | .record place parts => target place ++ assignedParts parts
  | .array place _ _ _ body => target place ++ assigned body
  | .map place key _ _ body => target place ++ [key] ++ assigned body
  | .union _ _ _ cases => assignedCases cases

def assignedParts : List Decoder → List String
  | [] => []
  | d :: ds => assigned d ++ assignedParts ds

def assignedCases : List (Json × Decoder) → List String
  | [] => []
  | (_, d) :: rest => assigned d ++ assignedCases rest

end

mutual

def used : Decoder → List String
  | .null place | .primitive _ _ place | .logical _ place | .enum place _ | .recur _ place =>
    [place.root]
  | .record place parts => place.root :: usedParts parts
  | .array place _ _ item body => place.root :: item :: used body
  | .map place _ _ _ body => place.root :: used body
  | .union _ _ _ cases => usedCases cases

def usedParts : List Decoder → List String
  | [] => []
  | d :: ds => used d ++ usedParts ds

def usedCases : List (Json × Decoder) → List String
  | [] => []
  | (_, d) :: rest => used d ++ usedCases rest

end

mutual

/-- Whether the statements of code can be compiled, with functions for the given recursive types. -/
def isSound (functions : List String) : Decoder → Bool
  | .null place => place.isSound
  | .primitive type _ place => Primitive.isKnown type && place.isSound
  | .logical type place => type.isSound && place.isSound
  | .record place parts => place.isSound && areSound functions parts
  | .array place _ _ _ body => place.isSound && isSound functions body
  | .enum place symbols => place.isSound && isSymbols symbols
  | .map place _ _ _ body => place.isSound && isSound functions body
  | .union place _ _ cases => place.isSound && casesSound functions cases
  | .recur name place =>
    place.isSound && isIdentifier (functionSuffix name) && functions.contains (functionSuffix name)

def areSound (functions : List String) : List Decoder → Bool
  | [] => true
  | d :: ds => isSound functions d && areSound functions ds

def casesSound (functions : List String) : List (Json × Decoder) → Bool
  | [] => true
  | (_, d) :: rest => isSound functions d && casesSound functions rest

end

def isComplete (functions : List String) (d : Decoder) : Bool :=
  isSound functions d && ("data" :: used d).all (assigned d).contains

end Decoder

namespace Routine

mutual

def functions : Routine → List (String × Routine)
  | mk _ _ _ _ helpers => helperFunctions helpers

def helperFunctions : List (String × Routine) → List (String × Routine)
  | [] => []
  | (name, routine) :: rest =>
    (functionSuffix name, routine) :: functions routine ++ helperFunctions rest

end

/-- Whether the two functions of a routine can be compiled. -/
def isSound (functions : List String) (r : Routine) : Bool :=
  r.writer.isSound functions && r.reader.isComplete functions

def compiles (r : Routine) : Bool :=
  let names := r.functions.map (·.1)
  r.isSound names && r.functions.all fun f => f.2.isSound names

end Routine

end AvroCodec.Code
