import AvroCodec.Codec.Write

/-!
# Variables

The variables of a function and their values. A variable keeps its value until it is assigned again, and one
that was never assigned cannot be used.
-/

namespace AvroCodec

open Code

abbrev Variables := List (String × Value)

namespace Variables

@[grind =] def lookup (name : String) : Variables → Option Value
  | [] => none
  | (n, v) :: others => if n = name then some v else lookup name others

def get (vars : Variables) (name : String) : Except CodecError Value :=
  match lookup name vars with
  | some v => .ok v
  | none => .error .unset

def set (vars : Variables) (name : String) (v : Value) : Variables :=
  (name, v) :: vars.filter (·.1 != name)

@[grind =] def keys (vars : Variables) : List Subscript → Except CodecError (List String)
  | [] => .ok []
  | .member name :: path => do return literalText name :: (← keys vars path)
  | .bound key :: path => do
    match ← vars.get key with
    | .str s => return s :: (← keys vars path)
    | _ => throw .wrongKind

end Variables

end AvroCodec
