import AvroCodec.Proofs.Cut
import AvroCodec.Proofs.Loading

/-!
# Code that meets the end of its bytes

`Decoder.Refuses` says that code fails on bytes with nothing after them. The items of an array and the
entries of a map are refused wherever they break off: a part may be taken for complete, but then no bytes
are left for the number that must follow.
-/

namespace AvroCodec

open Code Block Reading Varint Primitive

namespace Code.Decoder

variable {d body : Decoder} {index count : String} {E : CodecError → Prop}

section Loops

variable {α : Type} {step : Reading → Except CodecError Reading} {enc : α → List UInt8}
  {I : List α → Reading → Prop} {N : Nat}

variable {bound turn : Nat} {r : Reading} {c s : List UInt8}

end Loops

variable {call : String → List UInt8 → Except CodecError (Value × List UInt8)} {V W : String → Prop} {p : Place}
  {bytes c s : List UInt8} {wrapped : Bool} {cases : List (Json × Decoder)} {item key name : String}

/-- Code fails on these bytes with nothing after them. -/
def Refuses (E : CodecError → Prop) (call : String → List UInt8 → Except CodecError (Value × List UInt8)) (p : Place)
    (d : Decoder) (bytes : List UInt8) : Prop :=
  ∀ (r : Reading) (ks : List String) (held : Value), r.rest = bytes → r.Reaches p ks held → Fails E (d.run call r)

end Code.Decoder

end AvroCodec
