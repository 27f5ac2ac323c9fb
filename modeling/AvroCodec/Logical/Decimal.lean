import AvroCodec.Value
import AvroCodec.Wire.Fixed
import AvroCodec.Wire.Varint

/-!
# Decimals as integers in two's complement

A decimal is written as the integer that it is when shifted up by the scale of its type. Over bytes the
integer takes as many bytes as it and its sign need. Over a type of fixed size it is filled up to the
size. Values that are no decimals are left as they are.
-/

namespace AvroCodec.Logical

open Wire

/-- How far the digits of a decimal with the given exponent are to be shifted up. -/
def shiftOf (exponent : Int) (scale : Json) : Except CodecError Nat :=
  match scale.toInt? with
  | some s => if exponent + s < 0 then .error .scaleMismatch else .ok (exponent + s).toNat
  | none => .error .wrongKind

/-- Whether a scale that is a number with a fraction is too small for an exponent. -/
def isShort (exponent : Int) (mantissa : Int) (places : Nat) : Bool :=
  exponent * Nat.pow 10 places + mantissa < 0

def leastBytes (negative : Bool) (n : Nat) : List UInt8 :=
  signedBigEndian ((bitLength n + 8) / 8) (if negative then -(n : Int) else n)

def prepareBytesDecimal (scale : Json) : Value → Except CodecError Value
  | .decimal (.finite negative m e) =>
    match scale with
    | .fraction mantissa places =>
      .error (if isShort e mantissa places then .scaleMismatch else .unsupported)
    | scale => do
      let shift ← shiftOf e scale
      return .bytes (leastBytes negative (Decimal.unscaled m shift))
  | .decimal _ => .error .wrongKind
  | v => .ok v

/-- An integer filled up to a size. A negative one is cut to the size, another keeps its digits. -/
def sizedBytes (size : Nat) (negative : Bool) (n : Nat) : List UInt8 :=
  let bits := bitLength n + 1
  if negative then
    let mask := (Nat.pow 2 (size * 8) - 1) ^^^ (Nat.pow 2 bits - 1)
    bigEndian size (mask ||| (Nat.pow 2 bits - n))
  else
    List.replicate ((size * 8 - bits) / 8) 0 ++ bigEndian ((bits + 7) / 8) n

/-- How far the digits are to be shifted up for a fixed size. A scale with a fraction will do if there is
nothing to shift. -/
def sizedShiftOf (exponent : Int) : Json → Except CodecError Nat
  | .fraction mantissa places =>
    if isShort exponent mantissa places then .error .scaleMismatch
    else if exponent * Nat.pow 10 places + mantissa = 0 then .ok 0
    else .error .wrongKind
  | scale => shiftOf exponent scale

def prepareFixedDecimal (scale size : Json) : Value → Except CodecError Value
  | .decimal (.finite negative m e) => do
    let shift ← sizedShiftOf e scale
    match size.toInt? with
    | some (.ofNat n) => return .buffer (sizedBytes n negative (Decimal.unscaled m shift))
    | _ => throw .wrongKind
  | .decimal _ => .error .wrongKind
  | v => .ok v

def maxPrecision : Nat := 999999999999999999

/-- An integer as a decimal of so many digits, shifted down by so many places. -/
def ofUnscaled (precision : Nat) (scale n : Int) : Except CodecError Decimal := do
  let some (.finite negative m e) := Decimal.fit precision (n < 0) n.natAbs 0 | throw .tooLarge
  if 2 * (Decimal.mostPower + precision) < scale.natAbs then throw .shiftedTooFar
  let some d := Decimal.fit precision negative m (e - scale) | throw .tooLarge
  return d

/-- The decimal that bytes stand for, rounded to the digits of its type. -/
def readDecimal (scale precision : Json) : Value → Except CodecError Value
  | .bytes data =>
    match precision.toInt? with
    | none => .error .wrongKind
    | some p =>
      if Varint.modulus ≤ Varint.zigzag p then .error .outOfRange
      else if p < 1 || maxPrecision < p then .error .invalid
      else
        match scale.toInt? with
        | none => .error .wrongKind
        | some s => do return .decimal (← ofUnscaled p.toNat s (ofSignedBigEndian data))
  | _ => .error .wrongKind

end AvroCodec.Logical
