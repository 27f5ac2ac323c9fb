/-!
# Binary floating point

A format of floating-point numbers is given by the digits of its significands and the bits of its
exponents. Arithmetic is exact arithmetic on rationals followed by one rounding to the nearest number
of the format, a tie going to the even significand. Numbers are kept as their bits: sign, exponent
field and fraction, from the highest down, which makes the bits of positive numbers rise with them.
-/

namespace AvroCodec.Binary

structure Format where
  /-- Binary digits of a significand. -/
  precision : Nat
  /-- Bits of the exponent field. -/
  width : Nat

namespace Format

def single : Format := ⟨24, 8⟩

def double : Format := ⟨53, 11⟩

/-- The weight of the exponent field. -/
def unit (f : Format) : Nat := Nat.pow 2 (f.precision - 1)

/-- The exponent field of infinities and of what is not a number. -/
def top (f : Format) : Nat := Nat.pow 2 f.width - 1

def signUnit (f : Format) : Nat := Nat.pow 2 (f.precision - 1 + f.width)

/-- The exponent of the last digit of the smallest numbers. -/
def least (f : Format) : Int := 3 - Nat.pow 2 (f.width - 1) - f.precision

end Format

/-- A floating-point number. The value of a finite one is `significand * 2 ^ exponent`, with a sign
that also zero has. -/
inductive Number where
  | finite (negative : Bool) (significand : Nat) (exponent : Int)
  | infinite (negative : Bool)
  | nan
deriving DecidableEq, Inhabited

def twoPow : Int → Rat
  | .ofNat n => (Nat.pow 2 n : Rat)
  | .negSucc n => mkRat 1 (Nat.pow 2 (n + 1))

/-- The integer nearest to a rational, of two the even one. -/
def nearest (x : Rat) : Int :=
  let k := x.floor
  if x - k < mkRat 1 2 then k
  else if mkRat 1 2 < x - k then k + 1
  else if k % 2 = 0 then k else k + 1

/-- The exponent of the leading binary digit of a positive rational. -/
def leading (x : Rat) : Int :=
  let estimate : Int := (x.num.natAbs.log2 : Int) - x.den.log2
  if twoPow estimate ≤ x then estimate else estimate - 1

namespace Number

def toRat? : Number → Option Rat
  | finite negative m e =>
    let size := (m : Rat) * twoPow e
    some (if negative then -size else size)
  | _ => none

def isNegative : Number → Bool
  | finite negative _ _ => negative
  | infinite negative => negative
  | nan => false

/-- The bits of a number. A finite one that is too large for the format has the bits of an infinity. -/
def toBits (f : Format) : Number → Nat
  | finite negative m e =>
    (if negative then f.signUnit else 0) + min ((e - f.least).toNat * f.unit + m) (f.top * f.unit)
  | infinite negative => (if negative then f.signUnit else 0) + f.top * f.unit
  | nan => f.top * f.unit + f.unit / 2

def ofBits (f : Format) (bits : Nat) : Number :=
  let negative := bits / f.signUnit % 2 == 1
  let field := bits / f.unit % (f.top + 1)
  let fraction := bits % f.unit
  if field = f.top then if fraction = 0 then infinite negative else nan
  else if field = 0 then finite negative fraction f.least
  else finite negative (f.unit + fraction) (f.least + field - 1)

/-- The exponent of the last digit of the numbers around a positive rational. -/
def lastExponent (f : Format) (x : Rat) : Int :=
  max f.least (leading x - (f.precision - 1 : Nat))

/-- Rounds a rational to the nearest number of a format. The sign of zero is given. -/
def round (f : Format) (negative : Bool) (x : Rat) : Number :=
  if x = 0 then finite negative 0 f.least
  else
    let size := if x < 0 then -x else x
    let e := lastExponent f size
    let rounded := finite (x < 0) (nearest (size / twoPow e)).toNat e
    ofBits f (rounded.toBits f)

def ofRat (f : Format) (x : Rat) : Number := round f (x < 0) x

def ofInt (f : Format) (n : Int) : Number := ofRat f n

def convert (f : Format) : Number → Number
  | finite negative m e =>
    match (finite negative m e).toRat? with
    | some x => round f negative x
    | none => nan
  | x => x

/-- A number times a positive rational, rounded once. -/
def scale (f : Format) (factor : Rat) : Number → Number
  | finite negative m e =>
    match (finite negative m e).toRat? with
    | some x => round f negative (x * factor)
    | none => nan
  | x => x

end Number

def truncate (x : Rat) : Int :=
  if x < 0 then -(-x).floor else x.floor

end AvroCodec.Binary
