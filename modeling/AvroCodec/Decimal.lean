import AvroCodec.Binary

/-!
# Decimal numbers

A decimal number is a coefficient and a power of ten, so that `1.5` and `1.50` are different. There
are infinities, and numbers that stand for no number, which may carry digits.
-/

namespace AvroCodec

inductive Decimal where
  | finite (negative : Bool) (coefficient : Nat) (exponent : Int)
  | infinite (negative : Bool)
  | nan (negative : Bool) (payload : Option Nat)
deriving DecidableEq, Inhabited

namespace Decimal

/-- The number of decimal digits of a number. Zero has one. -/
def digitCount (n : Nat) : Nat := (Nat.toDigits 10 n).length

/-- Divides by a power of ten and rounds to the nearest number, of two the even one. -/
def roundedDiv (n places : Nat) : Nat :=
  let unit := Nat.pow 10 places
  let q := n / unit
  let r := n % unit
  if 2 * r < unit then q
  else if unit < 2 * r then q + 1
  else q + q % 2

/-- The largest power of ten that a decimal can have as its first digit. The least is its opposite. -/
def mostPower : Int := 999999

/-- The least power of ten that the last of so many digits can have. -/
def leastExponent (precision : Nat) : Int := -mostPower - precision + 1

/-- The decimal nearest to the given one with at most so many digits, if it is not too large. Rounding up may
give one digit more, which is a zero and is moved to the power. -/
def fit (precision : Nat) (negative : Bool) (n : Nat) (e : Int) : Option Decimal :=
  if n = 0 then some (.finite negative 0 (min (max e (leastExponent precision)) mostPower))
  else
    let top := mostPower - precision + 1
    let least := max (e + digitCount n - precision) (leastExponent precision)
    if top < least then none
    else if least ≤ e then some (.finite negative n e)
    else
      let q := roundedDiv n (least - e).toNat
      if digitCount q ≤ precision then some (.finite negative q least)
      else if top < least + 1 then none
      else some (.finite negative (q / 10) (least + 1))

/-- The integer with the digits of a decimal, so many places after it was shifted up. -/
def unscaled (coefficient places : Nat) : Nat := Nat.pow 10 places * coefficient

/-- The powers of ten beyond which every number is an infinity, or zero, as a floating-point number. -/
def floatReach : Int := 400

def toNumber (f : Binary.Format) : Decimal → Binary.Number
  | finite negative m e =>
    if m = 0 || e + digitCount m < -floatReach then .finite negative 0 f.least
    else if floatReach < e + digitCount m then .infinite negative
    else
      let size : Rat := match e with
        | .ofNat n => (m * Nat.pow 10 n : Nat)
        | .negSucc n => mkRat m (Nat.pow 10 (n + 1))
      .round f negative (if negative then -size else size)
  | infinite negative => .infinite negative
  | nan _ _ => .nan

def isZero : Decimal → Bool
  | finite _ m _ => m == 0
  | _ => false

end Decimal

end AvroCodec
