import AvroCodec.Logical.Date
import AvroCodec.Logical.Timestamp

/-!
# Times of day as a number of milliseconds or microseconds

A time of day is written as the time since midnight. Reading works with quotients that are rounded to
floating-point numbers and then cut to integers. Values that are no times of day are left as they are.
-/

namespace AvroCodec.Logical

open Binary

/-- A time of day becomes a number of units, and other values stay as they are. -/
def prepareClock (units : Clock → Int) : Value → Except CodecError Value
  | .clock c => .ok (.int (units c))
  | v => .ok v

def prepareMillis : Value → Except CodecError Value :=
  prepareClock fun c => c.seconds * 1000 + c.microsecond / 1000

def prepareMicros : Value → Except CodecError Value :=
  prepareClock fun c => c.microseconds

/-- A time of day from its parts, each of which must fit into 32 bits. -/
def clockOf (hour minute second microsecond : Int) : Except CodecError Value :=
  if !(fits32 hour && fits32 minute && fits32 second && fits32 microsecond) then .error .outOfRange
  else
    let c : Clock := ⟨hour.toNat, minute.toNat, second.toNat, microsecond.toNat⟩
    if 0 ≤ hour && 0 ≤ minute && 0 ≤ second && 0 ≤ microsecond && c.isValid then .ok (.clock c)
    else .error .invalid

/-- A value divided by a number, as a floating-point number. An integer is divided exactly before the
quotient is rounded. -/
def quotient (v : Value) (divisor : Nat) : Except CodecError Number :=
  match v with
  | .float bits => .ok ((Value.numberOf bits).scale .double (mkRat 1 divisor))
  | v =>
    match v.toInt? with
    | none => .error .wrongKind
    | some n =>
      match Number.ofRat .double (mkRat n divisor) with
      | .infinite _ => .error .outOfRange
      | x => .ok x

/-- The remainder of a value, not negative, cut to an integer. For a floating-point number below zero
the divisor is added to the remainder towards zero, and the sum rounded. -/
def remainder (v : Value) (divisor : Nat) : Except CodecError Int :=
  match v with
  | .float bits =>
    match (Value.numberOf bits).toRat? with
    | none => .error .invalid
    | some x =>
      let r := x - truncate (x / divisor) * divisor
      integerPart (.ofRat .double (if r < 0 then r + divisor else r))
  | v =>
    match v.toInt? with
    | none => .error .wrongKind
    | some n => .ok (Int.fmod n divisor)

def readMillis (v : Value) : Except CodecError Value := do
  let sixtieth ← quotient v 60
  let hour ← integerPart ((sixtieth.scale .double 60).scale .double 1000)
  let minute := Int.fmod (← integerPart (sixtieth.scale .double 1000)) 60
  let second := Int.fmod (← integerPart (← quotient v 1000)) 60
  let milliseconds ← remainder v 1000
  clockOf hour minute second (milliseconds * 1000)

/-- The time of day that a number of microseconds is read as. A floating-point number leaves a
remainder that cannot stand for microseconds. -/
def readMicros (v : Value) : Except CodecError Value := do
  let hour ← integerPart (← quotient v 3600000000)
  let minute := Int.fmod (← integerPart (← quotient v 60000000)) 60
  let second := Int.fmod (← integerPart (← quotient v 1000000)) 60
  if !fits32 hour then throw .outOfRange
  match v with
  | .float _ => throw .wrongKind
  | v => clockOf hour minute second (← remainder v 1000000)

end AvroCodec.Logical
