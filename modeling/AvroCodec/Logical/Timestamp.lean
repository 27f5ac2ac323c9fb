import AvroCodec.Value

/-!
# Points of time as a number of milliseconds or microseconds

A point of time is written as the time since the start of 1970. The seconds are first a floating-point
number, which is multiplied by the units of a second and cut to an integer. Reading divides by the
units and rounds to microseconds. Values that are no points of time are left as they are.
-/

namespace AvroCodec.Logical

open Binary

/-- Seconds since the start of 1970. A time without an offset is taken as universal time; its whole
seconds and its microseconds are added as floating-point numbers. Its first day cannot be told. -/
def secondsOf (d : DateTime) : Except CodecError Number :=
  match d.offset with
  | some _ => .ok (.ofRat .double (mkRat d.microseconds 1000000))
  | none =>
    if d.date = ⟨1, 1, 1⟩ then .error .invalid
    else
      let whole : Int := ((d.date.ordinal : Int) - Date.epoch) * 86400 + d.clock.seconds
      let part := Number.ofRat .double (mkRat d.clock.microsecond 1000000)
      .ok (.ofRat .double ((whole : Rat) + part.toRat?.getD 0))

def integerPart : Number → Except CodecError Int
  | .nan => .error .invalid
  | .infinite _ => .error .outOfRange
  | x => .ok (truncate (x.toRat?.getD 0))

def prepareTimestamp (units : Nat) : Value → Except CodecError Value
  | .dateTime d => do
    let seconds ← secondsOf d
    return .int (← integerPart (seconds.scale .double units))
  | v => .ok v

/-- The microseconds nearest to a number of seconds. The fraction of a second is first turned into a
floating-point number of microseconds. -/
def microsecondsOf : Number → Except CodecError Int
  | .nan => .error .invalid
  | .infinite _ => .error .outOfRange
  | x =>
    let seconds := x.toRat?.getD 0
    let whole := truncate seconds
    let part := (Number.ofRat .double ((seconds - whole) * 1000000)).toRat?.getD 0
    .ok (nearest ((whole * 1000000 : Int) + part))

def numberOfValue : Value → Except CodecError Number
  | .float bits => .ok (Value.numberOf bits)
  | v =>
    match v.toInt? with
    | none => .error .wrongKind
    | some n =>
      match Number.ofInt .double n with
      | .infinite _ => .error .outOfRange
      | x => .ok x

def readTimestamp (units : Nat) (v : Value) : Except CodecError Value := do
  let x ← numberOfValue v
  let n ← microsecondsOf (x.scale .double (mkRat 1 units))
  match DateTime.ofMicroseconds? n with
  | some d => return .dateTime d
  | none => throw .outOfRange

end AvroCodec.Logical
