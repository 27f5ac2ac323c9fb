import AvroCodec.Text.Digit
import AvroCodec.Value

/-!
# Dates as days since 1970

A date, or a point of time, is written as its days since 1 January 1970. So is a text that is a date.
Other values are left as they are.
-/

namespace AvroCodec.Logical

def digits? (cs : List Char) : Option Nat :=
  cs.foldlM (fun n c => (Text.digit? c).map (10 * n + ·)) 0

def month? : List Char → Option Nat
  | [c] => if '1' ≤ c && c ≤ '9' then digits? [c] else none
  | [c, d] =>
    if (c = '1' && '0' ≤ d && d ≤ '2') || (c = '0' && '1' ≤ d && d ≤ '9') then digits? [c, d]
    else none
  | _ => none

/-- A day in one or two digits. A blank may stand in the place of the first. -/
def day? : List Char → Option Nat
  | [c] => if '1' ≤ c && c ≤ '9' then digits? [c] else none
  | [c, d] =>
    if c = '3' && '0' ≤ d && d ≤ '1' then digits? [c, d]
    else if '1' ≤ c && c ≤ '2' then digits? [c, d]
    else if c = '0' && '1' ≤ d && d ≤ '9' then digits? [c, d]
    else if c = ' ' && '1' ≤ d && d ≤ '9' then digits? [d]
    else none
  | _ => none

/-- Reads a date of the form year, month, day with dashes between. The year has four digits. -/
def parseDate? (s : String) : Option Date :=
  let cs := s.toList
  match cs.drop 4 with
  | '-' :: rest =>
    let monthText := rest.takeWhile (· != '-')
    match rest.dropWhile (· != '-') with
    | '-' :: dayText => do
      let year ← digits? (cs.take 4)
      let month ← month? monthText
      let day ← day? dayText
      let date : Date := { year, month, day }
      if date.isValid then some date else none
    | _ => none
  | _ => none

def daysOf (d : Date) : Value := .int ((d.ordinal : Int) - Date.epoch)

def prepareDate : Value → Except CodecError Value
  | .date d => .ok (daysOf d)
  | .dateTime d => .ok (daysOf d.date)
  | .str s =>
    match parseDate? s with
    | some d => .ok (daysOf d)
    | none => .error .invalid
  | v => .ok v

def fits32 (n : Int) : Bool := -2147483648 ≤ n && n < 2147483648

def readDate (v : Value) : Except CodecError Value :=
  match v.toInt? with
  | none => .error .wrongKind
  | some n =>
    let ordinal := n + Date.epoch
    if !fits32 ordinal then .error .outOfRange
    else if 1 ≤ ordinal && ordinal ≤ Date.lastOrdinal then .ok (.date (.ofOrdinal ordinal.toNat))
    else .error .invalid

end AvroCodec.Logical
