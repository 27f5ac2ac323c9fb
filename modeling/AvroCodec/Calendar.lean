/-!
# Days and times

Days of the Gregorian calendar, extended to its year 1. Days are numbered from 1 January of year 1,
which has the number 1. A time of day has microseconds. A point of time is a day and a time of day,
with its distance to universal time if that is known.
-/

namespace AvroCodec

structure Date where
  year : Nat
  month : Nat
  day : Nat
deriving DecidableEq, Inhabited

structure Clock where
  hour : Nat
  minute : Nat
  second : Nat
  microsecond : Nat
deriving DecidableEq, Inhabited

/-- A day and a time of day. The offset is how many minutes the time is ahead of universal time. -/
structure DateTime where
  date : Date
  clock : Clock
  offset : Option Int
deriving DecidableEq, Inhabited

namespace Date

def isLeap (year : Nat) : Bool := year % 4 == 0 && (year % 100 != 0 || year % 400 == 0)

def daysInMonth (year month : Nat) : Nat :=
  if month = 2 then if isLeap year then 29 else 28
  else if [4, 6, 9, 11].contains month then 30
  else 31

def daysBeforeMonth (year : Nat) : Nat → Nat
  | 0 | 1 => 0
  | month + 1 => daysBeforeMonth year month + daysInMonth year month

def daysBeforeYear (year : Nat) : Nat :=
  let y := year - 1
  y * 365 + y / 4 - y / 100 + y / 400

def isValid (d : Date) : Bool :=
  1 ≤ d.year && d.year ≤ 9999 && 1 ≤ d.month && d.month ≤ 12 && 1 ≤ d.day
    && d.day ≤ daysInMonth d.year d.month

def ordinal (d : Date) : Nat :=
  daysBeforeYear d.year + daysBeforeMonth d.year d.month + d.day

def lastOrdinal : Nat := 3652059

def epoch : Nat := 719163

/-- The year in which so many days have passed since 1 January of year 1. Four hundred years have
146097 days, and within them the last day of a century and of a fourth year is one more than the
division by their length would allow. -/
def yearAfter (days : Nat) : Nat :=
  let centuryDays := days % 146097
  let century := min (centuryDays / 36524) 3
  let fourthDays := centuryDays - century * 36524
  let fourth := fourthDays / 1461
  let rest := fourthDays % 1461
  days / 146097 * 400 + century * 100 + fourth * 4 + min (rest / 365) 3 + 1

/-- The month, counted down from the given one, in which a day of the year falls, which is counted
from 0. -/
def monthOf (year dayOfYear : Nat) : Nat → Nat
  | 0 => 0
  | month + 1 =>
    if daysBeforeMonth year (month + 1) ≤ dayOfYear then month + 1 else monthOf year dayOfYear month

/-- The day with a number that is not 0. -/
def ofOrdinal (n : Nat) : Date :=
  let year := yearAfter (n - 1)
  let dayOfYear := n - 1 - daysBeforeYear year
  let month := monthOf year dayOfYear 12
  { year, month, day := dayOfYear - daysBeforeMonth year month + 1 }

end Date

namespace Clock

def isValid (c : Clock) : Bool :=
  c.hour < 24 && c.minute < 60 && c.second < 60 && c.microsecond < 1000000

def seconds (c : Clock) : Nat := c.hour * 3600 + c.minute * 60 + c.second

def microseconds (c : Clock) : Nat := c.seconds * 1000000 + c.microsecond

def ofMicroseconds (n : Nat) : Clock :=
  { hour := n / 3600000000
    minute := n / 60000000 % 60
    second := n / 1000000 % 60
    microsecond := n % 1000000 }

end Clock

namespace DateTime

def microsecondsPerDay : Nat := 86400000000

/-- The microseconds since the start of 1970, on the clock that the time is told by. -/
def localMicroseconds (d : DateTime) : Int :=
  ((d.date.ordinal : Int) - Date.epoch) * microsecondsPerDay + d.clock.microseconds

/-- The microseconds since the start of 1970 in universal time. -/
def microseconds (d : DateTime) : Int :=
  d.localMicroseconds - d.offset.getD 0 * 60000000

/-- The point of time in universal time, if it is in the years 1 to 9999. -/
def ofMicroseconds? (n : Int) : Option DateTime :=
  let ordinal := Int.fdiv n microsecondsPerDay + Date.epoch
  if 1 ≤ ordinal && ordinal ≤ Date.lastOrdinal then
    some
      { date := .ofOrdinal ordinal.toNat
        clock := .ofMicroseconds (Int.fmod n microsecondsPerDay).toNat
        offset := some 0 }
  else none

end DateTime

end AvroCodec
