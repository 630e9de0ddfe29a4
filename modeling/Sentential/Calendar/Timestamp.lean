import Sentential.Calendar.Date

/-!
# Timestamps

An instant in Coordinated Universal Time, to the nanosecond, as a text tells it and a clock
shows it. Two texts are written: the exact one that files store and a plain one for people.

A time held in memory may be more than a text can tell of it; see `Moment`.
-/

namespace Sentential.Calendar

/-- An instant in Coordinated Universal Time. The second numbered sixty is a leap second, and so every
leap second here ends a minute; one behind another second than the fifty-ninth is no timestamp. -/
structure Timestamp where
  date : Date
  hour : Nat
  minute : Nat
  second : Nat
  nanosecond : Nat
  hour_lt : hour < 24
  minute_lt : minute < 60
  second_le : second ≤ 60
  nanosecond_lt : nanosecond < 1000000000
deriving DecidableEq

/-- A number in decimal, with zeros in front up to a given width. -/
def padded (width n : Nat) : List Char :=
  let digits := Nat.toDigits 10 n
  List.replicate (width - digits.length) '0' ++ digits

/-- A year in at least four digits; one outside `0`–`9999` carries its sign. -/
def yearChars (year : Int) : List Char :=
  if year < 0 then '-' :: padded 4 year.natAbs
  else if year ≤ 9999 then padded 4 year.natAbs
  else '+' :: padded 4 year.natAbs

namespace Date

def chars (d : Date) : List Char :=
  yearChars d.year ++ '-' :: padded 2 d.month ++ '-' :: padded 2 d.day

end Date

namespace Timestamp

def clockChars (t : Timestamp) : List Char :=
  padded 2 t.hour ++ ':' :: padded 2 t.minute ++ ':' :: padded 2 t.second

/-- The fraction of a second, in the fewest groups of three digits that lose nothing. -/
def fractionChars (nanosecond : Nat) : List Char :=
  if nanosecond = 0 then []
  else if nanosecond % 1000000 = 0 then '.' :: padded 3 (nanosecond / 1000000)
  else if nanosecond % 1000 = 0 then '.' :: padded 6 (nanosecond / 1000)
  else '.' :: padded 9 nanosecond

def chars (t : Timestamp) : List Char :=
  t.date.chars ++ 'T' :: t.clockChars ++ fractionChars t.nanosecond ++ ['Z']

def text (t : Timestamp) : String :=
  String.ofList t.chars

/-- An instant to the second, with a blank between date and time. -/
def plain (t : Timestamp) : String :=
  String.ofList (t.date.chars ++ ' ' :: t.clockChars)

end Timestamp

end Sentential.Calendar
