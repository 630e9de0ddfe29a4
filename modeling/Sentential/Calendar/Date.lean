/-!
# Civil dates

Days of the proleptic Gregorian calendar, within the span of years that stored times may
use. Year zero precedes year one.
-/

namespace Sentential.Calendar

def earliestYear : Int := -262143

def latestYear : Int := 262142

/-- Every fourth year is a leap year, save centuries not divisible by four hundred. -/
def isLeapYear (year : Int) : Bool :=
  year % 4 = 0 && (year % 100 ≠ 0 || year % 400 = 0)

def daysInMonth (year : Int) (month : Nat) : Nat :=
  if month = 2 then (if isLeapYear year then 29 else 28)
  else if month = 4 ∨ month = 6 ∨ month = 9 ∨ month = 11 then 30
  else 31

/-- Whether year, month and day name a day of the span. -/
abbrev IsDate (year : Int) (month day : Nat) : Prop :=
  (earliestYear ≤ year ∧ year ≤ latestYear) ∧ (1 ≤ month ∧ month ≤ 12) ∧
    (1 ≤ day ∧ day ≤ daysInMonth year month)

structure Date where
  year : Int
  month : Nat
  day : Nat
  isDate : IsDate year month day
deriving DecidableEq

namespace Date

/-- The date with given year, month and day, if there is one. -/
def ofParts? (year : Int) (month day : Nat) : Option Date :=
  if h : IsDate year month day then some ⟨year, month, day, h⟩ else none

/-- The day after, unless the span ends. -/
def next? (d : Date) : Option Date :=
  if d.day < daysInMonth d.year d.month then ofParts? d.year d.month (d.day + 1)
  else if d.month < 12 then ofParts? d.year (d.month + 1) 1
  else ofParts? (d.year + 1) 1 1

/-- The day before, unless the span begins. -/
def previous? (d : Date) : Option Date :=
  if 1 < d.day then ofParts? d.year d.month (d.day - 1)
  else if 1 < d.month then
    ofParts? d.year (d.month - 1) (daysInMonth d.year (d.month - 1))
  else ofParts? (d.year - 1) 12 31

/-- A date is what its own parts name. -/
@[simp]
theorem ofParts?_self (d : Date) : ofParts? d.year d.month d.day = some d := by
  rw [ofParts?, dif_pos d.isDate]

end Date

end Sentential.Calendar
