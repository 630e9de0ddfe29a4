import Sentential.Calendar.Timestamp

/-!
# Counting from the epoch

Clocks count seconds from the first of January 1970. The day is found by counting in years
that begin in March, so that a leap day comes last.
-/

namespace Sentential.Calendar

/-- The days from the first of March of year zero to the epoch. -/
def epochDay : Int := 719468

/-- The days of four hundred years. -/
def eraDays : Int := 146097

/-- The date that lies a number of days after the epoch, or before it. -/
def Date.ofEpochDay? (day : Int) : Option Date :=
  let fromMarch := day + epochDay
  let era := fromMarch / eraDays
  let dayOfEra := (fromMarch % eraDays).toNat
  let yearOfEra :=
    (dayOfEra - dayOfEra / 1460 + dayOfEra / 36524 - dayOfEra / 146096) / 365
  let dayOfYear := dayOfEra - (365 * yearOfEra + yearOfEra / 4 - yearOfEra / 100)
  -- From March on, every five months have 153 days.
  let monthFromMarch := (5 * dayOfYear + 2) / 153
  let month := if monthFromMarch < 10 then monthFromMarch + 3 else monthFromMarch - 9
  let year := era * 400 + yearOfEra + (if month ≤ 2 then 1 else 0)
  Date.ofParts? year month (dayOfYear - (153 * monthFromMarch + 2) / 5 + 1)

/-- The instant that lies a number of seconds after the epoch, with a fraction in
nanoseconds, of which whole seconds are dropped. -/
def Timestamp.ofEpoch? (seconds : Int) (nanoseconds : Nat) : Option Timestamp :=
  let ofDay := (seconds % 86400).toNat
  (Date.ofEpochDay? (seconds / 86400)).map fun date =>
    { date
      hour := ofDay / 3600
      minute := ofDay / 60 % 60
      second := ofDay % 60
      nanosecond := nanoseconds % 1000000000
      hour_lt := by
        have : seconds % 86400 < 86400 := Int.emod_lt_of_pos _ (by decide)
        omega
      minute_lt := Nat.mod_lt _ (by decide)
      second_le := by have := Nat.mod_lt ofDay (show 60 > 0 by decide); omega
      nanosecond_lt := Nat.mod_lt _ (by decide) }

def Timestamp.epoch : Timestamp where
  date := ⟨1970, 1, 1, by decide⟩
  hour := 0
  minute := 0
  second := 0
  nanosecond := 0
  hour_lt := by decide
  minute_lt := by decide
  second_le := by decide
  nanosecond_lt := by decide

end Sentential.Calendar
