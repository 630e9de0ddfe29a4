import Sentential.Calendar.Timestamp
import Sentential.Text.Blank

/-!
# Reading timestamps

Stored times are read more freely than they are written. Fields need not be padded, blanks
may stand before every field and mark, the date and the time are parted by a `T` or a blank,
a year may be signed, and the time is given relative to an offset, which is required. Digits
past the ninth of a fraction are dropped. The instant read is the one in Universal Time.
-/

namespace Sentential.Calendar.Reader

open Text (skipBlanks)

/-- Splits off the leading digits, but no more than `most`. -/
def digits : Nat → List Char → List Char × List Char
  | most + 1, c :: rest =>
    if c.isDigit then
      let (ds, after) := digits most rest
      (c :: ds, after)
    else ([], c :: rest)
  | _, cs => ([], cs)

/-- The number that a list of decimal digits denotes. -/
def value (ds : List Char) : Nat :=
  ds.foldl (fun n c => 10 * n + (c.toNat - '0'.toNat)) 0

/-- Reads a number of at least one and at most `most` digits. -/
def number (most : Nat) (cs : List Char) : Option (Nat × List Char) :=
  match digits most cs with
  | ([], _) => none
  | (ds, rest) => some (value ds, rest)

/-- Reads a mark that has to come next. -/
def mark (c : Char) : List Char → Option (List Char)
  | d :: rest => if d = c then some rest else none
  | [] => none

/-- Reads a field of one or two digits, after blanks. -/
def field (cs : List Char) : Option (Nat × List Char) :=
  number 2 (skipBlanks cs)

def spacedMark (c : Char) (cs : List Char) : Option (List Char) :=
  mark c (skipBlanks cs)

/-- Reads a year after blanks: at most four digits, or any number of digits after a sign. -/
def year (cs : List Char) : Option (Int × List Char) :=
  match skipBlanks cs with
  | '-' :: rest => (number rest.length rest).map fun (n, after) => (-(n : Int), after)
  | '+' :: rest => (number rest.length rest).map fun (n, after) => ((n : Int), after)
  | rest => (number 4 rest).map fun (n, after) => ((n : Int), after)

def date (cs : List Char) : Option (Date × List Char) := do
  let (y, cs) ← year cs
  let (m, cs) ← field (← spacedMark '-' cs)
  let (d, cs) ← field (← spacedMark '-' cs)
  return (← Date.ofParts? y m d, cs)

def separator : List Char → Option (List Char)
  | c :: rest => if c = 'T' ∨ c = 't' ∨ c = ' ' then some rest else none
  | [] => none

/-- Reads the fraction of a second, if a point follows; nine digits are kept, and
fewer are filled up with zeros. -/
def fraction : List Char → Option (Nat × List Char)
  | '.' :: rest =>
    match digits 9 rest with
    | ([], _) => none
    | (ds, after) =>
      some (value (ds ++ List.replicate (9 - ds.length) '0'), after.dropWhile Char.isDigit)
  | cs => some (0, cs)

/-- A time of day as written, before its offset is known. -/
structure Clock where
  hour : Nat
  minute : Nat
  second : Nat
  nanosecond : Nat

def clock (cs : List Char) : Option (Clock × List Char) := do
  let (hour, cs) ← field cs
  let (minute, cs) ← field (← spacedMark ':' cs)
  let (second, cs) ← field (← spacedMark ':' cs)
  let (nanosecond, cs) ← fraction cs
  return (⟨hour, minute, second, nanosecond⟩, cs)

def twoDigits : List Char → Option (Nat × List Char)
  | a :: b :: rest => if a.isDigit ∧ b.isDigit then some (value [a, b], rest) else none
  | _ => none

/-- Reads hours and minutes of an offset, with colons or blanks or nothing between them, as
minutes. -/
def offsetMinutes (cs : List Char) : Option (Nat × List Char) := do
  let (hours, cs) ← twoDigits cs
  let (minutes, cs) ← twoDigits (cs.dropWhile fun c => c == ':' || Text.isBlank c)
  if minutes < 60 then return (60 * hours + minutes, cs) else none

/-- Reads an offset from Universal Time, in minutes: `UTC` or `Z` in either case, or a sign
with hours and minutes. The minus sign U+2212 stands for a hyphen. -/
def offset (cs : List Char) : Option (Int × List Char) :=
  match cs with
  | 'Z' :: rest | 'z' :: rest => some (0, rest)
  | '+' :: rest => (offsetMinutes rest).map fun (n, after) => ((n : Int), after)
  | '-' :: rest | '−' :: rest => (offsetMinutes rest).map fun (n, after) => (-(n : Int), after)
  | u :: t :: c :: rest =>
    if u.toUpper = 'U' ∧ t.toUpper = 'T' ∧ c.toUpper = 'C' then some (0, rest) else none
  | _ => none

def dayMinutes : Int := 1440

/-- The instant at which a clock set to a given offset shows a given date and time. Offsets of
a day or more are refused, and so are instants outside the span of dates. -/
def instant? (d : Date) (c : Clock) (offset : Int) : Option Timestamp :=
  if h : c.hour < 24 ∧ c.minute < 60 ∧ c.second ≤ 60 ∧ c.nanosecond < 1000000000 ∧
      offset.natAbs < 1440 then
    -- An offset of less than a day leads at most to the day before or after.
    let civil : Int := 60 * c.hour + c.minute - offset
    let day : Option Date :=
      if civil < 0 then d.previous? else if dayMinutes ≤ civil then d.next? else some d
    let minutes := (civil % dayMinutes).toNat
    day.map fun date =>
      { date
        hour := minutes / 60
        minute := minutes % 60
        second := c.second
        nanosecond := c.nanosecond
        hour_lt := by
          have : civil % dayMinutes < 1440 := Int.emod_lt_of_pos _ (by decide)
          omega
        minute_lt := Nat.mod_lt _ (by decide)
        second_le := h.2.2.1
        nanosecond_lt := h.2.2.2.1 }
  else none

end Reader

/-- Reads an instant; nothing but blanks may follow it. -/
def Timestamp.ofChars? (cs : List Char) : Option Timestamp := do
  let (d, cs) ← Reader.date cs
  let (c, cs) ← Reader.clock (← Reader.separator cs)
  let (offset, cs) ← Reader.offset (Text.skipBlanks cs)
  if Text.skipBlanks cs = [] then Reader.instant? d c offset else none

end Sentential.Calendar
