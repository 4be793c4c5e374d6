import GuidedLab.Text.Digit

/-!
# Calendar

A moment is a date of the calendar and a time of the day, to the second. The calendar has a leap year
every fourth year, but of the full centuries only every fourth. Days are counted from the start of
1970, and `ofSeconds` finds the moment of a count of seconds from there: years are taken to begin in
March, so that a leap day is the last day of its year, and lie in cycles of 400 years, all of one
length.

The *stamp* of a moment has its parts in falling order, each with a fixed number of digits, so stamps
of years from 0 to 9999 sort as their moments do. Years outside that range carry a sign.
-/

namespace GuidedLab

/-- A date and a time of the day. -/
structure Moment where
  year : Int
  month : Nat
  day : Nat
  hour : Nat
  minute : Nat
  second : Nat
deriving DecidableEq, Repr

namespace Moment

/-- Whether a year has a leap day. -/
def isLeap (year : Int) : Bool :=
  year % 4 = 0 && (year % 100 ≠ 0 || year % 400 = 0)

/-- The number of days of a month. -/
def daysIn (year : Int) (month : Nat) : Nat :=
  match month with
  | 2 => if isLeap year then 29 else 28
  | 4 | 6 | 9 | 11 => 30
  | 1 | 3 | 5 | 7 | 8 | 10 | 12 => 31
  | _ => 0

/-- Whether the parts make up a date of the calendar and a time of the day. A minute may have a leap
second. -/
def isValid (m : Moment) : Bool :=
  1 ≤ m.day && m.day ≤ daysIn m.year m.month && m.hour < 24 && m.minute < 60 && m.second ≤ 60

/-- The days of a cycle of 400 years. -/
def daysInCycle : Nat := 146097

/-- The year, month and day of a day of a cycle that begins in March of year 0. -/
def dateInCycle (day : Nat) : Nat × Nat × Nat :=
  let year := (day - day / 1460 + day / 36524 - day / 146096) / 365
  let dayOfYear := day - (365 * year + year / 4 - year / 100)
  let month := (5 * dayOfYear + 2) / 153
  let dayOfMonth := dayOfYear - (153 * month + 2) / 5 + 1
  if month < 10 then (year, month + 3, dayOfMonth) else (year + 1, month - 9, dayOfMonth)

/-- The moment a count of seconds after the start of 1970. -/
def ofSeconds (seconds : Int) : Moment :=
  let day := seconds / 86400 + 719468
  let rest := (seconds % 86400).toNat
  let (year, month, dayOfMonth) := dateInCycle (day % daysInCycle).toNat
  ⟨day / daysInCycle * 400 + year, month, dayOfMonth, rest / 3600, rest % 3600 / 60, rest % 60⟩

/-- A year in at least four digits, with a sign outside 0 to 9999. -/
def yearText (year : Int) : String :=
  if 0 ≤ year ∧ year ≤ 9999 then Text.padded 4 year.toNat
  else (if year < 0 then "-" else "+") ++ Text.padded 4 year.natAbs

/-- The parts of a moment joined by given separators: within the date, between date and time, and
within the time. -/
def joined (m : Moment) (date between time : String) : String :=
  let two := Text.padded 2
  yearText m.year ++ date ++ two m.month ++ date ++ two m.day ++ between ++ two m.hour ++ time ++
    two m.minute ++ time ++ two m.second

/-- The moment as it is written in names. -/
def stamp (m : Moment) : String := m.joined "-" "_" "-"

/-- The moment as it is shown. -/
def text (m : Moment) : String := m.joined "-" " " ":"

/-- The moment of a stamp of a year from 0 to 9999. -/
def ofStamp? (s : List Char) : Option Moment :=
  match s with
  | [y1, y2, y3, y4, '-', m1, m2, '-', d1, d2, '_', h1, h2, '-', n1, n2, '-', s1, s2] => do
    let year ← Text.natural? [y1, y2, y3, y4]
    let month ← Text.natural? [m1, m2]
    let day ← Text.natural? [d1, d2]
    let hour ← Text.natural? [h1, h2]
    let minute ← Text.natural? [n1, n2]
    let second ← Text.natural? [s1, s2]
    let m : Moment := ⟨year, month, day, hour, minute, second⟩
    if m.isValid then some m else none
  | _ => none

end Moment

end GuidedLab
