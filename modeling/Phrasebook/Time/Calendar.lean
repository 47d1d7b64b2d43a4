/-!
The calendar: days and dates of the Gregorian calendar, also before it was introduced.

Days are counted from the first of January 1970.  Inside the calculation a year begins with
March, so that a leap day is the last of its year, and years come in cycles of four
hundred, which all have the same number of days.
-/

namespace Phrasebook

/-- Whether a year has a leap day. -/
def isLeapYear (year : Nat) : Bool := year % 4 == 0 && (year % 100 != 0 || year % 400 == 0)

/-- How many days a month has. -/
def daysIn (year month : Nat) : Nat :=
  if month = 2 then if isLeapYear year then 29 else 28
  else if month ∈ [4, 6, 9, 11] then 30
  else 31

/-- A date. -/
structure Date where
  year : Int
  month : Nat
  day : Nat
  deriving DecidableEq, Repr

namespace Date

/-- The number of days in four hundred years. -/
def daysPerCycle : Nat := 146097

/-- The number of days from the first of March of the year 0 to the first of January 1970. -/
def daysBeforeEpoch : Nat := 719468

/-- The year in a cycle, and the day in that year, from the day in the cycle.  The last
day of a cycle and of four years is the leap day of the last year, not a year of its own. -/
def yearOfCycle (day : Nat) : Nat × Nat :=
  let century := min (day / 36524) 3
  let day := day - century * 36524
  let four := day / 1461
  let day := day - four * 1461
  let year := min (day / 365) 3
  (century * 100 + four * 4 + year, day - year * 365)

/-- The month, March being 0, and the day in it, from the day in the year. -/
def monthOfYear (day : Nat) : Nat × Nat :=
  let month := (5 * day + 2) / 153
  (month, day - (153 * month + 2) / 5 + 1)

/-- The date of a day. -/
def ofDays (days : Int) : Date :=
  let days := days + daysBeforeEpoch
  let (year, day) := yearOfCycle (days % daysPerCycle).toNat
  let (month, day) := monthOfYear day
  let year : Int := days / daysPerCycle * 400 + year
  if month < 10 then ⟨year, month + 3, day⟩ else ⟨year + 1, month - 9, day⟩

end Date

end Phrasebook
