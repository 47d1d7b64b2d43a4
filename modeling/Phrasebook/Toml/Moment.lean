import Phrasebook.Time.Calendar
import Phrasebook.Toml.Number

/-!
Dates and times of day in TOML documents.

A moment is a date, a time of day, or both with or without the distance from universal
time.  A date has to exist in the calendar; a minute may have a leap second.
-/

namespace Phrasebook.Toml

open Reader

/-- A number of so many decimal digits, from a lowest to a highest value. -/
def numeral (length low high : Nat) : Reader Nat := do
  let mut n := 0
  for _ in List.range length do
    n := n * 10 + ((← one Char.isDigit).toNat - '0'.toNat)
  guard (low ≤ n ∧ n ≤ high)
  return n

/-- A date: year, month and day. -/
def date : Reader Unit := do
  let year ← numeral 4 0 9999
  char '-'
  let month ← numeral 2 1 12
  char '-'
  discard <| numeral 2 1 (daysIn year month)

/-- A time of day: hour, minute, second and a fraction of one. -/
def timeOfDay : Reader Unit := do
  discard <| numeral 2 0 23
  char ':'
  discard <| numeral 2 0 59
  char ':'
  discard <| numeral 2 0 60
  discard <| optionally do char '.'; run₁ Char.isDigit

/-- The distance from universal time. -/
def distance : Reader Unit :=
  discard (one fun c => c == 'Z' || c == 'z') <|> do
    discard <| one fun c => c == '+' || c == '-'
    discard <| numeral 2 0 23
    char ':'
    discard <| numeral 2 0 59

/-- A date, and perhaps more. -/
def dateAndTime : Reader Unit := do
  date
  discard <| optionally do
    discard <| one fun c => c == 'T' || c == 't' || c == ' '
    timeOfDay
    discard <| optionally distance

/-- A moment. -/
def momentReader : Reader Toml := fun t => do
  let ((), rest) ← (dateAndTime <|> timeOfDay) t
  return (moment (t.take (t.length - rest.length)), rest)

end Phrasebook.Toml
