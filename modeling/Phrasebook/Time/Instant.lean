import Phrasebook.Binary64.Text
import Phrasebook.Time.Calendar

/-!
Points in time, and the two ways to write them.

An instant is a number of seconds since the beginning of 1970 in universal time, days having
86400 of them, and a part of a second.  In the last second of a minute the part may exceed
a second, which makes the instant one of a leap second.  RFC 3339 writes an instant with as
few groups of three decimals as are exact; a file name has no colons and no decimals.
-/

namespace Phrasebook

/-- A point in time. -/
structure Instant where
  seconds : Int
  nanoseconds : Nat
  deriving DecidableEq, Repr

namespace Instant

/-- The first second of the calendar, that of the year -262143. -/
def firstSecond : Int := -8334601228800

/-- The last second of the calendar, that of the year 262142. -/
def lastSecond : Int := 8210266876799

/-- An instant of the calendar. -/
def ofUnix? (seconds : Int) (nanoseconds : Nat) : Option Instant :=
  let limit := if seconds % 60 = 59 then 2000000000 else 1000000000
  if firstSecond ≤ seconds ∧ seconds ≤ lastSecond ∧ nanoseconds < limit then
    some ⟨seconds, nanoseconds⟩
  else none

/-- A number with at least so many digits. -/
def padded (width n : Nat) : Text :=
  let ds := naturalText n
  List.replicate (width - ds.length) '0' ++ ds

/-- A year in four digits; one that needs a sign or a fifth digit gets both. -/
def yearText (year : Int) : Text :=
  if 0 ≤ year ∧ year < 10000 then padded 4 year.toNat
  else (if year < 0 then '-' else '+') :: padded 4 year.natAbs

/-- The date of an instant. -/
def dateText (t : Instant) : Text :=
  let date := Date.ofDays (t.seconds / 86400)
  yearText date.year ++ '-' :: padded 2 date.month ++ '-' :: padded 2 date.day

/-- The time of day of an instant, with a mark between its parts. -/
def clockText (mark : Char) (t : Instant) : Text :=
  let second := (t.seconds % 86400).toNat
  padded 2 (second / 3600) ++ mark :: padded 2 (second / 60 % 60) ++
    mark :: padded 2 (second % 60 + t.nanoseconds / 1000000000)

/-- The decimals of the second: as few groups of three as are exact. -/
def decimalsText (t : Instant) : Text :=
  let n := t.nanoseconds % 1000000000
  if n = 0 then []
  else if n % 1000000 = 0 then '.' :: padded 3 (n / 1000000)
  else if n % 1000 = 0 then '.' :: padded 6 (n / 1000)
  else '.' :: padded 9 n

/-- The instant as RFC 3339 writes it. -/
def text (t : Instant) : Text :=
  t.dateText ++ 'T' :: t.clockText ':' ++ t.decimalsText ++ "+00:00".toList

/-- The instant as it stands in names of files. -/
def fileText (t : Instant) : Text := t.dateText ++ 'T' :: t.clockText '-' ++ ['Z']

end Instant

end Phrasebook
