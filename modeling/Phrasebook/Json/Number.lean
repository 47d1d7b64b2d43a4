import Phrasebook.Binary64.Reading
import Phrasebook.Json.Basic

/-!
JSON numbers from their text.

The text is split into its parts first, which decides whether it is a number at all.  Its
digits are then taken into one machine word as long as they fit; what does not fit before
the point raises the exponent, and what does not fit behind it is dropped.  A number with
neither fraction nor exponent is an integer if a word holds it.
-/

namespace Phrasebook.Json

/-- The parts of a number's text.  A part that is not there is `none`. -/
structure Literal where
  negative : Bool
  whole : Text
  fraction : Option Text
  exponent : Option (Bool × Text)

namespace Literal

/-- Digits at the front of a text, and the rest. -/
def digits (t : Text) : Text × Text := (t.takeWhile Char.isDigit, t.dropWhile Char.isDigit)

/-- Whether a minus stands at the front of a text, and the rest. -/
def minus : Text → Bool × Text
  | '-' :: rest => (true, rest)
  | rest => (false, rest)

/-- Whether the sign at the front of a text, if there is one, is a minus, and the rest. -/
def sign : Text → Bool × Text
  | '+' :: rest => (false, rest)
  | rest => minus rest

/-- The digits behind a point, if there is a point. -/
def fraction? : Text → Option (Option Text × Text)
  | '.' :: rest =>
    match digits rest with
    | ([], _) => none
    | (ds, rest) => some (some ds, rest)
  | rest => some (none, rest)

/-- The sign and the digits of an exponent, if there is one; `true` is the minus. -/
def exponent? : Text → Option (Option (Bool × Text) × Text)
  | c :: rest =>
    if c = 'e' ∨ c = 'E' then
      let (negative, rest) := sign rest
      match digits rest with
      | ([], _) => none
      | (ds, rest) => some (some (negative, ds), rest)
    else some (none, c :: rest)
  | [] => some (none, [])

/-- The parts of a text that is a number.  Zeros stand in front of no other digit. -/
def ofText? (t : Text) : Option Literal := do
  let (negative, t) := minus t
  let (whole, t) := digits t
  match whole with
  | [] | '0' :: _ :: _ => none
  | _ =>
    let (fraction, t) ← fraction? t
    let (exponent, t) ← exponent? t
    if t.isEmpty then some ⟨negative, whole, fraction, exponent⟩ else none

/-- The value of a digit. -/
def digitValue (c : Char) : Nat := c.toNat - '0'.toNat

/-- Takes digits into a number as long as it stays a machine word. -/
def absorb (n : Nat) : Text → Nat × Text
  | [] => (n, [])
  | c :: rest =>
    if n * 10 + digitValue c < 2 ^ (64 : Nat) then absorb (n * 10 + digitValue c) rest
    else (n, c :: rest)

/-- The number that digits stand for. -/
def natural (t : Text) : Nat := t.foldl (fun n c => n * 10 + digitValue c) 0

/-- The power of ten that an exponent names. -/
def power : Option (Bool × Text) → Int
  | none => 0
  | some (negative, ds) => if negative then -(natural ds : Int) else natural ds

/-- The integer of a sign and a machine word. -/
def integer (negative : Bool) (n : Nat) : Number :=
  if !negative then .natural n
  else if n = 0 ∨ 2 ^ (63 : Nat) < n then .real (.nearest true (n * unitsOfOne) 1)
  else .negative n

/-- The number of the parts; none is out of range. -/
def number? (l : Literal) : Option Number :=
  let (front, dropped) := absorb 0 l.whole
  match l.fraction, l.exponent, dropped with
  | none, none, [] => some (integer l.negative front)
  | fraction, exponent, dropped =>
    let fraction := fraction.getD []
    let (all, ignored) := absorb front fraction
    let places : Int := dropped.length + ignored.length - fraction.length + power exponent
    (Binary64.ofScaled? l.negative all places).map .real

end Literal

end Phrasebook.Json
