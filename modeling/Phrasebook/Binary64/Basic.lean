import Phrasebook.Binary64.Rounding

/-!
Numbers of the format binary64: the weights, probabilities and ratios of this library.

A finite number is a sign and a magnitude, a whole number of units of 2^-1074; zero has
both signs.  Comparisons are those of the exact values, and every operation is the exact
one followed by one rounding, with infinity where the rounded result leaves the range.
Nothing is equal to, below or above `nan`.
-/

namespace Phrasebook

/-- One, in units. -/
def unitsOfOne : Nat := 2 ^ (1074 : Nat)

/-- The first power of two beyond the finite magnitudes, 2^1024, in units. -/
def unitsOfInfinity : Nat := 2 ^ (2098 : Nat)

/-- A magnitude of a finite number, in units of 2^-1074. -/
structure Magnitude where
  units : Nat
  isShort : IsShort units
  bounded : units < unitsOfInfinity
  deriving DecidableEq

/-- A number of the format binary64. -/
inductive Binary64 where
  | finite (negative : Bool) (magnitude : Magnitude)
  | infinite (negative : Bool)
  | nan
  deriving DecidableEq

namespace Magnitude

/-- The magnitude nearest to `n / d` units, unless it is out of range. -/
def nearest? (n d : Nat) : Option Magnitude :=
  if h : roundShort n d < unitsOfInfinity then some ⟨roundShort n d, isShort_roundShort n d, h⟩
  else none

/-- The sum, rounded, unless it is out of range. -/
def add? (a b : Magnitude) : Option Magnitude := nearest? (a.units + b.units) 1

end Magnitude

namespace Binary64

/-- The number nearest to `n / d` units, with a sign. -/
def nearest (negative : Bool) (n d : Nat) : Binary64 :=
  match Magnitude.nearest? n d with
  | some m => finite negative m
  | none => infinite negative

/-- The number nearest to a natural number. -/
def ofNat (n : Nat) : Binary64 := nearest false (n * unitsOfOne) 1

/-- The number nearest to `-n`. -/
def ofNegNat (n : Nat) : Binary64 := nearest true (n * unitsOfOne) 1

def zero : Binary64 := ofNat 0

def one : Binary64 := ofNat 1

def half : Binary64 := nearest false unitsOfOne 2

instance : Inhabited Binary64 := ⟨zero⟩

/-- The value in units; the infinities lie just outside the finite range. -/
def units? : Binary64 → Option Int
  | finite false m => some m.units
  | finite true m => some (-m.units)
  | infinite false => some unitsOfInfinity
  | infinite true => some (-(unitsOfInfinity : Int))
  | nan => none

/-- Whether `x ≤ y`. -/
def le (x y : Binary64) : Bool :=
  match x.units?, y.units? with
  | some a, some b => a ≤ b
  | _, _ => false

/-- Whether `x < y`. -/
def lt (x y : Binary64) : Bool :=
  match x.units?, y.units? with
  | some a, some b => a < b
  | _, _ => false

/-- Whether the number is neither infinite nor `nan`. -/
def isFinite : Binary64 → Bool
  | finite _ _ => true
  | _ => false

/-- Whether the number is zero, of either sign. -/
def isZero (x : Binary64) : Bool := x.units? == some 0

/-- The magnitude of a number that is finite and not below zero. -/
def magnitude? : Binary64 → Option Magnitude
  | finite negative m => if negative && m.units ≠ 0 then none else some m
  | _ => none

private def isNegative : Binary64 → Bool
  | finite negative _ | infinite negative => negative
  | nan => false

/-- The product, rounded. -/
def mul (x y : Binary64) : Binary64 :=
  let negative := x.isNegative != y.isNegative
  match x, y with
  | finite _ a, finite _ b => nearest negative (a.units * b.units) unitsOfOne
  | nan, _ | _, nan => nan
  | _, _ => if x.isZero || y.isZero then nan else infinite negative

/-- The quotient, rounded, of a finite number and a magnitude that is not zero. -/
def divBy (x : Binary64) (d : Magnitude) : Binary64 :=
  match x with
  | finite negative a => nearest negative (a.units * unitsOfOne) d.units
  | other => other

end Binary64

end Phrasebook
