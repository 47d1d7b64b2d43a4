import Phrasebook.Binary64.Basic

/-!
The shortest decimal that reads back as a given number.

The reals that round to a magnitude form an interval around it, which reaches half way to
the neighbour on each side and contains its two ends if the significand is even.
`shortest` takes the coarsest decimal grid that has a point in this interval, and of its
points there the nearest one; of two that are equally near, a rule for ties takes one.  No
decimal with fewer digits reads back, and of those with
as many digits none is nearer.
-/

namespace Phrasebook

/-- The number `digits * 10 ^ exponent`. -/
structure Decimal where
  digits : Nat
  exponent : Int
  deriving DecidableEq, Repr

/-- Which of two points that are equally near is taken. -/
inductive Tie where
  | toEven
  | up
  deriving DecidableEq, Repr

/-- The natural number nearest to `n / d`. -/
def Tie.roundDiv (n d : Nat) : Tie → Nat
  | toEven => Phrasebook.roundDiv n d
  | up => (2 * n + d) / (2 * d)

namespace Magnitude

/-- The reals that round to a magnitude, in quarters of a unit. -/
structure Interval where
  low : Nat
  high : Nat
  closed : Bool

/-- The interval of the reals that round to a magnitude.  Below a power of two the
neighbours lie twice as close, unless the numbers are already a unit apart. -/
def interval (m : Magnitude) : Interval :=
  let s := m.units.log2 - 52
  let gap := 2 ^ s
  let gapBelow := if s ≠ 0 ∧ m.units = 2 ^ m.units.log2 then gap / 2 else gap
  ⟨4 * m.units - 2 * gapBelow, 4 * m.units + 2 * gap, m.units / gap % 2 == 0⟩

/-- Whether `n / d` quarters of a unit lie in the interval. -/
def Interval.holds (i : Interval) (n d : Nat) : Bool :=
  if i.closed then i.low * d ≤ n && n ≤ i.high * d else i.low * d < n && n < i.high * d

/-- The nearest multiple of `10 ^ exponent` that reads back as `m`, if any multiple does. -/
def onGrid? (tie : Tie) (m : Magnitude) (exponent : Int) : Option Nat :=
  let up := 10 ^ exponent.toNat
  let down := 10 ^ (-exponent).toNat
  let nearest := tie.roundDiv (m.units * down) (unitsOfOne * up)
  [nearest, nearest - 1, nearest + 1].find? fun digits =>
    digits ≠ 0 && m.interval.holds (4 * digits * up * unitsOfOne) down

/-- The first of `steps` grids, from coarse to fine, that has a point for `m`. -/
def firstGrid (tie : Tie) (m : Magnitude) : Nat → Int → Decimal
  | 0, _ => ⟨0, 0⟩
  | steps + 1, exponent =>
    match m.onGrid? tie exponent with
    | some digits => ⟨digits, exponent⟩
    | none => firstGrid tie m steps (exponent - 1)

/-- The shortest decimal that reads back as `m`.  The first grid tried is coarser than the
magnitude is large, so that a point of it is too coarse; seventeen digits always suffice. -/
def shortest (tie : Tie) (m : Magnitude) : Decimal :=
  if m.units = 0 then ⟨0, 0⟩
  else m.firstGrid tie 24 (((m.units.log2 : Int) - 1073) * 30103 / 100000 + 2)

end Magnitude

end Phrasebook
