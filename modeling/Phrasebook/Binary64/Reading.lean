import Phrasebook.Binary64.Basic

/-!
Numbers from their decimals.

`ofDecimal` rounds once.  `ofScaled` takes the digits as one rounded number and the power
of ten as another and rounds their product or quotient again, so that its result may lie
a unit beside the nearest number.  Documents are read by the second rule, option files by
the first.
-/

namespace Phrasebook.Binary64

/-- The number nearest to `digits * 10 ^ exponent`.  Far outside the range the answer is
known without the power of ten; `length` bounds the number of digits. -/
def ofDecimal (negative : Bool) (digits length : Nat) (exponent : Int) : Binary64 :=
  if digits = 0 then nearest negative 0 1
  else if 400 < exponent then infinite negative
  else if exponent + length < -400 then nearest negative 0 1
  else
    nearest negative (digits * 10 ^ exponent.toNat * unitsOfOne) (10 ^ (-exponent).toNat)

/-- The power of ten nearest to `10 ^ n`, a finite number for `n` up to 308. -/
def powerOfTen (n : Nat) : Binary64 := ofNat (10 ^ n)

private def divide : Binary64 → Binary64 → Binary64
  | x, finite _ m => x.divBy m
  | x, _ => x

/-- Divides by the largest finite power of ten until the rest of the exponent is one, too;
a third division would find nothing left. -/
private def scaleDown (x : Binary64) : Nat → Nat → Binary64
  | 0, _ => x
  | rounds + 1, n =>
    if n ≤ 308 then divide x (powerOfTen n)
    else scaleDown (divide x (powerOfTen 308)) rounds (n - 308)

/-- The rounded digits, scaled by a power of ten; nothing if that leaves the range. -/
def ofScaled? (negative : Bool) (digits : Nat) (exponent : Int) : Option Binary64 :=
  let significand := nearest negative (digits * unitsOfOne) 1
  let scaled :=
    if digits = 0 then significand
    else if 308 < exponent then infinite negative
    else if 0 ≤ exponent then significand.mul (powerOfTen exponent.toNat)
    else scaleDown significand 4 exponent.natAbs
  if scaled.isFinite then some scaled else none

end Phrasebook.Binary64
