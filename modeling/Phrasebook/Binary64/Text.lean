import Phrasebook.Text.Blank
import Phrasebook.Binary64.Shortest

/-!
Numbers as text: the shortest decimal, written in one of two ways.

In a message a number stands without an exponent, however long that makes it, and without
a fraction if it has none; of two shortest decimals that are equally near it takes the
greater one.  In a document it takes the even one, and it always shows that it is no
integer: it has a fraction or an exponent, the latter when more than sixteen places stand
before the point or more than four zeros behind it.
-/

namespace Phrasebook

/-- The decimal digits of a natural number. -/
def naturalText (n : Nat) : Text := Nat.toDigits 10 n

namespace Decimal

/-- Digits with the point behind the first `places` of them, zeros filling up. -/
def positional (digits : Text) (places : Int) : Text :=
  if places ≤ 0 then
    '0' :: '.' :: (List.replicate (-places).toNat '0' ++ digits)
  else
    let front := places.toNat
    if digits.length ≤ front then digits ++ List.replicate (front - digits.length) '0'
    else digits.take front ++ '.' :: digits.drop front

/-- The number without an exponent. -/
def plain (d : Decimal) : Text :=
  if d.digits = 0 then ['0']
  else
    let digits := naturalText d.digits
    positional digits (digits.length + d.exponent)

/-- One digit, the others behind the point, and the power of ten with its sign. -/
def scientific (digits : Text) (places : Int) : Text :=
  let exponent := places - 1
  let mantissa :=
    match digits with
    | d :: d' :: rest => d :: '.' :: d' :: rest
    | short => short
  mantissa ++ 'e' :: (if exponent < 0 then '-' else '+') :: naturalText exponent.natAbs

/-- The number as one that is no integer. -/
def fractional (d : Decimal) : Text :=
  if d.digits = 0 then ['0', '.', '0']
  else
    let digits := naturalText d.digits
    let places : Int := digits.length + d.exponent
    if 0 ≤ d.exponent ∧ places ≤ 16 then positional digits places ++ ['.', '0']
    else if -5 < places ∧ places ≤ 16 then positional digits places
    else scientific digits places

end Decimal

namespace Binary64

private def withSign (negative : Bool) (t : Text) : Text :=
  if negative then '-' :: t else t

private def beyondDecimals : Binary64 → Text
  | infinite negative => withSign negative ['i', 'n', 'f']
  | _ => ['N', 'a', 'N']

/-- The number as a message writes it. -/
def messageText : Binary64 → Text
  | finite negative m => withSign negative (m.shortest .up).plain
  | other => beyondDecimals other

/-- The number as a document writes it, if a document can hold it. -/
def documentText? : Binary64 → Option Text
  | finite negative m => some (withSign negative (m.shortest .toEven).fractional)
  | _ => none

end Binary64

end Phrasebook
