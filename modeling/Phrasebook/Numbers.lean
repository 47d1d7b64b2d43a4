/-!
Powers and sums of natural numbers.

Inside this library a power and a sum mean what they mean in core, also where more is known of
the natural numbers than core knows, for instance that they are a monoid.  The instances are
core's own; naming them here makes them the ones that are found.

They are found only where the type of the exponent is known.  Of a numeral it is not, so where
that matters it is written with its type, as in `2 ^ (64 : Nat)`.
-/

namespace Phrasebook

scoped instance powNat : Pow Nat Nat := instPowNat

scoped instance zeroNat : Zero Nat := Zero.ofOfNat0

end Phrasebook
