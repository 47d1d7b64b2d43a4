import Phrasebook.Casing
import Phrasebook.Numbers

/-!
How many sentences a template has.

A count is exact, or an upper bound that says so.  Counts are kept below a cap, for the
number of sentences grows with the product of the choices: a count above the cap becomes
the cap and is marked approximate.  Such a count bounds nothing any more, and `isCapped`
tells it from an honest bound.

Values are machine words.  Sum and product stop at the largest word before the cap is
looked at, so with the largest word as the cap nothing is ever marked.
-/

namespace Phrasebook

/-- The number of sentences of a template: exact, or an upper bound. -/
structure Possibilities where
  value : Nat
  approximate : Bool
  deriving DecidableEq, Repr

namespace Possibilities

/-- The largest value a count takes. -/
def largest : Nat := 2 ^ (64 : Nat) - 1

/-- The count known to be `n`. -/
def exact (n : Nat) : Possibilities := ⟨n, false⟩

/-- The count known not to exceed `n`. -/
def upperBound (n : Nat) : Possibilities := ⟨n, true⟩

/-- A count above the cap becomes the cap, marked as approximate. -/
def capped (cap : Nat) (p : Possibilities) : Possibilities :=
  if cap < p.value then upperBound cap else p

/-- The count of a choice between two templates. -/
def add (cap : Nat) (p q : Possibilities) : Possibilities :=
  capped cap ⟨min (p.value + q.value) largest, p.approximate || q.approximate⟩

/-- The count of two templates side by side. -/
def mul (cap : Nat) (p q : Possibilities) : Possibilities :=
  capped cap ⟨min (p.value * q.value) largest, p.approximate || q.approximate⟩

/-- The count for every form a casing asks for. -/
def cased (cap : Nat) (c : Casing) (p : Possibilities) : Possibilities :=
  mul cap p (exact c.forms)

/-- The same value, as an upper bound. -/
def mark (p : Possibilities) : Possibilities := { p with approximate := true }

/-- Whether the count hit the cap, so that it says nothing about the true number. -/
def isCapped (cap : Nat) (p : Possibilities) : Bool :=
  p.approximate && cap ≤ p.value

end Possibilities

end Phrasebook
