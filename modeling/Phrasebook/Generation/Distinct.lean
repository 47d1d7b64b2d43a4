import Std.Data.HashSet
import Phrasebook.Example

/-!
Examples without repeats.

Of the examples that count as the same sentence the first is kept.
-/

namespace Phrasebook

/-- A character is hashed as in core. -/
scoped instance hashableChar : Hashable Char := instHashableChar

/-- The keys of examples seen so far. -/
abbrev Seen := Std.HashSet Text

/-- The examples not seen, each added to what was `kept`, last first. -/
def keepUnseen (seen : Seen) (kept : List Example) : List Example → List Example
  | [] => kept.reverse
  | e :: rest =>
    if seen.contains e.key then keepUnseen seen kept rest
    else keepUnseen (seen.insert e.key) (e :: kept) rest

/-- The examples without those that an earlier one counts as the same sentence as. -/
def distinct (examples : List Example) : List Example := keepUnseen ∅ [] examples

end Phrasebook
