import Phrasebook.Casing
import Phrasebook.Numbers

/-!
Examples: sentences with the slots that occur in them.

An entity marks the characters `start` up to `stop` of the text as an occurrence of a
slot, and says for which value they stand.  Three operations build examples from smaller
ones: `append` puts two side by side with a space between, `recase` changes the first
letter, and `asSlot` marks a whole example as one occurrence.  Each keeps the entities at
their characters: `append` moves those of the second example behind the first, and
`recase` moves those behind a letter that became several.
-/

namespace Phrasebook

/-- An occurrence of a slot; `stop` is the first character behind it. -/
structure Entity where
  slot : String
  value : Text
  start : Nat
  stop : Nat
  deriving DecidableEq, Repr

/-- A sentence, what it is an example of, and the slots in it. -/
structure Example where
  intent : Option String
  text : Text
  entities : List Entity
  deriving DecidableEq, Repr

namespace Entity

/-- The entity `offset` characters further on. -/
def shift (offset : Nat) (e : Entity) : Entity :=
  { e with start := e.start + offset, stop := e.stop + offset }

end Entity

namespace Example

/-- A text without an intent and without entities. -/
def ofText (t : Text) : Example := ⟨none, t, []⟩

/-- The example without text. -/
def empty : Example := ofText []

/-- Two examples count as the same sentence when their keys agree. -/
def key (e : Example) : Text := e.text.normalize

/-- `a` and behind it `b`, with one space between them.  An example without text adds
nothing, not even its entities. -/
def append (a b : Example) : Example :=
  if b.text.isEmpty then a
  else
    let front := if a.text.isEmpty then [] else a.text ++ [' ']
    { a with
      text := front ++ b.text
      entities := a.entities ++ b.entities.map (Entity.shift front.length) }

/-- The largest offset an entity of a text may have: that of the largest machine word, so
that an offset read from a document never leaves its range, but never less than the text
is long. -/
def lastOffset (t : Text) : Nat := max (2 ^ (64 : Nat) - 1) t.length

/-- An offset in `old`, behind its first letter, as an offset in the text `new` that the
letter's new form made of it. -/
def moveOffset (old new : Text) (n : Nat) : Nat :=
  min (n + new.length - old.length) (lastOffset new)

/-- An entity of `old` as one of `new`.  One that covers the first letter takes its new
form into its value if the value was the covered text itself; a canonical value stays. -/
def recaseEntity (old new : Text) (e : Entity) : Entity :=
  let stop := moveOffset old new e.stop
  if e.start = 0 then
    { e with
      value := if e.value = old.take e.stop then new.take stop else e.value
      stop := stop }
  else { e with start := moveOffset old new e.start, stop := stop }

/-- The example with its first letter in the form that a casing asks for. -/
def recase (c : Casing) (e : Example) : Example :=
  match c with
  | .unchanged | .either => e
  | .capitalize | .lowercase =>
    let text := c.apply e.text
    { e with text := text, entities := e.entities.map (recaseEntity e.text text) }

/-- The example as one occurrence of a slot, which replaces the entities inside.  Without a
canonical value it stands for its own text; without a text it is no occurrence. -/
def asSlot (slot : String) (value : Option Text) (e : Example) : Example :=
  if e.text.isEmpty then e
  else { e with entities := [⟨slot, value.getD e.text, 0, e.text.length⟩] }

/-- The example as one of an intent. -/
def withIntent (intent : String) (e : Example) : Example :=
  { e with intent := some intent }

end Example

end Phrasebook
