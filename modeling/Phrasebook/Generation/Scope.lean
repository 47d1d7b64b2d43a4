import Phrasebook.Example
import Phrasebook.Generation.Error
import Phrasebook.Text.Replace

/-!
What the words of a definition mean where it is used.

A reference may pass arguments, which are bound to the parameters of the definition in
order.  In its words, `$` and the name of a bound parameter stand for the argument.  The
parameters are replaced one after the other, those with the longer name first, so that
`$city_name` is not taken for `$city` and a rest; what one replacement puts in, the next
one sees.
-/

namespace Phrasebook

/-- Who owns the words, for messages, and what is bound to names in them, the names of more
bytes first. -/
structure Scope where
  owner : String
  bindings : List (Text × Text)

namespace Scope

/-- The scope in which nothing is bound. -/
def root (owner : String) : Scope := ⟨owner, []⟩

/-- The owner of words in a group that belongs to no definition. -/
def groupOwner : String := "inline group"

/-- How many bytes a text has in UTF-8. -/
def byteLength (t : Text) : Nat := (t.map Char.utf8Size).sum

/-- The scope of a definition that is used with arguments. -/
def ofDefinition (d : Definition) (arguments : List Text) : Scope where
  owner := d.name
  bindings := (d.parameters.zip arguments).mergeSort fun a b => byteLength b.1 ≤ byteLength a.1

/-- The text that stands for a parameter in words. -/
def placeholder (parameter : Text) : Text := '$' :: parameter

/-- The text of a word, without blanks at its ends and with its parameters replaced. -/
def render (s : Scope) (word : Text) : Text :=
  s.bindings.foldl (fun t binding => t.replace (placeholder binding.1) binding.2) word.trim

end Scope

namespace Definition

/-- The rules that a use of the definition chooses from: those of a variation, or all. -/
def select (d : Definition) (variation : Option String) : Except GenerationError (List Rule) :=
  match variation with
  | none => .ok d.allRules
  | some name =>
    match d.variation? name with
    | some v => .ok v.rules
    | none => .error (.noVariation d.key name)

/-- What the kind of the definition makes of a sentence of one of its rules: an occurrence of
the slot, an example of the intent, or just the sentence. -/
def finish (d : Definition) (r : Rule) (e : Example) : Example :=
  match d.kind with
  | .phrase => e
  | .slot => e.asSlot d.name r.value
  | .intent => e.withIntent d.name

end Definition

namespace Modifiers

/-- Whether the token never stands. -/
def isAbsent (m : Modifiers) : Bool := m.chance.any (·.le .zero)

/-- Whether the token may be left out. -/
def mayBeAbsent (m : Modifiers) : Bool := m.chance.any (·.lt .one)

end Modifiers

end Phrasebook
