import Phrasebook.Generation.Counting
import Phrasebook.Generation.Enumeration
import Phrasebook.Generation.Sampling

/-!
Items: what can be asked for sentences.

An item is a definition of the graph, or a word, a group or a definition of its own, which
may refer to the graph but was never checked.  Three questions are put to it: how many
sentences it has, which ones, and for one at random.  Who lists all sentences thereby learns
their number, and the count of the item is corrected to it.
-/

namespace Phrasebook

/-- What can be asked for sentences; the things of their own go by a name. -/
inductive Item where
  | unit (key : Key)
  | word (text : Text)
  | group (name : String) (rules : List Rule)
  | definition (name : String) (d : Definition)

namespace Item

/-- The item as messages and listings show it. -/
def display : Item → String
  | unit key => key.display
  | word text => "'" ++ String.ofList text ++ "'"
  | group _ rules => "group of " ++ String.ofList (naturalText rules.length) ++ " rule(s)"
  | definition _ d => d.key.display

/-- Where the count of the item is kept; that of a word is not. -/
def place? : Item → Option Place
  | unit key => some ⟨.unit key, .whole⟩
  | word _ => none
  | group name _ => some ⟨.item name, .group []⟩
  | definition name _ => some ⟨.item name, .whole⟩

/-- A use of a definition as it is. -/
def useOf (key : Key) : Reference := ⟨key, .plain⟩

/-- The number of sentences: exact, or an upper bound. -/
def count (g : Graph) (cap : Nat) : Item → Counting Possibilities
  | unit key => g.count cap key.name (useOf key)
  | word _ => return .exact 1
  | group name rules =>
    Counts.remember ⟨.item name, .group []⟩
      (countRules (g.count cap) cap Scope.groupOwner (.item name) [] 0 (.exact 0) rules)
  | definition name d => d.count (g.count cap) cap (.item name) none

/-- Every sentence, once. -/
def enumerate (g : Graph) : Item → Sentences
  | unit key => g.enumerate key.name (useOf key)
  | word text => .ok [.ofText text.trim]
  | group _ rules => enumerateGroup g.enumerate rules
  | definition _ d => d.enumerate g.enumerate none []

/-- One sentence, at random. -/
def sample (g : Graph) : Item → Sampling Example
  | unit key => g.sample key.name (useOf key)
  | word text => return .ofText text.trim
  | group _ rules => sampleGroup g.sample rules
  | definition _ d => d.sample g.sample none []

/-- Keeps the number of sentences that were listed as the count of the item. -/
def record (item : Item) (n : Nat) (c : Counts) : Counts :=
  match item.place? with
  | some place => c.set place (.exact n)
  | none => c

/-- Every sentence, once; the count of the item is corrected to their number. -/
def all (g : Graph) (item : Item) : Counting (List Example) := do
  let examples ← liftM (item.enumerate g)
  modify (item.record examples.length)
  return examples

end Item

end Phrasebook
