import Std.Data.HashMap
import Phrasebook.Possibilities
import Phrasebook.Generation.Error

/-!
What is known about the numbers of sentences.

Counting a template can take long, so every count is kept under the place it belongs to: a
definition, a variation of it, or a group inside.  A count is kept until it is corrected or
dropped; nothing else replaces it.  The place of a group is the way to it: the index of the
rule among all rules of its owner, the index of the token in the rule, and again inside the
group.
-/

namespace Phrasebook

/-- What the counted templates belong to: a definition of the graph, or something of its own
that goes by a name. -/
inductive Owner where
  | unit (key : Key)
  | item (name : String)
  deriving DecidableEq, Hashable, Repr

/-- A counted part of an owner. -/
inductive Part where
  | whole
  | variation (index : Nat)
  | group (path : List Nat)
  deriving DecidableEq, Hashable, Repr

/-- What a count belongs to. -/
structure Place where
  owner : Owner
  part : Part
  deriving DecidableEq, Hashable, Repr

/-- The counts known so far. -/
structure Counts where
  table : Std.HashMap Place Possibilities

namespace Counts

/-- Nothing is known. -/
def empty : Counts := ⟨∅⟩

/-- The count known for a place. -/
def get? (c : Counts) (place : Place) : Option Possibilities := c.table[place]?

/-- Keeps a count for a place. -/
def set (c : Counts) (place : Place) (p : Possibilities) : Counts := ⟨c.table.insert place p⟩

/-- Drops the count of a place. -/
def erase (c : Counts) (place : Place) : Counts := ⟨c.table.erase place⟩

/-- Whether a place is a definition of a graph or one of its variations. -/
def isOfUnit (place : Place) : Bool :=
  match place.owner, place.part with
  | .unit _, .whole | .unit _, .variation _ => true
  | _, _ => false

/-- Drops the counts of the graph's definitions and of their variations.  Those of the groups
inside are kept. -/
def reset (c : Counts) : Counts := ⟨c.table.filter fun place _ => !isOfUnit place⟩

end Counts

/-- What counts sentences, and may learn some counts even if it fails. -/
abbrev Counting := ExceptT GenerationError (StateM Counts)

namespace Counts

/-- The count of a place: the one that is known, or else the one computed, which is then
kept. -/
def remember {ε : Type} (place : Place) (compute : ExceptT ε (StateM Counts) Possibilities) :
    ExceptT ε (StateM Counts) Possibilities := do
  match (← get).get? place with
  | some p => return p
  | none =>
    let p ← compute
    modify (·.set place p)
    return p

end Counts

end Phrasebook
