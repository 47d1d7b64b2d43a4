import Phrasebook.Binary64.Text
import Phrasebook.Template

/-!
Why a list of definitions is no graph.

A constructor says what is wrong and where; `message` is the one place that puts it into
words.
-/

namespace Phrasebook

/-- A set of rules that a sentence is chosen from. -/
inductive RuleSet where
  | definition (key : Key)
  | variation (key : Key) (name : String)
  /-- Some group in the rules of a definition. -/
  | group (owner : Key)
  deriving DecidableEq, Repr

/-- The rule set as messages name it. -/
def RuleSet.display : RuleSet → String
  | definition key => key.display
  | variation key name => key.display ++ "#" ++ name
  | group owner => owner.display ++ " (group)"

/-- Why a list of definitions is no graph. -/
inductive GraphError where
  | duplicate (key : Key)
  | blankName (kind : Kind)
  | badWeight (rules : RuleSet) (weight : Binary64)
  | noReachableRule (rules : RuleSet)
  | badChance (owner : Key) (chance : Binary64)
  | modifiedWord (owner : Key)
  | unresolved (owner target : Key)
  | noVariation (owner target : Key) (name : String)
  | wrongArity (owner target : Key) (parameters arguments : Nat)
  /-- Each key refers to the next, and the last is the first. -/
  | cycle (path : List Key)
  deriving DecidableEq

namespace GraphError

/-- A number in a message. -/
def number (x : Binary64) : String := String.ofList x.messageText

/-- A count in a message. -/
def count (n : Nat) : String := String.ofList (naturalText n)

/-- The error in words. -/
def message : GraphError → String
  | duplicate key => "invalid unit graph: duplicate definition: " ++ key.display
  | blankName kind => "invalid unit graph: " ++ kind.title ++ " definition with an empty name"
  | badWeight rules weight =>
    "invalid unit graph: " ++ rules.display ++
      ": rule weight must be a non-negative number, got " ++ number weight
  | noReachableRule rules =>
    "invalid unit graph: " ++ rules.display ++ ": no rule can be generated"
  | badChance owner chance =>
    "invalid unit graph: " ++ owner.display ++
      ": optional probability must be within [0, 1], got " ++ number chance
  | modifiedWord owner =>
    "invalid unit graph: " ++ owner.display ++
      ": words accept neither variations nor arguments"
  | unresolved owner target =>
    "unresolved reference to " ++ target.display ++ " in " ++ owner.display
  | noVariation owner target name =>
    "invalid unit graph: " ++ owner.display ++ ": " ++ target.display ++
      " has no variation '" ++ name ++ "'"
  | wrongArity owner target parameters arguments =>
    "invalid unit graph: " ++ owner.display ++ ": " ++ target.display ++ " expects " ++
      count parameters ++ " argument(s), got " ++ count arguments
  | cycle path => "cyclic reference: " ++ String.intercalate " -> " (path.map Key.display)

end GraphError

end Phrasebook
