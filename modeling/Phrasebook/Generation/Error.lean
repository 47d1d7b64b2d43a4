import Phrasebook.Options.Basic
import Phrasebook.Random.Dice
import Phrasebook.Template

/-!
What can go wrong while sentences are made.

A graph passed every check, so of the structural errors none comes from its definitions;
groups and definitions that belong to no graph were never checked, and may refer to what
is not there.
-/

namespace Phrasebook

/-- Why no sentences can be made. -/
inductive GenerationError where
  | unresolved (owner : String) (target : Key)
  | noVariation (target : Key) (name : String)
  | noChoice (owner : String) (reason : ChoiceError)
  | options (reason : OptionsError)
  deriving DecidableEq, Repr

/-- The error in words. -/
def GenerationError.message : GenerationError → String
  | unresolved owner target =>
    "structural error: unresolved reference to " ++ target.display ++ " in " ++ owner
  | noVariation target name =>
    "structural error: invalid unit graph: " ++ target.display ++ " has no variation '" ++
      name ++ "'"
  | noChoice owner reason =>
    "structural error: invalid unit graph: " ++ owner ++ ": cannot choose a rule: " ++
      reason.message
  | options reason => "invalid options: " ++ reason.message

end Phrasebook
