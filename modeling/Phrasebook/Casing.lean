import Phrasebook.Text.Letter

/-!
Casings: what a template asks for the first letter of a piece of a sentence.

`either` asks for both forms, so it is resolved before it reaches a text: enumeration
makes both, and a random sentence tosses a coin.  On a text it does nothing.
-/

namespace Phrasebook

/-- What is asked for the first letter. -/
inductive Casing where
  | unchanged
  | capitalize
  | lowercase
  | either
  deriving DecidableEq, Repr, Inhabited

namespace Casing

/-- How many forms of a text the casing asks for. -/
def forms : Casing → Nat
  | either => 2
  | _ => 1

/-- A text with its first letter in the form asked for. -/
def apply : Casing → Text → Text
  | capitalize, t => Text.mapFirst Text.capital t
  | lowercase, t => Text.mapFirst Text.small t
  | _, t => t

/-- The word a document writes for the casing. -/
def name : Casing → String
  | unchanged => "unchanged"
  | capitalize => "capitalize"
  | lowercase => "lowercase"
  | either => "either"

/-- Every casing, in the order documents list them. -/
def all : List Casing := [unchanged, capitalize, lowercase, either]

end Casing

end Phrasebook
