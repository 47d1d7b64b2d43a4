import Phrasebook.Document.Decode
import Phrasebook.Json.Parser

/-!
Phrasebook documents from texts.

Fields that a definition, a rule, modifiers and the like do not have mean nothing, and they
need not even have a value, as long as they follow the grammar.  Of a token everything is
needed, because only its type tells which of its fields mean something.
-/

namespace Phrasebook.Document

open Json (Wanted)

/-- A structure of which only the named fields are wanted. -/
def wantedFields (named : List (String × Wanted)) : Wanted := .fields named false

/-- What is wanted of modifiers. -/
def wantedOfModifiers : Wanted :=
  wantedFields [("casing", .all), ("optional", .all), ("arguments", .all), ("variation", .all)]

/-- What is wanted of a token. -/
def wantedOfToken : Wanted := .fields [("modifiers", wantedOfModifiers)] true

/-- What is wanted of a rule. -/
def wantedOfRule : Wanted :=
  wantedFields [("tokens", .each wantedOfToken), ("weight", .all), ("value", .all)]

/-- What is wanted of a variation. -/
def wantedOfVariation : Wanted := wantedFields [("name", .all), ("rules", .each wantedOfRule)]

/-- What is wanted of a directive. -/
def wantedOfDirective : Wanted := wantedFields [("train", .all), ("test", .all)]

/-- What is wanted of a definition. -/
def wantedOfDefinition : Wanted :=
  wantedFields [("kind", .all), ("name", .all), ("rules", .each wantedOfRule),
    ("variations", .each wantedOfVariation), ("parameters", .all),
    ("directive", wantedOfDirective)]

/-- What is wanted of a document. -/
def wanted : Wanted := wantedFields [("definitions", .each wantedOfDefinition)]

/-- Decodes the document of a text. -/
def ofText (t : Text) : Decoded Document := do
  match (Json.Draft.ofText? t).bind fun d => (d.only wanted).value? Json.maxDepth with
  | some j => ofJson j
  | none => .error (.expected "a JSON text")

end Phrasebook.Document
