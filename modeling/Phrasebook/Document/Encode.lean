import Phrasebook.Document.Decode

/-!
Phrasebook documents: JSON values from templates.

What a rule and its tokens hold is always written, except for the parts of the modifiers
and the value that are not there; a definition leaves out variations, parameters and a
directive that it does not have.
-/

namespace Phrasebook

namespace Json

/-- A list as an array. -/
def ofList {α : Type} (encode : α → Json) (xs : List α) : Json := array (xs.map encode)

/-- A field that is written only if there is a value for it. -/
def someField {α : Type} (name : String) (encode : α → Json) :
    Option α → List (String × Json)
  | some x => [(name, encode x)]
  | none => []

/-- A field that is written only if the list has items. -/
def itemsField {α : Type} (name : String) (encode : α → Json) :
    List α → List (String × Json)
  | [] => []
  | xs => [(name, ofList encode xs)]

end Json

namespace Modifiers

/-- Encodes modifiers. -/
def toJson (m : Modifiers) : Json :=
  .object (("casing", .string m.casing.name) ::
    (Json.someField "optional" .real m.chance ++ (Json.itemsField "arguments" .text m.arguments ++
      Json.someField "variation" .string m.variation)))

end Modifiers

mutual

/-- Encodes rules, one by one. -/
def rulesToJson : List Rule → List Json
  | [] => []
  | .mk tokens weight value :: rest =>
    .object (("tokens", .array (tokensToJson tokens)) :: ("weight", .real weight) ::
      Json.someField "value" .text value) :: rulesToJson rest

/-- Encodes tokens, one by one. -/
def tokensToJson : List Token → List Json
  | [] => []
  | token :: rest => tokenToJson token :: tokensToJson rest

/-- Encodes a token. -/
def tokenToJson : Token → Json
  | .word text m =>
    .object [("type", .string TokenType.word.name), ("text", .text text),
      ("modifiers", m.toJson)]
  | .group rules m =>
    .object [("type", .string TokenType.group.name), ("rules", .array (rulesToJson rules)),
      ("modifiers", m.toJson)]
  | .reference target m =>
    .object [("type", .string TokenType.reference.name), ("kind", .string target.kind.name),
      ("name", .string target.name), ("modifiers", m.toJson)]

end

namespace Variation

/-- Encodes a variation. -/
def toJson (v : Variation) : Json :=
  .object [("name", .string v.name), ("rules", .array (rulesToJson v.rules))]

end Variation

namespace Amount

/-- Encodes an amount. -/
def toJson : Amount → Json
  | all => .string "all"
  | count n => .object [("count", .nat n)]

end Amount

namespace Directive

/-- Encodes a directive. -/
def toJson (d : Directive) : Json :=
  .object (Json.someField "train" Amount.toJson d.train ++
    Json.someField "test" Amount.toJson d.test)

end Directive

namespace Definition

/-- Encodes a definition. -/
def toJson (d : Definition) : Json :=
  .object (("kind", .string d.kind.name) :: ("name", .string d.name) ::
    ("rules", .array (rulesToJson d.rules)) ::
      (Json.itemsField "variations" Variation.toJson d.variations ++
        (Json.itemsField "parameters" .text d.parameters ++
          Json.someField "directive" Directive.toJson d.directive)))

end Definition

namespace Document

/-- Encodes a document. -/
def toJson (d : Document) : Json :=
  .object [("definitions", Json.ofList Definition.toJson d.definitions)]

end Document

end Phrasebook
