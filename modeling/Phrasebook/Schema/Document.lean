import Phrasebook.Document.Encode
import Phrasebook.Schema.Basic

/-!
The schema of phrasebook documents, shape by shape.

It asks for no more than the decoder does, with one exception: structures have to be
objects here, never arrays.  It cannot say that a count fits a machine word.
-/

namespace Phrasebook.Schema

/-! ### Common parts -/

/-- A string. -/
def text : Schema := types [.string]

/-- A string or `null`. -/
def textOrNull : Schema := types [.string, .null]

/-- One string alone. -/
def word (name : String) : Schema := every [types [.string], names [name]]

/-- An array whose items meet a schema. -/
def listOf (schema : Schema) : Schema := every [types [.array], items schema]

/-- A value of a shape, or `null`. -/
def shapeOrNull (s : Shape) : Schema := anyOf [shape s, types [.null]]

/-- An object with some fields that must be there, and the schemas of those that may. -/
def record (needed : List String) (schemas : List (String × Schema)) : Schema :=
  every [types [.object], required needed, properties false schemas]

/-- A schema with a description. -/
def noted (words : String) (schema : Schema) : Schema :=
  every [describedAs words, schema]

/-! ### The shapes -/

/-- An amount: `all` by itself, or an object with a count. -/
def amount : Schema :=
  noted "How many examples to produce for one split." <| oneOf [
    noted "Every distinct example." (word "all"),
    noted "At most this many distinct examples, chosen at random." <| every [
      types [.object], required ["count"],
      properties true [("count", every [types [.integer], format "uint64", notNegative])]]]

/-- A casing by its name. -/
def casing : Schema :=
  noted "Casing directive applied to the first letter of a token's output." <| oneOf [
    every [types [.string],
      names ([Casing.unchanged, Casing.capitalize, Casing.lowercase].map Casing.name)],
    noted "Produce both the leading-lowercase and leading-uppercase forms." <|
      word Casing.either.name]

/-- A kind by its name. -/
def kind : Schema :=
  noted "Kind of a named, reusable definition." <|
    every [types [.string], names (Kind.all.map Kind.name)]

/-- Modifiers, each of which may be absent. -/
def modifiers : Schema :=
  noted "Per-token generation parameters." <| every [types [.object], properties false [
    ("casing", every [default (.string Casing.unchanged.name), allOf [shape .casing]]),
    ("optional",
      noted "Probability that the token is emitted at all. \x60None\x60 means always." <|
        every [types [.number, .null], format "double"]),
    ("arguments",
      noted "Positional values bound to the referenced definition's parameters." <|
        listOf text),
    ("variation",
      noted "Restricts a reference to one named variation of its target." textOrNull)]]

/-- A token; which fields it needs depends on its type. -/
def token : Schema :=
  every [
    noted "One element of a rule, with its modifiers." <| types [.object],
    oneOf [
      noted "Terminal literal." <|
        record ["text", "type"] [("text", text), ("type", word TokenType.word.name)],
      noted "Inline alternation of rules." <|
        record ["rules", "type"]
          [("rules", listOf (shape .rule)), ("type", word TokenType.group.name)],
      noted "Identity of a definition inside a unit graph." <|
        record ["kind", "name", "type"]
          [("kind", shape .kind), ("name", text), ("type", word TokenType.reference.name)]],
    properties false [
      ("modifiers", every [default Modifiers.plain.toJson, allOf [shape .modifiers]])]]

/-- A rule. -/
def rule : Schema :=
  noted "One ordered generation path of a group or definition." <|
    record ["tokens"] [
      ("tokens", listOf (shape .token)),
      ("value",
        noted "Canonical value reported for entities produced by this slot rule." textOrNull),
      ("weight",
        noted "Relative selection weight. Zero-weight rules are never generated." <|
          every [default (.real .one), types [.number], format "double"])]

/-- A variation. -/
def variation : Schema :=
  noted "Named subset of a definition's rules, selectable from a reference." <|
    record ["name", "rules"] [("name", text), ("rules", listOf (shape .rule))]

/-- A directive, either part of which may be absent. -/
def directive : Schema :=
  noted "Per-intent generation directive." <| every [types [.object], properties false [
    ("train", shapeOrNull .amount), ("test", shapeOrNull .amount)]]

/-- A definition. -/
def definition : Schema :=
  noted "Named alias, slot or intent." <|
    record ["kind", "name"] [
      ("directive", noted "Only meaningful for intents." <| shapeOrNull .directive),
      ("kind", shape .kind),
      ("name", text),
      ("parameters",
        noted "Parameter names substituted as \x60$name\x60 inside literal words." <|
          listOf text),
      ("rules",
        noted "Rules that belong to no variation." <|
          every [default (.array []), listOf (shape .rule)]),
      ("variations", listOf (shape .variation))]

/-- The schema that a name stands for. -/
def Shape.schema : Shape → Schema
  | .amount => Schema.amount
  | .casing => Schema.casing
  | .definition => Schema.definition
  | .directive => Schema.directive
  | .modifiers => Schema.modifiers
  | .rule => Schema.rule
  | .token => Schema.token
  | .kind => Schema.kind
  | .variation => Schema.variation

/-- The schema of a document. -/
def document : Schema :=
  noted "Serialized form of a resolved unit graph, as handed over by a template resolver." <|
    record ["definitions"] [("definitions", listOf (shape .definition))]

/-- The schema of a document, with the shapes it names. -/
def documentToJson : Json :=
  .object (
    ("$schema", .string "http://json-schema.org/draft-07/schema#") ::
    ("title", .string "UnitGraphDocument") ::
    (document.toFields ++
      [("definitions", .object (Shape.all.map fun s => (s.name, s.schema.toJson)))]))

end Phrasebook.Schema
