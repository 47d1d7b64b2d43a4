import Phrasebook.Json.Basic

/-!
Schemas: JSON values that describe JSON values.

A schema is a keyword or several at once.  A keyword asks something of values of one type
and is content with all others, so that what an object has to hold and that it has to be
an object are two keywords.  The shapes of a document describe one another by name.
-/

namespace Phrasebook

namespace Schema

/-- The types a schema tells apart; an integer is a number as well. -/
inductive ValueType where
  | null
  | string
  | number
  | integer
  | array
  | object
  deriving DecidableEq, Repr

namespace ValueType

/-- The word a schema writes for the type. -/
def name : ValueType → String
  | null => "null"
  | string => "string"
  | number => "number"
  | integer => "integer"
  | array => "array"
  | object => "object"

end ValueType

/-- The shapes of a document that have a name. -/
inductive Shape where
  | amount
  | casing
  | definition
  | directive
  | modifiers
  | rule
  | token
  | kind
  | variation
  deriving DecidableEq, Repr

namespace Shape

/-- Every shape. -/
def all : List Shape :=
  [amount, casing, definition, directive, modifiers, rule, token, kind, variation]

/-- The word a schema writes for the shape. -/
def name : Shape → String
  | amount => "Amount"
  | casing => "Casing"
  | definition => "Definition"
  | directive => "IntentDirective"
  | modifiers => "Modifiers"
  | rule => "Rule"
  | token => "Token"
  | kind => "UnitKind"
  | variation => "Variation"

end Shape

end Schema

/-- What is asked of a value.

`every` is written as one object with the fields of all its parts; `allOf` asks the same
but is written as a list.  A value has to meet at least one part of `anyOf` and exactly one
part of `oneOf`.  The fields of an object that `properties` does not name may hold anything,
unless it is `closed`.  The last three keywords are for readers and ask nothing. -/
inductive Schema where
  | shape (s : Schema.Shape)
  | types (allowed : List Schema.ValueType)
  | names (allowed : List String)
  | notNegative
  | required (needed : List String)
  | properties (closed : Bool) (schemas : List (String × Schema))
  | items (schema : Schema)
  | every (parts : List Schema)
  | allOf (parts : List Schema)
  | anyOf (parts : List Schema)
  | oneOf (parts : List Schema)
  | format (name : String)
  | describedAs (words : String)
  | default (value : Json)

namespace Schema

/-! ### Schemas as JSON values -/

/-- One type as a string, several as an array of strings. -/
def typesToJson : List ValueType → Json
  | [type] => .string type.name
  | several => .array (several.map fun type => .string type.name)

mutual

/-- The fields with which a schema is written. -/
def toFields : Schema → List (String × Json)
  | shape s => [("$ref", .string ("#/definitions/" ++ s.name))]
  | types allowed => [("type", typesToJson allowed)]
  | names allowed => [("enum", .array (allowed.map .string))]
  | notNegative => [("minimum", .real .zero)]
  | required needed => [("required", .array (needed.map .string))]
  | properties closed schemas =>
    ("properties", .object (propertiesToFields schemas)) ::
      (if closed then [("additionalProperties", .bool false)] else [])
  | items schema => [("items", .object (toFields schema))]
  | every parts => partsToFields parts
  | allOf parts => [("allOf", .array (partsToJson parts))]
  | anyOf parts => [("anyOf", .array (partsToJson parts))]
  | oneOf parts => [("oneOf", .array (partsToJson parts))]
  | format name => [("format", .string name)]
  | describedAs words => [("description", .string words)]
  | default value => [("default", value)]

/-- The fields of several schemas, one after the other. -/
def partsToFields : List Schema → List (String × Json)
  | [] => []
  | part :: rest => toFields part ++ partsToFields rest

/-- The schemas of a list, each as an object. -/
def partsToJson : List Schema → List Json
  | [] => []
  | part :: rest => .object (toFields part) :: partsToJson rest

/-- The schemas of an object's fields, each as an object. -/
def propertiesToFields : List (String × Schema) → List (String × Json)
  | [] => []
  | (name, schema) :: rest => (name, .object (toFields schema)) :: propertiesToFields rest

end

/-- A schema as an object. -/
def toJson (s : Schema) : Json := .object s.toFields

end Schema

end Phrasebook
