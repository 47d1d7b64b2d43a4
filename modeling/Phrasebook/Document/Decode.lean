import Phrasebook.Json.Decode
import Phrasebook.Template

/-!
Phrasebook documents: templates from JSON values.

A document lists definitions.  Rules and everything below them may leave out what has a
usual value: a weight of one, plain modifiers, no value.  A token is an object with a
`type`, and the fields of what that type holds stand beside the modifiers; the type may
also be given by its number.

`inToken` is true for everything inside a token.  Such parts are kept until the type of
the token is known, and are then read a little more leniently.
-/

namespace Phrasebook

/-- A list of definitions, as it is written. -/
structure Document where
  definitions : List Definition

namespace Modifiers

/-- Decodes modifiers; each may be left out. -/
def ofJson (inToken : Bool) (j : Json) : Decoded Modifiers := do
  let r ← j.record ["casing", "optional", "arguments", "variation"]
  return {
    casing := ← r.getD "casing" .unchanged (Json.asChoice "casing" Casing.all Casing.name inToken)
    chance := ← r.getD "optional" none (Json.asOption Json.asReal)
    arguments := ← r.getD "arguments" [] (Json.asList Json.asText)
    variation := ← r.getD "variation" none (Json.asOption Json.asString) }

end Modifiers

namespace Key

/-- Decodes what a reference names, which stands among the fields of its token. -/
def ofJson (j : Json) : Decoded Key := do
  let r ← j.recordOfObject ["kind", "name"]
  return {
    kind := ← r.get "kind" (Json.asChoice "kind" Kind.all Kind.name true)
    name := ← r.get "name" Json.asString }

end Key

/-- The types of tokens. -/
inductive TokenType where
  | word
  | group
  | reference
  deriving DecidableEq, Repr

namespace TokenType

/-- Every type, in the order of their numbers. -/
def all : List TokenType := [word, group, reference]

/-- The word a document writes for the type. -/
def name : TokenType → String
  | word => "word"
  | group => "group"
  | reference => "reference"

/-- Decodes a type from its name or its number. -/
def ofJson : Json → Decoded TokenType
  | .string name => Json.choose "token type" all TokenType.name name
  | .number (.natural n) =>
    match all[n]? with
    | some type => .ok type
    | none => .error (.expected "the number of a token type")
  | _ => .error (.expected "a token type")

end TokenType

mutual

/-- Decodes a rule. -/
def Rule.ofJson (inToken : Bool) (j : Json) : Decoded Rule := do
  let r ← j.record ["tokens", "weight", "value"]
  let tokens ← r.partOf "tokens" fun x _ => do
    (← x.items).mapM fun y => Token.ofJson inToken y.1
  let weight ← r.getD "weight" .one Json.asReal
  let value ← r.getD "value" none (Json.asOption Json.asText)
  return .mk tokens weight value
  termination_by sizeOf j
  decreasing_by have := y.2; omega

/-- Decodes a token. -/
def Token.ofJson (inToken : Bool) (j : Json) : Decoded Token := do
  let r ← j.recordOfObject ["type", "modifiers"]
  let modifiers ← r.getD "modifiers" .plain (Modifiers.ofJson inToken)
  match ← r.get "type" TokenType.ofJson with
  | .word => do
    let r ← j.recordOfObject ["text"]
    return .word (← r.get "text" Json.asText) modifiers
  | .group => do
    let r ← j.recordOfObject ["rules"]
    let rules ← r.partOf "rules" fun x _ => do
      (← x.items).mapM fun y => Rule.ofJson true y.1
    return .group rules modifiers
  | .reference => return .reference (← Key.ofJson j) modifiers
  termination_by sizeOf j
  decreasing_by have := y.2; omega

end

/-- Decodes rules outside of tokens. -/
def rulesOfJson : Json → Decoded (List Rule) := Json.asList (Rule.ofJson false)

/-- Decodes a group by itself, outside of any token. -/
def groupOfJson (j : Json) : Decoded (List Rule) := do
  (← j.record ["rules"]).get "rules" rulesOfJson

namespace Variation

/-- Decodes a variation. -/
def ofJson (j : Json) : Decoded Variation := do
  let r ← j.record ["name", "rules"]
  return { name := ← r.get "name" Json.asString, rules := ← r.get "rules" rulesOfJson }

end Variation

namespace Amount

/-- Decodes an amount: the word `all`, by itself or with `null`, or a count. -/
def ofJson : Json → Decoded Amount
  | .string "all" | .object [("all", .null)] => .ok .all
  | .object [("count", j)] => .count <$> j.asWord
  | _ => .error (.expected "an amount")

end Amount

namespace Directive

/-- Decodes a directive; a part that is left out gets nothing. -/
def ofJson (j : Json) : Decoded Directive := do
  let r ← j.record ["train", "test"]
  return {
    train := ← r.getD "train" none (Json.asOption Amount.ofJson)
    test := ← r.getD "test" none (Json.asOption Amount.ofJson) }

end Directive

namespace Definition

/-- Decodes a definition. -/
def ofJson (j : Json) : Decoded Definition := do
  let r ← j.record ["kind", "name", "rules", "variations", "parameters", "directive"]
  return {
    kind := ← r.get "kind" (Json.asChoice "kind" Kind.all Kind.name false)
    name := ← r.get "name" Json.asString
    rules := ← r.getD "rules" [] rulesOfJson
    variations := ← r.getD "variations" [] (Json.asList Variation.ofJson)
    parameters := ← r.getD "parameters" [] (Json.asList Json.asText)
    directive := ← r.getD "directive" none (Json.asOption Directive.ofJson) }

end Definition

namespace Document

/-- Decodes a document. -/
def ofJson (j : Json) : Decoded Document := do
  let r ← j.record ["definitions"]
  return { definitions := ← r.get "definitions" (Json.asList Definition.ofJson) }

end Document

end Phrasebook
