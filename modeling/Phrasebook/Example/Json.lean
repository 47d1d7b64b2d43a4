import Phrasebook.Document.Encode
import Phrasebook.Example
import Phrasebook.Possibilities
import Phrasebook.Synonyms

/-!
Examples, counts and synonyms as JSON values.
-/

namespace Phrasebook

namespace Entity

/-- Decodes an entity. -/
def ofJson (j : Json) : Decoded Entity := do
  let r ← j.record ["slot", "value", "start", "end"]
  return {
    slot := ← r.get "slot" Json.asString
    value := ← r.get "value" Json.asText
    start := ← r.get "start" Json.asWord
    stop := ← r.get "end" Json.asWord }

/-- Encodes an entity. -/
def toJson (e : Entity) : Json :=
  .object [("slot", .string e.slot), ("value", .text e.value), ("start", .nat e.start),
    ("end", .nat e.stop)]

end Entity

namespace Example

/-- Decodes an example; one without an intent or without entities may say nothing of them. -/
def ofJson (j : Json) : Decoded Example := do
  let r ← j.record ["intent", "text", "entities"]
  return {
    intent := ← r.getD "intent" none (Json.asOption Json.asString)
    text := ← r.get "text" Json.asText
    entities := ← r.getD "entities" [] (Json.asList Entity.ofJson) }

/-- Encodes an example; the intent is written if there is one. -/
def toJson (e : Example) : Json :=
  .object (Json.someField "intent" .string e.intent ++
    [("text", .text e.text), ("entities", Json.ofList Entity.toJson e.entities)])

end Example

namespace Possibilities

/-- Decodes a count. -/
def ofJson (j : Json) : Decoded Possibilities := do
  let r ← j.record ["value", "approximate"]
  return {
    value := ← r.get "value" Json.asWord
    approximate := ← r.get "approximate" Json.asBool }

/-- Encodes a count. -/
def toJson (p : Possibilities) : Json :=
  .object [("value", .nat p.value), ("approximate", .bool p.approximate)]

end Possibilities

namespace TextLists

/-- Decodes an object of lists of texts. -/
def ofJson (j : Json) : Decoded TextLists := do
  (← j.fields).foldlM (fun m field => do
    return m.insert field.1.toList (← Json.asList Json.asText field.2.1)) ∅

/-- Encodes lists of texts as an object, in ascending order. -/
def toJson (m : TextLists) : Json :=
  .object (m.toList.map fun entry => (String.ofList entry.1, Json.ofList .text entry.2))

end TextLists

namespace Synonyms

/-- Decodes synonyms: the lists of values by surface form. -/
def ofJson (j : Json) : Decoded Synonyms := Synonyms.mk <$> TextLists.ofJson j

/-- Encodes synonyms. -/
def toJson (s : Synonyms) : Json := TextLists.toJson s.table

end Synonyms

end Phrasebook
