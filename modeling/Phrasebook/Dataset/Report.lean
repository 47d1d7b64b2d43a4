import Phrasebook.Dataset.Basic
import Phrasebook.Example.Json

/-!
Reports and summaries as JSON values.
-/

namespace Phrasebook

namespace Summary

/-- Decodes a summary. -/
def ofJson (j : Json) : Decoded Summary := do
  let r ← j.record ["aliases", "slots", "intents", "references"]
  return {
    phrases := ← r.get "aliases" Json.asWord
    slots := ← r.get "slots" Json.asWord
    intents := ← r.get "intents" Json.asWord
    references := ← r.get "references" Json.asWord }

/-- Encodes a summary. -/
def toJson (s : Summary) : Json :=
  .object [("aliases", .nat s.phrases), ("slots", .nat s.slots), ("intents", .nat s.intents),
    ("references", .nat s.references)]

end Summary

namespace IntentReport

/-- Decodes the report on an intent; an amount that was not requested may be left out. -/
def ofJson (j : Json) : Decoded IntentReport := do
  let r ← j.record ["intent", "possibilities", "approximate", "train_requested",
    "train_generated", "test_requested", "test_generated"]
  return {
    intent := ← r.get "intent" Json.asString
    possibilities := {
      value := ← r.get "possibilities" Json.asWord
      approximate := ← r.get "approximate" Json.asBool }
    trainRequested := ← r.getD "train_requested" none (Json.asOption Amount.ofJson)
    trainGenerated := ← r.get "train_generated" Json.asWord
    testRequested := ← r.getD "test_requested" none (Json.asOption Amount.ofJson)
    testGenerated := ← r.get "test_generated" Json.asWord }

/-- Encodes the report on an intent; an amount that was not requested is `null`. -/
def toJson (r : IntentReport) : Json :=
  .object [("intent", .string r.intent), ("possibilities", .nat r.possibilities.value),
    ("approximate", .bool r.possibilities.approximate),
    ("train_requested", r.trainRequested.elim .null Amount.toJson),
    ("train_generated", .nat r.trainGenerated),
    ("test_requested", r.testRequested.elim .null Amount.toJson),
    ("test_generated", .nat r.testGenerated)]

end IntentReport

namespace Report

/-- Decodes a report. -/
def ofJson (j : Json) : Decoded Report := do
  let r ← j.record ["seed", "intents", "train_examples", "test_examples", "synonyms",
    "enumeration_fallbacks"]
  return {
    seed := UInt64.ofNat (← r.get "seed" Json.asWord)
    intents := ← r.get "intents" (Json.asList IntentReport.ofJson)
    trainExamples := ← r.get "train_examples" Json.asWord
    testExamples := ← r.get "test_examples" Json.asWord
    synonyms := ← r.get "synonyms" Json.asWord
    fallbacks := ← r.get "enumeration_fallbacks" Json.asWord }

/-- Encodes a report. -/
def toJson (r : Report) : Json :=
  .object [("seed", .nat r.seed.toNat), ("intents", Json.ofList IntentReport.toJson r.intents),
    ("train_examples", .nat r.trainExamples), ("test_examples", .nat r.testExamples),
    ("synonyms", .nat r.synonyms), ("enumeration_fallbacks", .nat r.fallbacks)]

end Report

end Phrasebook
