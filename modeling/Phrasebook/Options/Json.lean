import Phrasebook.Json.Decode
import Phrasebook.Options.Basic

/-!
Options as JSON values.
-/

namespace Phrasebook.Options

/-- Decodes options; what is left out has its usual value. -/
def ofJson (j : Json) : Decoded Options := do
  let r ← j.record
    ["seed", "possibility_cap", "max_distinct_retries", "enumeration_ratio"]
  return {
    seed := UInt64.ofNat (← r.getD "seed" default.seed.toNat Json.asWord)
    possibilityCap := ← r.getD "possibility_cap" default.possibilityCap Json.asWord
    maxRetries :=
      ← r.getD "max_distinct_retries" default.maxRetries (Json.asNatBelow (2 ^ (32 : Nat)))
    enumerationRatio := ← r.getD "enumeration_ratio" default.enumerationRatio Json.asReal }

/-- Encodes options. -/
def toJson (o : Options) : Json :=
  .object [("seed", .nat o.seed.toNat), ("possibility_cap", .nat o.possibilityCap),
    ("max_distinct_retries", .nat o.maxRetries), ("enumeration_ratio", .real o.enumerationRatio)]

end Phrasebook.Options
