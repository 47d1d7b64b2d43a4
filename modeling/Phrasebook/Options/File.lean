import Phrasebook.Options.Basic
import Phrasebook.Toml.Parser

/-!
Option files: options as the top-level fields of a TOML document.

A field that is not there leaves the usual value, and other fields and tables mean
nothing.  What a caller says himself has precedence over the file.
-/

namespace Phrasebook.Options

/-- An integer from zero up to below a limit. -/
def natBelow? (limit : Nat) : Toml → Option Nat
  | .integer n => if 0 ≤ n ∧ n < limit then some n.toNat else none
  | _ => none

/-- A number; an integer is rounded. -/
def real? : Toml → Option Binary64
  | .real x => some x
  | .integer n => some (if n < 0 then .ofNegNat n.natAbs else .ofNat n.natAbs)
  | _ => none

/-- The value of a field, or another value if there is no such field. -/
def fieldD {α : Type} (fields : Toml.Fields) (name : String) (default : α)
    (decode : Toml → Option α) : Option α :=
  match fields.lookup name.toList with
  | some v => decode v
  | none => some default

/-- The options that a file states. -/
def ofFile? (contents : Text) : Option Options := do
  let fields ← Toml.parse? contents
  return {
    seed := UInt64.ofNat (← fieldD fields "seed" default.seed.toNat (natBelow? (2 ^ (64 : Nat))))
    possibilityCap :=
      ← fieldD fields "possibility_cap" default.possibilityCap (natBelow? (2 ^ (64 : Nat)))
    maxRetries :=
      ← fieldD fields "max_distinct_retries" default.maxRetries (natBelow? (2 ^ (32 : Nat)))
    enumerationRatio := ← fieldD fields "enumeration_ratio" default.enumerationRatio real? }

/-- The options of a file, if there is one, with what takes their place. -/
def resolve? (file : Option Text) (seed : Option UInt64) (cap : Option Nat) :
    Option Options := do
  let o ← match file with
    | some contents => ofFile? contents
    | none => some default
  return { o with seed := seed.getD o.seed, possibilityCap := cap.getD o.possibilityCap }

end Phrasebook.Options
