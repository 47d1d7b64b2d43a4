import Phrasebook.Binary64.Basic

/-!
The options of a generation.
-/

namespace Phrasebook

/-- What a generation can be told. -/
structure Options where
  /-- Each intent and part of the data set gets a random stream of its own from it. -/
  seed : UInt64
  /-- Counts of sentences above it become upper bounds. -/
  possibilityCap : Nat
  /-- How many draws in vain there may be for one new example before all are listed. -/
  maxRetries : Nat
  /-- From this share of the sentences on, all are listed at once instead of drawn. -/
  enumerationRatio : Binary64
  deriving DecidableEq

/-- What is wrong with options. -/
inductive OptionsError where
  | zeroCap
  | zeroRetries
  | badRatio
  deriving DecidableEq, Repr

/-- The error in words. -/
def OptionsError.message : OptionsError → String
  | zeroCap => "possibility_cap must be > 0"
  | zeroRetries => "max_distinct_retries must be > 0"
  | badRatio => "enumeration_ratio must be within (0, 1]"

namespace Options

/-- The options of one who says nothing. -/
def default : Options := ⟨0, 1000000, 10, .half⟩

instance : Inhabited Options := ⟨default⟩

/-- Checks the options; the first fault is the answer. -/
def check (o : Options) : Except OptionsError Unit :=
  if o.possibilityCap = 0 then .error .zeroCap
  else if o.maxRetries = 0 then .error .zeroRetries
  else if Binary64.zero.lt o.enumerationRatio && o.enumerationRatio.le .one then .ok ()
  else .error .badRatio

end Options

end Phrasebook
