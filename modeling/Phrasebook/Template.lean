import Phrasebook.Binary64.Basic
import Phrasebook.Casing

/-!
Templates: what a phrasebook says about the sentences it stands for.

A phrasebook is a list of definitions.  A definition is a phrase that others use, a slot
whose occurrences are marked, or an intent whose sentences are the examples.  It has rules,
each a way to make a sentence: the tokens side by side.  A token is a word, a group of
rules to choose from, or a reference to a definition, and its modifiers say with which
casing it stands and how likely it stands at all.  Further rules come in named variations
that a reference may ask for.

Templates never change.  What is learnt about them, such as how many sentences they have,
is kept elsewhere, by place.
-/

namespace Phrasebook

/-- What a definition is for. -/
inductive Kind where
  | phrase
  | slot
  | intent
  deriving DecidableEq, Hashable, Repr

namespace Kind

/-- Every kind, in ascending order. -/
def all : List Kind := [phrase, slot, intent]

/-- The place of the kind in the order. -/
def rank : Kind → Nat
  | phrase => 0
  | slot => 1
  | intent => 2

/-- The word a document writes for the kind. -/
def name : Kind → String
  | phrase => "alias"
  | slot => "slot"
  | intent => "intent"

/-- The word a message begins with. -/
def title : Kind → String
  | phrase => "Alias"
  | slot => "Slot"
  | intent => "Intent"

/-- The character in front of a displayed name. -/
def sigil : Kind → String
  | phrase => "~"
  | slot => "@"
  | intent => "%"

end Kind

/-- What a reference names: a definition's kind and name. -/
structure Key where
  kind : Kind
  name : String
  deriving DecidableEq, Hashable, Repr

namespace Key

/-- Whether `a` comes before `b` or is it: by kind, then by the characters of the name. -/
def le (a b : Key) : Bool :=
  if a.kind = b.kind then decide (a.name ≤ b.name) else a.kind.rank < b.kind.rank

/-- The key as messages and listings show it. -/
def display (k : Key) : String := k.kind.sigil ++ "[" ++ k.name ++ "]"

end Key

/-- How a token stands in a sentence. -/
structure Modifiers where
  casing : Casing
  /-- The probability that the token stands at all; without one it always does. -/
  chance : Option Binary64
  /-- Values for the parameters of the definition referred to. -/
  arguments : List Text
  /-- The variation of the definition referred to whose rules alone are meant. -/
  variation : Option String
  deriving DecidableEq

/-- A token that always stands, as it is. -/
def Modifiers.plain : Modifiers := ⟨.unchanged, none, [], none⟩

mutual

/-- A way to make a sentence: tokens side by side, with a weight in the random choice among
rules.  A rule of a slot may name the value that its sentences stand for. -/
inductive Rule where
  | mk (tokens : List Token) (weight : Binary64) (value : Option Text)

/-- A piece of a sentence. -/
inductive Token where
  | word (text : Text) (modifiers : Modifiers)
  | group (rules : List Rule) (modifiers : Modifiers)
  | reference (target : Key) (modifiers : Modifiers)

end

namespace Rule

def tokens : Rule → List Token
  | mk tokens _ _ => tokens

def weight : Rule → Binary64
  | mk _ weight _ => weight

def value : Rule → Option Text
  | mk _ _ value => value

/-- Whether the rule is ever used: its weight is above zero. -/
def isReachable (r : Rule) : Bool := Binary64.zero.lt r.weight

end Rule

/-- The modifiers of a token. -/
def Token.modifiers : Token → Modifiers
  | .word _ m | .group _ m | .reference _ m => m

/-- A use of a definition. -/
structure Reference where
  target : Key
  modifiers : Modifiers

mutual

/-- The references in tokens, those inside groups included, in order. -/
def referencesOfTokens : List Token → List Reference
  | [] => []
  | token :: rest => referencesOfToken token ++ referencesOfTokens rest

/-- The references in a token. -/
def referencesOfToken : Token → List Reference
  | .word _ _ => []
  | .group rules _ => referencesOfRules rules
  | .reference target modifiers => [⟨target, modifiers⟩]

/-- The references in rules, rule by rule. -/
def referencesOfRules : List Rule → List Reference
  | [] => []
  | .mk tokens _ _ :: rest => referencesOfTokens tokens ++ referencesOfRules rest

end

/-- The references in a rule. -/
def Rule.references (r : Rule) : List Reference := referencesOfTokens r.tokens

/-- Rules under a name of their own. -/
structure Variation where
  name : String
  rules : List Rule

/-- A part of a data set. -/
inductive Split where
  | train
  | test
  deriving DecidableEq, Repr

/-- The name of a part of a data set. -/
def Split.name : Split → String
  | train => "train"
  | test => "test"

/-- How many examples are wanted. -/
inductive Amount where
  | all
  | count (n : Nat)
  deriving DecidableEq, Repr

/-- How many examples of an intent each part of a data set gets. -/
structure Directive where
  train : Option Amount
  test : Option Amount
  deriving DecidableEq, Repr

namespace Directive

/-- What holds for an intent that says nothing: all its sentences are for training. -/
def default : Directive := ⟨some .all, none⟩

/-- What one part gets. -/
def amount (d : Directive) : Split → Option Amount
  | .train => d.train
  | .test => d.test

end Directive

/-- A named template. -/
structure Definition where
  kind : Kind
  name : String
  /-- The rules outside all variations. -/
  rules : List Rule
  variations : List Variation
  /-- Names whose occurrences behind `$` in words stand for arguments. -/
  parameters : List Text
  directive : Option Directive

namespace Definition

def key (d : Definition) : Key := ⟨d.kind, d.name⟩

/-- The rules outside all variations, then those of each variation. -/
def allRules (d : Definition) : List Rule :=
  d.rules ++ d.variations.flatMap (·.rules)

/-- The first variation with a name. -/
def variation? (d : Definition) (name : String) : Option Variation :=
  d.variations.find? (·.name == name)

/-- The directive that holds for the definition. -/
def effectiveDirective (d : Definition) : Directive := d.directive.getD .default

/-- Every use the definition makes of a definition. -/
def references (d : Definition) : List Reference := referencesOfRules d.allRules

end Definition

end Phrasebook
