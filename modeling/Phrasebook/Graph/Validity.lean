import Phrasebook.Graph.Error

/-!
What a definition must fulfil by itself and towards the definitions it refers to.

Its name is not blank.  From each of its rule sets (all its rules, those of one variation,
those of one group) a rule can be chosen: no weight is negative or infinite, and one is
above zero.  A chance lies between zero and one.  A word has neither a variation nor
arguments.  A reference names a definition, a variation of it if any, and passes either no
arguments or one for each parameter.

The checks run in a fixed order and the first that fails is the answer.  Whether the
references run in a circle is a question about all definitions together and is left to
`Graph.Layers`.
-/

namespace Phrasebook

namespace Definition

/-- The definition with a given key. -/
def find? (definitions : List Definition) (key : Key) : Option Definition :=
  List.find? (fun d => d.key == key) definitions

end Definition

/-- The result of a check. -/
abbrev Checked := Except GraphError Unit

namespace Rule

/-- Whether the weight of the rule is a finite number and not negative. -/
def isWeighted (r : Rule) : Bool := r.weight.isFinite && !r.weight.lt .zero

end Rule

namespace RuleSet

/-- Checks that a rule can be chosen from a rule set. -/
def check (set : RuleSet) (rules : List Rule) : Checked :=
  match rules.find? fun r => !r.isWeighted with
  | some r => .error (.badWeight set r.weight)
  | none => if rules.any Rule.isReachable then .ok () else .error (.noReachableRule set)

end RuleSet

namespace Definition

/-- Checks the chance with which a token stands. -/
def checkChance (owner : Key) (m : Modifiers) : Checked :=
  match m.chance with
  | none => .ok ()
  | some p =>
    if Binary64.zero.le p && p.le .one then .ok () else .error (.badChance owner p)

/-- Checks a reference against the definitions. -/
def checkReference (definitions : List Definition) (owner target : Key) (m : Modifiers) :
    Checked := do
  match find? definitions target with
  | none => .error (.unresolved owner target)
  | some d =>
    match m.variation with
    | some name =>
      if (d.variation? name).isNone then .error (.noVariation owner target name)
    | none => .ok ()
    if m.arguments ≠ [] ∧ m.arguments.length ≠ d.parameters.length then
      .error (.wrongArity owner target d.parameters.length m.arguments.length)

mutual

/-- Checks tokens, one by one. -/
def checkTokens (definitions : List Definition) (owner : Key) : List Token → Checked
  | [] => .ok ()
  | token :: rest => do
    checkToken definitions owner token
    checkTokens definitions owner rest

/-- Checks a token and, if it is a group, everything in it. -/
def checkToken (definitions : List Definition) (owner : Key) : Token → Checked
  | .word _ m => do
    checkChance owner m
    if m.variation.isSome ∨ m.arguments ≠ [] then .error (.modifiedWord owner)
  | .group rules m => do
    checkChance owner m
    RuleSet.check (.group owner) rules
    checkRules definitions owner rules
  | .reference target m => do
    checkChance owner m
    checkReference definitions owner target m

/-- Checks the tokens of rules, rule by rule. -/
def checkRules (definitions : List Definition) (owner : Key) : List Rule → Checked
  | [] => .ok ()
  | .mk tokens _ _ :: rest => do
    checkTokens definitions owner tokens
    checkRules definitions owner rest

end

/-- Checks one of the definitions. -/
def check (definitions : List Definition) (d : Definition) : Checked := do
  if (Text.trim d.name.toList).isEmpty then .error (.blankName d.kind)
  RuleSet.check (.definition d.key) d.allRules
  d.variations.forM fun v => RuleSet.check (.variation d.key v.name) v.rules
  checkRules definitions d.key d.allRules

end Definition

end Phrasebook
