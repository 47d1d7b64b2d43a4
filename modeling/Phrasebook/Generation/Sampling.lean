import Phrasebook.Generation.Scope
import Phrasebook.Graph.Basic

/-!
One sentence of a template, at random.

A rule is chosen by weight, and its tokens are made one after the other.  A token is first
left out or not, then made, and then, if its casing asks for either form, one form is
chosen.  Who fails keeps the words drawn so far.

References are answered as in `Generation.Enumeration`: along the layers.
-/

namespace Phrasebook

/-- What makes something at random, or fails. -/
abbrev Sampling := ExceptT GenerationError Draw

namespace Modifiers

/-- Decides whether the token stands. -/
def stands (m : Modifiers) : Sampling Bool :=
  match m.chance with
  | none => return true
  | some p => Dice.chance p

/-- Decides on the form of the first letter. -/
def chooseCasing (m : Modifiers) : Sampling Casing :=
  match m.casing with
  | .either => do
    let heads : Bool ← Dice.chance .half
    return if heads then .capitalize else .lowercase
  | casing => return casing

end Modifiers

/-- Chooses the index of a rule. -/
def chooseRule (owner : String) (rules : List Rule) : Sampling Nat := do
  match ← Dice.weighted (rules.map Rule.weight) with
  | .ok i => return i
  | .error reason => throw (.noChoice owner reason)

section

variable (answer : String → Reference → Sampling Example) (scope : Scope)

mutual

/-- Puts sentences of tokens behind a sentence. -/
def sampleTokens (front : Example) : List Token → Sampling Example
  | [] => return front
  | token :: rest => do
    let e ← sampleToken token
    sampleTokens (front.append e) rest

/-- A sentence of a token. -/
def sampleToken : Token → Sampling Example
  | .word text m => do
    if ← m.stands then
      return Example.recase (← m.chooseCasing) (.ofText (scope.render text))
    else return .empty
  | .group rules m => do
    if ← m.stands then
      let i ← chooseRule scope.owner rules
      let (e, _) ← sampleRule i rules
      return e.recase (← m.chooseCasing)
    else return .empty
  | .reference target m => do
    if ← m.stands then
      let e ← answer scope.owner ⟨target, m⟩
      return e.recase (← m.chooseCasing)
    else return .empty

/-- A sentence of the rule with a given index, and the rule. -/
def sampleRule : Nat → List Rule → Sampling (Example × Option Rule)
  | _, [] => return (.empty, none)
  | 0, .mk tokens weight value :: _ => do
    let e ← sampleTokens .empty tokens
    return (e, some (.mk tokens weight value))
  | i + 1, .mk _ _ _ :: rest => sampleRule i rest

end

/-- A sentence of a set of rules, and the rule chosen. -/
def sampleRules (rules : List Rule) : Sampling (Example × Option Rule) := do
  sampleRule answer scope (← chooseRule scope.owner rules) rules

/-- A sentence of a group that belongs to no definition. -/
def sampleGroup (rules : List Rule) : Sampling Example :=
  Prod.fst <$> sampleRules answer (.root Scope.groupOwner) rules

end

namespace Definition

/-- A sentence of a definition where it is used. -/
def sample (answer : String → Reference → Sampling Example) (d : Definition)
    (variation : Option String) (arguments : List Text) : Sampling Example := do
  let rules ← liftM (d.select variation)
  let (e, rule) ← sampleRules answer (.ofDefinition d arguments) rules
  return rule.elim e fun r => d.finish r e

end Definition

/-- Answers a reference from definitions that each refer only to later ones. -/
def sampleIn : List Definition → String → Reference → Sampling Example
  | [], owner, r => throw (.unresolved owner r.target)
  | d :: below, owner, r =>
    if d.key = r.target then
      d.sample (sampleIn below) r.modifiers.variation r.modifiers.arguments
    else sampleIn below owner r

namespace Graph

/-- A sentence of a use of a definition. -/
def sample (g : Graph) : String → Reference → Sampling Example := sampleIn g.layers

end Graph

end Phrasebook
