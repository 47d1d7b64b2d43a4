import Phrasebook.Generation.Counts
import Phrasebook.Generation.Scope
import Phrasebook.Graph.Basic

/-!
How many sentences a template has, without listing them.

The count of a set of rules is the sum over its rules, that of a rule the product over its
tokens, and a token has as many sentences as what it holds, times the forms its casing asks
for, and one more if it may be left out.  Sentences that happen to be the same are counted
apart, and so are those of rules that are never used; for the latter the count says that it
is an upper bound.

Counts of definitions, variations and groups are looked up first and kept when computed.
References are answered as in `Generation.Enumeration`: along the layers.
-/

namespace Phrasebook

section

variable (answer : String → Reference → Counting Possibilities) (cap : Nat) (label : String)
  (owner : Owner)

namespace Modifiers

/-- The count of a token that holds something of a given count. -/
def counted (m : Modifiers) (base : Possibilities) : Possibilities :=
  let cased := base.cased cap m.casing
  if m.mayBeAbsent then cased.add cap (.exact 1) else cased

end Modifiers

mutual

/-- Multiplies a count by those of tokens, the first of which is token `j` of its rule. -/
def countTokens (path : List Nat) (j : Nat) (product : Possibilities) :
    List Token → Counting Possibilities
  | [] => return product
  | token :: rest => do
    let p ← countToken (path ++ [j]) token
    countTokens path (j + 1) (product.mul cap p) rest

/-- The count of a token. -/
def countToken (path : List Nat) : Token → Counting Possibilities
  | .word _ m => if m.isAbsent then return .exact 1 else return m.counted cap (.exact 1)
  | .group rules m =>
    if m.isAbsent then return .exact 1
    else do
      let base ← Counts.remember ⟨owner, .group path⟩ (countRules path 0 (.exact 0) rules)
      return m.counted cap base
  | .reference target m =>
    if m.isAbsent then return .exact 1
    else do
      let base ← answer label ⟨target, m⟩
      return m.counted cap base

/-- Adds to a count those of rules, the first of which is rule `i` at `path`. -/
def countRules (path : List Nat) (i : Nat) (total : Possibilities) :
    List Rule → Counting Possibilities
  | [] => return total
  | .mk tokens weight value :: rest => do
    let product ← countTokens (path ++ [i]) 0 (.exact 1) tokens
    let product := if (Rule.mk tokens weight value).isReachable then product else product.mark
    countRules path (i + 1) (total.add cap product) rest

end

end

namespace Definition

/-- What is counted for a use of a definition: its rules, the index of the first among all
rules, and the part of the definition that they are. -/
def counted (d : Definition) (variation : Option String) :
    Except GenerationError (List Rule × Nat × Part) :=
  match variation with
  | none => .ok (d.allRules, 0, .whole)
  | some name =>
    match d.variations.findIdx? (·.name == name) with
    | none => .error (.noVariation d.key name)
    | some k =>
      let first := d.rules.length + ((d.variations.take k).map (·.rules.length)).sum
      .ok (d.variations[k]?.elim [] (·.rules), first, .variation k)

/-- The count of a definition where it is used. -/
def count (answer : String → Reference → Counting Possibilities) (cap : Nat) (owner : Owner)
    (d : Definition) (variation : Option String) : Counting Possibilities := do
  let (rules, first, part) ← liftM (d.counted variation)
  Counts.remember ⟨owner, part⟩ (countRules answer cap d.name owner [] first (.exact 0) rules)

end Definition

/-- Answers a reference from definitions that each refer only to later ones. -/
def countIn (cap : Nat) : List Definition → String → Reference → Counting Possibilities
  | [], owner, r => throw (.unresolved owner r.target)
  | d :: below, owner, r =>
    if d.key = r.target then d.count (countIn cap below) cap (.unit d.key) r.modifiers.variation
    else countIn cap below owner r

namespace Graph

/-- The count of a use of a definition. -/
def count (g : Graph) (cap : Nat) : String → Reference → Counting Possibilities :=
  countIn cap g.layers

end Graph

/-! ### The places of groups -/

mutual

/-- The places of the groups in tokens, each in front of those inside it. -/
def groupPathsOfTokens (path : List Nat) (j : Nat) : List Token → List (List Nat)
  | [] => []
  | token :: rest => groupPathsOfToken (path ++ [j]) token ++ groupPathsOfTokens path (j + 1) rest

/-- The places of the groups in a token, its own first. -/
def groupPathsOfToken (path : List Nat) : Token → List (List Nat)
  | .group rules _ => path :: groupPathsOfRules path 0 rules
  | _ => []

/-- The places of the groups in rules. -/
def groupPathsOfRules (path : List Nat) (i : Nat) : List Rule → List (List Nat)
  | [] => []
  | .mk tokens _ _ :: rest =>
    groupPathsOfTokens (path ++ [i]) 0 tokens ++ groupPathsOfRules path (i + 1) rest

end

end Phrasebook
