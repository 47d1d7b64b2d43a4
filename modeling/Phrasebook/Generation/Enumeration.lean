import Phrasebook.Generation.Distinct
import Phrasebook.Generation.Scope
import Phrasebook.Graph.Basic

/-!
Every sentence of a template, once.

A rule's sentences are the ways to put one sentence of each token side by side, those of
the first token changing slowest.  A token's sentences are those of what it holds, in each
form its casing asks for, and no words at all if the token may be left out.  Sentences that
count as the same are dropped as soon as they appear: at each token, behind each prefix of
a rule, and in each set of rules.

How references are answered is a parameter here.  Along the layers of a graph each
definition asks only those behind it, so `enumerateIn` goes down the list and ends.
-/

namespace Phrasebook

/-- The sentences of something, or why there are none. -/
abbrev Sentences := Except GenerationError (List Example)

namespace Modifiers

/-- The sentences of a token that holds the given ones. -/
def spread (m : Modifiers) (base : List Example) : List Example :=
  let cased : List Example :=
    match m.casing with
    | .either => base.flatMap fun e => [e.recase .lowercase, e.recase .capitalize]
    | casing => base.map (Example.recase casing)
  distinct (if m.mayBeAbsent then cased ++ [.empty] else cased)

end Modifiers

/-- Each of the first examples with each of the second behind it. -/
def sideBySide (fronts backs : List Example) : List Example :=
  distinct (fronts.flatMap fun front => backs.map front.append)

section

variable (answer : String → Reference → Sentences) (scope : Scope)

mutual

/-- Each of the given sentences with those of tokens behind it. -/
def enumerateTokens (fronts : List Example) : List Token → Sentences
  | [] => .ok fronts
  | token :: rest => do
    let backs ← enumerateToken token
    enumerateTokens (sideBySide fronts backs) rest

/-- The sentences of a token. -/
def enumerateToken : Token → Sentences
  | .word text m =>
    if m.isAbsent then .ok [.empty] else .ok (m.spread [.ofText (scope.render text)])
  | .group rules m =>
    if m.isAbsent then .ok [.empty]
    else do
      let base ← enumerateRules (fun _ e => e) rules
      return m.spread (distinct base)
  | .reference target m =>
    if m.isAbsent then .ok [.empty]
    else do
      let base ← answer scope.owner ⟨target, m⟩
      return m.spread base

/-- The sentences of the reachable ones among rules, rule by rule, each finished. -/
def enumerateRules (finish : Rule → Example → Example) : List Rule → Sentences
  | [] => .ok []
  | .mk tokens weight value :: rest => do
    let rule := Rule.mk tokens weight value
    if rule.isReachable then do
      let here ← enumerateTokens [.empty] tokens
      return here.map (finish rule) ++ (← enumerateRules finish rest)
    else enumerateRules finish rest

end

/-- The sentences of a rule by itself. -/
def enumerateRule (r : Rule) : Sentences := enumerateTokens answer scope [.empty] r.tokens

/-- The sentences of a group that belongs to no definition. -/
def enumerateGroup (rules : List Rule) : Sentences :=
  distinct <$> enumerateRules answer (.root Scope.groupOwner) (fun _ e => e) rules

end

namespace Definition

/-- The sentences of a definition where it is used. -/
def enumerate (answer : String → Reference → Sentences) (d : Definition)
    (variation : Option String) (arguments : List Text) : Sentences := do
  let rules ← d.select variation
  distinct <$> enumerateRules answer (.ofDefinition d arguments) d.finish rules

end Definition

/-- Answers a reference from definitions that each refer only to later ones. -/
def enumerateIn : List Definition → String → Reference → Sentences
  | [], owner, r => .error (.unresolved owner r.target)
  | d :: below, owner, r =>
    if d.key = r.target then
      d.enumerate (enumerateIn below) r.modifiers.variation r.modifiers.arguments
    else enumerateIn below owner r

namespace Graph

/-- The sentences of a use of a definition. -/
def enumerate (g : Graph) : String → Reference → Sentences := enumerateIn g.layers

end Graph

end Phrasebook
