import Phrasebook.Generation.Enumeration
import Phrasebook.Synonyms

/-!
The synonyms that the rules of slots amount to.

A rule of a slot may name the value that its sentences stand for.  Each of these sentences
is then a surface form of the value, unless it has no words, is the value itself, or still
holds a parameter of the slot, for nothing is bound to the parameters here.
-/

namespace Phrasebook

namespace Definition

/-- Whether a text still holds a parameter of the definition. -/
def hasPlaceholder (d : Definition) (t : Text) : Bool :=
  d.parameters.any fun p => Text.occursIn (Scope.placeholder p) t

/-- Whether a sentence of a rule with a value is recorded as a surface form of it. -/
def isSurface (d : Definition) (value : Text) (e : Example) : Bool :=
  !e.text.isEmpty && e.text != value && !d.hasPlaceholder e.text

/-- Records the surface forms of a rule. -/
def addSynonyms (answer : String → Reference → Sentences) (d : Definition) (s : Synonyms)
    (r : Rule) : Except GenerationError Synonyms :=
  match r.value with
  | none => .ok s
  | some value => do
    let examples ← enumerateRule answer (.root d.name) r
    return (examples.filter (d.isSurface value)).foldl (fun s e => s.insert e.text value) s

/-- The synonyms of a slot. -/
def synonyms (answer : String → Reference → Sentences) (d : Definition) :
    Except GenerationError Synonyms :=
  (d.allRules.filter Rule.isReachable).foldlM (d.addSynonyms answer) .empty

end Definition

/-- The synonyms of all slots of a graph. -/
def Graph.synonyms (g : Graph) : Except GenerationError Synonyms :=
  (g.ofKind .slot).foldlM (fun s d => return s.merge (← d.synonyms g.enumerate)) .empty

end Phrasebook
