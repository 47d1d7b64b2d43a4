import Phrasebook.Graph.Layers
import Phrasebook.Numbers

/-!
Graphs: lists of definitions that fulfil their conditions.

`Graph.ofDefinitions` is the one way to a graph.  It refuses a key that two definitions
share, brings the definitions into the order of their keys, checks each of them, and looks
for a circle of references.  So in a graph every reference is resolved and nothing makes
use of itself, however long the way.
-/

namespace Phrasebook

/-- Definitions in the order of their keys, and again in the order of their dependence. -/
structure Graph where
  definitions : List Definition
  layers : List Definition

/-- How many definitions of each kind there are, and how many pairs of one that refers to
another. -/
structure Summary where
  phrases : Nat
  slots : Nat
  intents : Nat
  references : Nat
  deriving DecidableEq, Repr, Inhabited

namespace Graph

/-- The first key that an earlier definition has, too. -/
def duplicate? : List Key → List Definition → Option Key
  | _, [] => none
  | seen, d :: rest => if d.key ∈ seen then some d.key else duplicate? (d.key :: seen) rest

/-- The graph of a list of definitions. -/
def ofDefinitions (definitions : List Definition) : Except GraphError Graph := do
  if let some key := duplicate? [] definitions then .error (.duplicate key)
  let sorted := definitions.mergeSort fun a b => a.key.le b.key
  sorted.forM (Definition.check sorted)
  match Definition.layers sorted with
  | .error path => .error (.cycle path)
  | .ok layers => return ⟨sorted, layers⟩

/-- The graph without definitions. -/
def empty : Graph := ⟨[], []⟩

/-- The definition with a key. -/
def get? (g : Graph) (key : Key) : Option Definition := Definition.find? g.definitions key

/-- The definitions of a kind, in the order of their names. -/
def ofKind (g : Graph) (kind : Kind) : List Definition :=
  g.definitions.filter (·.kind = kind)

/-- The numbers that describe the graph. -/
def summary (g : Graph) : Summary where
  phrases := (g.ofKind .phrase).length
  slots := (g.ofKind .slot).length
  intents := (g.ofKind .intent).length
  references := (g.definitions.map fun d => d.targets.length).sum

end Graph

end Phrasebook
