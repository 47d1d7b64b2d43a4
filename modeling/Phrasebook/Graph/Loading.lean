import Phrasebook.Graph.Basic
import Phrasebook.Json.Parser
import Phrasebook.Schema.Violations

/-!
Graphs from documents.

A document is checked against its schema before it is decoded, so that everything wrong with
its form is reported at once and by its place.  Only then are its definitions checked.
-/

namespace Phrasebook

/-- Why a document is no graph. -/
inductive LoadError where
  | notJson
  | violations (pointers : List String)
  | notDecoded (reason : DecodeError)
  | invalid (reason : GraphError)

namespace LoadError

/-- The error in words. -/
def message : LoadError → String
  | notJson => "json error: no JSON text"
  | violations pointers =>
    "graph document does not match the schema:\n  " ++ "\n  ".intercalate pointers
  | notDecoded reason => "json error: " ++ reason.message
  | invalid reason => "graph error: " ++ reason.message

end LoadError

namespace Graph

/-- The graph of a document. -/
def ofDocument (d : Document) : Except GraphError Graph := ofDefinitions d.definitions

/-- The graph of a document that is a value. -/
def ofJson (j : Json) : Except LoadError Graph := do
  let pointers := Schema.document.pointers j
  if !pointers.isEmpty then .error (.violations pointers)
  let document ← (Document.ofJson j).mapError .notDecoded
  (ofDocument document).mapError .invalid

/-- The graph of a document that is a text.  Of fields with one name the last one counts. -/
def ofText (t : Text) : Except LoadError Graph :=
  match Json.parse? t with
  | none => .error .notJson
  | some j => ofJson j.lastFields

end Graph

end Phrasebook
