import Phrasebook.Graph.Loading
import Phrasebook.Options.File
import Phrasebook.Run

/-!
The commands of the program, as functions of the files they read.

A file that cannot be read is `none`.  The options are looked at before the document, so an
error in them comes first.
-/

namespace Phrasebook.CommandLine

/-- Why a command fails. -/
inductive Failure where
  | unreadable
  | badOptionsFile
  | load (reason : LoadError)
  | generation (reason : GenerationError)

namespace Failure

/-- The failure in words. -/
def message : Failure → String
  | unreadable => "io error: a file cannot be read"
  | badOptionsFile => "invalid options file"
  | load reason => reason.message
  | generation reason => "generation error: " ++ reason.message

end Failure

/-- The options that a command goes by. -/
def resolveOptions (file : Option (Option Text)) (seed cap : Option Nat) :
    Except Failure Options := do
  let file ← match file with
    | some none => .error .unreadable
    | some (some contents) => .ok (some contents)
    | none => .ok none
  match Options.resolve? file (seed.map UInt64.ofNat) cap with
  | none => .error .badOptionsFile
  | some o => do
    o.check.mapError fun reason => .generation (.options reason)
    return o

/-- The graph of a document's file. -/
def loadGraph (file : Option Text) : Except Failure Graph :=
  match file with
  | none => .error .unreadable
  | some contents => (Graph.ofText contents).mapError .load

/-- The line of a definition: an upper bound is marked. -/
def countLine (d : Definition) (p : Possibilities) : Text :=
  d.key.display.toList ++ '\t' ::
    ((if p.approximate then "<=".toList else []) ++ naturalText p.value ++ ['\n'])

/-- The lines of all definitions.  For exact counts every sentence is listed first. -/
def countLines (g : Graph) (cap : Nat) (exact : Bool) : Counting Text := do
  if exact then
    for d in g.definitions do
      discard <| (Item.unit d.key).all g
  let lines ← g.definitions.mapM fun d => countLine d <$> (Item.unit d.key).count g cap
  return lines.flatten

/-- What the command that counts prints. -/
def count (graph : Option Text) (exact : Bool) (cap : Option Nat) : Except Failure Text := do
  let o ← resolveOptions none none cap
  let g ← loadGraph graph
  ((countLines g o.possibilityCap exact).run .empty).1.mapError .generation

/-- What the command that makes data sets begins with: options and a graph. -/
def prepare (graph : Option Text) (config : Option (Option Text)) (seed cap : Option Nat) :
    Except Failure (Options × Graph) := do
  let o ← resolveOptions config seed cap
  return (o, ← loadGraph graph)

/-- The files of a data set and its report, in the order in which they are written. -/
def generate (g : Graph) (o : Options) (format : Format) : Except Failure (List OutputFile) := do
  let d ← ((Dataset.generate g o).run .empty).1.mapError .generation
  return d.files format ++ [Run.reportFile d.report]

end Phrasebook.CommandLine
