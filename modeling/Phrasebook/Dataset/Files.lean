import Phrasebook.Dataset.Report
import Phrasebook.Json.Printer

/-!
Data sets as files.

There are two formats.  Both have a file for each part of the data set that has examples.
In the first this is one pretty document with the examples and, by value, the synonyms; its
keys are in alphabetical order, so that files can be compared line by line.  In the second
it is one compact example on each line, and the synonyms, if there are any, get a file of
their own behind that of the first part.
-/

namespace Phrasebook

/-- A file by name. -/
structure OutputFile where
  name : String
  content : Text

/-- A format of data sets. -/
inductive Format where
  | rasa
  | jsonl
  deriving DecidableEq, Repr

namespace Format

/-- Every format. -/
def all : List Format := [rasa, jsonl]

/-- The name of a format. -/
def name : Format → String
  | rasa => "rasa"
  | jsonl => "jsonl"

end Format

/-! ### One document for each part -/

namespace Rasa

/-- An entity in the document. -/
def entity (e : Entity) : Json :=
  .object [("end", .nat e.stop), ("entity", .string e.slot), ("start", .nat e.start),
    ("value", .text e.value)]

/-- An example in the document; without an intent it has the empty one. -/
def commonExample (e : Example) : Json :=
  .object [("entities", Json.ofList entity e.entities), ("intent", .string (e.intent.getD "")),
    ("text", .text e.text)]

/-- A value with its surface forms in the document. -/
def synonym (entry : Text × List Text) : Json :=
  .object [("synonyms", Json.ofList .text entry.2), ("value", .text entry.1)]

/-- What the document of one part holds. -/
def data (examples : List Example) (synonyms : Synonyms) : Json :=
  .object [("common_examples", Json.ofList commonExample examples),
    ("entity_synonyms", Json.ofList synonym synonyms.byValue.toList),
    ("regex_features", .array [])]

/-- The document of one part. -/
def document (examples : List Example) (synonyms : Synonyms) : Json :=
  .object [("rasa_nlu_data", data examples synonyms)]

/-- The file of one part. -/
def file (split : Split) (examples : List Example) (synonyms : Synonyms) : OutputFile :=
  ⟨split.name ++ ".json", (document examples synonyms).pretty ++ ['\n']⟩

/-- What was written when one more part has been. -/
def write (s : Synonyms) (written : List OutputFile) (part : Split × List Example) :
    List OutputFile :=
  written ++ [file part.1 part.2 s]

end Rasa

/-! ### One example on each line -/

namespace Jsonl

/-- An example and the end of its line. -/
def line (e : Example) : Text := e.toJson.compact ++ ['\n']

/-- The file of one part. -/
def file (split : Split) (examples : List Example) : OutputFile :=
  ⟨split.name ++ ".jsonl", examples.flatMap line⟩

/-- The file of the synonyms. -/
def synonymFile (s : Synonyms) : OutputFile := ⟨"synonyms.json", s.toJson.pretty⟩

/-- What was written when one more part has been: its file, and the synonyms if there are any
and they were not written before. -/
def write (s : Synonyms) (written : List OutputFile) (part : Split × List Example) :
    List OutputFile :=
  let written := written ++ [file part.1 part.2]
  if s.isEmpty || (written.map (·.name)).contains (synonymFile s).name then written
  else written ++ [synonymFile s]

end Jsonl

namespace Format

/-- What was written when one more part has been. -/
def write : Format → Synonyms → List OutputFile → Split × List Example → List OutputFile
  | rasa => Rasa.write
  | jsonl => Jsonl.write

/-- What was written when all of the parts have been, one after the other. -/
def writeAll (format : Format) (s : Synonyms) (parts : List (Split × List Example)) :
    List OutputFile :=
  parts.foldl (format.write s) []

end Format

namespace Dataset

/-- The parts that have examples, in order. -/
def parts (d : Dataset) : List (Split × List Example) :=
  [(.train, d.train), (.test, d.test)].filter fun p => !p.2.isEmpty

/-- The files of a data set, in the order in which they are written. -/
def files (d : Dataset) (format : Format) : List OutputFile :=
  format.writeAll d.synonyms d.parts

end Dataset

end Phrasebook
