import Phrasebook.Dataset.Files
import Phrasebook.Options.Json
import Phrasebook.Time.Instant

/-!
Runs: data sets as they are kept on disk.

Every run has a directory of its own, named for its beginning and its identifier.  It holds
what the run was told, its log, the files of the data set and the report.
-/

namespace Phrasebook

/-- What is known of a run at its beginning. -/
structure Run where
  id : String
  startedAt : Instant
  /-- The path of the document. -/
  graph : String
  format : String
  options : Options
  summary : Summary

namespace Run

/-- The name of the run's directory. -/
def directory (r : Run) : String :=
  String.ofList r.startedAt.fileText ++ "__run_" ++ r.id

/-- What the run was told. -/
def toJson (r : Run) : Json :=
  .object [("run_id", .string r.id), ("started_at", .text r.startedAt.text),
    ("graph", .string r.graph), ("format", .string r.format), ("options", r.options.toJson),
    ("summary", r.summary.toJson)]

/-- The files a run begins with: what it was told, and a log without entries. -/
def initialFiles (r : Run) : List OutputFile :=
  [⟨"config.json", r.toJson.pretty⟩, ⟨"logs.ndjson", []⟩]

/-- What a log tells of a run. -/
inductive Event where
  | started
  | written (file : String)
  | finished

/-- An event with what belongs to it. -/
def eventFields (r : Run) : Event → List (String × String)
  | .started =>
    [("event", "run_started"), ("run_id", r.id), ("graph", r.graph), ("format", r.format)]
  | .written file => [("event", "file_written"), ("path", r.directory ++ "/" ++ file)]
  | .finished => [("event", "run_finished"), ("run_id", r.id)]

/-- An event as a line of JSON. -/
def jsonLine (r : Run) (e : Event) : Text :=
  (Json.object ((r.eventFields e).map fun field => (field.1, .string field.2))).compact ++ ['\n']

/-- An event as a line for people. -/
def plainLine (r : Run) (e : Event) : Text :=
  (" ".intercalate ((r.eventFields e).map fun field => field.1 ++ "=" ++ field.2)).toList ++
    ['\n']

/-- The file of the report. -/
def reportFile (report : Report) : OutputFile := ⟨"generation_report.json", report.toJson.pretty⟩

end Run

end Phrasebook
