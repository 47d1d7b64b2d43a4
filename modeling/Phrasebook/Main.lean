import Std.Time.DateTime.Timestamp
import Phrasebook.CommandLine.Arguments
import Phrasebook.CommandLine.Commands

/-!
The program: arguments, files and output.
-/

namespace Phrasebook.CommandLine

/-- The contents of a file, unless it cannot be read. -/
def readFile? (path : String) : IO (Option Text) := do
  try
    return some (← IO.FS.readFile path).toList
  catch _ =>
    return none

/-- Ends with the message of a failure. -/
def fail (reason : Failure) : IO UInt32 := do
  IO.eprintln ("Error: " ++ reason.message)
  return 1

/-- The present. -/
def now : IO Instant := do
  let t := (← Std.Time.Timestamp.now).toNanosecondsSinceUnixEpoch.val
  return ⟨t / 1000000000, (t % 1000000000).toNat⟩

/-- An identifier that no other run has: sixteen random bytes in hexadecimal digits. -/
def freshId : IO String := do
  let bytes ← IO.getRandomBytes 16
  let digit (n : Nat) : Char := "0123456789abcdef".toList.getD n '0'
  return String.ofList <| bytes.toList.flatMap fun b => [digit (b.toNat / 16), digit (b.toNat % 16)]

/-- Writes a file into a directory. -/
def writeFile (directory : String) (file : OutputFile) : IO Unit :=
  IO.FS.writeFile (directory ++ "/" ++ file.name) (String.ofList file.content)

/-- Logs an event: on standard error in the form asked for, and in the run's log as JSON. -/
def log (asJson : Bool) (directory : String) (run : Run) (e : Run.Event) : IO Unit := do
  IO.eprint (String.ofList (if asJson then run.jsonLine e else run.plainLine e))
  IO.FS.withFile (directory ++ "/logs.ndjson") .append fun h =>
    h.putStr (String.ofList (run.jsonLine e))

/-- Makes a data set in a directory of its own, and prints where that is. -/
def generateRun (logAsJson : Bool) (graph out : String) (config : Option String)
    (seed cap : Option Nat) (format : Format) : IO UInt32 := do
  match prepare (← readFile? graph) (← config.mapM readFile?) seed cap with
  | .error reason => fail reason
  | .ok (o, g) =>
    let run : Run := ⟨← freshId, ← now, graph, format.name, o, g.summary⟩
    let directory := out ++ "/" ++ run.directory
    IO.FS.createDirAll directory
    run.initialFiles.forM (writeFile directory)
    log logAsJson directory run .started
    match generate g o format with
    | .error reason => fail reason
    | .ok files =>
      for file in files do
        writeFile directory file
        log logAsJson directory run (.written file.name)
      log logAsJson directory run .finished
      IO.println directory
      return 0

/-- Performs what an invocation asks for; the result is the exit code. -/
def perform (invocation : Invocation) : IO UInt32 := do
  match invocation.command with
  | .count graph exact cap =>
    match count (← readFile? graph) exact cap with
    | .error reason => fail reason
    | .ok lines =>
      IO.print (String.ofList lines)
      return 0
  | .generate graph out config seed cap format =>
    generateRun invocation.logAsJson graph out config seed cap format

end Phrasebook.CommandLine

/-- Runs the program. -/
def main (arguments : List String) : IO UInt32 := do
  match Phrasebook.CommandLine.invocation? arguments with
  | some invocation => Phrasebook.CommandLine.perform invocation
  | none =>
    IO.eprint Phrasebook.CommandLine.usage
    return 2
