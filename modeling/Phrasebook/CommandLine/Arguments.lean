import Phrasebook.Dataset.Files

/-!
The arguments of the program.

A command comes first, then its options in any order.  The value of an option stands behind
it, as an argument of its own or behind an equals sign; an argument of its own that begins
with a dash is taken for an option.  No option may be given twice, and flags take no values.
-/

namespace Phrasebook.CommandLine

/-- What the program can be told to do. -/
inductive Command where
  | count (graph : String) (exact : Bool) (cap : Option Nat)
  | generate (graph out : String) (config : Option String) (seed cap : Option Nat)
      (format : Format)
  deriving DecidableEq, Repr

/-- A command, and how its log is written. -/
structure Invocation where
  logAsJson : Bool
  command : Command
  deriving DecidableEq, Repr

/-- The options of a command: those that take a value, and flags. -/
structure OptionNames where
  valued : List String
  flags : List String

/-- The flag that may also stand in front of the command. -/
def logFlag : String := "--log-json"

/-- The options of the command that counts. -/
def countOptions : OptionNames := ⟨["--graph", "--cap"], ["--exact", logFlag]⟩

/-- The options of the command that makes data sets. -/
def generateOptions : OptionNames :=
  ⟨["--graph", "--out", "--config", "--seed", "--cap", "--format"], [logFlag]⟩

/-- What was given: options with their values, flags with empty ones. -/
abbrev Given := List (String × String)

/-- Whether an argument may be the value of the option in front of it. -/
def isValue (arg : String) : Bool := arg == "-" || !arg.startsWith "-"

/-- The two sides of the first equals sign. -/
def sides? (arg : String) : Option (String × String) :=
  match arg.toList.span (· != '=') with
  | (name, '=' :: value) => some (String.ofList name, String.ofList value)
  | _ => none

/-- The options given in some arguments. -/
def collect (names : OptionNames) : List String → Option Given
  | [] => some []
  | arg :: rest =>
    if arg ∈ names.flags then ((arg, "") :: ·) <$> collect names rest
    else if arg ∈ names.valued then
      match rest with
      | value :: rest => if isValue value then ((arg, value) :: ·) <$> collect names rest else none
      | [] => none
    else
      match sides? arg with
      | some (name, value) =>
        if name ∈ names.valued then ((name, value) :: ·) <$> collect names rest else none
      | none => none

/-- A machine word in decimal digits, with or without a plus sign. -/
def word? (t : String) : Option Nat :=
  let ds := match t.toList with
    | '+' :: ds => ds
    | ds => ds
  if ds.isEmpty || !ds.all Char.isDigit then none
  else
    let n := ds.foldl (fun n c => n * 10 + (c.toNat - '0'.toNat)) 0
    if n < 2 ^ (64 : Nat) then some n else none

/-- A path: anything but nothing. -/
def path? (t : String) : Option String := if t.isEmpty then none else some t

/-- A format by its name. -/
def format? (t : String) : Option Format := Format.all.find? (·.name == t)

namespace Given

variable {α : Type}

/-- The value of an option that may be missing. -/
def get? (g : Given) (name : String) (read : String → Option α) : Option (Option α) :=
  match g.lookup name with
  | none => some none
  | some value => some <$> read value

/-- The value of an option, or its usual value. -/
def getD (g : Given) (name : String) (default : α) (read : String → Option α) : Option α :=
  (·.getD default) <$> g.get? name read

/-- The value of an option that must be there. -/
def get (g : Given) (name : String) (read : String → Option α) : Option α :=
  g.get? name read >>= id

/-- Whether a flag was given. -/
def has (g : Given) (name : String) : Bool := g.any (·.1 == name)

end Given

/-- The command of a name and the options given with it. -/
def command? (name : String) (arguments : List String) : Option (Command × Given) := do
  let given ← match name with
    | "count" => collect countOptions arguments
    | "generate" => collect generateOptions arguments
    | _ => none
  guard (given.map (·.1)).Nodup
  let graph ← given.get "--graph" path?
  let cap ← given.get? "--cap" word?
  if name = "count" then return (.count graph (given.has "--exact") cap, given)
  else
    let out ← given.getD "--out" "runs" path?
    let config ← given.get? "--config" path?
    let seed ← given.get? "--seed" word?
    let format ← given.getD "--format" .rasa format?
    return (.generate graph out config seed cap format, given)

/-- The invocation that arguments ask for. -/
def invocation? (arguments : List String) : Option Invocation := do
  let (early, arguments) : Bool × List String :=
    match arguments with
    | first :: rest => if first = logFlag then (true, rest) else (false, arguments)
    | [] => (false, [])
  match arguments with
  | name :: arguments =>
    let (command, given) ← command? name arguments
    return ⟨early || given.has logFlag, command⟩
  | [] => none

/-- How the program is used. -/
def usage : String :=
  "usage: phrasebook [--log-json] count --graph FILE [--exact] [--cap N]\n" ++
  "       phrasebook [--log-json] generate --graph FILE [--out DIRECTORY] [--config FILE]\n" ++
  "                  [--seed N] [--cap N] [--format rasa|jsonl]\n"

end Phrasebook.CommandLine
