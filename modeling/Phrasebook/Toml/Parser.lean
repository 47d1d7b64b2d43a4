import Phrasebook.Toml.Moment
import Phrasebook.Toml.Strings

/-!
TOML values from TOML texts, by the rules of TOML 1.0.

A document is a sequence of lines: a value under its key, a header, a comment or nothing.
How deep arrays and inline tables may lie in one another is limited.
-/

namespace Phrasebook.Toml

open Reader

/-! ### Values -/

/-- The fields of an inline table. -/
def inlineFields (pairs : List ((List Text × Text) × Toml)) : Option Fields :=
  pairs.foldlM (fun fields ((path, name), v) => addDotted path name v .inlined fields) []

/-- Items with commas in between, and perhaps one behind the last. -/
def arrayOf (value : Reader Toml) : Reader Toml := do
  char '['
  gap
  let items ← optionally <| separated
    (do
      gap
      let v ← value
      gap
      return v)
    (char ',')
  if items.isSome then discard <| optionally (char ',')
  gap
  char ']'
  return array (items.getD [])

/-- A key and its value. -/
def pairOf (value : Reader Toml) : Reader ((List Text × Text) × Toml) := do
  let k ← key
  char '='
  blanks
  let v ← value
  return (k, v)

/-- Keys and values with commas in between, all on one line. -/
def inlineTableOf (value : Reader Toml) : Reader Toml := do
  char '{'
  let pairs ← optionally <| separated
    (do
      let p ← pairOf value
      blanks
      return p)
    (char ',')
  blanks
  char '}'
  return table .inlined (← inlineFields (pairs.getD []))

/-- A value in which arrays and inline tables lie at most so deep. -/
def valueTo : Nat → Reader Toml
  | 0 => scalar
  | depth + 1 => arrayOf (valueTo depth) <|> inlineTableOf (valueTo depth) <|> scalar
where
  /-- A value that holds no others. -/
  scalar : Reader Toml :=
    stringReader <|> momentReader <|> realReader <|> integerReader <|>
      (do literal "true"; return bool true) <|> (do literal "false"; return bool false)

/-- A value. -/
def value : Reader Toml := valueTo (maxDepth - 1)

/-! ### Documents -/

/-- A line of a document. -/
inductive Line where
  | empty
  | header (path : List Text) (name : Text)
  | nextHeader (path : List Text) (name : Text)
  | pair (path : List Text) (name : Text) (v : Toml)

/-- A line. -/
def line : Reader Line := do
  blanks
  (do
    literal "[["
    let (path, name) ← key
    literal "]]"
    lineEnd
    return .nextHeader path name) <|> (do
    char '['
    let (path, name) ← key
    char ']'
    lineEnd
    return .header path name) <|> (do
    let ((path, name), v) ← pairOf value
    lineEnd
    return .pair path name v) <|> (do
    discard <| optionally comment
    lineBreak
    return .empty) <|> (do
    comment
    finish
    return .empty)

/-- What the lines of a document have built, and the header they are under. -/
structure Progress where
  header : List Text
  fields : Fields

/-- What a line adds. -/
def Progress.next (p : Progress) : Line → Option Progress
  | .empty => some p
  | .header path name => do return ⟨path ++ [name], ← openTable path name p.fields⟩
  | .nextHeader path name => do return ⟨path ++ [name], ← openNextTable path name p.fields⟩
  | .pair path name v => do return { p with fields := ← addBelow p.header path name v p.fields }

/-- A document, with or without a byte order mark. -/
def document : Reader Fields := do
  discard <| optionally (char '\ufeff')
  let lines ← many line
  blanks
  finish
  let progress ← (lines.foldlM Progress.next ⟨[], []⟩ : Option Progress)
  return progress.fields

/-- The table that a text writes. -/
def parse? (t : Text) : Option Fields := whole document t

end Phrasebook.Toml
