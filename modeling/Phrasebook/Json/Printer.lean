import Phrasebook.Json.Basic

/-!
JSON texts from JSON values.

There are two forms.  The compact one has no blanks.  The pretty one puts every item and
every field on a line of its own, two spaces deeper than the container, and a space behind
each colon; an empty container stays on its line.  In strings only the quote, the
backslash and the characters below the space are escaped, with a letter where JSON has one
for them and with four hexadecimal digits elsewhere.
-/

namespace Phrasebook.Json

/-- A hexadecimal digit, small. -/
def hexDigit (n : Nat) : Char := Nat.digitChar (n % 16)

/-- A character as it stands in a string. -/
def escape (c : Char) : Text :=
  if c = '"' then ['\\', '"']
  else if c = '\\' then ['\\', '\\']
  else if c = '\x08' then ['\\', 'b']
  else if c = '\t' then ['\\', 't']
  else if c = '\n' then ['\\', 'n']
  else if c = '\x0c' then ['\\', 'f']
  else if c = '\r' then ['\\', 'r']
  else if c.toNat < 0x20 then
    ['\\', 'u', '0', '0', hexDigit (c.toNat / 16), hexDigit c.toNat]
  else [c]

/-- A string between quotes. -/
def quoted (s : String) : Text :=
  '"' :: (s.toList.flatMap escape ++ ['"'])

/-- A number; one that no document can hold is written as `null`. -/
def Number.text : Number → Text
  | natural n => naturalText n
  | negative n => '-' :: naturalText n
  | real x => x.documentText?.getD ['n', 'u', 'l', 'l']

/-- A value that contains no others. -/
def scalarText : Json → Text
  | null => ['n', 'u', 'l', 'l']
  | bool true => ['t', 'r', 'u', 'e']
  | bool false => ['f', 'a', 'l', 's', 'e']
  | number n => n.text
  | string s => quoted s
  | array _ => ['[', ']']
  | object _ => ['{', '}']

mutual

/-- The compact text of a value. -/
def compact : Json → Text
  | array (item :: rest) => '[' :: (compact item ++ compactItems rest)
  | object ((name, value) :: rest) =>
    '{' :: (quoted name ++ ':' :: (compact value ++ compactFields rest))
  | scalar => scalarText scalar

/-- The items behind the first, and the end of the array. -/
def compactItems : List Json → Text
  | [] => [']']
  | item :: rest => ',' :: (compact item ++ compactItems rest)

/-- The fields behind the first, and the end of the object. -/
def compactFields : List (String × Json) → Text
  | [] => ['}']
  | (name, value) :: rest =>
    ',' :: (quoted name ++ ':' :: (compact value ++ compactFields rest))

end

/-- A new line, `depth` containers deep. -/
def newLine (depth : Nat) : Text := '\n' :: List.replicate (2 * depth) ' '

mutual

/-- The pretty text of a value that stands `depth` containers deep. -/
def prettyAt (depth : Nat) : Json → Text
  | array (item :: rest) =>
    '[' :: (newLine (depth + 1) ++ (prettyAt (depth + 1) item ++ prettyItems depth rest))
  | object ((name, value) :: rest) =>
    '{' :: (newLine (depth + 1) ++ (quoted name ++
      ':' :: ' ' :: (prettyAt (depth + 1) value ++ prettyFields depth rest)))
  | scalar => scalarText scalar

/-- The items behind the first, and the end of the array. -/
def prettyItems (depth : Nat) : List Json → Text
  | [] => newLine depth ++ [']']
  | item :: rest =>
    ',' :: (newLine (depth + 1) ++ (prettyAt (depth + 1) item ++ prettyItems depth rest))

/-- The fields behind the first, and the end of the object. -/
def prettyFields (depth : Nat) : List (String × Json) → Text
  | [] => newLine depth ++ ['}']
  | (name, value) :: rest =>
    ',' :: (newLine (depth + 1) ++ (quoted name ++
      ':' :: ' ' :: (prettyAt (depth + 1) value ++ prettyFields depth rest)))

end

/-- The pretty text of a value. -/
def pretty (j : Json) : Text := prettyAt 0 j

end Phrasebook.Json
