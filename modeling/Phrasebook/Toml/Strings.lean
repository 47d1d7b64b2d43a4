import Phrasebook.Toml.Basic
import Phrasebook.Toml.Reader

/-!
Strings, keys and blanks of TOML documents.

A string stands between quotation marks, where backslashes escape, or between apostrophes,
where nothing does.  Three marks on either side make a string that may run over several
lines; it may also end in up to two marks of its own, and a line break right behind the
opening marks is no part of it.
-/

namespace Phrasebook.Toml

open Reader

/-! ### Blanks and comments -/

/-- Spaces and tabs. -/
def blanks : Reader Unit := discard <| run fun c => c == ' ' || c == '\t'

/-- A line break. -/
def lineBreak : Reader Unit := literal "\n" <|> literal "\r\n"

/-- Whether a character may stand in a line: no control character but the tab. -/
def isPrintable (c : Char) : Bool := c == '\t' || (' ' ≤ c && c != '\x7f')

/-- A comment. -/
def comment : Reader Unit := do
  char '#'
  discard <| run isPrintable

/-- What may stand behind a value or a header on its line. -/
def lineEnd : Reader Unit := do
  blanks
  discard <| optionally comment
  lineBreak <|> finish

/-- Blanks, comments and line breaks. -/
def gap : Reader Unit := do
  blanks
  discard <| many do
    (do comment; lineBreak <|> finish) <|> lineBreak
    blanks

/-! ### Strings -/

/-- Whether a character stands for itself between marks. -/
def isPlain (mark : Char) (c : Char) : Bool := isPrintable c && c != mark

/-- As `isPlain` where backslashes escape. -/
def isUnescaped (c : Char) : Bool := isPlain '"' c && c != '\\'

/-- The character of a code point in so many hexadecimal digits. -/
def codePoint (length : Nat) : Reader Char := do
  let n ← hexadecimal length
  guard n.isValidChar
  return Char.ofNat n

/-- The character that an escape stands for. -/
def escape : Reader Char := do
  char '\\'
  match ← one fun _ => true with
  | 'b' => return '\x08'
  | 't' => return '\t'
  | 'n' => return '\n'
  | 'f' => return '\x0c'
  | 'r' => return '\r'
  | '"' => return '"'
  | '\\' => return '\\'
  | 'u' => codePoint 4
  | 'U' => codePoint 8
  | _ => failure

/-- A string on one line. -/
def lineString : Reader Text :=
  (do
    char '"'
    let t ← many (one isUnescaped <|> escape)
    char '"'
    return t) <|> do
    char '\''
    let t ← run (isPlain '\'')
    char '\''
    return t

/-- Marks that end no string: one or two. -/
def loneMarks (mark : Char) : Reader Text := fun t =>
  let marks := t.takeWhile (· == mark)
  if marks.length = 1 ∨ marks.length = 2 then some (marks, t.dropWhile (· == mark)) else none

/-- The end of a string over several lines, with the marks that still belong to it. -/
def lastMarks (mark : Char) : Reader Text := fun t =>
  let marks := t.takeWhile (· == mark)
  if 3 ≤ marks.length ∧ marks.length ≤ 5 then
    some (marks.drop 3, t.dropWhile (· == mark))
  else none

/-- A line break inside a string. -/
def innerBreak : Reader Text := do
  lineBreak
  return ['\n']

/-- A backslash that joins a line to the next that is not blank. -/
def joinedLines : Reader Text := do
  char '\\'
  blanks
  lineBreak
  discard <| many (lineBreak <|> discard (one fun c => c == ' ' || c == '\t'))
  return []

/-- A string over several lines, from its pieces. -/
def longStringOf (mark : Char) (piece : Reader Text) : Reader Text := do
  literal (String.ofList [mark, mark, mark])
  discard <| optionally lineBreak
  let pieces ← many (piece <|> innerBreak <|> loneMarks mark)
  return pieces.flatten ++ (← lastMarks mark)

/-- A string over several lines. -/
def longString : Reader Text :=
  longStringOf '"' (run₁ isUnescaped <|> joinedLines <|> List.singleton <$> escape) <|>
    longStringOf '\'' (run₁ (isPlain '\''))

/-- A string as a value. -/
def stringReader : Reader Toml := string <$> (longString <|> lineString)

/-! ### Keys -/

/-- Whether a character needs no marks in a key. -/
def isBare (c : Char) : Bool := c.isAlphanum || c == '-' || c == '_'

/-- How many names a key may have, and one more. -/
def maxDepth : Nat := 80

/-- A key: the names before its last dot, and the one behind it. -/
def key : Reader (List Text × Text) := do
  let names ← separated
    (do
      blanks
      let name ← run₁ isBare <|> lineString
      blanks
      return name)
    (char '.')
  guard (names.length < maxDepth)
  return (names.dropLast, names.getLast?.getD [])

end Phrasebook.Toml
