import Phrasebook.Json.Lexer

/-!
Readers: functions that take something from the front of a text.

A reader fails or answers what it took and the rest of the text.  If the first of two
alternatives fails, the second starts where the first did.
-/

namespace Phrasebook

/-- A function that takes a value from the front of a text. -/
abbrev Reader (α : Type) := StateT Text Option α

namespace Reader

variable {α : Type}

/-- One character of a class. -/
def one (holds : Char → Bool) : Reader Char
  | c :: rest => if holds c then some (c, rest) else none
  | [] => none

/-- A given character. -/
def char (c : Char) : Reader Unit := discard <| one (· == c)

/-- The characters of a class up to the first that is not in it. -/
def run (holds : Char → Bool) : Reader Text := fun t => some (t.takeWhile holds, t.dropWhile holds)

/-- As `run`, but at least one character. -/
def run₁ (holds : Char → Bool) : Reader Text := do return (← one holds) :: (← run holds)

/-- A given text. -/
def literal (s : String) : Reader Unit := s.toList.forM char

/-- The end of the text. -/
def finish : Reader Unit
  | [] => some ((), [])
  | _ => none

/-- Whether a reader takes something; if it fails, nothing is taken. -/
def optionally (r : Reader α) : Reader (Option α) := some <$> r <|> pure none

/-- What a reader takes, as often as it takes something, at most so many times. -/
def upTo (r : Reader α) : Nat → Reader (List α)
  | 0 => pure []
  | n + 1 => (do return (← r) :: (← upTo r n)) <|> pure []

/-- What a reader takes, as often as it takes something.  A reader that takes a character
each time cannot do so more often than the text is long. -/
def many (r : Reader α) : Reader (List α) := fun t => upTo r t.length t

/-- What a reader takes, once at least, with something in between. -/
def separated (r : Reader α) (separator : Reader Unit) : Reader (List α) := do
  return (← r) :: (← many do separator; r)

/-- A number of given length in hexadecimal digits. -/
def hexadecimal (length : Nat) : Reader Nat := do
  let mut n := 0
  for _ in List.range length do
    let c ← one fun c => (Json.Lexer.hexValue? c).isSome
    n := n * 16 + (Json.Lexer.hexValue? c).getD 0
  return n

/-- The whole of a text, if a reader takes it all. -/
def whole (r : Reader α) (t : Text) : Option α :=
  match r t with
  | some (a, []) => some a
  | _ => none

end Reader

end Phrasebook
