import Phrasebook.Binary64.Reading
import Phrasebook.Toml.Basic
import Phrasebook.Toml.Reader

/-!
Numbers of TOML documents.

Digits may be grouped by single underscores.  An integer fits a signed machine word and,
if it is decimal, does not begin with a zero; only decimal integers have a sign.  A real
number is the binary64 number nearest to its decimals, and too large a one is refused if
it is positive.
-/

namespace Phrasebook.Toml

open Reader

/-! ### Digits -/

/-- Digits of a class; an underscore stands between two of them. -/
def digits (holds : Char → Bool) : Reader Text := do
  let first ← one holds
  let rest ← many ((do char '_'; one holds) <|> one holds)
  return first :: rest

/-- The number that digits stand for in a base. -/
def valueOf (base : Nat) (ds : Text) : Nat :=
  ds.foldl (fun n c => n * base + (Json.Lexer.hexValue? c).getD 0) 0

/-- Whether a character is a digit in a base of at most sixteen. -/
def isDigitOf (base : Nat) (c : Char) : Bool :=
  (Json.Lexer.hexValue? c).any (· < base)

/-- A sign; `true` is the minus. -/
def sign : Reader Bool := do
  match ← optionally (one fun c => c == '+' || c == '-') with
  | some '-' => return true
  | _ => return false

/-- A sign and decimal digits, of which no zero stands in front of another digit. -/
def decimal : Reader (Bool × Text) := do
  let negative ← sign
  let ds ← (do char '0'; return ['0']) <|> digits (isDigitOf 10)
  return (negative, ds)

/-! ### Integers -/

/-- An integer, if a signed machine word holds it. -/
def word (n : Int) : Reader Toml := do
  guard ((-n).toNat ≤ 2 ^ (63 : Nat) ∧ n.toNat < 2 ^ (63 : Nat))
  return integer n

/-- An integer in a base that is named in front of its digits. -/
def based (name : String) (base : Nat) : Reader Toml := do
  literal name
  word (valueOf base (← digits (isDigitOf base)))

/-- An integer. -/
def integerReader : Reader Toml :=
  based "0x" 16 <|> based "0o" 8 <|> based "0b" 2 <|> do
    let (negative, ds) ← decimal
    word (if negative then -(valueOf 10 ds : Int) else valueOf 10 ds)

/-! ### Real numbers -/

/-- The exponent of a real number. -/
def exponent : Reader Int := do
  discard <| one fun c => c == 'e' || c == 'E'
  let negative ← sign
  let n := valueOf 10 (← digits (isDigitOf 10))
  return if negative then -(n : Int) else n

/-- A real number with decimals. -/
def finiteReader : Reader Toml := do
  let (negative, ds) ← decimal
  let fraction ← optionally do char '.'; digits (isDigitOf 10)
  let power ← match fraction with
    | some _ => Option.getD <$> optionally exponent <*> pure 0
    | none => exponent
  let all := ds ++ fraction.getD []
  let places : Nat := (fraction.getD []).length
  let x := Binary64.ofDecimal negative (valueOf 10 all) all.length (power - places)
  guard (x ≠ .infinite false)
  return real x

/-- Infinity or the number that is none, by name. -/
def namedReader : Reader Toml := do
  let negative ← sign
  (do literal "inf"; return real (.infinite negative)) <|> (do literal "nan"; return real .nan)

/-- A real number. -/
def realReader : Reader Toml := finiteReader <|> namedReader

end Phrasebook.Toml
