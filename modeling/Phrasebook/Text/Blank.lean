/-!
Blank characters, and the words between them.

A text is a list of characters, because everything this library says about a text
is said in characters: an offset counts them, a case mapping replaces one of them,
and a word is a longest run of them that holds no blank.  Blank means Unicode's
property `White_Space`, which is wider than the four characters of
`Char.isWhitespace` and narrower than what an editor shows as nothing: a zero width
space is not blank.

Two texts with the same words are taken for the same sentence.  `normalize` is the
canonical text of that class: its words with one space between neighbours.
-/

namespace Phrasebook

/-- A text, character by character. -/
abbrev Text := List Char

namespace Text

/-- The twenty-five characters with the property `White_Space`. -/
def isBlank (c : Char) : Bool :=
  let n := c.toNat
  (9 ≤ n && n ≤ 13) || n == 0x20 || n == 0x85 || n == 0xA0 || n == 0x1680 ||
    (0x2000 ≤ n && n ≤ 0x200A) || n == 0x2028 || n == 0x2029 || n == 0x202F ||
    n == 0x205F || n == 0x3000

/-- The pieces between blanks, the empty ones included: one more than there are blanks. -/
def pieces : Text → List Text
  | [] => [[]]
  | c :: rest =>
    if isBlank c then [] :: pieces rest
    else
      match pieces rest with
      | [] => [[c]]
      | piece :: later => (c :: piece) :: later

/-- The longest runs of characters without a blank, in order. -/
def words (t : Text) : List Text :=
  (pieces t).filter fun piece => !piece.isEmpty

/-- The words of a text with one space between neighbours. -/
def normalize (t : Text) : Text :=
  List.intercalate [' '] (words t)

/-- A text without the blanks at its two ends. -/
def trim (t : Text) : Text :=
  ((t.dropWhile isBlank).reverse.dropWhile isBlank).reverse

end Text

end Phrasebook
