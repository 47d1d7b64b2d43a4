import Phrasebook.Text.CaseTable

/-!
Letters as capitals and as small letters, and the first letter of a text.

A mapping may lengthen the text: the capital of `ß` is `SS`.  It never shortens one,
and never turns a letter into nothing.
-/

namespace Phrasebook.Text

/-- The image of a character under a case mapping; a character the mapping does not
list is its own image. -/
def mapCase (runs : List CaseRun) (sequences : List (Nat × List Nat)) (c : Char) : Text :=
  match runs.findSome? (·.map? c.toNat) with
  | some image => [Char.ofNat image]
  | none =>
    match sequences.find? (·.1 == c.toNat) with
    | some entry => entry.2.map Char.ofNat
    | none => [c]

/-- The capital of a character. -/
def capital (c : Char) : Text :=
  mapCase capitalRuns capitalSequences c

/-- The small letter of a character. -/
def small (c : Char) : Text :=
  mapCase smallRuns smallSequences c

/-- A text whose first character is replaced by its image. -/
def mapFirst (f : Char → Text) : Text → Text
  | [] => []
  | c :: rest => f c ++ rest

end Phrasebook.Text
