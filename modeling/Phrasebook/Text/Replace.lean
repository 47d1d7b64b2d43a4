import Phrasebook.Text.Blank

/-!
Finding and replacing a piece of text.

An occurrence is taken at the leftmost place where it begins, and the search goes on
behind it.  So the occurrences that `replace` acts on never overlap, and the text it
puts in is not searched again.
-/

namespace Phrasebook.Text

/-- Replaces in a text whose first `skip` characters belong to the occurrence before it. -/
def replaceAfter (piece replacement : Text) : Nat → Text → Text
  | _, [] => []
  | skip + 1, _ :: rest => replaceAfter piece replacement skip rest
  | 0, c :: rest =>
    if piece.isPrefixOf (c :: rest) then
      replacement ++ replaceAfter piece replacement (piece.length - 1) rest
    else c :: replaceAfter piece replacement 0 rest

/-- A text with every occurrence of `piece` replaced, from left to right.  A piece
without characters would occur everywhere; the library never looks for one. -/
def replace (t piece replacement : Text) : Text :=
  replaceAfter piece replacement 0 t

/-- Whether `piece` occurs somewhere in a text. -/
def occursIn (piece : Text) : Text → Bool
  | [] => piece.isEmpty
  | c :: rest => piece.isPrefixOf (c :: rest) || occursIn piece rest

end Phrasebook.Text
