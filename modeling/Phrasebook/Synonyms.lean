import Std.Data.TreeMap
import Phrasebook.Text.Blank

/-!
Synonyms: which values a surface form may stand for.

A surface may stand for several values, kept without repeats in the order of their
arrival; nothing that was recorded is ever overwritten.  Surfaces are kept in the order of
their characters' code points, which is also the order of their UTF-8 bytes.
-/

namespace Phrasebook

/-- Values by surface form, or surface forms by value. -/
abbrev TextLists := Std.TreeMap Text (List Text)

/-- The values that each surface form may stand for. -/
structure Synonyms where
  table : TextLists

namespace Synonyms

/-- No synonyms. -/
def empty : Synonyms := ⟨∅⟩

/-- The values recorded for a surface, if any was. -/
def get? (s : Synonyms) (surface : Text) : Option (List Text) := s.table[surface]?

/-- Records that `surface` may stand for `value`. -/
def insert (s : Synonyms) (surface value : Text) : Synonyms :=
  let known := s.table.getD surface []
  ⟨s.table.insert surface (if value ∈ known then known else known ++ [value])⟩

/-- The pairs of surface and value, surface by surface. -/
def pairs (s : Synonyms) : List (Text × Text) :=
  s.table.toList.flatMap fun entry => entry.2.map fun value => (entry.1, value)

/-- Records all that `t` holds, surface by surface. -/
def merge (s t : Synonyms) : Synonyms :=
  t.pairs.foldl (fun s pair => s.insert pair.1 pair.2) s

/-- The surfaces with their values, in ascending order. -/
def toList (s : Synonyms) : List (Text × List Text) := s.table.toList

/-- The number of surfaces. -/
def size (s : Synonyms) : Nat := s.table.size

/-- Whether nothing was recorded. -/
def isEmpty (s : Synonyms) : Bool := s.table.isEmpty

/-- The surface forms of each value, in ascending order. -/
def byValue (s : Synonyms) : TextLists :=
  s.pairs.foldl (fun m pair => m.insert pair.2 (m.getD pair.2 [] ++ [pair.1])) ∅

end Synonyms

end Phrasebook
