import Phrasebook.Binary64.Basic
import Phrasebook.Text.Blank

/-!
TOML documents: named values in tables, and tables in tables.

A table comes into being in one of four ways, and its origin decides what may still be
added to it.  A table with a header of its own takes further tables by their headers, but
no dotted key of another table leads into it.  A table that only the header of an inner
table implies may get its own header later.  A table that dotted keys make takes further
dotted keys, but no header.  An inline table is complete at its closing brace.

Nothing is ever given twice; every change answers `none` where that would happen.
-/

namespace Phrasebook

namespace Toml

/-- What brought a table into being. -/
inductive Origin where
  | header
  | implied
  | dotted
  | inlined
  deriving DecidableEq, Repr

end Toml

/-- A value of a TOML document.  In an array of tables, only the last one is open for
changes.  Moments, which are dates and times of day, are kept as they are written. -/
inductive Toml where
  | string (t : Text)
  | integer (n : Int)
  | real (x : Binary64)
  | bool (b : Bool)
  | moment (written : Text)
  | array (items : List Toml)
  | table (origin : Toml.Origin) (fields : List (Text × Toml))
  | tables (earlier : List (List (Text × Toml))) (last : List (Text × Toml))
  deriving Inhabited

namespace Toml

/-- The fields of a table, in the order of their first mention. -/
abbrev Fields := List (Text × Toml)

/-- Changes the field with a given name, or makes it. -/
def change (name : Text) (f : Option Toml → Option Toml) : Fields → Option Fields
  | [] => do return [(name, ← f none)]
  | (other, v) :: rest =>
    if other = name then do return (other, ← f (some v)) :: rest
    else do return (other, v) :: (← change name f rest)

/-- Adds a field with a new name. -/
def add (name : Text) (v : Toml) : Fields → Option Fields :=
  change name fun
    | none => some v
    | some _ => none

/-- Changes the table at the end of a path; tables that are not there yet come into being
as `origin` says, which is `dotted` for the path of a dotted key. -/
def changeAt (origin : Origin) (f : Origin → Fields → Option Fields) :
    List Text → Origin → Fields → Option Fields
  | [], here, fields => f here fields
  | name :: path, _, fields =>
    change name (fun
      | none => table origin <$> changeAt origin f path origin []
      | some (table there inner) =>
        if there = .inlined ∨ (origin = .dotted ∧ there = .header) then none
        else table there <$> changeAt origin f path there inner
      | some (tables earlier last) => tables earlier <$> changeAt origin f path .header last
      | some _ => none) fields

/-- Adds a value under a dotted key, whose last name is `name`.  The table that gets it is
the one at hand for a key without dots, and otherwise one that dotted keys made. -/
def addDotted (path : List Text) (name : Text) (v : Toml) : Origin → Fields → Option Fields :=
  changeAt .dotted (fun here fields =>
    if here = .dotted ↔ path = [] then none else add name v fields) path

/-- Opens the table of a header. -/
def openTable (path : List Text) (name : Text) : Fields → Option Fields :=
  changeAt .implied (fun _ => change name fun
    | none => some (table .header [])
    | some (table .implied inner) => some (table .header inner)
    | some _ => none) path .header

/-- Opens the next table of an array of tables. -/
def openNextTable (path : List Text) (name : Text) : Fields → Option Fields :=
  changeAt .implied (fun _ => change name fun
    | none => some (tables [] [])
    | some (tables earlier last) => some (tables (earlier ++ [last]) [])
    | some _ => none) path .header

/-- Adds a value under a dotted key to the table of a header; the empty header is that of
the document. -/
def addBelow (header : List Text) (path : List Text) (name : Text) (v : Toml) :
    Fields → Option Fields :=
  changeAt .implied (addDotted path name v) header .header

end Toml

end Phrasebook
