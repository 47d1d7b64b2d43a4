import Phrasebook.Binary64.Text

/-!
JSON values.

The fields of an object are kept in order and as often as they were written.  A reader
that takes a whole value first knows only the last field of each name; `lastFields` is
that view.

A number without fraction and exponent is an integer as long as a machine word of its
sign can hold it.  `-0` is none: it is the negative zero of binary64.
-/

namespace Phrasebook

/-- A number of a document: `n`, `-n` for a positive `n`, or a binary64 number. -/
inductive Json.Number where
  | natural (n : Nat)
  | negative (n : Nat)
  | real (x : Binary64)
  deriving DecidableEq

/-- A value of a document. -/
inductive Json where
  | null
  | bool (b : Bool)
  | number (n : Json.Number)
  | string (s : String)
  | array (items : List Json)
  | object (fields : List (String × Json))
  deriving Inhabited

namespace Json

/-- The integer `n` as a value. -/
def nat (n : Nat) : Json := number (.natural n)

/-- A binary64 number as a value; one that no document can hold is `null`. -/
def real (x : Binary64) : Json := if x.isFinite then number (.real x) else null

/-- A text as a value. -/
def text (t : Text) : Json := string (String.ofList t)

/-- The pairs whose name is not that of a later pair. -/
def withoutEarlier {α : Type} : List (String × α) → List (String × α)
  | [] => []
  | field :: rest =>
    if rest.any (·.1 == field.1) then withoutEarlier rest else field :: withoutEarlier rest

mutual

/-- The value in which of the fields with one name only the last is left. -/
def lastFields : Json → Json
  | array items => array (lastFieldsOfItems items)
  | object fields => object (withoutEarlier (lastFieldsOfFields fields))
  | other => other

/-- `lastFields` for each item of an array. -/
def lastFieldsOfItems : List Json → List Json
  | [] => []
  | item :: rest => lastFields item :: lastFieldsOfItems rest

/-- `lastFields` for each field of an object. -/
def lastFieldsOfFields : List (String × Json) → List (String × Json)
  | [] => []
  | (name, value) :: rest => (name, lastFields value) :: lastFieldsOfFields rest

end

/-- The value of the first field with a given name. -/
def field? (name : String) : Json → Option Json
  | object fields => fields.lookup name
  | _ => none

end Json

end Phrasebook
