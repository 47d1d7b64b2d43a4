import Phrasebook.Json.Basic

/-!
Drafts: JSON texts as their syntax has them.

Not every text that follows the grammar writes a value.  A number may be too large, a string
may hold one half of a surrogate pair, and containers may lie too deep in one another.  A
draft keeps such parts in their place, so that one who needs only some parts of a text can
pass over the others without their being values.
-/

namespace Phrasebook.Json

/-- A text as its syntax has it; numbers, strings and names that have no value are `none`. -/
inductive Draft where
  | scalar (value : Option Json)
  | array (items : List Draft)
  | object (fields : List (Option String × Draft))
  deriving Inhabited

/-- How deep the containers of a value may lie in one another. -/
def maxDepth : Nat := 127

namespace Draft

mutual

/-- The value of a draft, if all of it has one and its containers lie at most so deep. -/
def value? : Nat → Draft → Option Json
  | _, scalar v => v
  | depth + 1, array items => Json.array <$> values? depth items
  | depth + 1, object fields => Json.object <$> fieldValues? depth fields
  | 0, _ => none

/-- The values of the items of an array. -/
def values? (depth : Nat) : List Draft → Option (List Json)
  | [] => some []
  | item :: rest => do
    let v ← value? depth item
    return v :: (← values? depth rest)

/-- The names and values of the fields of an object. -/
def fieldValues? (depth : Nat) : List (Option String × Draft) → Option (List (String × Json))
  | [] => some []
  | (name, item) :: rest => do
    let name ← name
    let v ← value? depth item
    return (name, v) :: (← fieldValues? depth rest)

end

end Draft

/-! ### Parts of a draft -/

/-- The parts of a draft that are wanted: all of it, some parts of each item of an array, or
some parts of the named fields of an object and, maybe, all of its other fields. -/
inductive Wanted where
  | all
  | each (item : Wanted)
  | fields (named : List (String × Wanted)) (others : Bool)

namespace Draft

mutual

/-- A draft without the fields that are not wanted.  What is no object where fields are
wanted is kept, except that an array there may hold the values of the fields in order; and
a field stays if its name has no value, for nobody can tell that it is not wanted. -/
def only (w : Wanted) : Draft → Draft
  | scalar v => scalar v
  | array items =>
    match w with
    | .all => array items
    | .each item => array (onlyEach item items)
    | .fields named _ => array (onlyAlong (named.map (·.2)) items)
  | object fields =>
    match w with
    | .fields named others => object (onlyFields named others fields)
    | _ => object fields

/-- Each item without what is not wanted of it. -/
def onlyEach (w : Wanted) : List Draft → List Draft
  | [] => []
  | item :: rest => only w item :: onlyEach w rest

/-- The items without what is not wanted of them, one want for each. -/
def onlyAlong (ws : List Wanted) : List Draft → List Draft
  | [] => []
  | item :: rest => only (ws.headD .all) item :: onlyAlong ws.tail rest

/-- The fields that are wanted, without what is not wanted of them. -/
def onlyFields (named : List (String × Wanted)) (others : Bool) :
    List (Option String × Draft) → List (Option String × Draft)
  | [] => []
  | (name, item) :: rest =>
    match name.map fun n => named.lookup n with
    | none => (name, item) :: onlyFields named others rest
    | some (some w) => (name, only w item) :: onlyFields named others rest
    | some none =>
      if others then (name, item) :: onlyFields named others rest
      else onlyFields named others rest

end

end Draft

end Phrasebook.Json
