import Phrasebook.Schema.Document

/-!
Where a value departs from a schema.

A violation is the path from the value to the part that is wrong, and a value meets a
schema if there is none.  Alternatives report nothing from within: if too few or too many
of them are met, the value as a whole is wrong.

The search goes down into the value or, at one value, through the schema.  The latter ends
because the schema that a name stands for uses no names but on parts of the value;
`reach` measures that.
-/

namespace Phrasebook.Schema

/-! ### How far a schema reaches at one value -/

/-- More than the reach of any schema that a name stands for. -/
def reachOfShape : Nat := 64

mutual

/-- How many schemas apply to one value, those of its parts not counted. -/
def reach : Schema → Nat
  | shape _ => reachOfShape
  | every parts | allOf parts | anyOf parts | oneOf parts => reachOfAll parts + 1
  | _ => 0

/-- The sum of the reaches, each one more. -/
def reachOfAll : List Schema → Nat
  | [] => 0
  | part :: rest => reach part + reachOfAll rest + 1

end

theorem reach_schema_lt (s : Shape) : s.schema.reach < reachOfShape := by
  cases s <;> decide

/-! ### Violations -/

/-- One step into a value. -/
inductive Step where
  | field (name : String)
  | item (index : Nat)
  deriving DecidableEq, Repr

/-- The way from a value to one of its parts. -/
abbrev Path := List Step

/-- Whether a number has no fraction. -/
def isIntegral : Json.Number → Bool
  | .natural _ | .negative _ => true
  | .real (.finite _ m) => m.units % unitsOfOne == 0
  | .real _ => false

/-- Whether a number is not below zero. -/
def isNotNegative : Json.Number → Bool
  | .natural _ => true
  | .negative _ => false
  | .real x => Binary64.zero.le x

/-- Whether a value has a type. -/
def ValueType.admits : ValueType → Json → Bool
  | null, .null => true
  | string, .string _ => true
  | number, .number _ => true
  | integer, .number n => isIntegral n
  | array, .array _ => true
  | object, .object _ => true
  | _, _ => false

/-- The value itself as the only violation, unless something holds. -/
def violationUnless (holds : Bool) : List Path := if holds then [] else [[]]

mutual

/-- The paths to the parts of a value that depart from a schema. -/
def violations : Schema → Json → List Path
  | shape s, j => violations s.schema j
  | types allowed, j => violationUnless (allowed.any (·.admits j))
  | names allowed, .string name => violationUnless (allowed.contains name)
  | names _, _ => violationUnless false
  | notNegative, .number n => violationUnless (isNotNegative n)
  | required needed, .object fields =>
    violationUnless (needed.all fun name => fields.any (·.1 == name))
  | properties closed schemas, .object fields => violationsOfFields closed schemas fields
  | items schema, .array xs => violationsOfItems schema 0 xs
  | every parts, j | allOf parts, j => violationsOfAll parts j
  | anyOf parts, j => violationUnless (0 < countMet parts j)
  | oneOf parts, j => violationUnless (countMet parts j == 1)
  | _, _ => []
  termination_by s j => (sizeOf j, s.reach)
  decreasing_by
    · exact .right _ (reach_schema_lt s)
    · exact .left _ _ (by simp)
    · exact .left _ _ (by simp)
    all_goals exact .right _ (by simp [reach])

/-- The violations of any of the schemas. -/
def violationsOfAll : List Schema → Json → List Path
  | [], _ => []
  | part :: rest, j => violations part j ++ violationsOfAll rest j
  termination_by parts j => (sizeOf j, reachOfAll parts)
  decreasing_by all_goals exact .right _ (by simp only [reachOfAll]; omega)

/-- How many of the schemas a value meets. -/
def countMet : List Schema → Json → Nat
  | [], _ => 0
  | part :: rest, j => (if (violations part j).isEmpty then 1 else 0) + countMet rest j
  termination_by parts j => (sizeOf j, reachOfAll parts)
  decreasing_by all_goals exact .right _ (by simp only [reachOfAll]; omega)

/-- The violations of a schema in the items of an array, counted from an index on. -/
def violationsOfItems (schema : Schema) (index : Nat) : List Json → List Path
  | [] => []
  | item :: rest =>
    (violations schema item).map (.item index :: ·) ++ violationsOfItems schema (index + 1) rest
  termination_by xs => (sizeOf xs, 0)
  decreasing_by all_goals (left; simp +arith)

/-- The violations in the fields of an object, each by the schema of its name. -/
def violationsOfFields (closed : Bool) (schemas : List (String × Schema)) :
    List (String × Json) → List Path
  | [] => []
  | (name, value) :: rest =>
    (match schemas.lookup name with
    | some schema => (violations schema value).map (.field name :: ·)
    | none => violationUnless (!closed)) ++ violationsOfFields closed schemas rest
  termination_by fields => (sizeOf fields, 0)
  decreasing_by all_goals (left; simp +arith)

end

/-- Whether a value departs from a schema nowhere. -/
def isMetBy (s : Schema) (j : Json) : Bool := (violations s j).isEmpty

/-! ### Violations as text -/

/-- A step as it stands in a pointer. -/
def Step.text : Step → String
  | field name => "/" ++ name
  | item index => "/" ++ index.repr

/-- A path as a pointer; a slash alone points to the whole value. -/
def pointer (path : Path) : String :=
  if path.isEmpty then "/" else String.join (path.map Step.text)

/-- The pointers to all violations, sorted, none of them twice. -/
def pointers (s : Schema) (j : Json) : List String :=
  ((violations s j).map pointer).eraseDups.mergeSort fun a b => !(b < a)

end Phrasebook.Schema
