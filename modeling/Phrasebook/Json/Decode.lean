import Phrasebook.Json.Basic
import Phrasebook.Numbers

/-!
Decoding: values of this library from JSON values.

A structure is written as an object with its fields by name, or as an array with their
values in order of declaration.  Fields with other names are ignored, however often they
occur; a field that occurs twice is an error, and so is an array with more items than the
structure has fields.  Whether a field may be absent is up to the structure.

A value is decoded from its parts, and a part comes with the proof that it is smaller, so
that a decoder may call itself on it.
-/

namespace Phrasebook

/-- Why a value cannot be decoded. -/
inductive DecodeError where
  | expected (what : String)
  | missing (name : String)
  | repeated (name : String)
  | surplus
  | unknown (what name : String)
  deriving DecidableEq, Repr

namespace DecodeError

/-- The error in words. -/
def message : DecodeError → String
  | expected what => "expected " ++ what
  | missing name => "missing field " ++ name
  | repeated name => "repeated field " ++ name
  | surplus => "more items than fields"
  | unknown what name => "unknown " ++ what ++ " " ++ name

end DecodeError

/-- A decoded value, or why there is none. -/
abbrev Decoded (α : Type) := Except DecodeError α

namespace Json

/-- A part of a value. -/
abbrev Part (j : Json) := { x : Json // sizeOf x < sizeOf j }

/-- The items of an array. -/
def items (j : Json) : Decoded (List (Part j)) :=
  match j with
  | array items => .ok <| items.attach.map fun ⟨x, h⟩ =>
      ⟨x, by have := List.sizeOf_lt_of_mem h; simp; omega⟩
  | _ => .error (.expected "an array")

/-- The fields of an object. -/
def fields (j : Json) : Decoded (List (String × Part j)) :=
  match j with
  | object fields => .ok <| fields.attach.map fun ⟨field, h⟩ =>
      (field.1, ⟨field.2, by
        have := List.sizeOf_lt_of_mem h
        have : sizeOf field = 1 + sizeOf field.1 + sizeOf field.2 := by cases field; simp
        simp
        omega⟩)
  | _ => .error (.expected "an object")

/-- The values of a structure's fields, by name. -/
abbrev Record (j : Json) := List (String × Part j)

/-- The first name that occurs again. -/
def repeated? : List String → Option String
  | [] => none
  | name :: rest => if name ∈ rest then some name else repeated? rest

/-- The fields that an object has of a structure, none of them twice. -/
def recordOfObject (names : List String) (j : Json) : Decoded (Record j) := do
  let known := (← j.fields).filter fun field => field.1 ∈ names
  match repeated? (known.map (·.1)) with
  | some name => .error (.repeated name)
  | none => .ok known

/-- The fields that a value has of a structure with the given field names. -/
def record (names : List String) (j : Json) : Decoded (Record j) :=
  match j.items with
  | .ok items => if names.length < items.length then .error .surplus else .ok (names.zip items)
  | .error _ => recordOfObject names j

namespace Record

variable {j : Json} {α : Type}

/-- Decodes a field that must be there, if its parts have to be known to be smaller. -/
def partOf (r : Record j) (name : String)
    (decode : (x : Json) → sizeOf x < sizeOf j → Decoded α) : Decoded α :=
  match r.lookup name with
  | some ⟨x, h⟩ => decode x h
  | none => .error (.missing name)

/-- Decodes a field that may be absent, if its parts have to be known to be smaller. -/
def partOfD (r : Record j) (name : String) (default : α)
    (decode : (x : Json) → sizeOf x < sizeOf j → Decoded α) : Decoded α :=
  match r.lookup name with
  | some ⟨x, h⟩ => decode x h
  | none => .ok default

/-- Decodes a field that must be there. -/
def get (r : Record j) (name : String) (decode : Json → Decoded α) : Decoded α :=
  r.partOf name fun x _ => decode x

/-- Decodes a field that may be absent. -/
def getD (r : Record j) (name : String) (default : α) (decode : Json → Decoded α) : Decoded α :=
  r.partOfD name default fun x _ => decode x

end Record

/-- Decodes a string. -/
def asString : Json → Decoded String
  | string s => .ok s
  | _ => .error (.expected "a string")

/-- Decodes a string as a text. -/
def asText (j : Json) : Decoded Text := String.toList <$> j.asString

/-- Decodes a truth value. -/
def asBool : Json → Decoded Bool
  | bool b => .ok b
  | _ => .error (.expected "true or false")

/-- Decodes a natural number below a limit. -/
def asNatBelow (limit : Nat) : Json → Decoded Nat
  | number (.natural n) =>
    if n < limit then .ok n else .error (.expected "a smaller integer")
  | _ => .error (.expected "a natural number")

/-- Decodes a machine word. -/
def asWord : Json → Decoded Nat := asNatBelow (2 ^ (64 : Nat))

/-- Decodes a number, integers included. -/
def asReal : Json → Decoded Binary64
  | number (.natural n) => .ok (.ofNat n)
  | number (.negative n) => .ok (.ofNegNat n)
  | number (.real x) => .ok x
  | _ => .error (.expected "a number")

/-- Decodes a value that may be `null`. -/
def asOption {α : Type} (decode : Json → Decoded α) : Json → Decoded (Option α)
  | null => .ok none
  | j => some <$> decode j

/-- Decodes an array whose items are all of one kind. -/
def asList {α : Type} (decode : Json → Decoded α) (j : Json) : Decoded (List α) := do
  (← j.items).mapM fun x => decode x.1

/-- Finds the choice with a given name. -/
def choose {α : Type} (what : String) (choices : List α) (nameOf : α → String) (name : String) :
    Decoded α :=
  match choices.find? fun x => nameOf x == name with
  | some x => .ok x
  | none => .error (.unknown what name)

/-- Decodes one of several names, written as a string or as an object whose only field has
the name and the value `null`.  In the parts of a token the empty object, too, may stand
for `null`: `inToken` says so. -/
def asChoice {α : Type} (what : String) (choices : List α) (nameOf : α → String)
    (inToken : Bool) : Json → Decoded α
  | string name => choose what choices nameOf name
  | object [(name, null)] => choose what choices nameOf name
  | object [(name, object [])] =>
    if inToken then choose what choices nameOf name else .error (.expected "null")
  | _ => .error (.expected what)

end Json

end Phrasebook
