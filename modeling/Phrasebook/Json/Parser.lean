import Phrasebook.Json.Draft
import Phrasebook.Json.Lexer

/-!
Drafts and values from JSON texts.

The parser goes through the tokens one by one and keeps the containers that are open,
innermost first, with what they hold so far.  So the whole text is read by one fold.  It
makes a draft; a text is that of a value if all of its draft has one.

The syntax is that of RFC 8259 to the letter: no comments, no comma behind the last item,
no byte order mark, and nothing but blanks around the one value.
-/

namespace Phrasebook.Json.Parser

/-- An open container with what it holds, last first; an object may wait for the value of
a field. -/
inductive Frame where
  | array (items : List Draft)
  | object (fields : List (Option String × Draft))
  | field (fields : List (Option String × Draft)) (name : Option String)

/-- What the next token has to be. -/
inductive Phase where
  /-- A value, or the end of the array that was just begun. -/
  | item
  /-- A name, or the end of the object that was just begun. -/
  | name
  | value
  | nextName
  | colon
  /-- A comma, or the end of the innermost container. -/
  | separator
  /-- Nothing: the text is read. -/
  | finished (result : Draft)

structure State where
  phase : Phase
  frames : List Frame

/-- The state behind a value. -/
def put (v : Draft) : List Frame → Option State
  | [] => some ⟨.finished v, []⟩
  | .array items :: outer => some ⟨.separator, .array (v :: items) :: outer⟩
  | .field fields name :: outer => some ⟨.separator, .object ((name, v) :: fields) :: outer⟩
  | .object _ :: _ => none

/-- The state behind a token that begins a value. -/
def begin (token : Token) (frames : List Frame) : Option State :=
  match token with
  | .scalar v => put (.scalar v) frames
  | .string s => put (.scalar (s.map .string)) frames
  | .beginArray => some ⟨.item, .array [] :: frames⟩
  | .beginObject => some ⟨.name, .object [] :: frames⟩
  | _ => none

/-- The state behind the name of a field. -/
def beginField (token : Token) (frames : List Frame) : Option State :=
  match token, frames with
  | .string name, .object fields :: outer => some ⟨.colon, .field fields name :: outer⟩
  | _, _ => none

/-- The state behind the end of the innermost container. -/
def close (token : Token) (frames : List Frame) : Option State :=
  match token, frames with
  | .endArray, .array items :: outer => put (.array items.reverse) outer
  | .endObject, .object fields :: outer => put (.object fields.reverse) outer
  | _, _ => none

/-- One token further. -/
def step (s : State) (token : Token) : Option State :=
  match s.phase with
  | .value => begin token s.frames
  | .item =>
    match token with
    | .endArray => close token s.frames
    | _ => begin token s.frames
  | .nextName => beginField token s.frames
  | .name =>
    match token with
    | .endObject => close token s.frames
    | _ => beginField token s.frames
  | .colon =>
    match token with
    | .colon => some ⟨.value, s.frames⟩
    | _ => none
  | .separator =>
    match token, s.frames with
    | .comma, .array _ :: _ => some ⟨.value, s.frames⟩
    | .comma, .object _ :: _ => some ⟨.nextName, s.frames⟩
    | _, _ => close token s.frames
  | .finished _ => none

/-- The draft that is read, if it is complete. -/
def State.result? (s : State) : Option Draft :=
  match s.phase with
  | .finished v => some v
  | _ => none

end Parser

/-- The draft of a JSON text. -/
def Draft.ofText? (t : Text) : Option Draft := do
  let tokens ← Lexer.tokens? t
  let s ← tokens.foldlM Parser.step ⟨.value, []⟩
  s.result?

/-- The value of a JSON text. -/
def parse? (t : Text) : Option Json := do
  (← Draft.ofText? t).value? maxDepth

end Phrasebook.Json
