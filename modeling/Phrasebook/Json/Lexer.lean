import Phrasebook.Json.Number

/-!
The tokens of a JSON text.

The lexer goes through the text character by character and carries what it is in the
middle of: nothing, a string, an escape in a string, a number or a word.  A number or a
word ends at the first character that cannot continue it, and that character is then
looked at as any character between tokens.

Two kinds of token may lack a value.  A number may be too large.  And an escape may stand
for a surrogate: a high one and a low one behind it stand for one character together, but
no other surrogate stands for any, and a string with such a one is read to its end all the
same.
-/

namespace Phrasebook.Json

/-- A token of a JSON text; strings and scalars without a value are `none`. -/
inductive Token where
  | beginArray
  | endArray
  | beginObject
  | endObject
  | colon
  | comma
  | string (s : Option String)
  | scalar (value : Option Json)

namespace Lexer

/-- What the lexer is in the middle of.  Texts are kept last character first; that of a
string is `none` from the first surrogate on that stands for no character. -/
inductive Mode where
  | between
  | string (read : Option Text)
  | escape (read : Option Text) (high : Option Nat)
  | code (read : Option Text) (high : Option Nat) (digits : Text)
  | low (read : Option Text) (high : Nat)
  | number (read : Text)
  | word (read : Text)

/-- The tokens read, last first, and what comes next. -/
structure State where
  tokens : List Token
  mode : Mode

/-- The value of a hexadecimal digit. -/
def hexValue? (c : Char) : Option Nat :=
  if c.isDigit then some (c.toNat - '0'.toNat)
  else if 'a' ≤ c ∧ c ≤ 'f' then some (c.toNat - 'a'.toNat + 10)
  else if 'A' ≤ c ∧ c ≤ 'F' then some (c.toNat - 'A'.toNat + 10)
  else none

/-- The character that a letter behind a backslash stands for. -/
def escaped? (c : Char) : Option Char :=
  match c with
  | '"' => some '"'
  | '\\' => some '\\'
  | '/' => some '/'
  | 'b' => some '\x08'
  | 'f' => some '\x0c'
  | 'n' => some '\n'
  | 'r' => some '\r'
  | 't' => some '\t'
  | _ => none

/-- Adds the code unit `n` to a string, behind a high surrogate if one is waiting. -/
def addUnit (read : Option Text) (high : Option Nat) (n : Nat) : Mode :=
  match high with
  | none =>
    if 0xD800 ≤ n ∧ n < 0xDC00 then .low read n
    else if 0xDC00 ≤ n ∧ n < 0xE000 then .string none
    else .string (read.map (Char.ofNat n :: ·))
  | some h =>
    if 0xDC00 ≤ n ∧ n < 0xE000 then
      .string (read.map (Char.ofNat (0x10000 + (h - 0xD800) * 0x400 + (n - 0xDC00)) :: ·))
    else .string none

/-- Whether a character may continue a number. -/
def continuesNumber (c : Char) : Bool :=
  c.isDigit || c == '-' || c == '+' || c == '.' || c == 'e' || c == 'E'

/-- A character between tokens. -/
def start (tokens : List Token) (c : Char) : Option State :=
  match c with
  | ' ' | '\n' | '\t' | '\r' => some ⟨tokens, .between⟩
  | '[' => some ⟨.beginArray :: tokens, .between⟩
  | ']' => some ⟨.endArray :: tokens, .between⟩
  | '{' => some ⟨.beginObject :: tokens, .between⟩
  | '}' => some ⟨.endObject :: tokens, .between⟩
  | ':' => some ⟨.colon :: tokens, .between⟩
  | ',' => some ⟨.comma :: tokens, .between⟩
  | '"' => some ⟨tokens, .string (some [])⟩
  | c =>
    if c.isDigit ∨ c = '-' then some ⟨tokens, .number [c]⟩
    else if c.isLower then some ⟨tokens, .word [c]⟩
    else none

/-- The token of a number's text. -/
def numberToken? (read : Text) : Option Token :=
  (Literal.ofText? read.reverse).map fun l => .scalar (l.number?.map .number)

/-- The token of a word. -/
def wordToken? (read : Text) : Option Token :=
  match String.ofList read.reverse with
  | "null" => some (.scalar (some .null))
  | "true" => some (.scalar (some (.bool true)))
  | "false" => some (.scalar (some (.bool false)))
  | _ => none

/-- A character in a string. -/
def inString (tokens : List Token) (read : Option Text) (c : Char) : Option State :=
  if c = '"' then
    some ⟨.string (read.map fun t => String.ofList t.reverse) :: tokens, .between⟩
  else if c = '\\' then some ⟨tokens, .escape read none⟩
  else if c.toNat < 0x20 then none
  else some ⟨tokens, .string (read.map (c :: ·))⟩

/-- One character further. -/
def step (s : State) (c : Char) : Option State :=
  match s.mode with
  | .between => start s.tokens c
  | .string read => inString s.tokens read c
  | .escape read high =>
    if c = 'u' then some { s with mode := .code read high [] }
    else do
      let c ← escaped? c
      some { s with mode := .string (if high.isSome then none else read.map (c :: ·)) }
  | .code read high digits =>
    match digits with
    | [d₃, d₂, d₁] => do
      let n₁ ← hexValue? d₁
      let n₂ ← hexValue? d₂
      let n₃ ← hexValue? d₃
      let n₄ ← hexValue? c
      some { s with mode := addUnit read high (((n₁ * 16 + n₂) * 16 + n₃) * 16 + n₄) }
    | digits => some { s with mode := .code read high (c :: digits) }
  | .low read high =>
    if c = '\\' then some { s with mode := .escape read (some high) }
    else inString s.tokens none c
  | .number read =>
    if continuesNumber c then some { s with mode := .number (c :: read) }
    else do start ((← numberToken? read) :: s.tokens) c
  | .word read =>
    if c.isLower then some { s with mode := .word (c :: read) }
    else do start ((← wordToken? read) :: s.tokens) c

/-- The tokens read, unless the text ends in the middle of one. -/
def finish (s : State) : Option (List Token) :=
  match s.mode with
  | .between => some s.tokens.reverse
  | .number read => do some ((← numberToken? read) :: s.tokens).reverse
  | .word read => do some ((← wordToken? read) :: s.tokens).reverse
  | _ => none

/-- The tokens of a text. -/
def tokens? (t : Text) : Option (List Token) :=
  t.foldlM step ⟨[], .between⟩ >>= finish

end Lexer

end Phrasebook.Json
