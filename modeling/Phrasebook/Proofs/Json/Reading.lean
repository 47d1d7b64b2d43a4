import Phrasebook.Json.Parser
import Phrasebook.Proofs.Json.Spelling

/-!
Values read back from their text.

The tokens of a value (`tokens`) stand between its texts and the parser.  The compact and the
pretty text differ in their blanks only, and both spell them; the parser makes of them the
draft in which every part has its value.  So a text that spells a value is read as that value,
with one exception: the parser refuses containers that lie too deep in one another, and the
printer does not.

Of the numbers in a value it is asked that each of them is read back by itself.
-/

namespace Phrasebook.Json

/-! ### Tokens, numbers and depth of a value -/

mutual

/-- The tokens of a value. -/
def tokens : Json → List Token
  | null => [.scalar (some null)]
  | bool b => [.scalar (some (bool b))]
  | number n => [.scalar (some (number n))]
  | string s => [.string (some s)]
  | array [] => [.beginArray, .endArray]
  | array (item :: rest) => .beginArray :: (tokens item ++ tokensOfItems rest)
  | object [] => [.beginObject, .endObject]
  | object ((name, value) :: rest) =>
    .beginObject :: .string (some name) :: .colon :: (tokens value ++ tokensOfFields rest)

/-- The tokens of the items behind the first, and of the end of the array. -/
def tokensOfItems : List Json → List Token
  | [] => [.endArray]
  | item :: rest => .comma :: (tokens item ++ tokensOfItems rest)

/-- The tokens of the fields behind the first, and of the end of the object. -/
def tokensOfFields : List (String × Json) → List Token
  | [] => [.endObject]
  | (name, value) :: rest =>
    .comma :: .string (some name) :: .colon :: (tokens value ++ tokensOfFields rest)

end

mutual

/-- The numbers in a value. -/
def numbers : Json → List Number
  | number n => [n]
  | array items => numbersOfItems items
  | object fields => numbersOfFields fields
  | _ => []

/-- The numbers in the items of an array. -/
def numbersOfItems : List Json → List Number
  | [] => []
  | item :: rest => numbers item ++ numbersOfItems rest

/-- The numbers in the fields of an object. -/
def numbersOfFields : List (String × Json) → List Number
  | [] => []
  | (_, value) :: rest => numbers value ++ numbersOfFields rest

end

mutual

/-- How deep the containers of a value lie in one another. -/
def depth : Json → Nat
  | array items => depthOfItems items + 1
  | object fields => depthOfFields fields + 1
  | _ => 0

/-- How deep the containers of the items lie in one another. -/
def depthOfItems : List Json → Nat
  | [] => 0
  | item :: rest => max (depth item) (depthOfItems rest)

/-- How deep the containers of the fields lie in one another. -/
def depthOfFields : List (String × Json) → Nat
  | [] => 0
  | (_, value) :: rest => max (depth value) (depthOfFields rest)

end

/-- All numbers in the value are read back from their text. -/
def IsReadBack (j : Json) : Prop := ∀ n ∈ j.numbers, n.IsReadBack

/-! ### Both texts of a value spell its tokens -/

/-- The character may stand between tokens. -/
def IsBlank (c : Char) : Prop := c ∈ [' ', '\n', '\t', '\r']

theorem start_blank {c : Char} (h : IsBlank c) (tokens : List Token) :
    Lexer.start tokens c = some ⟨tokens, .between⟩ := by
  simp only [IsBlank, List.mem_cons, List.not_mem_nil, or_false] at h
  rcases h with rfl | rfl | rfl | rfl <;> rfl

theorem ends_of_isBlank {c : Char} (h : IsBlank c) (t : Text) : Lexer.Ends (c :: t) := by
  simp only [IsBlank, List.mem_cons, List.not_mem_nil, or_false] at h
  rcases h with rfl | rfl | rfl | rfl <;> exact Lexer.ends_cons (by decide) (by decide)

theorem spells_blanks {b : Text} (hb : ∀ c ∈ b, IsBlank c) {ts : List Token} {t : Text}
    (h : Spells ts t) : Spells ts (b ++ t) := by
  induction b with
  | nil => exact h
  | cons c rest ih =>
      obtain ⟨hc, hrest⟩ := List.forall_mem_cons.mp hb
      exact .blank (start_blank hc) (ih hrest)

theorem ends_blanks {b : Text} (hb : ∀ c ∈ b, IsBlank c) {t : Text} (h : Lexer.Ends t) :
    Lexer.Ends (b ++ t) := by
  cases b with
  | nil => exact h
  | cons c rest => exact ends_of_isBlank (hb c (by simp)) (rest ++ t)

/-- What a text has between its tokens: blanks in front of an item, so many containers deep,
and blanks behind a colon. -/
structure Layout where
  line : Nat → Text
  gap : Text
  line_blank : ∀ depth, ∀ c ∈ line depth, IsBlank c
  gap_blank : ∀ c ∈ gap, IsBlank c

mutual

/-- The text of a value that stands `depth` containers deep. -/
def laidAt (l : Layout) (depth : Nat) : Json → Text
  | array (item :: rest) =>
    '[' :: (l.line (depth + 1) ++ (laidAt l (depth + 1) item ++ laidItems l depth rest))
  | object ((name, value) :: rest) =>
    '{' :: (l.line (depth + 1) ++ (quoted name ++
      ':' :: (l.gap ++ (laidAt l (depth + 1) value ++ laidFields l depth rest))))
  | scalar => scalarText scalar

/-- The items behind the first, and the end of the array. -/
def laidItems (l : Layout) (depth : Nat) : List Json → Text
  | [] => l.line depth ++ [']']
  | item :: rest =>
    ',' :: (l.line (depth + 1) ++ (laidAt l (depth + 1) item ++ laidItems l depth rest))

/-- The fields behind the first, and the end of the object. -/
def laidFields (l : Layout) (depth : Nat) : List (String × Json) → Text
  | [] => l.line depth ++ ['}']
  | (name, value) :: rest =>
    ',' :: (l.line (depth + 1) ++ (quoted name ++
      ':' :: (l.gap ++ (laidAt l (depth + 1) value ++ laidFields l depth rest))))

end

theorem ends_laidItems (l : Layout) (depth : Nat) (items : List Json) (t : Text) :
    Lexer.Ends (laidItems l depth items ++ t) := by
  cases items with
  | nil =>
      rw [laidItems, List.append_assoc]
      exact ends_blanks (l.line_blank depth) (Lexer.ends_cons (by decide) (by decide))
  | cons item rest => exact Lexer.ends_cons (by decide) (by decide)

theorem ends_laidFields (l : Layout) (depth : Nat) (fields : List (String × Json)) (t : Text) :
    Lexer.Ends (laidFields l depth fields ++ t) := by
  cases fields with
  | nil =>
      rw [laidFields, List.append_assoc]
      exact ends_blanks (l.line_blank depth) (Lexer.ends_cons (by decide) (by decide))
  | cons field rest => exact Lexer.ends_cons (by decide) (by decide)

mutual

/-- **Whatever its blanks, the text of a value spells the tokens of the value.** -/
theorem spells_laidAt (l : Layout) (depth : Nat) (j : Json) (hj : j.IsReadBack)
    {ts : List Token} {t : Text} (hends : Lexer.Ends t) (h : Spells ts t) :
    Spells (j.tokens ++ ts) (laidAt l depth j ++ t) := by
  match j with
  | null => exact .word (fun _ => rfl) (List.all_eq_true.mp rfl) rfl hends h
  | bool true => exact .word (fun _ => rfl) (List.all_eq_true.mp rfl) rfl hends h
  | bool false => exact .word (fun _ => rfl) (List.all_eq_true.mp rfl) rfl hends h
  | number n => exact .number (hj n (by simp [numbers])) hends h
  | string s => exact .string s h
  | array [] => exact .mark (fun _ => rfl) (.mark (fun _ => rfl) h)
  | array (item :: rest) =>
      obtain ⟨hitem, hrest⟩ := List.forall_mem_append.mp hj
      rw [tokens, laidAt, List.cons_append, List.cons_append, List.append_assoc,
        List.append_assoc, List.append_assoc]
      exact .mark (fun _ => rfl) (spells_blanks (l.line_blank _) (spells_laidAt l (depth + 1) item
        hitem (ends_laidItems l depth rest t) (spells_laidItems l depth rest hrest h)))
  | object [] => exact .mark (fun _ => rfl) (.mark (fun _ => rfl) h)
  | object ((name, value) :: rest) =>
      obtain ⟨hvalue, hrest⟩ := List.forall_mem_append.mp hj
      rw [tokens, laidAt]
      simp only [List.cons_append, List.append_assoc]
      exact .mark (fun _ => rfl) (spells_blanks (l.line_blank _) (.string name (.mark (fun _ => rfl)
        (spells_blanks l.gap_blank (spells_laidAt l (depth + 1) value hvalue
          (ends_laidFields l depth rest t) (spells_laidFields l depth rest hrest h))))))

theorem spells_laidItems (l : Layout) (depth : Nat) (items : List Json)
    (hitems : ∀ n ∈ numbersOfItems items, n.IsReadBack) {ts : List Token} {t : Text}
    (h : Spells ts t) : Spells (tokensOfItems items ++ ts) (laidItems l depth items ++ t) := by
  match items with
  | [] =>
      rw [tokensOfItems, laidItems, List.append_assoc]
      exact spells_blanks (l.line_blank depth) (.mark (fun _ => rfl) h)
  | item :: rest =>
      obtain ⟨hitem, hrest⟩ := List.forall_mem_append.mp hitems
      rw [tokensOfItems, laidItems, List.cons_append, List.cons_append, List.append_assoc,
        List.append_assoc, List.append_assoc]
      exact .mark (fun _ => rfl) (spells_blanks (l.line_blank _) (spells_laidAt l (depth + 1) item
        hitem (ends_laidItems l depth rest t) (spells_laidItems l depth rest hrest h)))

theorem spells_laidFields (l : Layout) (depth : Nat) (fields : List (String × Json))
    (hfields : ∀ n ∈ numbersOfFields fields, n.IsReadBack) {ts : List Token} {t : Text}
    (h : Spells ts t) :
    Spells (tokensOfFields fields ++ ts) (laidFields l depth fields ++ t) := by
  match fields with
  | [] =>
      rw [tokensOfFields, laidFields, List.append_assoc]
      exact spells_blanks (l.line_blank depth) (.mark (fun _ => rfl) h)
  | (name, value) :: rest =>
      obtain ⟨hvalue, hrest⟩ := List.forall_mem_append.mp hfields
      rw [tokensOfFields, laidFields]
      simp only [List.cons_append, List.append_assoc]
      exact .mark (fun _ => rfl) (spells_blanks (l.line_blank _) (.string name (.mark (fun _ => rfl)
        (spells_blanks l.gap_blank (spells_laidAt l (depth + 1) value hvalue
          (ends_laidFields l depth rest t) (spells_laidFields l depth rest hrest h))))))

end

/-- No blanks at all. -/
def Layout.compact : Layout where
  line _ := []
  gap := []
  line_blank _ _ hc := absurd hc List.not_mem_nil
  gap_blank _ hc := absurd hc List.not_mem_nil

/-- A new line for each item, and a space behind the colon. -/
def Layout.pretty : Layout where
  line := newLine
  gap := [' ']
  line_blank depth := by simp +contextual [newLine, IsBlank]
  gap_blank := by simp [IsBlank]

mutual

theorem laidAt_compact (depth : Nat) (j : Json) : laidAt .compact depth j = j.compact := by
  match j with
  | null | bool _ | number _ | string _ | array [] | object [] => rfl
  | array (item :: rest) =>
      rw [laidAt, compact, laidAt_compact, laidItems_compact]
      rfl
  | object ((name, value) :: rest) =>
      rw [laidAt, compact, laidAt_compact, laidFields_compact]
      rfl

theorem laidItems_compact (depth : Nat) (items : List Json) :
    laidItems .compact depth items = compactItems items := by
  match items with
  | [] => rfl
  | item :: rest =>
      rw [laidItems, compactItems, laidAt_compact, laidItems_compact]
      rfl

theorem laidFields_compact (depth : Nat) (fields : List (String × Json)) :
    laidFields .compact depth fields = compactFields fields := by
  match fields with
  | [] => rfl
  | (name, value) :: rest =>
      rw [laidFields, compactFields, laidAt_compact, laidFields_compact]
      rfl

end

mutual

theorem laidAt_pretty (depth : Nat) (j : Json) : laidAt .pretty depth j = j.prettyAt depth := by
  match j with
  | null | bool _ | number _ | string _ | array [] | object [] => rfl
  | array (item :: rest) =>
      rw [laidAt, prettyAt, laidAt_pretty, laidItems_pretty]
      rfl
  | object ((name, value) :: rest) =>
      rw [laidAt, prettyAt, laidAt_pretty, laidFields_pretty]
      rfl

theorem laidItems_pretty (depth : Nat) (items : List Json) :
    laidItems .pretty depth items = prettyItems depth items := by
  match items with
  | [] => rfl
  | item :: rest =>
      rw [laidItems, prettyItems, laidAt_pretty, laidItems_pretty]
      rfl

theorem laidFields_pretty (depth : Nat) (fields : List (String × Json)) :
    laidFields .pretty depth fields = prettyFields depth fields := by
  match fields with
  | [] => rfl
  | (name, value) :: rest =>
      rw [laidFields, prettyFields, laidAt_pretty, laidFields_pretty]
      rfl

end

theorem spells_compact {j : Json} (hj : j.IsReadBack) : Spells j.tokens j.compact := by
  have h := spells_laidAt .compact 0 j hj Lexer.ends_nil .nil
  rwa [laidAt_compact, List.append_nil, List.append_nil] at h

/-- Blanks may stand behind a text, such as the end of its line. -/
theorem spells_pretty_append {j : Json} (hj : j.IsReadBack) {b : Text}
    (hb : ∀ c ∈ b, IsBlank c) : Spells j.tokens (j.pretty ++ b) := by
  have hblanks : Spells [] b := by
    have h := spells_blanks hb .nil
    rwa [List.append_nil] at h
  have hends : Lexer.Ends b := by
    have h := ends_blanks hb Lexer.ends_nil
    rwa [List.append_nil] at h
  have h := spells_laidAt .pretty 0 j hj hends hblanks
  rwa [laidAt_pretty, List.append_nil] at h

theorem spells_pretty {j : Json} (hj : j.IsReadBack) : Spells j.tokens j.pretty := by
  have h := spells_pretty_append hj fun c (hc : c ∈ []) => absurd hc List.not_mem_nil
  rwa [List.append_nil] at h

/-! ### The parser makes the draft of a value -/

mutual

/-- The value as a draft in which nothing is missing. -/
def draft : Json → Draft
  | array items => .array (draftsOfItems items)
  | object fields => .object (draftsOfFields fields)
  | scalar => .scalar (some scalar)

/-- The items as drafts. -/
def draftsOfItems : List Json → List Draft
  | [] => []
  | item :: rest => draft item :: draftsOfItems rest

/-- The fields as drafts. -/
def draftsOfFields : List (String × Json) → List (Option String × Draft)
  | [] => []
  | (name, value) :: rest => (some name, draft value) :: draftsOfFields rest

end

/-- Where an array was just begun, a value may stand just as well as anywhere. -/
theorem foldlM_tokens_item (j : Json) (frames : List Parser.Frame) (ts : List Token) :
    (j.tokens ++ ts).foldlM Parser.step ⟨.item, frames⟩ =
      (j.tokens ++ ts).foldlM Parser.step ⟨.value, frames⟩ := by
  match j with
  | null | bool _ | number _ | string _ | array [] | array (_ :: _) | object []
  | object (_ :: _) => rfl

mutual

theorem foldlM_tokens (j : Json) (frames : List Parser.Frame) (ts : List Token) :
    (j.tokens ++ ts).foldlM Parser.step ⟨.value, frames⟩ =
      Parser.put j.draft frames >>= (ts.foldlM Parser.step ·) := by
  match j with
  | null | bool _ | number _ | string _ | array [] | object [] => rfl
  | array (item :: rest) =>
      rw [tokens, List.cons_append, List.append_assoc]
      show (item.tokens ++ _).foldlM Parser.step ⟨.item, .array [] :: frames⟩ = _
      rw [foldlM_tokens_item, foldlM_tokens]
      exact foldlM_tokensOfItems rest [item.draft] frames ts
  | object ((name, value) :: rest) =>
      rw [tokens]
      simp only [List.cons_append, List.append_assoc]
      show (value.tokens ++ _).foldlM Parser.step
        ⟨.value, .field [] (some name) :: frames⟩ = _
      rw [foldlM_tokens]
      exact foldlM_tokensOfFields rest [(some name, value.draft)] frames ts

theorem foldlM_tokensOfItems (items : List Json) (acc : List Draft) (outer : List Parser.Frame)
    (ts : List Token) :
    (tokensOfItems items ++ ts).foldlM Parser.step ⟨.separator, .array acc :: outer⟩ =
      Parser.put (.array (acc.reverse ++ draftsOfItems items)) outer >>=
        (ts.foldlM Parser.step ·) := by
  match items with
  | [] =>
      rw [draftsOfItems, List.append_nil]
      rfl
  | item :: rest =>
      rw [tokensOfItems, List.cons_append, List.append_assoc]
      show (item.tokens ++ _).foldlM Parser.step ⟨.value, .array acc :: outer⟩ = _
      rw [foldlM_tokens]
      refine (foldlM_tokensOfItems rest (item.draft :: acc) outer ts).trans ?_
      rw [List.reverse_cons, List.append_assoc]
      rfl

theorem foldlM_tokensOfFields (fields : List (String × Json))
    (acc : List (Option String × Draft)) (outer : List Parser.Frame) (ts : List Token) :
    (tokensOfFields fields ++ ts).foldlM Parser.step ⟨.separator, .object acc :: outer⟩ =
      Parser.put (.object (acc.reverse ++ draftsOfFields fields)) outer >>=
        (ts.foldlM Parser.step ·) := by
  match fields with
  | [] =>
      rw [draftsOfFields, List.append_nil]
      rfl
  | (name, value) :: rest =>
      rw [tokensOfFields]
      simp only [List.cons_append, List.append_assoc]
      show (value.tokens ++ _).foldlM Parser.step
        ⟨.value, .field acc (some name) :: outer⟩ = _
      rw [foldlM_tokens]
      refine (foldlM_tokensOfFields rest ((some name, value.draft) :: acc) outer ts).trans ?_
      rw [List.reverse_cons, List.append_assoc]
      rfl

end

theorem ofText?_of_spells {j : Json} {t : Text} (h : Spells j.tokens t) :
    Draft.ofText? t = some j.draft := by
  have htokens : Lexer.tokens? t = some j.tokens := h.readFrom []
  have hparse := foldlM_tokens j [] []
  rw [List.append_nil] at hparse
  unfold Draft.ofText?
  rw [htokens, Option.bind_eq_bind, Option.bind_some, hparse]
  rfl

/-! ### A draft has its value if it is not too deep -/

mutual

theorem value?_draft (limit : Nat) (j : Json) :
    j.draft.value? limit = if j.depth ≤ limit then some j else none := by
  match j, limit with
  | null, _ | bool _, _ | number _, _ | string _, _ => simp [draft, depth, Draft.value?]
  | array items, 0 | object fields, 0 => simp [draft, depth, Draft.value?]
  | array items, limit + 1 =>
      rw [draft, Draft.value?, values?_draftsOfItems, depth]
      by_cases h : depthOfItems items ≤ limit
      · simp [h]
      · simp [h]
  | object fields, limit + 1 =>
      rw [draft, Draft.value?, fieldValues?_draftsOfFields, depth]
      by_cases h : depthOfFields fields ≤ limit
      · simp [h]
      · simp [h]

theorem values?_draftsOfItems (limit : Nat) (items : List Json) :
    Draft.values? limit (draftsOfItems items) =
      if depthOfItems items ≤ limit then some items else none := by
  match items with
  | [] => simp [draftsOfItems, depthOfItems, Draft.values?]
  | item :: rest =>
      rw [draftsOfItems, Draft.values?, value?_draft, values?_draftsOfItems, depthOfItems]
      simp only [Nat.max_le]
      by_cases hitem : item.depth ≤ limit <;> by_cases hrest : depthOfItems rest ≤ limit <;>
        simp [hitem, hrest]

theorem fieldValues?_draftsOfFields (limit : Nat) (fields : List (String × Json)) :
    Draft.fieldValues? limit (draftsOfFields fields) =
      if depthOfFields fields ≤ limit then some fields else none := by
  match fields with
  | [] => simp [draftsOfFields, depthOfFields, Draft.fieldValues?]
  | (name, value) :: rest =>
      rw [draftsOfFields, Draft.fieldValues?, value?_draft, fieldValues?_draftsOfFields,
        depthOfFields]
      simp only [Nat.max_le]
      by_cases hvalue : value.depth ≤ limit <;> by_cases hrest : depthOfFields rest ≤ limit <;>
        simp [hvalue, hrest]

end

/-- **A text that spells a value is read as this value, unless it is too deep.** -/
theorem parse?_of_spells {j : Json} {t : Text} (h : Spells j.tokens t) :
    parse? t = if j.depth ≤ maxDepth then some j else none := by
  unfold parse?
  rw [ofText?_of_spells h]
  exact value?_draft maxDepth j

end Phrasebook.Json
