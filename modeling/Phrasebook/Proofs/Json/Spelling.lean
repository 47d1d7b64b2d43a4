import Phrasebook.Proofs.Json.Numbers

/-!
Texts that spell tokens.

A value is printed in two forms, and others may print it in more.  What they have in common is
the tokens that they spell: marks, strings in quotes, words and numbers, with blanks between.
`Spells` says so without a word about how a lexer goes through the text.

The lexer reads from a text the tokens that it spells.  Its one difficulty is that a number or a
word is over only when something else begins, so behind these the text has to end or to go on
with a character that cannot belong to them (`Ends`).
-/

namespace Phrasebook.Json

namespace Lexer

/-! ### Reading on -/

/-- The tokens that are read in the end, from a state and the text that is left. -/
def readFrom (s : State) (t : Text) : Option (List Token) := t.foldlM step s >>= finish

theorem readFrom_cons (s : State) (c : Char) (t : Text) :
    readFrom s (c :: t) = step s c >>= fun s' => readFrom s' t := by
  unfold readFrom
  rw [List.foldlM_cons, bind_assoc]

/-! ### Strings -/

theorem hexValue?_hexDigit (n : Nat) : hexValue? (hexDigit n) = some (n % 16) := by
  have hall : ∀ d < 16, hexValue? (Nat.digitChar d) = some d := by decide
  exact hall (n % 16) (Nat.mod_lt n (by decide))

/-- A character is read back from the form in which it stands in a string. -/
theorem readFrom_escape (tokens : List Token) (read : Text) (c : Char) (t : Text) :
    readFrom ⟨tokens, .string (some read)⟩ (escape c ++ t) =
      readFrom ⟨tokens, .string (some (c :: read))⟩ t := by
  by_cases hletter : c ∈ ['"', '\\', '\x08', '\t', '\n', '\x0c', '\r']
  · simp only [List.mem_cons, List.not_mem_nil, or_false] at hletter
    rcases hletter with rfl | rfl | rfl | rfl | rfl | rfl | rfl <;> rfl
  · simp only [List.mem_cons, List.not_mem_nil, or_false, not_or] at hletter
    obtain ⟨hquote, hbackslash, h08, htab, hline, h0c, hreturn⟩ := hletter
    unfold escape
    rw [if_neg hquote, if_neg hbackslash, if_neg h08, if_neg htab, if_neg hline, if_neg h0c,
      if_neg hreturn]
    by_cases hcontrol : c.toNat < 0x20
    · -- Two of the four digits are zeros, the others make the code of the character again.
      have hcode : ((0 * 16 + 0) * 16 + c.toNat / 16 % 16) * 16 + c.toNat % 16 = c.toNat := by
        omega
      have hunit : addUnit (some read) none c.toNat = .string (some (c :: read)) := by
        unfold addUnit
        rw [if_neg (by omega), if_neg (by omega), Option.map_some, Char.ofNat_toNat]
      rw [if_pos hcontrol]
      have hlast : step ⟨tokens, .code (some read) none [hexDigit (c.toNat / 16), '0', '0']⟩
          (hexDigit c.toNat) = some ⟨tokens, .string (some (c :: read))⟩ := by
        have hzero : hexValue? '0' = some 0 := rfl
        simp only [step, hzero, hexValue?_hexDigit, Option.bind_eq_bind, Option.bind_some, hcode,
          hunit]
      show readFrom ⟨tokens, .code (some read) none [hexDigit (c.toNat / 16), '0', '0']⟩
        (hexDigit c.toNat :: t) = _
      rw [readFrom_cons, hlast]
      rfl
    · have hplain : step ⟨tokens, .string (some read)⟩ c =
          some ⟨tokens, .string (some (c :: read))⟩ := by
        unfold step inString
        simp only [if_neg hquote, if_neg hbackslash, if_neg hcontrol, Option.map_some]
      rw [if_neg hcontrol, List.singleton_append, readFrom_cons, hplain]
      rfl

theorem readFrom_escapes (tokens : List Token) (read s t : Text) :
    readFrom ⟨tokens, .string (some read)⟩ (s.flatMap escape ++ t) =
      readFrom ⟨tokens, .string (some (s.reverse ++ read))⟩ t := by
  induction s generalizing read with
  | nil => rfl
  | cons c rest ih =>
      rw [List.flatMap_cons, List.append_assoc, readFrom_escape, ih, List.reverse_cons,
        List.append_assoc, List.singleton_append]

/-- A string is read back from between its quotes. -/
theorem readFrom_quoted (tokens : List Token) (s : String) (t : Text) :
    readFrom ⟨tokens, .between⟩ (quoted s ++ t) =
      readFrom ⟨.string (some s) :: tokens, .between⟩ t := by
  show readFrom ⟨tokens, .string (some [])⟩ (s.toList.flatMap escape ++ ['"'] ++ t) = _
  rw [List.append_assoc, readFrom_escapes, List.append_nil, List.singleton_append, readFrom_cons]
  show readFrom ⟨.string (some (String.ofList s.toList.reverse.reverse)) :: tokens, .between⟩ t = _
  rw [List.reverse_reverse, String.ofList_toList]

/-! ### Words and numbers -/

/-- The text does not go on with a character of a number or of a word. -/
def Ends (t : Text) : Prop :=
  ∀ c rest, t = c :: rest → continuesNumber c = false ∧ c.isLower = false

theorem ends_nil : Ends [] := fun _ _ h => by injection h

theorem ends_cons {c : Char} {t : Text} (hnumber : continuesNumber c = false)
    (hword : c.isLower = false) : Ends (c :: t) := by
  intro c' rest h
  obtain ⟨rfl, -⟩ := List.cons.inj h
  exact ⟨hnumber, hword⟩

theorem readFrom_word {w : Text} (hw : ∀ c ∈ w, c.isLower = true) (tokens : List Token)
    (read t : Text) :
    readFrom ⟨tokens, .word read⟩ (w ++ t) = readFrom ⟨tokens, .word (w.reverse ++ read)⟩ t := by
  induction w generalizing read with
  | nil => rfl
  | cons c rest ih =>
      obtain ⟨hc, hrest⟩ := List.forall_mem_cons.mp hw
      have hstep : step ⟨tokens, .word read⟩ c = some ⟨tokens, .word (c :: read)⟩ := if_pos hc
      rw [List.cons_append, readFrom_cons, hstep, List.reverse_cons, List.append_assoc]
      exact ih hrest (c :: read)

theorem readFrom_number {n : Text} (hn : Literal.IsNumeric n) (tokens : List Token)
    (read t : Text) :
    readFrom ⟨tokens, .number read⟩ (n ++ t) =
      readFrom ⟨tokens, .number (n.reverse ++ read)⟩ t := by
  induction n generalizing read with
  | nil => rfl
  | cons c rest ih =>
      obtain ⟨hc, hrest⟩ := List.forall_mem_cons.mp hn
      have hstep : step ⟨tokens, .number read⟩ c = some ⟨tokens, .number (c :: read)⟩ := if_pos hc
      rw [List.cons_append, readFrom_cons, hstep, List.reverse_cons, List.append_assoc]
      exact ih hrest (c :: read)

/-- Where nothing of a word follows, it is over. -/
theorem readFrom_word_of_ends {read t : Text} {token : Token} (h : wordToken? read = some token)
    (ht : Ends t) (tokens : List Token) :
    readFrom ⟨tokens, .word read⟩ t = readFrom ⟨token :: tokens, .between⟩ t := by
  cases t with
  | nil =>
      show (wordToken? read >>= fun token => some (token :: tokens).reverse) = _
      rw [h]
      rfl
  | cons c rest =>
      have hstep : step ⟨tokens, .word read⟩ c = step ⟨token :: tokens, .between⟩ c := by
        show (if c.isLower then _ else
          wordToken? read >>= fun token => start (token :: tokens) c) = _
        rw [if_neg (by simp [(ht c rest rfl).2]), h]
        rfl
      rw [readFrom_cons, readFrom_cons, hstep]

/-- Where nothing of a number follows, it is over. -/
theorem readFrom_number_of_ends {read t : Text} {token : Token}
    (h : numberToken? read = some token) (ht : Ends t) (tokens : List Token) :
    readFrom ⟨tokens, .number read⟩ t = readFrom ⟨token :: tokens, .between⟩ t := by
  cases t with
  | nil =>
      show (numberToken? read >>= fun token => some (token :: tokens).reverse) = _
      rw [h]
      rfl
  | cons c rest =>
      have hstep : step ⟨tokens, .number read⟩ c = step ⟨token :: tokens, .between⟩ c := by
        show (if continuesNumber c then _ else
          numberToken? read >>= fun token => start (token :: tokens) c) = _
        rw [if_neg (by simp [(ht c rest rfl).1]), h]
        rfl
      rw [readFrom_cons, readFrom_cons, hstep]

/-- A digit or a minus begins a number. -/
theorem start_number {c : Char} (hc : c.isDigit = true ∨ c = '-') (tokens : List Token) :
    start tokens c = some ⟨tokens, .number [c]⟩ := by
  unfold start
  split <;> first | exact absurd hc (by decide) | skip
  rw [if_pos hc]

end Lexer

/-! ### What a text spells -/

open Lexer in
/-- The text spells the tokens, with blanks between them. -/
inductive Spells : List Token → Text → Prop
  | nil : Spells [] []
  | blank {c : Char} {ts : List Token} {t : Text}
      (hc : ∀ tokens, start tokens c = some ⟨tokens, .between⟩) (h : Spells ts t) :
      Spells ts (c :: t)
  | mark {c : Char} {token : Token} {ts : List Token} {t : Text}
      (hc : ∀ tokens, start tokens c = some ⟨token :: tokens, .between⟩) (h : Spells ts t) :
      Spells (token :: ts) (c :: t)
  | string (s : String) {ts : List Token} {t : Text} (h : Spells ts t) :
      Spells (.string (some s) :: ts) (quoted s ++ t)
  | word {c : Char} {w : Text} {token : Token} {ts : List Token} {t : Text}
      (hc : ∀ tokens, start tokens c = some ⟨tokens, .word [c]⟩)
      (hw : ∀ c ∈ w, c.isLower = true) (htoken : wordToken? (w.reverse ++ [c]) = some token)
      (ht : Ends t) (h : Spells ts t) : Spells (token :: ts) (c :: w ++ t)
  | number {n : Number} {ts : List Token} {t : Text} (hn : n.IsReadBack) (ht : Ends t)
      (h : Spells ts t) : Spells (.scalar (some (.number n)) :: ts) (n.text ++ t)

/-- **The lexer reads what a text spells.** -/
theorem Spells.readFrom {ts : List Token} {t : Text} (h : Spells ts t) (tokens : List Token) :
    Lexer.readFrom ⟨tokens, .between⟩ t = some (tokens.reverse ++ ts) := by
  induction h generalizing tokens with
  | nil => exact congrArg some (List.append_nil _).symm
  | blank hc _ ih =>
      rw [Lexer.readFrom_cons]
      show Lexer.start tokens _ >>= _ = _
      rw [hc]
      exact ih tokens
  | mark hc _ ih =>
      rw [Lexer.readFrom_cons]
      show Lexer.start tokens _ >>= _ = _
      rw [hc]
      refine (ih _).trans ?_
      rw [List.reverse_cons, List.append_assoc, List.singleton_append]
  | string s _ ih =>
      rw [Lexer.readFrom_quoted, ih, List.reverse_cons, List.append_assoc, List.singleton_append]
  | word hc hw htoken ht _ ih =>
      rw [List.cons_append, Lexer.readFrom_cons]
      show Lexer.start tokens _ >>= _ = _
      rw [hc]
      show Lexer.readFrom ⟨tokens, .word _⟩ _ = _
      rw [Lexer.readFrom_word hw, Lexer.readFrom_word_of_ends htoken ht, ih, List.reverse_cons,
        List.append_assoc, List.singleton_append]
  | @number n ts t hn ht _ ih =>
      obtain ⟨l, hl, hvalue⟩ := Option.bind_eq_some_iff.mp hn
      obtain ⟨hnumeric, c, rest, htext, hc⟩ := Literal.ofText?_spec hl
      have htoken : Lexer.numberToken? (rest.reverse ++ [c]) =
          some (.scalar (some (.number n))) := by
        unfold Lexer.numberToken?
        rw [List.reverse_append, List.reverse_reverse, List.reverse_singleton,
          List.singleton_append, ← htext, hl, Option.map_some, hvalue, Option.map_some]
      rw [htext] at hnumeric ⊢
      rw [List.cons_append, Lexer.readFrom_cons]
      show Lexer.start tokens c >>= _ = _
      rw [Lexer.start_number hc]
      show Lexer.readFrom ⟨tokens, .number [c]⟩ (rest ++ t) = _
      rw [Lexer.readFrom_number fun c hc => hnumeric c (List.mem_cons_of_mem _ hc),
        Lexer.readFrom_number_of_ends htoken ht, ih, List.reverse_cons, List.append_assoc,
        List.singleton_append]

end Phrasebook.Json
