import Phrasebook.Json.Lexer
import Phrasebook.Json.Printer
import Mathlib.Data.List.TakeWhile

/-!
Numbers read back from their text.

Whether a number is read back is a question about its text alone (`IsReadBack`).  A natural
number is, if a machine word holds it: its digits are taken in one by one, and what is taken
in never leaves the word.  A binary64 number may be read back as a neighbour, because its
digits and its power of ten are rounded apart.

Of the text of any number that can be read, whatever its kind, a lexer needs to know only how
it begins and of which characters it consists.
-/

namespace Phrasebook.Json

namespace Literal

/-- The text consists of characters that may continue a number. -/
def IsNumeric (t : Text) : Prop := ∀ c ∈ t, Lexer.continuesNumber c = true

theorem isNumeric_nil : IsNumeric [] := by simp [IsNumeric]

theorem IsNumeric.append {a b : Text} (ha : IsNumeric a) (hb : IsNumeric b) :
    IsNumeric (a ++ b) := by
  intro c hc
  rcases List.mem_append.mp hc with hc | hc
  · exact ha c hc
  · exact hb c hc

theorem IsNumeric.cons {c : Char} {t : Text} (hc : Lexer.continuesNumber c = true)
    (ht : IsNumeric t) : IsNumeric (c :: t) :=
  List.forall_mem_cons.mpr ⟨hc, ht⟩

theorem continuesNumber_of_isDigit {c : Char} (h : c.isDigit = true) :
    Lexer.continuesNumber c = true := by
  simp [Lexer.continuesNumber, h]

theorem isNumeric_of_isDigit {t : Text} (h : ∀ c ∈ t, c.isDigit = true) : IsNumeric t :=
  fun c hc => continuesNumber_of_isDigit (h c hc)

/-- The digits at the front of a text, and the rest, are the text. -/
theorem digits_spec (t : Text) :
    t = (digits t).1 ++ (digits t).2 ∧ ∀ c ∈ (digits t).1, c.isDigit = true := by
  refine ⟨List.takeWhile_append_dropWhile.symm, fun c hc => ?_⟩
  have hall : (t.takeWhile Char.isDigit).all Char.isDigit = true := List.all_takeWhile
  exact List.all_eq_true.mp hall c hc

theorem minus_spec (t : Text) :
    ∃ front, t = front ++ (minus t).2 ∧ (front = [] ∨ front = ['-']) := by
  unfold minus
  split
  · exact ⟨['-'], rfl, Or.inr rfl⟩
  · exact ⟨[], rfl, Or.inl rfl⟩

theorem sign_spec (t : Text) : ∃ front, t = front ++ (sign t).2 ∧ IsNumeric front := by
  unfold sign
  split
  · exact ⟨['+'], rfl, .cons (by decide) isNumeric_nil⟩
  · obtain ⟨front, ht, rfl | rfl⟩ := minus_spec t
    · exact ⟨[], ht, isNumeric_nil⟩
    · exact ⟨['-'], ht, .cons (by decide) isNumeric_nil⟩

theorem fraction?_spec {t rest : Text} {part : Option Text}
    (h : fraction? t = some (part, rest)) : ∃ front, t = front ++ rest ∧ IsNumeric front := by
  unfold fraction? at h
  split at h
  · rename_i u
    obtain ⟨hu, hdigits⟩ := digits_spec u
    split at h
    · injection h
    · rename_i ds after _ hsplit
      obtain ⟨-, rfl⟩ : some ds = part ∧ after = rest := by simpa using h
      rw [hsplit] at hu hdigits
      exact ⟨'.' :: ds, by rw [hu]; rfl, .cons (by decide) (isNumeric_of_isDigit hdigits)⟩
  · obtain ⟨-, rfl⟩ : none = part ∧ t = rest := by simpa using h
    exact ⟨[], rfl, isNumeric_nil⟩

theorem exponent?_spec {t rest : Text} {part : Option (Bool × Text)}
    (h : exponent? t = some (part, rest)) : ∃ front, t = front ++ rest ∧ IsNumeric front := by
  unfold exponent? at h
  split at h
  · rename_i c u
    split at h
    · rename_i hletter
      have hc : Lexer.continuesNumber c = true := by
        rcases hletter with rfl | rfl <;> decide
      obtain ⟨front, hu, hsign⟩ := sign_spec u
      obtain ⟨hbehind, hdigits⟩ := digits_spec (sign u).2
      simp only at h
      split at h
      · injection h
      · rename_i ds after _ hsplit
        obtain ⟨-, rfl⟩ : some ((sign u).1, ds) = part ∧ after = rest := by simpa using h
        rw [hsplit] at hbehind hdigits
        refine ⟨c :: (front ++ ds), ?_, .cons hc (hsign.append (isNumeric_of_isDigit hdigits))⟩
        rw [List.cons_append, List.append_assoc, ← hbehind, ← hu]
    · obtain ⟨-, rfl⟩ : none = part ∧ c :: u = rest := by simpa using h
      exact ⟨[], rfl, isNumeric_nil⟩
  · obtain ⟨-, rfl⟩ : none = part ∧ [] = rest := by simpa using h
    exact ⟨[], rfl, isNumeric_nil⟩

/-- A text that is a number begins with a digit or the minus, and has no other characters than
those of numbers. -/
theorem ofText?_spec {t : Text} {l : Literal} (h : ofText? t = some l) :
    IsNumeric t ∧ ∃ c rest, t = c :: rest ∧ (c.isDigit = true ∨ c = '-') := by
  unfold ofText? at h
  obtain ⟨front, ht, hminus⟩ := minus_spec t
  obtain ⟨hbehind, hdigits⟩ := digits_spec (minus t).2
  simp only at h
  split at h
  · injection h
  · injection h
  · rename_i hnotNil _
    obtain ⟨⟨fraction, t₁⟩, hfraction, h⟩ := Option.bind_eq_some_iff.mp h
    obtain ⟨⟨exponent, t₂⟩, hexponent, h⟩ := Option.bind_eq_some_iff.mp h
    obtain ⟨points, hpoints, hpointsNumeric⟩ := fraction?_spec hfraction
    obtain ⟨powers, hpowers, hpowersNumeric⟩ := exponent?_spec hexponent
    have hend : t₂ = [] := by
      cases t₂ with
      | nil => rfl
      | cons c rest => injection h
    have htext : t = front ++ ((digits (minus t).2).1 ++ (points ++ powers)) := by
      rw [hend, List.append_nil] at hpowers
      rw [← hpowers, ← hpoints, ← hbehind, ← ht]
    have hnumeric := (isNumeric_of_isDigit hdigits).append (hpointsNumeric.append hpowersNumeric)
    rcases hminus with hfront | hfront
    · obtain ⟨d, ds, hds⟩ := List.exists_cons_of_ne_nil hnotNil
      rw [hfront, List.nil_append] at htext
      rw [htext]
      exact ⟨hnumeric, d, ds ++ (points ++ powers), by rw [hds]; rfl,
        Or.inl (hdigits d (by simp [hds]))⟩
    · rw [hfront] at htext
      rw [htext]
      exact ⟨.cons (by decide) hnumeric, '-', _, rfl, Or.inr rfl⟩

/-! ### Natural numbers -/

/-- Digits are taken in as long as the number they make so far stays a machine word. -/
theorem absorb_eq {t : Text} {n : Nat} (h : Nat.ofDigitChars 10 t n < 2 ^ (64 : Nat)) :
    absorb n t = (Nat.ofDigitChars 10 t n, []) := by
  induction t generalizing n with
  | nil => rfl
  | cons c rest ih =>
      have hstep : Nat.ofDigitChars 10 (c :: rest) n =
          Nat.ofDigitChars 10 rest (n * 10 + digitValue c) := by
        rw [Nat.ofDigitChars_cons, Nat.mul_comm 10 n]
        rfl
      rw [hstep] at h ⊢
      have hle : n * 10 + digitValue c ≤ Nat.ofDigitChars 10 rest (n * 10 + digitValue c) := by
        rw [Nat.ofDigitChars_eq_ofDigitChars_zero]
        exact Nat.le_add_right_of_le (Nat.le_mul_of_pos_left _ (Nat.pow_pos (by decide)))
      rw [absorb, if_pos (Nat.lt_of_le_of_lt hle h)]
      exact ih h

/-- Zeros stand in front of the digits of no number but zero. -/
theorem naturalText_cases (n : Nat) :
    naturalText n = ['0'] ∨ ∃ c rest, naturalText n = c :: rest ∧ c ≠ '0' := by
  induction n using Nat.strongRecOn with
  | _ n ih =>
      unfold naturalText at ih ⊢
      rw [Nat.toDigits_eq_if (by decide)]
      split
      · rename_i hsmall
        by_cases hzero : n = 0
        · exact Or.inl (by simp [hzero])
        · exact Or.inr ⟨n.digitChar, [], rfl, by simpa using hzero⟩
      · rename_i hlarge
        rcases ih (n / 10) (by omega) with h | ⟨c, rest, h, hc⟩
        · -- The front part is no zero, for the number has two digits.
          have hvalue : n / 10 = 0 := by
            rw [← Nat.ofDigitChars_ten_toDigits (n := n / 10), h]
            rfl
          omega
        · exact Or.inr ⟨c, rest ++ [(n % 10).digitChar], by rw [h]; rfl, hc⟩

/-- The digits of a natural number are a number without sign, fraction and exponent. -/
theorem ofText?_naturalText (n : Nat) :
    ofText? (naturalText n) = some ⟨false, naturalText n, none, none⟩ := by
  have hdigit : ∀ c ∈ naturalText n, c.isDigit = true := fun c hc =>
    Nat.isDigit_of_mem_toDigits (by decide) (by decide) hc
  have hminus : minus (naturalText n) = (false, naturalText n) := by
    unfold minus
    split
    · rename_i hfront
      have hdash := hdigit '-' (by simp [hfront])
      exact absurd hdash (by decide)
    · rfl
  have hdigits : digits (naturalText n) = (naturalText n, []) := by
    unfold digits
    rw [List.takeWhile_eq_self_iff.mpr hdigit, List.dropWhile_eq_nil_iff.mpr hdigit]
  unfold ofText?
  rw [hminus]
  simp only [hdigits]
  rcases naturalText_cases n with h | ⟨c, rest, h, hc⟩
  · rw [h]
    rfl
  · rw [h]
    split
    · rename_i hnil
      injection hnil
    · rename_i hzero
      injection hzero with hzero
      exact absurd hzero hc
    · rfl

end Literal

namespace Number

/-- The number is read back from its text. -/
def IsReadBack (n : Number) : Prop := (Literal.ofText? n.text).bind Literal.number? = some n

instance (n : Number) : Decidable n.IsReadBack := inferInstanceAs (Decidable (_ = _))

/-- **A natural number is read back if a machine word holds it.** -/
theorem isReadBack_natural {n : Nat} (h : n < 2 ^ (64 : Nat)) : (natural n).IsReadBack := by
  have hvalue : Nat.ofDigitChars 10 (naturalText n) 0 = n := Nat.ofDigitChars_ten_toDigits
  have habsorb : Literal.absorb 0 (naturalText n) = (n, []) := by
    rw [Literal.absorb_eq (by rwa [hvalue]), hvalue]
  unfold IsReadBack text
  rw [Literal.ofText?_naturalText, Option.bind_some]
  unfold Literal.number?
  simp only [habsorb]
  rfl

end Number

end Phrasebook.Json
