import Phrasebook.Example
import Phrasebook.Generation.Scope
import Phrasebook.Proofs.Text.Letters

/-!
When examples count as the same sentence.

They do when their texts have the same words.  Putting examples side by side, marking them
as slots and naming their intent respects that: what is made of same sentences is again the
same sentence.  A casing respects it only among firm examples, whose texts do not begin with
a blank.
-/

namespace Phrasebook

namespace Example

theorem key_eq_iff {a b : Example} : a.key = b.key ↔ a.text.words = b.text.words :=
  Text.normalize_eq_iff

/-! ### Side by side -/

/-- An example without text has no entities. -/
def IsTidy (e : Example) : Prop := e.text = [] → e.entities = []

/-- What stands in front of the second of two examples. -/
def front (a : Example) : Text := if a.text.isEmpty then [] else a.text ++ [' ']

theorem front_of_nil {a : Example} (ha : a.text = []) : a.front = [] :=
  if_pos (by simpa using ha)

theorem front_of_ne_nil {a : Example} (ha : a.text ≠ []) : a.front = a.text ++ [' '] :=
  if_neg (by simpa using ha)

theorem append_of_nil (a : Example) {b : Example} (hb : b.text = []) : a.append b = a :=
  if_pos (by simpa using hb)

theorem append_of_ne_nil (a : Example) {b : Example} (hb : b.text ≠ []) :
    a.append b = { a with
      text := a.front ++ b.text
      entities := a.entities ++ b.entities.map (Entity.shift a.front.length) } := by
  unfold append
  rw [if_neg (by simpa using hb)]
  rfl

@[simp] theorem words_append (a b : Example) :
    (a.append b).text.words = a.text.words ++ b.text.words := by
  by_cases hb : b.text = []
  · rw [append_of_nil a hb, hb]
    simp
  · rw [append_of_ne_nil a hb]
    by_cases ha : a.text = []
    · simp [front_of_nil ha, ha]
    · simp only [front_of_ne_nil ha]
      rw [List.append_assoc, List.singleton_append, Text.words_append_blank (by decide)]

theorem key_append_congr {a a' b b' : Example} (ha : a.key = a'.key) (hb : b.key = b'.key) :
    (a.append b).key = (a'.append b').key := by
  rw [key_eq_iff] at ha hb ⊢
  rw [words_append, words_append, ha, hb]

/-! ### What the kind of a definition adds -/

@[simp] theorem text_asSlot (slot : String) (value : Option Text) (e : Example) :
    (e.asSlot slot value).text = e.text := by
  unfold asSlot
  split <;> rfl

/-! ### Casings -/

@[simp] theorem text_recase (c : Casing) (e : Example) : (e.recase c).text = c.apply e.text := by
  cases c <;> rfl

/-- A casing makes the same sentence of both examples if they are the same sentence. -/
theorem key_recase_congr (c : Casing) {a b : Example} (ha : a.text.IsFirm) (hb : b.text.IsFirm)
    (h : a.key = b.key) : (a.recase c).key = (b.recase c).key := by
  rw [key_eq_iff] at h ⊢
  rw [text_recase, text_recase]
  exact c.words_apply_congr ha hb h

/-! ### Firm examples -/

theorem isFirm_append {a b : Example} (ha : a.text.IsFirm) (hb : b.text.IsFirm) :
    (a.append b).text.IsFirm := by
  by_cases hempty : b.text = []
  · rw [append_of_nil a hempty]
    exact ha
  · rw [append_of_ne_nil a hempty]
    by_cases hfront : a.text = []
    · simpa only [front_of_nil hfront, List.nil_append] using hb
    · simp only [front_of_ne_nil hfront, List.append_assoc]
      exact ha.append hfront _

theorem isFirm_recase (c : Casing) {e : Example} (he : e.text.IsFirm) :
    (e.recase c).text.IsFirm := by
  rw [text_recase]
  exact c.isFirm_apply he

end Example

namespace Definition

@[simp] theorem text_finish (d : Definition) (r : Rule) (e : Example) :
    (d.finish r e).text = e.text := by
  unfold finish
  split <;> simp [Example.withIntent]

@[simp] theorem key_finish (d : Definition) (r : Rule) (e : Example) :
    (d.finish r e).key = e.key := by
  rw [Example.key, text_finish]
  rfl

end Definition

end Phrasebook
