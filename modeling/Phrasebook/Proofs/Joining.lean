import Phrasebook.Proofs.Example

/-!
Joining is associative.

However three examples are grouped, the same text is put in front of the second one and the same
in front of the third: `front_append` says so, and with it the entities move by the same length,
in one step or in two (`Entity.shift_shift`).

An example without text is dropped together with its entities, unless it comes first.  So grouping
matters for an example that has entities all the same, and only for such a one in the middle: it
is enough that this one is *tidy*, that is, has no entities if it has no text, and needed unless
there is nothing to put behind it.

Of the keys, joining is no more than to write one behind the other, whatever blanks the texts
hold.
-/

namespace Phrasebook

theorem Entity.shift_shift (m n : Nat) (x : Entity) : (x.shift m).shift n = x.shift (n + m) := by
  unfold shift
  simp only [Nat.add_assoc, Nat.add_comm n m]

theorem Text.normalize_normalize (t : Text) : t.normalize.normalize = t.normalize :=
  normalize_eq_iff.mpr (words_normalize t)

namespace Example

variable {a b c : Example}

instance (e : Example) : Decidable e.IsTidy := inferInstanceAs (Decidable (_ → _))

theorem IsTidy.append (ha : a.IsTidy) (b : Example) : (a.append b).IsTidy := by
  by_cases hb : b.text = []
  · rwa [append_of_nil a hb]
  · intro htext
    rw [append_of_ne_nil a hb] at htext
    exact absurd (List.append_eq_nil_iff.mp htext).2 hb

/-! ### Nothing on one side -/

theorem append_empty (a : Example) : a.append empty = a := append_of_nil a rfl

/-- Nothing in front of a tidy example leaves it as it is, but for the intent, which is always
that of the first. -/
theorem empty_append (ha : a.IsTidy) : empty.append a = { a with intent := none } := by
  by_cases htext : a.text = []
  · rw [append_of_nil empty htext, ha htext, htext]
    rfl
  · have hshift : Entity.shift (front empty).length = id := rfl
    rw [append_of_ne_nil empty htext, hshift, List.map_id]
    rfl

/-! ### Three examples -/

theorem intent_append (a b : Example) : (a.append b).intent = a.intent := by
  unfold append
  split <;> rfl

theorem front_append (a b : Example) : (a.append b).front = a.front ++ b.front := by
  by_cases hb : b.text = []
  · rw [append_of_nil a hb, front_of_nil hb, List.append_nil]
  · have hne : (a.append b).text ≠ [] := by
      rw [append_of_ne_nil a hb]
      exact List.append_ne_nil_of_right_ne_nil _ hb
    rw [front_of_ne_nil hne, front_of_ne_nil hb, append_of_ne_nil a hb, List.append_assoc]

/-- The second of two examples brings its entities along exactly if it is tidy. -/
theorem entities_append_iff :
    (a.append b).entities = a.entities ++ b.entities.map (Entity.shift a.front.length) ↔
      b.IsTidy := by
  by_cases hb : b.text = []
  · rw [append_of_nil a hb]
    unfold IsTidy
    simp [hb]
  · rw [append_of_ne_nil a hb]
    exact ⟨fun _ htext => absurd htext hb, fun _ => rfl⟩

/-- **Where grouping does not matter.**  All that it can change are the entities that the example
in the middle brings along. -/
theorem append_assoc_iff :
    (a.append b).append c = a.append (b.append c) ↔ b.IsTidy ∨ c.text = [] := by
  by_cases hc : c.text = []
  · rw [append_of_nil _ hc, append_of_nil b hc]
    simp [hc]
  have hne : (b.append c).text ≠ [] := by
    rw [append_of_ne_nil b hc]
    exact List.append_ne_nil_of_right_ne_nil _ hc
  have hshift : (c.entities.map (Entity.shift b.front.length)).map (Entity.shift a.front.length) =
      c.entities.map (Entity.shift (a.front ++ b.front).length) := by
    rw [List.map_map, List.length_append]
    exact List.map_congr_left fun x _ => x.shift_shift _ _
  rw [or_iff_left hc, ← entities_append_iff (a := a)]
  rw [append_of_ne_nil _ hc, append_of_ne_nil a hne, append_of_ne_nil b hc]
  rw [front_append, intent_append, List.map_append, hshift, mk.injEq]
  simp only [List.append_assoc, true_and]
  rw [← List.append_assoc a.entities]
  exact List.append_left_inj _

/-! ### Keys -/

theorem key_append (a b : Example) : (a.append b).key = Text.normalize (a.key ++ ' ' :: b.key) := by
  refine Text.normalize_eq_iff.mpr ?_
  rw [words_append, Text.words_append_blank (by decide)]
  unfold key
  rw [Text.words_normalize, Text.words_normalize]

end Example

open Example (empty)

/--
**Joining is associative and respects keys.**  Tidy examples can be joined in any grouping, with
the same text, intent and entities, and are tidy when joined; the example without text adds nothing
behind another and only takes the intent in front of it.  The key of two examples is made of their
keys alone, whether they are tidy or not, and to normalize a text again changes nothing.
-/
theorem append_assoc_and_key_append :
    (∀ a b c : Example, b.IsTidy → (a.append b).append c = a.append (b.append c)) ∧
      (∀ a b : Example, a.IsTidy → (a.append b).IsTidy) ∧
      (∀ a : Example, a.append empty = a) ∧
      (∀ a : Example, a.IsTidy → empty.append a = { a with intent := none }) ∧
      (∀ a b : Example, (a.append b).key = Text.normalize (a.key ++ ' ' :: b.key)) ∧
      (∀ a a' b b' : Example, a.key = a'.key → b.key = b'.key →
        (a.append b).key = (a'.append b').key) ∧
      ∀ t : Text, t.normalize.normalize = t.normalize := by
  refine ⟨fun a b c hb => ?_, fun a b ha => ha.append b, Example.append_empty,
    fun a ha => Example.empty_append ha, Example.key_append, fun a a' b b' ha hb => ?_,
    Text.normalize_normalize⟩
  · exact Example.append_assoc_iff.mpr (Or.inl hb)
  · exact Example.key_append_congr ha hb

/-! ### A journey -/

namespace Journey

/-- A text that begins and ends with blanks. -/
def flight : Example := .ofText " fly  to ".toList

/-- The same words with single blanks. -/
def plainFlight : Example := .ofText "fly to".toList

/-- A city, by another name than its own. -/
def city : Example := (Example.ofText "big apple".toList).asSlot "city" (some "New York".toList)

/-- A day. -/
def day : Example := (Example.ofText "today".toList).asSlot "day" none

end Journey

open Journey in
/-- Three examples with blanks and entities, grouped either way. -/
theorem append_assoc_and_key_append_journey :
    city.IsTidy ∧ (flight.append city).append day = flight.append (city.append day) ∧
      flight.key = plainFlight.key ∧ (flight.append city).key = (plainFlight.append city).key ∧
      empty.append city = { city with intent := none } := by
  have htidy : city.IsTidy := by decide
  have hkey : flight.key = plainFlight.key := by decide
  obtain ⟨hassoc, -, -, hempty, -, hcongr, -⟩ := append_assoc_and_key_append
  exact ⟨htidy, hassoc flight city day htidy, hkey,
    hcongr flight plainFlight city city hkey rfl, hempty city htidy⟩

end Phrasebook
