import Phrasebook.Proofs.Made
import Phrasebook.Proofs.Repeats

/-!
Entities and what they cover.

Entities stand from left to right, none is empty, and no two cover the same character
(`Spans`).  Each operation on examples keeps this, because each moves all entities behind a
change by as much as the text grew there, and only the first letter ever changes.

What an entity covers, its `surface`, changes only when it begins at the first letter, and
then the same casing changes it.  So every entity still stands for a rule of its slot
(`StandsFor`): for what it covers, if the rule names no value, and for the value of the rule
otherwise.  There is one exception.  A value that is the covered text follows the casing,
even if the rule named it, so it may end up as the value of the rule in another casing.  This
can only be a casing that is asked for above the slot.
-/

namespace Phrasebook

namespace Entity

/-- The characters of a text that the entity covers. -/
def surface (t : Text) (x : Entity) : Text := (t.drop x.start).take (x.stop - x.start)

/-- The entity covers characters of a text, and at least one. -/
structure Within (t : Text) (x : Entity) : Prop where
  lt : x.start < x.stop
  le : x.stop ≤ t.length

variable {t : Text} {x : Entity}

theorem Within.ne_nil (h : x.Within t) : t ≠ [] := by
  have hlt := h.lt
  have hle := h.le
  rintro rfl
  rw [List.length_nil] at hle
  omega

/-! ### Text on either side -/

theorem Within.append (h : x.Within t) (behind : Text) : x.Within (t ++ behind) := by
  refine ⟨h.lt, ?_⟩
  rw [List.length_append]
  exact Nat.le_add_right_of_le h.le

theorem Within.shift (h : x.Within t) (front : Text) :
    (x.shift front.length).Within (front ++ t) := by
  refine ⟨Nat.add_lt_add_right h.lt _, ?_⟩
  rw [List.length_append, Nat.add_comm]
  exact Nat.add_le_add_right h.le _

theorem Within.surface_append (h : x.Within t) (behind : Text) :
    x.surface (t ++ behind) = x.surface t := by
  have hlt := h.lt
  have hle := h.le
  unfold surface
  rw [List.drop_append_of_le_length (by omega), List.take_append_of_le_length]
  rw [List.length_drop]
  omega

@[simp] theorem surface_shift (front t : Text) (x : Entity) :
    (x.shift front.length).surface (front ++ t) = x.surface t := by
  have hsize : x.stop + front.length - (x.start + front.length) = x.stop - x.start := by omega
  unfold surface shift
  simp only [hsize]
  rw [Nat.add_comm x.start, List.drop_length_add_append]

end Entity

namespace Casing

/-- A text to which casings were applied, one after the other. -/
def applyAll (casings : List Casing) (t : Text) : Text := casings.foldl (fun t c => c.apply t) t

theorem applyAll_concat (casings : List Casing) (c : Casing) (t : Text) :
    applyAll (casings ++ [c]) t = c.apply (applyAll casings t) := by
  simp [applyAll]

end Casing

/-- The value is one that an occurrence of a slot may have, if the rule made what it covers and
only some casings were applied to that. -/
def Rule.Means (r : Rule) (forms : Casing → Prop) (surface value : Text) : Prop :=
  match r.value with
  | none => value = surface
  | some written =>
    value = written ∨ value = surface ∧
      ∃ casings, (∀ c ∈ casings, forms c) ∧ Casing.applyAll casings written = value

namespace Rule.Means

variable {r : Rule} {forms : Casing → Prop} {surface value : Text}

/-- What is covered and is the value stays the value when its first letter changes. -/
theorem recase (h : r.Means forms surface value) {c : Casing} (hc : forms c) :
    r.Means forms (c.apply surface) (if value = surface then c.apply surface else value) := by
  unfold Means at h ⊢
  cases hvalue : r.value with
  | none =>
      rw [hvalue] at h
      exact if_pos h
  | some written =>
      rw [hvalue] at h
      by_cases heq : value = surface
      · rw [if_pos heq]
        refine Or.inr ⟨rfl, ?_⟩
        rcases h with h | ⟨-, casings, hforms, h⟩
        · exact ⟨[c], List.forall_mem_singleton.mpr hc, by simp [Casing.applyAll, ← h, heq]⟩
        · refine ⟨casings ++ [c], ?_, by rw [Casing.applyAll_concat, h, heq]⟩
          exact List.forall_mem_append.mpr ⟨hforms, List.forall_mem_singleton.mpr hc⟩
      · rw [if_neg heq]
        exact Or.inl (h.resolve_right fun h => heq h.1)

end Rule.Means

namespace Example

variable {definitions : List Definition} {forms : String → Casing → Prop} {e : Example}

/-- The entities cover characters of the text, from left to right and none twice. -/
structure Spans (e : Example) : Prop where
  within : ∀ x ∈ e.entities, x.Within e.text
  apart : e.entities.Pairwise fun x y => x.stop ≤ y.start

/-- Every entity is an occurrence of a slot, and one of the rules of the slot allows it the
value it has, with the casings that are allowed for the slot. -/
def StandsFor (definitions : List Definition) (forms : String → Casing → Prop) (e : Example) :
    Prop :=
  ∀ x ∈ e.entities, ∃ s ∈ definitions, s.key = ⟨.slot, x.slot⟩ ∧
    ∃ r ∈ s.allRules, r.Means (forms x.slot) (x.surface e.text) x.value

theorem Spans.of_entities_eq_nil (h : e.entities = []) : e.Spans :=
  ⟨by simp [h], by simp [h]⟩

/-- Where there is no text, there is nothing to cover. -/
theorem Spans.isTidy (h : e.Spans) : e.IsTidy := by
  intro ht
  rw [List.eq_nil_iff_forall_not_mem]
  exact fun x hx => (h.within x hx).ne_nil ht

/-! ### Side by side -/

/-- The entities of the first of two examples still cover what they covered. -/
theorem Spans.front (h : e.Spans) (behind : Text) : ∀ x ∈ e.entities,
    x.stop ≤ e.front.length ∧ x.Within (e.front ++ behind) ∧
      x.surface (e.front ++ behind) = x.surface e.text := by
  intro x hx
  have hwithin := h.within x hx
  rw [front_of_ne_nil hwithin.ne_nil, List.append_assoc]
  refine ⟨?_, hwithin.append _, hwithin.surface_append _⟩
  rw [List.length_append]
  exact Nat.le_add_right_of_le hwithin.le

theorem Spans.append {a b : Example} (ha : a.Spans) (hb : b.Spans) : (a.append b).Spans := by
  by_cases hempty : b.text = []
  · rwa [append_of_nil a hempty]
  rw [append_of_ne_nil a hempty]
  refine ⟨fun x hx => ?_, List.pairwise_append.mpr ⟨ha.apart, ?_, fun x hx y hy => ?_⟩⟩
  · rcases List.mem_append.mp hx with hx | hx
    · exact (ha.front b.text x hx).2.1
    · obtain ⟨y, hy, rfl⟩ := List.mem_map.mp hx
      exact (hb.within y hy).shift a.front
  · exact List.pairwise_map.mpr (hb.apart.imp fun h => Nat.add_le_add_right h _)
  · obtain ⟨y, -, rfl⟩ := List.mem_map.mp hy
    exact Nat.le_add_left_of_le (ha.front b.text x hx).1

/-- What is known of all entities of both examples, of their slots, surfaces and values, is known
of all of theirs together. -/
theorem Spans.forall_append {a b : Example} (hspans : a.Spans) {Q : String → Text → Text → Prop}
    (ha : ∀ x ∈ a.entities, Q x.slot (x.surface a.text) x.value)
    (hb : ∀ x ∈ b.entities, Q x.slot (x.surface b.text) x.value) :
    ∀ x ∈ (a.append b).entities, Q x.slot (x.surface (a.append b).text) x.value := by
  by_cases hempty : b.text = []
  · rwa [append_of_nil a hempty]
  rw [append_of_ne_nil a hempty]
  intro x hx
  rcases List.mem_append.mp hx with hx | hx
  · rw [(hspans.front b.text x hx).2.2]
    exact ha x hx
  · obtain ⟨y, hy, rfl⟩ := List.mem_map.mp hx
    rw [Entity.surface_shift]
    exact hb y hy

theorem StandsFor.append {a b : Example} (hspans : a.Spans) (ha : a.StandsFor definitions forms)
    (hb : b.StandsFor definitions forms) : (a.append b).StandsFor definitions forms :=
  hspans.forall_append (Q := fun slot surface value => ∃ s ∈ definitions,
    s.key = ⟨.slot, slot⟩ ∧ ∃ r ∈ s.allRules, r.Means (forms slot) surface value) ha hb

/-! ### Casings -/

section

variable {f : Char → Text} {a : Char} {rest : Text} {x : Entity}

/-- Behind the first letter, everything moves by as much as the letter grew. -/
theorem moveOffset_mapFirst (hf : f a ≠ []) {n : Nat} (hpos : 0 < n)
    (hle : n ≤ (a :: rest).length) :
    moveOffset (a :: rest) (f a ++ rest) n = n - 1 + (f a).length := by
  have hlength := List.length_pos_iff.mpr hf
  unfold moveOffset lastOffset
  rw [List.length_cons] at hle ⊢
  rw [List.length_append]
  omega

theorem stop_recaseEntity (hf : f a ≠ []) (hx : x.Within (a :: rest)) :
    (recaseEntity (a :: rest) (f a ++ rest) x).stop = x.stop - 1 + (f a).length := by
  rw [← moveOffset_mapFirst hf (Nat.zero_lt_of_lt hx.lt) hx.le]
  unfold recaseEntity
  split <;> rfl

theorem start_recaseEntity (hf : f a ≠ []) (hx : x.Within (a :: rest)) :
    (recaseEntity (a :: rest) (f a ++ rest) x).start =
      if x.start = 0 then 0 else x.start - 1 + (f a).length := by
  have hle : x.start ≤ (a :: rest).length := Nat.le_trans (Nat.le_of_lt hx.lt) hx.le
  unfold recaseEntity
  by_cases hstart : x.start = 0
  · rw [if_pos hstart, if_pos hstart]
    exact hstart
  · rw [if_neg hstart, if_neg hstart]
    exact moveOffset_mapFirst hf (Nat.pos_of_ne_zero hstart) hle

theorem within_recaseEntity (hf : f a ≠ []) (hx : x.Within (a :: rest)) :
    (recaseEntity (a :: rest) (f a ++ rest) x).Within (f a ++ rest) := by
  have hlt := hx.lt
  have hle := hx.le
  have hlength := List.length_pos_iff.mpr hf
  rw [List.length_cons] at hle
  refine ⟨?_, ?_⟩
  · rw [start_recaseEntity hf hx, stop_recaseEntity hf hx]
    split <;> omega
  · rw [stop_recaseEntity hf hx, List.length_append]
    omega

/-- Of two entities the second does not begin at the first letter, so it moves as the end of
the first does. -/
theorem recaseEntity_apart (hf : f a ≠ []) {y : Entity} (hx : x.Within (a :: rest))
    (hy : y.Within (a :: rest)) (h : x.stop ≤ y.start) :
    (recaseEntity (a :: rest) (f a ++ rest) x).stop ≤
      (recaseEntity (a :: rest) (f a ++ rest) y).start := by
  have hlt := hx.lt
  rw [stop_recaseEntity hf hx, start_recaseEntity hf hy, if_neg (by omega)]
  omega

/-- An entity covers the same as before, with the first letter in its new form if it covers
that. -/
theorem surface_recaseEntity (hf : f a ≠ []) (hx : x.Within (a :: rest)) :
    (recaseEntity (a :: rest) (f a ++ rest) x).surface (f a ++ rest) =
      if x.start = 0 then Text.mapFirst f (x.surface (a :: rest)) else x.surface (a :: rest) := by
  have hlt := hx.lt
  unfold Entity.surface
  rw [start_recaseEntity hf hx, stop_recaseEntity hf hx]
  by_cases hstart : x.start = 0
  · obtain ⟨n, hn⟩ := Nat.exists_eq_add_one_of_ne_zero (n := x.stop) (by omega)
    have hsize : n + 1 - 1 + (f a).length - 0 = (f a).length + n := by omega
    rw [if_pos hstart, if_pos hstart, hstart, hn, hsize, List.drop_zero,
      List.take_length_add_append]
    rfl
  · obtain ⟨n, hn⟩ := Nat.exists_eq_add_one_of_ne_zero hstart
    have hsize : x.stop - 1 + (f a).length - (n + (f a).length) = x.stop - (n + 1) := by omega
    rw [if_neg hstart, if_neg hstart, hn, Nat.add_sub_cancel, hsize, List.drop_succ_cons,
      Nat.add_comm n (f a).length, List.drop_length_add_append]

/-- A value changes with what is covered if it is that. -/
theorem value_recaseEntity (old new : Text) (x : Entity) :
    (recaseEntity old new x).value =
      if x.start = 0 ∧ x.value = x.surface old then (recaseEntity old new x).surface new
      else x.value := by
  unfold recaseEntity Entity.surface
  by_cases hstart : x.start = 0
  · simp [hstart]
  · simp [hstart]

end

/-- A casing gives the text a first letter, and moves the entities with it. -/
theorem recase_cases (c : Casing) (e : Example) :
    e.recase c = e ∨
      e.recase c = { e with
        text := c.apply e.text
        entities := e.entities.map (recaseEntity e.text (c.apply e.text)) } := by
  cases c with
  | unchanged | either => exact Or.inl rfl
  | capitalize | lowercase => exact Or.inr rfl

theorem Spans.recase (h : e.Spans) (c : Casing) : (e.recase c).Spans := by
  rcases e.recase_cases c with hsame | hmoved
  · rwa [hsame]
  rw [hmoved]
  cases htext : e.text with
  | nil => exact Spans.of_entities_eq_nil (by simp [h.isTidy htext])
  | cons a rest =>
      obtain ⟨f, hf, hc⟩ := c.exists_mapFirst
      have hwithin := h.within
      rw [htext] at hwithin
      rw [hc]
      refine ⟨fun x hx => ?_, List.pairwise_map.mpr (h.apart.imp_of_mem fun {x y} hx hy hxy => ?_)⟩
      · obtain ⟨y, hy, rfl⟩ := List.mem_map.mp hx
        exact within_recaseEntity (hf a) (hwithin y hy)
      · exact recaseEntity_apart (hf a) (hwithin x hx) (hwithin y hy) hxy

theorem StandsFor.recase (hspans : e.Spans) (h : e.StandsFor definitions forms) {c : Casing}
    (hforms : ∀ slot ∈ e.slots, forms slot c) : (e.recase c).StandsFor definitions forms := by
  rcases e.recase_cases c with hsame | hmoved
  · rwa [hsame]
  rw [hmoved]
  cases htext : e.text with
  | nil =>
      intro x hx
      simp [hspans.isTidy htext] at hx
  | cons a rest =>
      obtain ⟨f, hf, hc⟩ := c.exists_mapFirst
      intro y hy
      obtain ⟨x, hx, rfl⟩ := List.mem_map.mp hy
      have hform : forms x.slot c := hforms _ (List.mem_map_of_mem hx)
      have hwithin := hspans.within x hx
      obtain ⟨s, hs, hkey, r, hr, hmeans⟩ := h x hx
      rw [htext] at hwithin hmeans
      refine ⟨s, hs, by rw [hkey, slot_recaseEntity], r, hr, ?_⟩
      have hsurface := surface_recaseEntity (hf a) hwithin
      simp only [hc, Text.mapFirst, slot_recaseEntity]
      rw [value_recaseEntity, hsurface]
      by_cases hstart : x.start = 0
      · simp only [hstart, true_and, if_true]
        rw [← hc]
        exact hmeans.recase hform
      · simp only [hstart, false_and, if_false]
        exact hmeans

/-! ### Slots -/

theorem Spans.finish (h : e.Spans) (d : Definition) (r : Rule) : (d.finish r e).Spans := by
  unfold Definition.finish
  split
  · exact h
  · unfold asSlot
    split
    · exact h
    · rename_i hempty
      have hlength : 0 < e.text.length := by simpa [List.length_pos_iff] using hempty
      exact ⟨by simpa using ⟨hlength, Nat.le_refl _⟩, by simp⟩
  · exact ⟨h.within, h.apart⟩

theorem StandsFor.finish (h : e.StandsFor definitions forms) {d : Definition}
    (hd : d ∈ definitions) {r : Rule} (hr : r ∈ d.allRules) :
    (d.finish r e).StandsFor definitions forms := by
  unfold Definition.finish
  split
  · exact h
  · rename_i hkind
    unfold asSlot
    split
    · exact h
    · intro x hx
      obtain rfl := List.mem_singleton.mp hx
      refine ⟨d, hd, by rw [Definition.key, hkind], r, hr, ?_⟩
      unfold Rule.Means Entity.surface
      cases r.value with
      | none => simp
      | some written => exact Or.inl rfl
  · exact h

/-- **The entities of whatever is made of texts cover characters of its text, each a value of
its slot.** -/
theorem spans_and_standsFor_of_made (h : Made definitions forms e) :
    e.Spans ∧ e.StandsFor definitions forms := by
  induction h with
  | text t => exact ⟨Spans.of_entities_eq_nil rfl, by simp [StandsFor, ofText]⟩
  | append _ _ iha ihb => exact ⟨iha.1.append ihb.1, .append iha.1 iha.2 ihb.2⟩
  | recase hforms _ ih => exact ⟨ih.1.recase _, .recase ih.1 ih.2 hforms⟩
  | finish hd hr _ ih => exact ⟨ih.1.finish _ _, ih.2.finish hd hr⟩

end Example

/-- In a valid graph the slot of an entity is found again by its name. -/
theorem Graph.Valid.means {g : Graph} (hg : g.Valid) {forms : String → Casing → Prop}
    {e : Example} (he : e.StandsFor g.definitions forms) {s : Definition}
    (hs : s ∈ g.definitions) (hkind : s.kind = .slot) {x : Entity} (hx : x ∈ e.entities)
    (hslot : x.slot = s.name) :
    ∃ r ∈ s.allRules, r.Means (forms s.name) (x.surface e.text) x.value := by
  obtain ⟨s', hs', hkey, hmeans⟩ := he x hx
  have hsame : s'.key = s.key := by rw [hkey, hslot, Definition.key, hkind]
  obtain rfl := Definition.eq_of_key hg.nodup_key hs' hs hsame
  rwa [← hslot]

/--
**Entities point at their text.**  Whatever sentence a graph produces, listed or drawn, each
of its entities covers at least one character, they stand from left to right, and no two
cover the same character.  If the rules of a slot name no values, then every occurrence of
the slot has what it covers for its value.
-/
theorem entities_cover_text {definitions : List Definition} {g : Graph}
    (hg : Graph.ofDefinitions definitions = .ok g) {key : Key} {e : Example}
    (he : g.Produces key e) :
    (∀ x ∈ e.entities, x.start < x.stop ∧ x.stop ≤ e.text.length) ∧
      e.entities.Pairwise (fun x y => x.stop ≤ y.start) ∧
      ∀ s ∈ g.definitions, s.kind = .slot → (∀ r ∈ s.allRules, r.value = none) →
        ∀ x ∈ e.entities, x.slot = s.name → x.value = x.surface e.text := by
  have hvalid := Graph.valid_of_ofDefinitions hg
  obtain ⟨hspans, hstands⟩ := Example.spans_and_standsFor_of_made (hvalid.made he)
  refine ⟨fun x hx => ⟨(hspans.within x hx).lt, (hspans.within x hx).le⟩, hspans.apart, ?_⟩
  intro s hs hkind hvalues x hx hslot
  obtain ⟨r, hr, hmeans⟩ := hvalid.means hstands hs hkind hx hslot
  unfold Rule.Means at hmeans
  rwa [hvalues r hr] at hmeans

/-! ### A letter that grows -/

namespace Spelling

/-- A letter whose capital is two letters. -/
def letter : Definition where
  kind := .slot
  name := "letter"
  rules := [.mk [.word "ß".toList .plain] .one none]
  variations := []
  parameters := []
  directive := none

/-- The letter as a capital and as it is, with a word between. -/
def spell : Definition where
  kind := .intent
  name := "spell"
  rules := [.mk [.reference ⟨.slot, "letter"⟩ { Modifiers.plain with casing := .capitalize },
    .word "or".toList .plain, .reference ⟨.slot, "letter"⟩ .plain] .one none]
  variations := []
  parameters := []
  directive := none

/-- The graph of both. -/
def graph : Graph := ⟨[letter, spell], [spell, letter]⟩

/-- The one sentence: both letters are marked, the first one in its new length. -/
def spelled : Example :=
  ⟨some "spell", "SS or ß".toList, [⟨"letter", "SS".toList, 0, 2⟩, ⟨"letter", "ß".toList, 6, 7⟩]⟩

theorem references_letter : letter.references = [] := rfl

theorem references_spell : spell.references =
    [⟨⟨.slot, "letter"⟩, { Modifiers.plain with casing := .capitalize }⟩,
      ⟨⟨.slot, "letter"⟩, .plain⟩] := rfl

theorem ofDefinitions_eq : Graph.ofDefinitions [letter, spell] = .ok graph :=
  Graph.ofDefinitions_pair (by decide) (by decide) (ok_of_toOption (by decide +kernel))
    (ok_of_toOption (by decide +kernel)) rfl (by decide)

theorem hasSolidArguments : graph.HasSolidArguments := by
  simp [Graph.HasSolidArguments, graph, references_letter, references_spell,
    Reference.IsSolid, Modifiers.plain]

theorem produces_spelled : graph.Produces spell.key spelled := by
  have hways : graph.expand spell.key.name (Item.useOf spell.key) = .ok [spelled] :=
    ok_of_toOption (by decide +kernel)
  refine Graph.produces_of_enumerate
    ((Graph.valid_of_ofDefinitions ofDefinitions_eq).enumerate_unit hasSolidArguments hways) ?_
  simp

end Spelling

/-- The two letters are apart, and each is marked with what stands there. -/
theorem entities_cover_text_spelled :
    Graph.ofDefinitions [Spelling.letter, Spelling.spell] = .ok Spelling.graph ∧
      Spelling.graph.Produces Spelling.spell.key Spelling.spelled ∧
      Spelling.spelled.entities.Pairwise (fun x y => x.stop ≤ y.start) ∧
      ∀ x ∈ Spelling.spelled.entities, x.value = x.surface Spelling.spelled.text := by
  have hcover := entities_cover_text Spelling.ofDefinitions_eq Spelling.produces_spelled
  refine ⟨Spelling.ofDefinitions_eq, Spelling.produces_spelled, hcover.2.1, fun x hx => ?_⟩
  have hslots : ∀ x ∈ Spelling.spelled.entities, x.slot = Spelling.letter.name := by
    simp [Spelling.spelled, Spelling.letter]
  exact hcover.2.2 Spelling.letter (by simp [Spelling.graph]) rfl
    (by simp [Spelling.letter, Definition.allRules, Rule.value]) x hx (hslots x hx)

/-! ### Values that rules name -/

namespace Definition

/-- The values that the rules of a definition name. -/
def writtenValues (d : Definition) : List Text := d.allRules.filterMap Rule.value

/-- The given casings make no new value of those that are named. -/
def HasCasedValues (d : Definition) (forms : Casing → Prop) : Prop :=
  ∀ value ∈ d.writtenValues, ∀ c, forms c → c.apply value ∈ d.writtenValues

variable {d : Definition} {forms : Casing → Prop}

theorem HasCasedValues.applyAll (h : d.HasCasedValues forms) {value : Text}
    (hvalue : value ∈ d.writtenValues) {casings : List Casing} (hforms : ∀ c ∈ casings, forms c) :
    Casing.applyAll casings value ∈ d.writtenValues := by
  induction casings generalizing value with
  | nil => exact hvalue
  | cons c casings ih =>
      obtain ⟨hc, hforms⟩ := List.forall_mem_cons.mp hforms
      exact ih (h value hvalue c hc) hforms

/-- Where no form of the first letter is asked for, there is no new value. -/
theorem HasCasedValues.of_unchanged (h : ∀ c, forms c → c = .unchanged) :
    d.HasCasedValues forms := by
  intro value hvalue c hc
  rw [h c hc]
  exact hvalue

end Definition

/--
**Values that rules name are kept**, if they are told from the text or no casing changes them.
Let every rule of a slot name a value.  In whatever sentence a graph produces for a definition, an
occurrence of the slot has one of these values, unless its value is just what it covers.  And
that, too, is one of these values if the casings that are asked for on the way from the definition
to the slot make no others of them, so it is if none is asked for there.
-/
theorem value_mem_writtenValues {definitions : List Definition} {g : Graph}
    (hg : Graph.ofDefinitions definitions = .ok g) {key : Key} {e : Example}
    (he : g.Produces key e) {s : Definition} (hs : s ∈ g.definitions) (hkind : s.kind = .slot)
    (hvalues : ∀ r ∈ s.allRules, r.value ≠ none) {x : Entity} (hx : x ∈ e.entities)
    (hslot : x.slot = s.name)
    (hkept : x.value ≠ x.surface e.text ∨ s.HasCasedValues (g.AsksAbove key s.name)) :
    x.value ∈ s.writtenValues := by
  have hvalid := Graph.valid_of_ofDefinitions hg
  have hstands := (Example.spans_and_standsFor_of_made (hvalid.made he)).2
  obtain ⟨r, hr, hmeans⟩ := hvalid.means hstands hs hkind hx hslot
  obtain ⟨value, hvalue⟩ := Option.ne_none_iff_exists'.mp (hvalues r hr)
  have hwritten : value ∈ s.writtenValues := List.mem_filterMap.mpr ⟨r, hr, hvalue⟩
  unfold Rule.Means at hmeans
  rw [hvalue] at hmeans
  rcases hmeans with hsame | ⟨hsurface, casings, hforms, hcased⟩
  · rwa [hsame]
  · rw [← hcased]
    exact (hkept.resolve_left fun h => h hsurface).applyAll hwritten hforms

/-! ### Two ways to name a city -/

namespace Travel

/-- A city by its name and by another, both of which stand for the name. -/
def city : Definition where
  kind := .slot
  name := "city"
  rules := [.mk [.word "Paris".toList .plain] .one (some "Paris".toList),
    .mk [.word "Paname".toList .plain] .one (some "Paris".toList)]
  variations := []
  parameters := []
  directive := none

/-- The city in small letters. -/
def visit : Definition where
  kind := .intent
  name := "visit"
  rules := [.mk [.word "to".toList .plain,
    .reference ⟨.slot, "city"⟩ { Modifiers.plain with casing := .lowercase }] .one none]
  variations := []
  parameters := []
  directive := none

/-- The graph of both. -/
def graph : Graph := ⟨[city, visit], [visit, city]⟩

/-- The sentence with the other name, marked with the name. -/
def paname : Example :=
  ⟨some "visit", "to paname".toList, [⟨"city", "Paris".toList, 3, 9⟩]⟩

/-- The sentence with the name itself: the value, too, has become a small letter. -/
def paris : Example :=
  ⟨some "visit", "to paris".toList, [⟨"city", "paris".toList, 3, 8⟩]⟩

theorem references_city : city.references = [] := rfl

theorem references_visit : visit.references =
    [⟨⟨.slot, "city"⟩, { Modifiers.plain with casing := .lowercase }⟩] := rfl

theorem ofDefinitions_eq : Graph.ofDefinitions [city, visit] = .ok graph :=
  Graph.ofDefinitions_pair (by decide) (by decide) (ok_of_toOption (by decide +kernel))
    (ok_of_toOption (by decide +kernel)) rfl (by decide)

theorem hasSolidArguments : graph.HasSolidArguments := by
  simp [Graph.HasSolidArguments, graph, references_city, references_visit,
    Reference.IsSolid, Modifiers.plain]

theorem enumerate_eq : (Item.unit visit.key).enumerate graph = .ok [paris, paname] := by
  have hways : graph.expand visit.key.name (Item.useOf visit.key) = .ok [paris, paname] :=
    ok_of_toOption (by decide +kernel)
  rw [(Graph.valid_of_ofDefinitions ofDefinitions_eq).enumerate_unit hasSolidArguments hways]
  rw [distinct_of_nodup (by decide)]

theorem value_ne_none : ∀ r ∈ city.allRules, r.value ≠ none := by
  simp [city, Definition.allRules, Rule.value]

/-- The city as it is, behind a word with a capital. -/
def leave : Definition where
  kind := .intent
  name := "leave"
  rules := [.mk [.word "from".toList { Modifiers.plain with casing := .capitalize },
    .reference ⟨.slot, "city"⟩ .plain] .one none]
  variations := []
  parameters := []
  directive := none

/-- The graph of the city and this intent. -/
def leaves : Graph := ⟨[city, leave], [leave, city]⟩

/-- The sentence with the name itself, which keeps its capital. -/
def fromParis : Example :=
  ⟨some "leave", "From Paris".toList, [⟨"city", "Paris".toList, 5, 10⟩]⟩

theorem references_leave : leave.references = [⟨⟨.slot, "city"⟩, .plain⟩] := rfl

theorem ofDefinitions_leaves : Graph.ofDefinitions [city, leave] = .ok leaves :=
  Graph.ofDefinitions_pair (by decide) (by decide) (ok_of_toOption (by decide +kernel))
    (ok_of_toOption (by decide +kernel)) rfl (by decide)

theorem produces_fromParis : leaves.Produces leave.key fromParis := by
  have hsolid : leaves.HasSolidArguments := by
    simp [Graph.HasSolidArguments, leaves, references_city, references_leave, Reference.IsSolid,
      Modifiers.plain]
  have hways : leaves.expand leave.key.name (Item.useOf leave.key) = .ok
      [fromParis, ⟨some "leave", "From Paname".toList, [⟨"city", "Paris".toList, 5, 11⟩]⟩] :=
    ok_of_toOption (by decide +kernel)
  refine Graph.produces_of_enumerate
    ((Graph.valid_of_ofDefinitions ofDefinitions_leaves).enumerate_unit hsolid hways) ?_
  rw [distinct_of_nodup (by decide)]
  exact List.mem_cons_self

/-- The one token with a casing holds no use of the city. -/
theorem hasCasedValues_leaves : city.HasCasedValues (leaves.AsksAbove leave.key city.name) := by
  have hcity : ∀ token ∈ city.tokens, referencesOfToken token = [] := by decide
  have hleave : ∀ token ∈ leave.tokens,
      referencesOfToken token = [] ∨ token.modifiers.casing = .unchanged := by decide
  refine .of_unchanged fun c hasks => ?_
  obtain ⟨d, hd, -, token, htoken, hc, r, hr, -⟩ := hasks
  have huses : referencesOfToken token ≠ [] := List.ne_nil_of_mem hr
  rcases List.mem_pair.mp hd with rfl | rfl
  · exact absurd (hcity token htoken) huses
  · rw [(hleave token htoken).resolve_left huses] at hc
    exact List.mem_singleton.mp hc

end Travel

/-- Where the text differs from the value, a casing leaves the value alone; where it is the value
and the casing is asked for another word, the value stays, too. -/
theorem value_mem_writtenValues_paname :
    (Travel.graph.Produces Travel.visit.key Travel.paname ∧
      ∀ x ∈ Travel.paname.entities, x.value ∈ Travel.city.writtenValues) ∧
    Travel.leaves.Produces Travel.leave.key Travel.fromParis ∧
      ∀ x ∈ Travel.fromParis.entities, x.value = x.surface Travel.fromParis.text ∧
        x.value ∈ Travel.city.writtenValues := by
  have hproduced : Travel.graph.Produces Travel.visit.key Travel.paname :=
    Graph.produces_of_enumerate Travel.enumerate_eq (by simp)
  have hcity : Travel.city ∈ Travel.graph.definitions := by simp [Travel.graph]
  have hleaves : Travel.city ∈ Travel.leaves.definitions := by simp [Travel.leaves]
  refine ⟨⟨hproduced, fun x hx => ?_⟩, Travel.produces_fromParis, fun x hx => ?_⟩
  · obtain rfl := List.mem_singleton.mp hx
    exact value_mem_writtenValues Travel.ofDefinitions_eq hproduced hcity rfl
      Travel.value_ne_none hx rfl (Or.inl (by decide))
  · obtain rfl := List.mem_singleton.mp hx
    exact ⟨by decide, value_mem_writtenValues Travel.ofDefinitions_leaves
      Travel.produces_fromParis hleaves rfl Travel.value_ne_none hx rfl
      (Or.inr Travel.hasCasedValues_leaves)⟩

/-- Where the text is the value, the casing changes the value, and no rule names that one. -/
theorem value_not_written :
    Graph.ofDefinitions [Travel.city, Travel.visit] = .ok Travel.graph ∧
      (∀ r ∈ Travel.city.allRules, r.value ≠ none) ∧
      Travel.graph.Produces Travel.visit.key Travel.paris ∧
      ∀ x ∈ Travel.paris.entities, x.slot = Travel.city.name ∧
        x.value ∉ Travel.city.writtenValues := by
  have hproduced : Travel.graph.Produces Travel.visit.key Travel.paris :=
    Graph.produces_of_enumerate Travel.enumerate_eq (by simp)
  refine ⟨Travel.ofDefinitions_eq, Travel.value_ne_none, hproduced, fun x hx => ?_⟩
  obtain rfl := List.mem_singleton.mp hx
  exact ⟨rfl, by decide⟩

end Phrasebook
