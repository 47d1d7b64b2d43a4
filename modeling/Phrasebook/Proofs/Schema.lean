import Phrasebook.Proofs.Json.Fields
import Phrasebook.Schema.Violations
import Mathlib.Data.List.Forall2

/-!
What a schema asks.

A value meets a schema if it departs from it nowhere, and where it departs is listed along the
value.  Here it is said along the schema instead: one equation for each keyword, and one
equivalence for each of the ways in which the schema of a document puts keywords together.

Of an object without repeated names a record asks what a decoder asks: the fields that are
needed are there, and a field that is there meets the schema of its name.
-/

namespace Phrasebook.Schema

/-! ### Keyword by keyword -/

-- Every lemma on a keyword needs the equations of the search.
attribute [local simp] violations violationsOfAll violationsOfItems violationsOfFields countMet

theorem isMetBy_iff {s : Schema} {j : Json} : s.isMetBy j = true ↔ violations s j = [] :=
  List.isEmpty_iff

theorem violationUnless_eq_nil_iff {holds : Bool} : violationUnless holds = [] ↔ holds = true := by
  cases holds <;> simp [violationUnless]

theorem violationsOfAll_eq_nil_iff {parts : List Schema} {j : Json} :
    violationsOfAll parts j = [] ↔ ∀ part ∈ parts, part.isMetBy j = true := by
  induction parts with
  | nil => simp [violationsOfAll]
  | cons part rest ih =>
      rw [violationsOfAll, List.append_eq_nil_iff, ih, List.forall_mem_cons, isMetBy_iff]

theorem countMet_eq (parts : List Schema) (j : Json) :
    countMet parts j = parts.countP (isMetBy · j) := by
  induction parts with
  | nil => rw [countMet, List.countP_nil]
  | cons part rest ih =>
      rw [countMet, ih, List.countP_cons, Nat.add_comm]
      rfl

section

variable {j : Json}

@[simp]
theorem isMetBy_shape {s : Shape} : (shape s).isMetBy j = s.schema.isMetBy j := by
  unfold isMetBy
  rw [violations]

@[simp]
theorem isMetBy_names {allowed : List String} :
    (names allowed).isMetBy j = true ↔ ∃ name ∈ allowed, j = .string name := by
  rw [isMetBy_iff]
  by_cases h : ∃ name, j = .string name
  · obtain ⟨name, rfl⟩ := h
    rw [violations, violationUnless_eq_nil_iff]
    simp
  · rw [violations, violationUnless_eq_nil_iff]
    · simp only [Bool.false_eq_true, false_iff]
      rintro ⟨name, -, rfl⟩
      exact h ⟨name, rfl⟩
    · exact fun name hname => h ⟨name, hname⟩

@[simp]
theorem isMetBy_every {parts : List Schema} :
    (every parts).isMetBy j = true ↔ ∀ part ∈ parts, part.isMetBy j = true := by
  rw [isMetBy_iff, violations, violationsOfAll_eq_nil_iff]

@[simp]
theorem isMetBy_allOf {parts : List Schema} :
    (allOf parts).isMetBy j = true ↔ ∀ part ∈ parts, part.isMetBy j = true := by
  rw [isMetBy_iff, violations, violationsOfAll_eq_nil_iff]

@[simp]
theorem isMetBy_anyOf {parts : List Schema} :
    (anyOf parts).isMetBy j = true ↔ ∃ part ∈ parts, part.isMetBy j = true := by
  rw [isMetBy_iff, violations, violationUnless_eq_nil_iff, countMet_eq, decide_eq_true_iff,
    List.countP_pos_iff]

@[simp]
theorem isMetBy_oneOf {parts : List Schema} :
    (oneOf parts).isMetBy j = true ↔ parts.countP (isMetBy · j) = 1 := by
  rw [isMetBy_iff, violations, violationUnless_eq_nil_iff, countMet_eq, beq_iff_eq]

@[simp]
theorem isMetBy_format {name : String} : (format name).isMetBy j = true := by
  rw [isMetBy_iff, violations] <;> simp

@[simp]
theorem isMetBy_describedAs {words : String} : (describedAs words).isMetBy j = true := by
  rw [isMetBy_iff, violations] <;> simp

@[simp]
theorem isMetBy_default {value : Json} : (default value).isMetBy j = true := by
  rw [isMetBy_iff, violations] <;> simp

@[simp]
theorem isMetBy_notNegative {n : Json.Number} :
    notNegative.isMetBy (.number n) = isNotNegative n := by
  rw [Bool.eq_iff_iff, isMetBy_iff, violations, violationUnless_eq_nil_iff]

@[simp]
theorem isMetBy_required {needed : List String} {fields : List (String × Json)} :
    (required needed).isMetBy (.object fields) = true ↔
      ∀ name ∈ needed, (Json.field? name (.object fields)).isSome := by
  rw [isMetBy_iff, violations, violationUnless_eq_nil_iff, List.all_eq_true]
  refine forall₂_congr fun name _ => ?_
  rw [List.any_eq_true, Json.field?, List.lookup_isSome_iff]
  exact exists_congr fun field => and_congr_right fun _ => by rw [BEq.comm]

theorem violationsOfItems_eq_nil_iff {s : Schema} {index : Nat} {items : List Json} :
    violationsOfItems s index items = [] ↔ ∀ item ∈ items, s.isMetBy item = true := by
  induction items generalizing index with
  | nil => simp [violationsOfItems]
  | cons item rest ih =>
      rw [violationsOfItems, List.append_eq_nil_iff, List.map_eq_nil_iff, ih,
        List.forall_mem_cons, isMetBy_iff]

@[simp]
theorem isMetBy_items {s : Schema} {xs : List Json} :
    (items s).isMetBy (.array xs) = true ↔ ∀ x ∈ xs, s.isMetBy x = true := by
  rw [isMetBy_iff, violations, violationsOfItems_eq_nil_iff]

/-- What is asked of one field: the schema of its name, or that other fields are welcome. -/
def Admits (closed : Bool) (schemas : List (String × Schema)) (field : String × Json) : Prop :=
  match schemas.lookup field.1 with
  | some s => s.isMetBy field.2 = true
  | none => closed = false

theorem isMetBy_properties {closed : Bool} {schemas : List (String × Schema)}
    {fields : List (String × Json)} :
    (properties closed schemas).isMetBy (.object fields) = true ↔
      ∀ field ∈ fields, Admits closed schemas field := by
  rw [isMetBy_iff, violations]
  induction fields with
  | nil => simp [violationsOfFields]
  | cons field rest ih =>
      rw [violationsOfFields, List.append_eq_nil_iff, ih, List.forall_mem_cons]
      refine and_congr_left fun _ => ?_
      unfold Admits
      cases schemas.lookup field.1 with
      | some s => exact List.map_eq_nil_iff.trans isMetBy_iff.symm
      | none => rw [violationUnless_eq_nil_iff, Bool.not_eq_true']

end

/-! ### Types -/

section

variable {j : Json}

/-- What it says of a value that a type admits it. -/
theorem admits_iff (type : ValueType) :
    type.admits j = true ↔
      match type with
      | .null => j = .null
      | .string => ∃ s, j = .string s
      | .number => ∃ n, j = .number n
      | .integer => ∃ n, j = .number n ∧ isIntegral n = true
      | .array => ∃ items, j = .array items
      | .object => ∃ fields, j = .object fields := by
  cases type <;> cases j <;> simp [ValueType.admits]

theorem isMetBy_type_iff {type : ValueType} :
    (types [type]).isMetBy j = true ↔ type.admits j = true := by
  rw [isMetBy_iff, violations, violationUnless_eq_nil_iff, List.any_cons, List.any_nil,
    Bool.or_false]

theorem isMetBy_typeOrNull_iff {type : ValueType} :
    (types [type, .null]).isMetBy j = true ↔ type.admits j = true ∨ j = .null := by
  rw [isMetBy_iff, violations, violationUnless_eq_nil_iff, List.any_cons, List.any_cons,
    List.any_nil, Bool.or_false, Bool.or_eq_true, admits_iff .null]

/-! ### The ways in which keywords stand together -/

@[simp]
theorem isMetBy_noted {words : String} {s : Schema} :
    (noted words s).isMetBy j = s.isMetBy j := by
  rw [Bool.eq_iff_iff]
  simp [noted]

theorem isMetBy_pair_iff {a b : Schema} :
    (every [a, b]).isMetBy j = true ↔ a.isMetBy j = true ∧ b.isMetBy j = true := by
  rw [isMetBy_every, List.forall_mem_cons, List.forall_mem_singleton]

theorem isMetBy_allOf_shape_iff {s : Shape} :
    (allOf [shape s]).isMetBy j = true ↔ s.schema.isMetBy j = true := by
  rw [isMetBy_allOf, List.forall_mem_singleton, isMetBy_shape]

/-- A number of which the usual value is told. -/
theorem isMetBy_usualNumber_iff {value : Json} {name : String} :
    (every [default value, types [.number], format name]).isMetBy j = true ↔
      ∃ n, j = .number n := by
  rw [isMetBy_every, List.forall_mem_cons, List.forall_mem_cons, List.forall_mem_singleton,
    isMetBy_type_iff, admits_iff .number]
  simp

theorem isMetBy_text_iff : text.isMetBy j = true ↔ ∃ s, j = .string s :=
  isMetBy_type_iff.trans (admits_iff .string)

theorem isMetBy_textOrNull_iff :
    textOrNull.isMetBy j = true ↔ (∃ s, j = .string s) ∨ j = .null := by
  rw [textOrNull, isMetBy_typeOrNull_iff, admits_iff .string]

theorem isMetBy_enum_iff {allowed : List String} :
    (every [types [.string], names allowed]).isMetBy j = true ↔
      ∃ name ∈ allowed, j = .string name := by
  rw [isMetBy_pair_iff, isMetBy_type_iff, admits_iff .string, isMetBy_names]
  refine ⟨fun h => h.2, fun h => ⟨?_, h⟩⟩
  obtain ⟨name, -, hname⟩ := h
  exact ⟨name, hname⟩

theorem isMetBy_word_iff {name : String} : (word name).isMetBy j = true ↔ j = .string name := by
  rw [word, isMetBy_enum_iff, List.exists_mem_cons_iff]
  simp

theorem isMetBy_listOf_iff {s : Schema} :
    (listOf s).isMetBy j = true ↔ ∃ items, j = .array items ∧ ∀ x ∈ items, s.isMetBy x = true := by
  rw [listOf, isMetBy_pair_iff, isMetBy_type_iff, admits_iff .array]
  constructor
  · rintro ⟨⟨items, rfl⟩, hitems⟩
    exact ⟨items, rfl, isMetBy_items.mp hitems⟩
  · rintro ⟨items, rfl, hitems⟩
    exact ⟨⟨items, rfl⟩, isMetBy_items.mpr hitems⟩

theorem isMetBy_shapeOrNull_iff {s : Shape} :
    (shapeOrNull s).isMetBy j = true ↔ s.schema.isMetBy j = true ∨ j = .null := by
  simp [shapeOrNull, isMetBy_type_iff, admits_iff]

/-- Where no two alternatives can be met at once, to meet exactly one is to meet any. -/
theorem isMetBy_oneOf_iff {parts : List Schema}
    (h : parts.Pairwise fun a b => a.isMetBy j = true → ¬ b.isMetBy j = true) :
    (oneOf parts).isMetBy j = true ↔ ∃ part ∈ parts, part.isMetBy j = true := by
  rw [isMetBy_oneOf]
  induction parts with
  | nil => simp
  | cons part rest ih =>
      obtain ⟨hpart, hrest⟩ := List.pairwise_cons.mp h
      rw [List.countP_cons, List.exists_mem_cons_iff]
      by_cases hmet : part.isMetBy j = true
      · have hnone : rest.countP (isMetBy · j) = 0 := by
          rw [List.countP_eq_zero]
          exact fun other hother => hpart other hother hmet
        simp [hmet, hnone]
      · simp [hmet, ih hrest]

/-- The fields that a record may have meet their schemas, whatever else an object has. -/
theorem isMetBy_properties_iff {schemas : List (String × Schema)}
    (hschemas : (schemas.map (·.1)).Nodup) {fields : List (String × Json)}
    (hfields : (fields.map (·.1)).Nodup) :
    (properties false schemas).isMetBy (.object fields) = true ↔
      ∀ entry ∈ schemas, ∀ x, Json.field? entry.1 (.object fields) = some x →
        entry.2.isMetBy x = true := by
  rw [isMetBy_properties]
  constructor
  · intro h entry hentry x hx
    have hadmits := h _ (Json.mem_of_lookup hx)
    unfold Admits at hadmits
    rwa [Json.lookup_of_mem hschemas hentry] at hadmits
  · intro h field hfield
    unfold Admits
    cases hlookup : schemas.lookup field.1 with
    | none => rfl
    | some s => exact h _ (Json.mem_of_lookup hlookup) _ (Json.lookup_of_mem hfields hfield)

theorem isMetBy_open_iff {schemas : List (String × Schema)} (hschemas : (schemas.map (·.1)).Nodup)
    (hj : j.NoRepeats) :
    (every [types [.object], properties false schemas]).isMetBy j = true ↔
      (∃ fields, j = .object fields) ∧
        schemas.Forall fun entry => ∀ x, j.field? entry.1 = some x → entry.2.isMetBy x = true := by
  rw [isMetBy_pair_iff, isMetBy_type_iff, admits_iff .object, List.forall_iff_forall_mem]
  refine and_congr_right ?_
  rintro ⟨fields, rfl⟩
  exact isMetBy_properties_iff hschemas hj.names

/-- What a record asks of the field of one name: to be there if it is needed, and to meet its
schema if it is there. -/
def Asks (needed : List String) (entry : String × Schema) (j : Json) : Prop :=
  if entry.1 ∈ needed then ∃ x, j.field? entry.1 = some x ∧ entry.2.isMetBy x = true
  else ∀ x, j.field? entry.1 = some x → entry.2.isMetBy x = true

/-- **A record asks for its fields, one by one.** -/
theorem isMetBy_record_iff {needed : List String} {schemas : List (String × Schema)}
    (hneeded : ∀ name ∈ needed, name ∈ schemas.map (·.1)) (hschemas : (schemas.map (·.1)).Nodup)
    (hj : j.NoRepeats) :
    (record needed schemas).isMetBy j = true ↔
      (∃ fields, j = .object fields) ∧ schemas.Forall fun entry => Asks needed entry j := by
  rw [record, isMetBy_every, List.forall_mem_cons, List.forall_mem_cons,
    List.forall_mem_singleton, isMetBy_type_iff, admits_iff .object, List.forall_iff_forall_mem]
  refine and_congr_right ?_
  rintro ⟨fields, rfl⟩
  rw [isMetBy_required, isMetBy_properties_iff hschemas hj.names]
  constructor
  · rintro ⟨hsome, hmet⟩ entry hentry
    unfold Asks
    split
    · rename_i hname
      obtain ⟨x, hx⟩ := Option.isSome_iff_exists.mp (hsome entry.1 hname)
      exact ⟨x, hx, hmet entry hentry x hx⟩
    · exact hmet entry hentry
  · intro h
    refine ⟨fun name hname => ?_, fun entry hentry x hx => ?_⟩
    · obtain ⟨entry, hentry, rfl⟩ := List.mem_map.mp (hneeded name hname)
      have hasks := h entry hentry
      unfold Asks at hasks
      rw [if_pos hname] at hasks
      obtain ⟨x, hx, -⟩ := hasks
      exact Option.isSome_of_eq_some hx
    · have hasks := h entry hentry
      unfold Asks at hasks
      split at hasks
      · obtain ⟨y, hy, hmet⟩ := hasks
        obtain rfl := Option.some.inj (hx.symm.trans hy)
        exact hmet
      · exact hasks x hx

/-! ### The shapes of a document -/

theorem isMetBy_casing_iff : casing.isMetBy j = true ↔ ∃ c : Casing, j = .string c.name := by
  rw [casing, isMetBy_noted, isMetBy_oneOf_iff]
  · simp only [List.exists_mem_cons_iff, List.not_mem_nil, false_and, exists_false, or_false,
      isMetBy_noted, isMetBy_word_iff, isMetBy_enum_iff]
    constructor
    · rintro (⟨name, hname, rfl⟩ | rfl)
      · obtain ⟨c, -, rfl⟩ := List.mem_map.mp hname
        exact ⟨c, rfl⟩
      · exact ⟨.either, rfl⟩
    · rintro ⟨c, rfl⟩
      cases c with
      | either => exact .inr rfl
      | _ => exact .inl ⟨_, List.mem_map_of_mem (by decide), rfl⟩
  · simp only [List.pairwise_pair, isMetBy_noted, isMetBy_word_iff, isMetBy_enum_iff]
    rintro ⟨name, hname, rfl⟩ heither
    obtain rfl := Json.string.inj heither
    exact absurd hname (by decide)

theorem isMetBy_kind_iff : kind.isMetBy j = true ↔ ∃ k : Kind, j = .string k.name := by
  rw [kind, isMetBy_noted, isMetBy_enum_iff]
  constructor
  · rintro ⟨name, hname, rfl⟩
    obtain ⟨k, -, rfl⟩ := List.mem_map.mp hname
    exact ⟨k, rfl⟩
  · rintro ⟨k, rfl⟩
    exact ⟨_, List.mem_map_of_mem (by cases k <;> decide), rfl⟩

theorem isMetBy_modifiers_iff (hj : j.NoRepeats) :
    modifiers.isMetBy j = true ↔
      (∃ fields, j = .object fields) ∧
        (∀ x, j.field? "casing" = some x → ∃ c : Casing, x = .string c.name) ∧
        (∀ x, j.field? "optional" = some x → (∃ n, x = .number n) ∨ x = .null) ∧
        (∀ x, j.field? "arguments" = some x →
          ∃ items, x = .array items ∧ ∀ y ∈ items, ∃ s, y = .string s) ∧
        (∀ x, j.field? "variation" = some x → (∃ s, x = .string s) ∨ x = .null) := by
  rw [modifiers, isMetBy_noted, isMetBy_open_iff (by decide) hj]
  simp only [List.Forall, isMetBy_noted, isMetBy_pair_iff, isMetBy_default, true_and,
    isMetBy_allOf_shape_iff, Shape.schema, isMetBy_casing_iff, isMetBy_format, and_true,
    isMetBy_typeOrNull_iff, admits_iff .number, isMetBy_listOf_iff, isMetBy_text_iff,
    isMetBy_textOrNull_iff]

/-- An object whose only name is given, and that has a field, has this field alone. -/
theorem eq_singleton_of_names {name : String} {fields : List (String × Json)}
    (hnodup : (fields.map (·.1)).Nodup) (hnames : ∀ field ∈ fields, field.1 = name) {x : Json}
    (hx : (name, x) ∈ fields) : fields = [(name, x)] := by
  match fields with
  | [] => exact absurd hx List.not_mem_nil
  | [field] => rw [List.mem_singleton.mp hx]
  | first :: second :: rest =>
      have hfirst := hnames first (by simp)
      have hsecond := hnames second (by simp)
      refine absurd ?_ (List.nodup_cons.mp hnodup).1
      simp [hfirst, hsecond]

theorem isMetBy_count_iff {name : String} :
    (every [types [.integer], format name, notNegative]).isMetBy j = true ↔
      ∃ n, j = .number n ∧ isIntegral n = true ∧ isNotNegative n = true := by
  rw [isMetBy_every, List.forall_mem_cons, List.forall_mem_cons, List.forall_mem_singleton,
    isMetBy_type_iff, admits_iff .integer]
  constructor
  · rintro ⟨⟨n, rfl, hintegral⟩, -, hnotNegative⟩
    exact ⟨n, rfl, hintegral, isMetBy_notNegative ▸ hnotNegative⟩
  · rintro ⟨n, rfl, hintegral, hnotNegative⟩
    exact ⟨⟨n, rfl, hintegral⟩, isMetBy_format, isMetBy_notNegative.trans hnotNegative⟩

theorem admits_singleton_iff {name : String} {s : Schema} {field : String × Json} :
    Admits true [(name, s)] field ↔ field.1 = name ∧ s.isMetBy field.2 = true := by
  unfold Admits
  rw [Json.lookup_cons_eq, List.lookup_nil]
  by_cases h : field.1 = name
  · simp [h]
  · simp [h]

/-- A closed record with one field, and this is needed. -/
theorem isMetBy_oneField_iff {name : String} {s : Schema} (hj : j.NoRepeats) :
    (every [types [.object], required [name], properties true [(name, s)]]).isMetBy j = true ↔
      ∃ x, j = .object [(name, x)] ∧ s.isMetBy x = true := by
  rw [isMetBy_every, List.forall_mem_cons, List.forall_mem_cons, List.forall_mem_singleton,
    isMetBy_type_iff, admits_iff .object]
  constructor
  · rintro ⟨⟨fields, rfl⟩, hrequired, hproperties⟩
    rw [isMetBy_required, List.forall_mem_singleton] at hrequired
    simp only [isMetBy_properties, admits_singleton_iff] at hproperties
    obtain ⟨x, hx⟩ := Option.isSome_iff_exists.mp hrequired
    have hmem := Json.mem_of_lookup hx
    obtain rfl := eq_singleton_of_names hj.names (fun field hfield => (hproperties field hfield).1)
      hmem
    exact ⟨x, rfl, (hproperties _ hmem).2⟩
  · rintro ⟨x, rfl, hx⟩
    refine ⟨⟨_, rfl⟩, ?_, ?_⟩
    · rw [isMetBy_required, List.forall_mem_singleton, Json.field?, List.lookup_cons_self]
      rfl
    · simp only [isMetBy_properties, admits_singleton_iff, List.mem_singleton, forall_eq]
      exact ⟨trivial, hx⟩

theorem isMetBy_amount_iff (hj : j.NoRepeats) :
    amount.isMetBy j = true ↔
      j = .string "all" ∨
        ∃ n, j = .object [("count", .number n)] ∧ isIntegral n = true ∧ isNotNegative n = true := by
  rw [amount, isMetBy_noted, isMetBy_oneOf_iff]
  · simp only [List.exists_mem_cons_iff, List.not_mem_nil, false_and, exists_false, or_false,
      isMetBy_noted, isMetBy_word_iff, isMetBy_oneField_iff hj, isMetBy_count_iff]
    refine or_congr_right ⟨?_, ?_⟩
    · rintro ⟨_, rfl, n, rfl, hn⟩
      exact ⟨n, rfl, hn⟩
    · rintro ⟨n, rfl, hn⟩
      exact ⟨_, rfl, n, rfl, hn⟩
  · simp only [List.pairwise_pair, isMetBy_noted, isMetBy_word_iff, isMetBy_oneField_iff hj]
    rintro rfl ⟨x, hobject, -⟩
    exact Json.noConfusion hobject

theorem isMetBy_directive_iff (hj : j.NoRepeats) :
    directive.isMetBy j = true ↔
      (∃ fields, j = .object fields) ∧
        (∀ x, j.field? "train" = some x → amount.isMetBy x = true ∨ x = .null) ∧
        (∀ x, j.field? "test" = some x → amount.isMetBy x = true ∨ x = .null) := by
  rw [directive, isMetBy_noted, isMetBy_open_iff (by decide) hj]
  simp only [List.Forall, isMetBy_shapeOrNull_iff, Shape.schema]

theorem isMetBy_rule_iff (hj : j.NoRepeats) :
    rule.isMetBy j = true ↔
      (∃ fields, j = .object fields) ∧
        (∃ x, j.field? "tokens" = some x ∧
          ∃ items, x = .array items ∧ ∀ y ∈ items, token.isMetBy y = true) ∧
        (∀ x, j.field? "value" = some x → (∃ s, x = .string s) ∨ x = .null) ∧
        (∀ x, j.field? "weight" = some x → ∃ n, x = .number n) := by
  rw [rule, isMetBy_noted, isMetBy_record_iff (by decide) (by decide) hj]
  simp only [List.Forall, Asks, List.mem_singleton, String.reduceEq, if_true, if_false,
    isMetBy_noted, isMetBy_listOf_iff, isMetBy_shape, Shape.schema, isMetBy_textOrNull_iff,
    isMetBy_usualNumber_iff]

theorem isMetBy_variation_iff (hj : j.NoRepeats) :
    variation.isMetBy j = true ↔
      (∃ fields, j = .object fields) ∧
        (∃ x, j.field? "name" = some x ∧ ∃ s, x = .string s) ∧
        (∃ x, j.field? "rules" = some x ∧
          ∃ items, x = .array items ∧ ∀ y ∈ items, rule.isMetBy y = true) := by
  rw [variation, isMetBy_noted, isMetBy_record_iff (by decide) (by decide) hj]
  simp only [List.Forall, Asks, List.mem_cons, List.not_mem_nil, true_or, or_true, or_false,
    if_true, isMetBy_text_iff, isMetBy_listOf_iff, isMetBy_shape, Shape.schema]

theorem isMetBy_definition_iff (hj : j.NoRepeats) :
    definition.isMetBy j = true ↔
      (∃ fields, j = .object fields) ∧
        (∀ x, j.field? "directive" = some x → directive.isMetBy x = true ∨ x = .null) ∧
        (∃ x, j.field? "kind" = some x ∧ ∃ k : Kind, x = .string k.name) ∧
        (∃ x, j.field? "name" = some x ∧ ∃ s, x = .string s) ∧
        (∀ x, j.field? "parameters" = some x →
          ∃ items, x = .array items ∧ ∀ y ∈ items, ∃ s, y = .string s) ∧
        (∀ x, j.field? "rules" = some x →
          ∃ items, x = .array items ∧ ∀ y ∈ items, rule.isMetBy y = true) ∧
        (∀ x, j.field? "variations" = some x →
          ∃ items, x = .array items ∧ ∀ y ∈ items, variation.isMetBy y = true) := by
  rw [definition, isMetBy_noted, isMetBy_record_iff (by decide) (by decide) hj]
  simp only [List.Forall, Asks, List.mem_cons, List.not_mem_nil, String.reduceEq, or_false,
    or_true, if_true, if_false, isMetBy_noted, isMetBy_shapeOrNull_iff, Shape.schema,
    isMetBy_shape, isMetBy_kind_iff, isMetBy_text_iff, isMetBy_listOf_iff, isMetBy_pair_iff,
    isMetBy_default, true_and]

theorem isMetBy_document_iff (hj : j.NoRepeats) :
    document.isMetBy j = true ↔
      (∃ fields, j = .object fields) ∧
        ∃ x, j.field? "definitions" = some x ∧
          ∃ items, x = .array items ∧ ∀ y ∈ items, definition.isMetBy y = true := by
  rw [document, isMetBy_noted, isMetBy_record_iff (by decide) (by decide) hj]
  simp only [List.Forall, Asks, List.mem_singleton, if_true, isMetBy_listOf_iff, isMetBy_shape,
    Shape.schema]

/-- A record that asks for a type tells it. -/
theorem type_of_isMetBy {needed : List String} {schemas : List (String × Schema)}
    (hneeded : ∀ name ∈ needed, name ∈ schemas.map (·.1)) (hschemas : (schemas.map (·.1)).Nodup)
    {name : String} (htype : ("type", word name) ∈ schemas) (hmem : "type" ∈ needed)
    (hj : j.NoRepeats) (h : (record needed schemas).isMetBy j = true) :
    j.field? "type" = some (.string name) := by
  obtain ⟨-, hasks⟩ := (isMetBy_record_iff hneeded hschemas hj).mp h
  have hname := List.forall_iff_forall_mem.mp hasks _ htype
  unfold Asks at hname
  rw [if_pos hmem] at hname
  obtain ⟨x, hx, hmet⟩ := hname
  rw [hx, isMetBy_word_iff.mp hmet]

theorem isMetBy_token_iff (hj : j.NoRepeats) :
    token.isMetBy j = true ↔
      (∃ fields, j = .object fields) ∧
        (∀ x, j.field? "modifiers" = some x → modifiers.isMetBy x = true) ∧
        (((∃ x, j.field? "text" = some x ∧ ∃ s, x = .string s) ∧
            ∃ x, j.field? "type" = some x ∧ x = .string TokenType.word.name) ∨
          ((∃ x, j.field? "rules" = some x ∧
              ∃ items, x = .array items ∧ ∀ y ∈ items, rule.isMetBy y = true) ∧
            ∃ x, j.field? "type" = some x ∧ x = .string TokenType.group.name) ∨
          ((∃ x, j.field? "kind" = some x ∧ ∃ k : Kind, x = .string k.name) ∧
            (∃ x, j.field? "name" = some x ∧ ∃ s, x = .string s) ∧
            ∃ x, j.field? "type" = some x ∧ x = .string TokenType.reference.name)) := by
  rw [token, isMetBy_every, List.forall_mem_cons, List.forall_mem_cons, List.forall_mem_singleton,
    isMetBy_noted, isMetBy_type_iff, admits_iff .object]
  refine and_congr_right ?_
  rintro ⟨fields, rfl⟩
  rw [isMetBy_properties_iff (by decide) hj.names, and_comm]
  refine and_congr ?_ ?_
  · simp only [List.mem_singleton, forall_eq, isMetBy_pair_iff, isMetBy_default, true_and,
      isMetBy_allOf_shape_iff, Shape.schema]
  · rw [isMetBy_oneOf_iff]
    · simp only [List.exists_mem_cons_iff, List.not_mem_nil, false_and, exists_false, or_false,
        isMetBy_noted]
      refine (or_congr (isMetBy_record_iff (by decide) (by decide) hj) (or_congr
        (isMetBy_record_iff (by decide) (by decide) hj)
        (isMetBy_record_iff (by decide) (by decide) hj))).trans ?_
      simp only [List.Forall, Asks, List.mem_cons, List.not_mem_nil, or_false, true_or, or_true,
        if_true, isMetBy_text_iff, isMetBy_listOf_iff, isMetBy_shape, Shape.schema,
        isMetBy_word_iff, isMetBy_kind_iff, Json.object.injEq, exists_eq', true_and]
    · -- At most one of the three is met, for each asks for a type of its own.
      have hword : (record ["text", "type"]
          [("text", text), ("type", word TokenType.word.name)]).isMetBy (.object fields) = true →
          Json.field? "type" (.object fields) = some (.string TokenType.word.name) :=
        type_of_isMetBy (by decide) (by decide) (by simp) (by decide) hj
      have hgroup : (record ["rules", "type"] [("rules", listOf (shape .rule)),
          ("type", word TokenType.group.name)]).isMetBy (.object fields) = true →
          Json.field? "type" (.object fields) = some (.string TokenType.group.name) :=
        type_of_isMetBy (by decide) (by decide) (by simp) (by decide) hj
      have hreference : (record ["kind", "name", "type"] [("kind", shape .kind), ("name", text),
          ("type", word TokenType.reference.name)]).isMetBy (.object fields) = true →
          Json.field? "type" (.object fields) = some (.string TokenType.reference.name) :=
        type_of_isMetBy (by decide) (by decide) (by simp) (by decide) hj
      have hapart : ∀ {a b : String}, Json.field? "type" (.object fields) = some (.string a) →
          Json.field? "type" (.object fields) = some (.string b) → a = b := fun ha hb =>
        Json.string.inj (Option.some.inj (ha.symm.trans hb))
      rw [List.pairwise_cons, List.pairwise_pair, List.forall_mem_cons, List.forall_mem_singleton]
      simp only [isMetBy_noted]
      refine ⟨⟨fun h h' => ?_, fun h h' => ?_⟩, fun h h' => ?_⟩
      · exact absurd (hapart (hword h) (hgroup h')) (by decide)
      · exact absurd (hapart (hword h) (hreference h')) (by decide)
      · exact absurd (hapart (hgroup h) (hreference h')) (by decide)

end

end Phrasebook.Schema
