import Phrasebook.Document.Encode
import Phrasebook.Example.Json
import Mathlib.Data.List.Nodup

/-!
What a decoder sees of an object.

A value that was read as a whole has no two fields of one name (`NoRepeats`); only the last of
them was kept.  Of an object of this kind a decoder sees the field of each name that it knows,
and nothing else: neither the order of the fields nor any field with another name.  `Holds`
says so, and it is all that is used of records later.

Whether something is decoded at all (`Decodes`) is a question that goes down along the decoder,
one rule for each way in which decoders are put together.
-/

namespace Phrasebook

namespace Json

/-! ### Values without repeated names -/

/-- No object in the value has two fields of one name. -/
inductive NoRepeats : Json → Prop
  | null : NoRepeats null
  | bool (b : Bool) : NoRepeats (bool b)
  | number (n : Number) : NoRepeats (number n)
  | string (s : String) : NoRepeats (string s)
  | array {items : List Json} (hitems : ∀ item ∈ items, NoRepeats item) : NoRepeats (array items)
  | object {fields : List (String × Json)} (hnames : (fields.map (·.1)).Nodup)
      (hvalues : ∀ field ∈ fields, NoRepeats field.2) : NoRepeats (object fields)

theorem NoRepeats.item {items : List Json} (h : NoRepeats (.array items)) :
    ∀ item ∈ items, item.NoRepeats := by
  cases h with
  | array hitems => exact hitems

theorem NoRepeats.names {fields : List (String × Json)} (h : NoRepeats (.object fields)) :
    (fields.map (·.1)).Nodup := by
  cases h with
  | object hnames _ => exact hnames

theorem NoRepeats.value {fields : List (String × Json)} (h : NoRepeats (.object fields)) :
    ∀ field ∈ fields, field.2.NoRepeats := by
  cases h with
  | object _ hvalues => exact hvalues

theorem withoutEarlier_sublist {α : Type} (fields : List (String × α)) :
    (withoutEarlier fields).Sublist fields := by
  induction fields with
  | nil => exact .slnil
  | cons field rest ih =>
      rw [withoutEarlier]
      split
      · exact ih.cons field
      · exact ih.cons_cons field

theorem nodup_withoutEarlier {α : Type} (fields : List (String × α)) :
    ((withoutEarlier fields).map (·.1)).Nodup := by
  induction fields with
  | nil => exact List.nodup_nil
  | cons field rest ih =>
      rw [withoutEarlier]
      split
      · exact ih
      · rename_i hnone
        refine List.nodup_cons.mpr ⟨fun hmem => hnone ?_, ih⟩
        obtain ⟨other, hother, hname⟩ := List.mem_map.mp hmem
        exact List.any_eq_true.mpr
          ⟨other, (withoutEarlier_sublist rest).mem hother, beq_iff_eq.mpr hname⟩

theorem withoutEarlier_of_nodup {α : Type} {fields : List (String × α)}
    (h : (fields.map (·.1)).Nodup) : withoutEarlier fields = fields := by
  induction fields with
  | nil => rfl
  | cons field rest ih =>
      obtain ⟨hfield, hrest⟩ := List.nodup_cons.mp h
      have hnone : (rest.any (·.1 == field.1)) = false := by
        rw [List.any_eq_false]
        intro other hother hname
        exact hfield (List.mem_map.mpr ⟨other, hother, beq_iff_eq.mp hname⟩)
      rw [withoutEarlier, hnone, ih hrest]
      rfl

theorem lastFieldsOfItems_eq (items : List Json) :
    lastFieldsOfItems items = items.map lastFields := by
  induction items with
  | nil => rfl
  | cons item rest ih => rw [lastFieldsOfItems, ih, List.map_cons]

theorem lastFieldsOfFields_eq (fields : List (String × Json)) :
    lastFieldsOfFields fields = fields.map fun field => (field.1, field.2.lastFields) := by
  induction fields with
  | nil => rfl
  | cons field rest ih => rw [lastFieldsOfFields, ih, List.map_cons]

theorem NoRepeats.lastFields_eq {j : Json} (h : j.NoRepeats) : j.lastFields = j := by
  induction h with
  | null | bool | number | string => rfl
  | array _ ih =>
      rw [lastFields, lastFieldsOfItems_eq, List.map_congr_left ih, List.map_id']
  | object hnames _ ih =>
      have hfields : ∀ field ∈ _, (field.1, lastFields field.2) = field := fun field hfield =>
        Prod.ext rfl (ih field hfield)
      rw [lastFields, lastFieldsOfFields_eq, List.map_congr_left hfields, List.map_id',
        withoutEarlier_of_nodup hnames]

mutual

/-- A value that is read as a whole has no repeated names. -/
theorem noRepeats_lastFields (j : Json) : j.lastFields.NoRepeats := by
  match j with
  | null => exact .null
  | bool b => exact .bool b
  | number n => exact .number n
  | string s => exact .string s
  | array items => exact .array (noRepeats_lastFieldsOfItems items)
  | object fields =>
      exact .object (nodup_withoutEarlier _) fun field hfield =>
        noRepeats_lastFieldsOfFields fields field ((withoutEarlier_sublist _).mem hfield)

theorem noRepeats_lastFieldsOfItems (items : List Json) :
    ∀ item ∈ lastFieldsOfItems items, item.NoRepeats := by
  match items with
  | [] => exact fun _ h => absurd h List.not_mem_nil
  | item :: rest =>
      exact List.forall_mem_cons.mpr ⟨noRepeats_lastFields item, noRepeats_lastFieldsOfItems rest⟩

theorem noRepeats_lastFieldsOfFields (fields : List (String × Json)) :
    ∀ field ∈ lastFieldsOfFields fields, field.2.NoRepeats := by
  match fields with
  | [] => exact fun _ h => absurd h List.not_mem_nil
  | (name, value) :: rest =>
      exact List.forall_mem_cons.mpr
        ⟨noRepeats_lastFields value, noRepeats_lastFieldsOfFields rest⟩

end

/-! ### The field of a name -/

theorem lookup_cons_eq {α : Type} (name other : String) (value : α) (rest : List (String × α)) :
    ((other, value) :: rest).lookup name =
      if name = other then some value else rest.lookup name := by
  by_cases h : name = other
  · rw [if_pos h, h, List.lookup_cons_self]
  · rw [if_neg h, List.lookup_cons, beq_false_of_ne h]

theorem lookup_map {α β : Type} (f : α → β) (name : String) (fields : List (String × α)) :
    (fields.map fun field => (field.1, f field.2)).lookup name = (fields.lookup name).map f := by
  induction fields with
  | nil => rfl
  | cons field rest ih =>
      obtain ⟨other, value⟩ := field
      rw [List.map_cons, lookup_cons_eq, lookup_cons_eq, ih, apply_ite (Option.map f),
        Option.map_some]

theorem lookup_filter {α : Type} {names : List String} {name : String} (h : name ∈ names)
    (fields : List (String × α)) :
    (fields.filter fun field => field.1 ∈ names).lookup name = fields.lookup name := by
  induction fields with
  | nil => rfl
  | cons field rest ih =>
      obtain ⟨other, value⟩ := field
      by_cases hmem : other ∈ names
      · rw [List.filter_cons_of_pos (by simpa using hmem), lookup_cons_eq, lookup_cons_eq, ih]
      · rw [List.filter_cons_of_neg (by simpa using hmem), lookup_cons_eq,
          if_neg fun hname : name = other => hmem (hname ▸ h), ih]

theorem mem_of_lookup {α : Type} {name : String} {value : α} {fields : List (String × α)}
    (h : fields.lookup name = some value) : (name, value) ∈ fields := by
  obtain ⟨front, rest, rfl, -⟩ := List.lookup_eq_some_iff.mp h
  exact List.mem_append_right front List.mem_cons_self

theorem lookup_of_mem {α : Type} {name : String} {value : α} {fields : List (String × α)}
    (hnames : (fields.map (·.1)).Nodup) (h : (name, value) ∈ fields) :
    fields.lookup name = some value := by
  induction fields with
  | nil => exact absurd h List.not_mem_nil
  | cons field rest ih =>
      obtain ⟨other, first⟩ := field
      obtain ⟨hother, hrest⟩ := List.nodup_cons.mp hnames
      rcases List.mem_cons.mp h with h | h
      · obtain ⟨rfl, rfl⟩ := Prod.mk.inj h
        rw [List.lookup_cons_self]
      · rw [lookup_cons_eq, if_neg fun hname => hother (List.mem_map.mpr ⟨_, h, hname⟩)]
        exact ih hrest h

theorem lookup_someField {α : Type} (name other : String) (encode : α → Json) (x : Option α) :
    (someField other encode x).lookup name = if name = other then x.map encode else none := by
  cases x with
  | none => rw [someField, List.lookup_nil, Option.map_none, ite_self]
  | some x => rw [someField, lookup_cons_eq, List.lookup_nil, Option.map_some]

theorem lookup_itemsField {α : Type} (name other : String) (encode : α → Json) (xs : List α) :
    (itemsField other encode xs).lookup name =
      if name = other then (if xs.isEmpty then none else some (ofList encode xs)) else none := by
  cases xs with
  | nil => rw [itemsField, List.lookup_nil, List.isEmpty_nil, if_pos rfl, ite_self]
  | cons x rest =>
      rw [itemsField, lookup_cons_eq, List.lookup_nil]
      · rfl
      · exact fun h => absurd h (List.cons_ne_nil x rest)

/-! ### Records -/

theorem exists_items (items : List Json) :
    ∃ parts, (array items).items = .ok parts ∧ parts.map (·.1) = items := by
  refine ⟨_, rfl, ?_⟩
  rw [List.map_map]
  exact List.attach_map_subtype_val items

theorem exists_fields (fields : List (String × Json)) :
    ∃ parts, (object fields).fields = .ok parts ∧
      parts.map (fun part => (part.1, part.2.1)) = fields := by
  refine ⟨_, rfl, ?_⟩
  rw [List.map_map]
  exact List.attach_map_subtype_val fields

theorem repeated?_of_nodup {names : List String} (h : names.Nodup) : repeated? names = none := by
  induction names with
  | nil => rfl
  | cons name rest ih =>
      obtain ⟨hname, hrest⟩ := List.nodup_cons.mp h
      rw [repeated?, if_neg hname, ih hrest]

/-- The record has the fields of the value, as far as their names are known. -/
def Record.Holds {j : Json} (r : Record j) (names : List String) : Prop :=
  ∀ name ∈ names, (r.lookup name).map (·.1) = j.field? name

/-- **Of an object without repeated names there is the record of any names.** -/
theorem exists_recordOfObject {j : Json} (hj : j.NoRepeats) (hobject : ∃ fields, j = object fields)
    (names : List String) : ∃ r, recordOfObject names j = .ok r ∧ r.Holds names := by
  obtain ⟨fields, rfl⟩ := hobject
  obtain ⟨parts, hparts, hmap⟩ := exists_fields fields
  have hnodup : (parts.map (·.1)).Nodup := by
    have hnames := hj.names
    rwa [← hmap, List.map_map] at hnames
  have hknown : ((parts.filter fun part => part.1 ∈ names).map (·.1)).Nodup :=
    hnodup.sublist ((List.filter_sublist).map _)
  refine ⟨parts.filter fun part => part.1 ∈ names, ?_, fun name hname => ?_⟩
  · unfold recordOfObject
    rw [hparts]
    simp only [bind, Except.bind, repeated?_of_nodup hknown]
  · rw [lookup_filter hname, ← lookup_map, hmap]
    rfl

theorem exists_record {j : Json} (hj : j.NoRepeats) (hobject : ∃ fields, j = object fields)
    (names : List String) : ∃ r, record names j = .ok r ∧ r.Holds names := by
  obtain ⟨fields, rfl⟩ := hobject
  exact exists_recordOfObject hj ⟨fields, rfl⟩ names

namespace Record.Holds

variable {j : Json} {r : Record j} {names : List String} {name : String} {α : Type}

theorem get (h : r.Holds names) (hname : name ∈ names) {x : Json} (hx : j.field? name = some x)
    (decode : Json → Decoded α) : r.get name decode = decode x := by
  rw [← h name hname] at hx
  obtain ⟨part, hpart, rfl⟩ := Option.map_eq_some_iff.mp hx
  unfold Record.get Record.partOf
  rw [hpart]

theorem getD (h : r.Holds names) (hname : name ∈ names) (default : α)
    (decode : Json → Decoded α) :
    r.getD name default decode =
      match j.field? name with
      | some x => decode x
      | none => .ok default := by
  unfold Record.getD Record.partOfD
  rw [← h name hname]
  cases r.lookup name with
  | none => rfl
  | some part => rfl

end Record.Holds

/-! ### Lists of values -/

theorem asList_array {α : Type} (decode : Json → Decoded α) (items : List Json) :
    asList decode (array items) = items.mapM decode := by
  obtain ⟨parts, hparts, hmap⟩ := exists_items items
  unfold asList
  rw [hparts]
  show parts.mapM (fun part => decode part.1) = _
  exact List.mapM_map.symm.trans (congrArg (List.mapM decode) hmap)

theorem mapM_eq_ok {α β : Type} {f : α → Decoded β} {xs : List α} {ys : List β}
    (h : List.Forall₂ (fun x y => f x = .ok y) xs ys) : xs.mapM f = .ok ys := by
  induction h with
  | nil => rfl
  | cons hx _ ih =>
      rw [List.mapM_cons, hx, ih]
      rfl

theorem asList_ofList {α : Type} {encode : α → Json} {decode : Json → Decoded α} {xs : List α}
    (h : ∀ x ∈ xs, decode (encode x) = .ok x) : asList decode (ofList encode xs) = .ok xs := by
  rw [ofList, asList_array]
  refine mapM_eq_ok ?_
  rw [List.forall₂_map_left_iff, List.forall₂_same]
  exact h

/-! ### Decoding that succeeds -/

/-- Something is decoded. -/
def Decodes {α : Type} (d : Decoded α) : Prop := ∃ x, d = .ok x

namespace Decodes

variable {α β : Type}

theorem pure (x : α) : Decodes (Pure.pure x : Decoded α) := ⟨x, rfl⟩

theorem bind {d : Decoded α} {f : α → Decoded β} (hd : Decodes d) (hf : ∀ x, Decodes (f x)) :
    Decodes (d >>= f) := by
  obtain ⟨x, rfl⟩ := hd
  exact hf x

theorem bind_ok {d : Decoded α} {f : α → Decoded β} {x : α} (hd : d = .ok x)
    (hf : Decodes (f x)) : Decodes (d >>= f) := by
  rw [hd]
  exact hf

theorem map {d : Decoded α} (hd : Decodes d) (f : α → β) : Decodes (f <$> d) := by
  obtain ⟨x, rfl⟩ := hd
  exact ⟨f x, rfl⟩

theorem asList {decode : Json → Decoded α} {items : List Json}
    (h : ∀ x ∈ items, Decodes (decode x)) : Decodes (Json.asList decode (array items)) := by
  rw [asList_array]
  induction items with
  | nil => exact ⟨[], rfl⟩
  | cons item rest ih =>
      obtain ⟨hitem, hrest⟩ := List.forall_mem_cons.mp h
      rw [List.mapM_cons]
      exact hitem.bind fun _ => (ih hrest).bind fun _ => pure _

theorem asOption {decode : Json → Decoded α} {j : Json} (h : Decodes (decode j) ∨ j = null) :
    Decodes (Json.asOption decode j) := by
  unfold Json.asOption
  split
  · exact ⟨none, rfl⟩
  · rename_i hnull
    exact (h.resolve_right hnull).map some

theorem asText (s : String) : Decodes (asText (string s)) := ⟨s.toList, rfl⟩

theorem asReal (n : Number) : Decodes (asReal (number n)) := by
  cases n <;> exact ⟨_, rfl⟩

end Decodes

namespace Record.Holds

variable {j : Json} {r : Record j} {names : List String} {name : String} {α : Type}

theorem decodes_get (h : r.Holds names) (hname : name ∈ names) {decode : Json → Decoded α}
    {x : Json} (hx : j.field? name = some x) (hdecode : Decodes (decode x)) :
    Decodes (r.get name decode) := by
  rw [h.get hname hx]
  exact hdecode

theorem decodes_getD (h : r.Holds names) (hname : name ∈ names) {default : α}
    {decode : Json → Decoded α} (hdecode : ∀ x, j.field? name = some x → Decodes (decode x)) :
    Decodes (r.getD name default decode) := by
  rw [h.getD hname]
  split
  · rename_i x hx
    exact hdecode x hx
  · exact ⟨default, rfl⟩

end Record.Holds

end Json

end Phrasebook
