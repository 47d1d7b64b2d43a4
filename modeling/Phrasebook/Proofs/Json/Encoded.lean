import Phrasebook.Proofs.Json.Fields
import Phrasebook.Proofs.Json.Reading

/-!
Encoded values.

What an encoder makes has no repeated names, its numbers are known (`IsClean`), and its
containers do not lie deep in one another.  Such a value is read back from its texts, and a
decoder that inverts the encoder then reads back what was encoded (`Keeps`, `Reads`).

The compact text of a value has no control characters, so it stands on one line.
-/

namespace Phrasebook.Json

/-! ### Values without repeated names, and their numbers -/

/-- The value has no repeated names, and something is known of all its numbers. -/
structure IsClean (P : Number → Prop) (j : Json) : Prop where
  noRepeats : j.NoRepeats
  numbers : ∀ n ∈ j.numbers, P n

variable {P : Number → Prop}

theorem IsClean.text (t : Text) : IsClean P (text t) :=
  ⟨.string _, fun _ h => absurd h List.not_mem_nil⟩

theorem IsClean.string (s : String) : IsClean P (string s) :=
  ⟨.string _, fun _ h => absurd h List.not_mem_nil⟩

theorem IsClean.number {n : Number} (h : P n) : IsClean P (number n) :=
  ⟨.number n, List.forall_mem_singleton.mpr h⟩

theorem IsClean.array {items : List Json} (h : ∀ x ∈ items, IsClean P x) :
    IsClean P (array items) := by
  refine ⟨.array fun x hx => (h x hx).noRepeats, ?_⟩
  show ∀ n ∈ numbersOfItems items, P n
  induction items with
  | nil => exact fun _ h => absurd h List.not_mem_nil
  | cons item rest ih =>
      obtain ⟨hitem, hrest⟩ := List.forall_mem_cons.mp h
      exact List.forall_mem_append.mpr ⟨hitem.numbers, ih hrest⟩

theorem IsClean.object {fields : List (String × Json)} (hnames : (fields.map (·.1)).Nodup)
    (h : ∀ field ∈ fields, IsClean P field.2) : IsClean P (object fields) := by
  refine ⟨.object hnames fun field hfield => (h field hfield).noRepeats, ?_⟩
  clear hnames
  show ∀ n ∈ numbersOfFields fields, P n
  induction fields with
  | nil => exact fun _ h => absurd h List.not_mem_nil
  | cons field rest ih =>
      obtain ⟨hfield, hrest⟩ := List.forall_mem_cons.mp h
      exact List.forall_mem_append.mpr ⟨hfield.numbers, ih hrest⟩

/-! ### Fields that may be left out -/

section

variable {α : Type} {name : String} {encode : α → Json}

theorem names_someField (x : Option α) :
    ((someField name encode x).map (·.1)).Sublist [name] := by
  cases x with
  | none => exact List.nil_sublist _
  | some x => exact List.Sublist.refl _

theorem names_itemsField (xs : List α) :
    ((itemsField name encode xs).map (·.1)).Sublist [name] := by
  cases xs with
  | nil => exact List.nil_sublist _
  | cons x rest => exact List.Sublist.refl _

theorem forall_someField {Q : String × Json → Prop} {x : Option α}
    (h : ∀ y, x = some y → Q (name, encode y)) : ∀ field ∈ someField name encode x, Q field := by
  cases x with
  | none => exact fun _ h => absurd h List.not_mem_nil
  | some x => exact List.forall_mem_singleton.mpr (h x rfl)

theorem forall_itemsField {Q : String × Json → Prop} {xs : List α}
    (h : Q (name, ofList encode xs)) : ∀ field ∈ itemsField name encode xs, Q field := by
  cases xs with
  | nil => exact fun _ h => absurd h List.not_mem_nil
  | cons x rest => exact List.forall_mem_singleton.mpr h

variable {j : Json} {r : Record j} {names : List String} {decode : Json → Decoded α}

theorem Record.Holds.getD_someField (h : r.Holds names) (hname : name ∈ names) {x : Option α}
    (hfield : j.field? name = x.map encode) (hnull : ∀ y, x = some y → encode y ≠ null)
    (hdecode : ∀ y, x = some y → decode (encode y) = .ok y) :
    r.getD name none (asOption decode) = .ok x := by
  rw [h.getD hname, hfield]
  cases x with
  | none => rfl
  | some y =>
      show asOption decode (encode y) = _
      unfold asOption
      split
      · rename_i heq
        exact absurd heq (hnull y rfl)
      · rw [hdecode y rfl]
        rfl

theorem eq_of_itemsField {xs : List α} {x y : Json}
    (h : (if xs.isEmpty then none else some x) = some y) : x = y := by
  split at h
  · injection h
  · exact Option.some.inj h

theorem Record.Holds.getD_itemsField (h : r.Holds names) (hname : name ∈ names) {xs : List α}
    (hfield : j.field? name = if xs.isEmpty then none else some (ofList encode xs))
    (hdecode : asList decode (ofList encode xs) = .ok xs) :
    r.getD name [] (asList decode) = .ok xs := by
  rw [h.getD hname, hfield]
  cases xs with
  | nil => rfl
  | cons x rest => exact hdecode

end

theorem real_of_isFinite {x : Binary64} (h : x.isFinite = true) :
    real x = number (.real x) := if_pos h

theorem IsClean.real {x : Binary64} (hfinite : x.isFinite = true) (h : P (.real x)) :
    IsClean P (real x) := by
  rw [real_of_isFinite hfinite]
  exact .number h

theorem asText_text (t : Text) : asText (text t) = .ok t :=
  congrArg Except.ok String.toList_ofList

/-! ### How deep the containers lie -/

theorem depthOfItems_le {items : List Json} {limit : Nat} (h : ∀ x ∈ items, x.depth ≤ limit) :
    depthOfItems items ≤ limit := by
  induction items with
  | nil => exact Nat.zero_le limit
  | cons item rest ih =>
      obtain ⟨hitem, hrest⟩ := List.forall_mem_cons.mp h
      exact Nat.max_le.mpr ⟨hitem, ih hrest⟩

theorem depthOfFields_le {fields : List (String × Json)} {limit : Nat}
    (h : ∀ field ∈ fields, field.2.depth ≤ limit) : depthOfFields fields ≤ limit := by
  induction fields with
  | nil => exact Nat.zero_le limit
  | cons field rest ih =>
      obtain ⟨hfield, hrest⟩ := List.forall_mem_cons.mp h
      exact Nat.max_le.mpr ⟨hfield, ih hrest⟩

theorem depth_array_le {items : List Json} {limit : Nat} (h : ∀ x ∈ items, x.depth ≤ limit) :
    (array items).depth ≤ limit + 1 := Nat.succ_le_succ (depthOfItems_le h)

theorem depth_object_le {fields : List (String × Json)} {limit : Nat}
    (h : ∀ field ∈ fields, field.2.depth ≤ limit) : (object fields).depth ≤ limit + 1 :=
  Nat.succ_le_succ (depthOfFields_le h)

/-! ### What comes back from the text -/

section

variable {α : Type} {decode : Json → Decoded α}

/-- The text has a value, and `x` is decoded from it. -/
def Reads (decode : Json → Decoded α) (t : Text) (x : α) : Prop :=
  ∃ j, parse? t = some j ∧ decode j = .ok x

theorem Reads.ne_nil {t : Text} {x : α} (h : Reads decode t x) : t ≠ [] := by
  rintro rfl
  obtain ⟨j, hj, -⟩ := h
  injection hj

/-- The value is read from its text by a reader that goes so deep. -/
structure IsReadable (limit : Nat) (j : Json) : Prop where
  clean : j.IsClean Number.IsReadBack
  shallow : j.depth ≤ limit

/-- A readable value from which `x` is decoded. -/
structure Keeps (decode : Json → Decoded α) (limit : Nat) (x : α) (j : Json) : Prop
    extends IsReadable limit j where
  decoded : decode j = .ok x

theorem IsReadable.array {limit : Nat} {items : List Json} (h : ∀ x ∈ items, IsReadable limit x) :
    IsReadable (limit + 1) (array items) where
  clean := .array fun x hx => (h x hx).clean
  shallow := depth_array_le fun x hx => (h x hx).shallow

theorem IsReadable.object {limit : Nat} {fields : List (String × Json)}
    (hnames : (fields.map (·.1)).Nodup) (h : ∀ field ∈ fields, IsReadable limit field.2) :
    IsReadable (limit + 1) (object fields) where
  clean := .object hnames fun field hfield => (h field hfield).clean
  shallow := depth_object_le fun field hfield => (h field hfield).shallow

variable {limit : Nat} {x : α} {j : Json}

/-- **From a readable object a reader of records gets what its fields hold.** -/
theorem Keeps.ofRecord {names : List String} {read : Record j → Decoded α}
    (hobject : ∃ fields, j = object fields) (hj : IsReadable limit j)
    (hdecode : decode j = j.record names >>= read) (hread : ∀ r, r.Holds names → read r = .ok x) :
    Keeps decode limit x j := by
  obtain ⟨r, hr, hholds⟩ := exists_record hj.clean.noRepeats hobject names
  refine ⟨hj, ?_⟩
  rw [hdecode, hr]
  exact hread r hholds

theorem Keeps.reads_of_spells (h : Keeps decode limit x j) (hlimit : limit ≤ maxDepth) {t : Text}
    (ht : Spells j.tokens t) : Reads decode t x := by
  refine ⟨j, ?_, h.decoded⟩
  rw [parse?_of_spells ht, if_pos (h.shallow.trans hlimit)]

theorem Keeps.reads_compact (h : Keeps decode limit x j) (hlimit : limit ≤ maxDepth) :
    Reads decode j.compact x :=
  h.reads_of_spells hlimit (spells_compact h.clean.numbers)

theorem Keeps.reads_pretty (h : Keeps decode limit x j) (hlimit : limit ≤ maxDepth) :
    Reads decode j.pretty x :=
  h.reads_of_spells hlimit (spells_pretty h.clean.numbers)

theorem Keeps.reads_pretty_append (h : Keeps decode limit x j) (hlimit : limit ≤ maxDepth)
    {b : Text} (hb : ∀ c ∈ b, IsBlank c) : Reads decode (j.pretty ++ b) x :=
  h.reads_of_spells hlimit (spells_pretty_append h.clean.numbers hb)

theorem Keeps.get {parent : Json} {r : Record parent} {names : List String} {name : String}
    (h : Keeps decode limit x j) (hr : r.Holds names) (hname : name ∈ names)
    (hfield : parent.field? name = some j) : r.get name decode = .ok x :=
  (hr.get hname hfield decode).trans h.decoded

theorem Keeps.mapList {β : Type} {encode : β → Json} {view : β → α} {ys : List β}
    (h : ∀ y ∈ ys, Keeps decode limit (view y) (encode y)) :
    Keeps (asList decode) (limit + 1) (ys.map view) (ofList encode ys) := by
  refine ⟨.array (List.forall_mem_map.mpr fun y hy => (h y hy).toIsReadable), ?_⟩
  rw [Json.ofList, asList_array]
  refine mapM_eq_ok ?_
  rw [List.forall₂_map_left_iff, List.forall₂_map_right_iff, List.forall₂_same]
  exact fun y hy => (h y hy).decoded

theorem Keeps.ofList {encode : α → Json} {xs : List α}
    (h : ∀ x ∈ xs, Keeps decode limit x (encode x)) :
    Keeps (asList decode) (limit + 1) xs (ofList encode xs) := by
  have hlist : Keeps (asList decode) (limit + 1) (xs.map id) (Json.ofList encode xs) := .mapList h
  rwa [List.map_id] at hlist

theorem keeps_text (limit : Nat) (t : Text) : Keeps asText limit t (text t) where
  clean := .text t
  shallow := Nat.zero_le limit
  decoded := asText_text t

theorem keeps_texts (limit : Nat) (ts : List Text) :
    Keeps (asList asText) (limit + 1) ts (ofList text ts) :=
  .ofList fun t _ => keeps_text limit t

theorem keeps_string (limit : Nat) (s : String) : Keeps asString limit s (string s) where
  clean := .string s
  shallow := Nat.zero_le limit
  decoded := rfl

theorem keeps_nat (limit : Nat) {n : Nat} (h : n < 2 ^ (64 : Nat)) :
    Keeps asWord limit n (nat n) where
  clean := .number (Number.isReadBack_natural h)
  shallow := Nat.zero_le limit
  decoded := if_pos h

end

/-! ### A compact text is one line -/

/-- There are no control characters in the text. -/
def IsPlain (t : Text) : Prop := ∀ c ∈ t, 0x20 ≤ c.toNat

theorem IsPlain.append {a b : Text} (ha : IsPlain a) (hb : IsPlain b) : IsPlain (a ++ b) :=
  List.forall_mem_append.mpr ⟨ha, hb⟩

theorem IsPlain.cons {c : Char} {t : Text} (hc : 0x20 ≤ c.toNat) (ht : IsPlain t) :
    IsPlain (c :: t) :=
  List.forall_mem_cons.mpr ⟨hc, ht⟩

theorem IsPlain.newline_notMem {t : Text} (h : IsPlain t) : '\n' ∉ t :=
  fun hmem => absurd (h '\n' hmem) (by decide)

theorem isPlain_hexDigit (n : Nat) : 0x20 ≤ (hexDigit n).toNat := by
  have hall : ∀ d < 16, 0x20 ≤ (Nat.digitChar d).toNat := by decide
  exact hall (n % 16) (Nat.mod_lt n (by decide))

theorem isPlain_escape (c : Char) : IsPlain (escape c) := by
  unfold escape
  split_ifs with _ _ _ _ _ _ _ hcontrol
  case neg => exact List.forall_mem_singleton.mpr (Nat.le_of_not_lt hcontrol)
  all_goals simp [IsPlain, isPlain_hexDigit]

theorem isPlain_quoted (s : String) : IsPlain (quoted s) := by
  refine .cons (by decide) (.append ?_ (.cons (by decide) ?_))
  · intro x hx
    obtain ⟨c, -, hx⟩ := List.mem_flatMap.mp hx
    exact isPlain_escape c x hx
  · exact fun _ h => absurd h List.not_mem_nil

theorem le_toNat_of_continuesNumber {c : Char} (h : Lexer.continuesNumber c = true) :
    0x20 ≤ c.toNat := by
  simp only [Lexer.continuesNumber, Bool.or_eq_true, beq_iff_eq] at h
  rcases h with ((((hdigit | rfl) | rfl) | rfl) | rfl) | rfl
  · exact Nat.le_trans (by decide) (Char.isDigit_iff_toNat.mp hdigit).1
  all_goals decide

theorem isPlain_number {n : Number} (hn : n.IsReadBack) : IsPlain n.text := by
  obtain ⟨l, hl, -⟩ := Option.bind_eq_some_iff.mp hn
  exact fun c hc => le_toNat_of_continuesNumber ((Literal.ofText?_spec hl).1 c hc)

mutual

theorem isPlain_compact (j : Json) (hj : j.IsReadBack) : IsPlain j.compact := by
  match j with
  | null | bool true | bool false | array [] | object [] => simp [compact, scalarText, IsPlain]
  | number n => exact isPlain_number (hj n (by simp [numbers]))
  | string s => exact isPlain_quoted s
  | array (item :: rest) =>
      obtain ⟨hitem, hrest⟩ := List.forall_mem_append.mp hj
      rw [compact]
      exact .cons (by decide) (.append (isPlain_compact item hitem)
        (isPlain_compactItems rest hrest))
  | object ((name, value) :: rest) =>
      obtain ⟨hvalue, hrest⟩ := List.forall_mem_append.mp hj
      rw [compact]
      exact .cons (by decide) (.append (isPlain_quoted name) (.cons (by decide)
        (.append (isPlain_compact value hvalue) (isPlain_compactFields rest hrest))))

theorem isPlain_compactItems (items : List Json)
    (hitems : ∀ n ∈ numbersOfItems items, n.IsReadBack) : IsPlain (compactItems items) := by
  match items with
  | [] => simp [compactItems, IsPlain]
  | item :: rest =>
      obtain ⟨hitem, hrest⟩ := List.forall_mem_append.mp hitems
      rw [compactItems]
      exact .cons (by decide) (.append (isPlain_compact item hitem)
        (isPlain_compactItems rest hrest))

theorem isPlain_compactFields (fields : List (String × Json))
    (hfields : ∀ n ∈ numbersOfFields fields, n.IsReadBack) :
    IsPlain (compactFields fields) := by
  match fields with
  | [] => simp [compactFields, IsPlain]
  | (name, value) :: rest =>
      obtain ⟨hvalue, hrest⟩ := List.forall_mem_append.mp hfields
      rw [compactFields]
      exact .cons (by decide) (.append (isPlain_quoted name) (.cons (by decide)
        (.append (isPlain_compact value hvalue) (isPlain_compactFields rest hrest))))

end

end Phrasebook.Json
