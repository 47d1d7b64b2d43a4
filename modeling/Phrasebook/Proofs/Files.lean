import Phrasebook.Dataset.Files
import Phrasebook.Proofs.Ensures
import Phrasebook.Proofs.Synonyms
import Mathlib.Data.List.Induction

/-!
The files of a data set give its examples back.

In the format with one example on each line the line is the compact text of a value, and such a
text has no control characters, whatever the example says.  So the file splits where the lines
end and nowhere else.  The other format is one value, and a reader that knows its fields reads
back the examples and, value by value, the synonyms.

The files are written part by part.  What a run keeps is which files there are: one for each
part so far and, behind the first, at most one with the synonyms (`Written`).
-/

namespace Phrasebook

/-! ### Examples come back from their values -/

/-- The offsets of the entities are machine words. -/
def Example.FitsWords (e : Example) : Prop :=
  ∀ x ∈ e.entities, x.start < 2 ^ (64 : Nat) ∧ x.stop < 2 ^ (64 : Nat)

theorem Entity.keeps (limit : Nat) {e : Entity}
    (h : e.start < 2 ^ (64 : Nat) ∧ e.stop < 2 ^ (64 : Nat)) :
    Json.Keeps ofJson (limit + 1) e e.toJson := by
  have hslot := Json.keeps_string limit e.slot
  have hvalue := Json.keeps_text limit e.value
  have hstart := Json.keeps_nat limit h.1
  have hstop := Json.keeps_nat limit h.2
  have hnames : ["slot", "value", "start", "end"].Nodup := by decide
  refine .ofRecord ⟨_, rfl⟩ (.object hnames ?_) rfl fun r hr => ?_
  · simp [hslot.toIsReadable, hvalue.toIsReadable, hstart.toIsReadable, hstop.toIsReadable]
  · exact bind_eq_ok.mpr ⟨_, hslot.get hr (by decide) rfl,
      bind_eq_ok.mpr ⟨_, hvalue.get hr (by decide) rfl,
        bind_eq_ok.mpr ⟨_, hstart.get hr (by decide) rfl,
          bind_eq_ok.mpr ⟨_, hstop.get hr (by decide) rfl, rfl⟩⟩⟩⟩

namespace Example

theorem keeps {e : Example} (h : e.FitsWords) : Json.Keeps ofJson 3 e e.toJson := by
  have htext := Json.keeps_text 2 e.text
  have hentities : Json.Keeps (Json.asList Entity.ofJson) 2 e.entities
      (Json.ofList Entity.toJson e.entities) := .ofList fun x hx => Entity.keeps 0 (h x hx)
  have hfields : e.toJson.field? "intent" = e.intent.map .string ∧
      e.toJson.field? "text" = some (.text e.text) ∧
      e.toJson.field? "entities" = some (.ofList Entity.toJson e.entities) := by
    refine ⟨?_, ?_, ?_⟩ <;>
      simp [toJson, Json.field?, List.lookup_append, Json.lookup_someField, Json.lookup_cons_eq]
  obtain ⟨hintentField, htextField, hentitiesField⟩ := hfields
  refine .ofRecord ⟨_, rfl⟩ (.object ?_ ?_) rfl fun r hr => ?_
  · have hnames : ["intent", "text", "entities"].Nodup := by decide
    rw [List.map_append]
    exact hnames.sublist ((Json.names_someField _).append (List.Sublist.refl _))
  · refine List.forall_mem_append.mpr
      ⟨Json.forall_someField fun s _ => (Json.keeps_string 2 s).toIsReadable, ?_⟩
    simp [htext.toIsReadable, hentities.toIsReadable]
  · refine bind_eq_ok.mpr ⟨e.intent, ?_, bind_eq_ok.mpr ⟨_, htext.get hr (by decide) htextField,
      bind_eq_ok.mpr ⟨e.entities, ?_, rfl⟩⟩⟩
    · exact hr.getD_someField (by decide) hintentField (fun _ _ => Json.noConfusion) fun _ _ => rfl
    · rw [hr.getD (by decide), hentitiesField]
      exact hentities.decoded

end Example

/-! ### One example on each line -/

namespace Jsonl

/-- The text splits at the line ends into one line for each example, and nothing behind the last;
from the value of a line its example is decoded. -/
def Lists (t : Text) (examples : List Example) : Prop :=
  ∃ lines, t.splitOn '\n' = lines ++ [[]] ∧
    List.Forall₂ (fun line e => line ≠ [] ∧ Json.Reads Example.ofJson line e) lines examples

theorem splitOn_file (split : Split) {examples : List Example}
    (h : ∀ e ∈ examples, e.FitsWords) :
    (file split examples).content.splitOn '\n' =
      examples.map (fun e => e.toJson.compact) ++ [[]] := by
  show (examples.flatMap line).splitOn '\n' = _
  induction examples with
  | nil => rfl
  | cons e rest ih =>
      obtain ⟨he, hrest⟩ := List.forall_mem_cons.mp h
      have hplain := Json.isPlain_compact e.toJson (Example.keeps he).clean.numbers
      rw [List.flatMap_cons, line, List.append_assoc, List.singleton_append,
        List.splitOn_append_cons_self_of_not_mem hplain.newline_notMem, ih hrest]
      rfl

theorem lists_file (split : Split) {examples : List Example}
    (h : ∀ e ∈ examples, e.FitsWords) : Lists (file split examples).content examples := by
  refine ⟨_, splitOn_file split h, ?_⟩
  rw [List.forall₂_map_left_iff, List.forall₂_same]
  intro e he
  have hreads := (Example.keeps (h e he)).reads_compact (by decide)
  exact ⟨hreads.ne_nil, hreads⟩

/-! ### Which files there are -/

/-- There is one file for each part and, if there are synonyms and any part, one for these. -/
structure Written (s : Synonyms) (parts : List (Split × List Example))
    (written : List OutputFile) : Prop where
  ofParts : written.filter (fun f => f.name ≠ (synonymFile s).name) =
    parts.map fun part => file part.1 part.2
  ofSynonyms : written.filter (fun f => f.name = (synonymFile s).name) =
    if s.isEmpty ∨ parts = [] then [] else [synonymFile s]

theorem name_file_ne (part : Split × List Example) (s : Synonyms) :
    (file part.1 part.2).name ≠ (synonymFile s).name := by
  obtain ⟨split, examples⟩ := part
  cases split
  · exact show "train" ++ ".jsonl" ≠ "synonyms.json" by decide
  · exact show "test" ++ ".jsonl" ≠ "synonyms.json" by decide

section

variable {s : Synonyms} {parts : List (Split × List Example)} {written : List OutputFile}

theorem contains_iff {written : List OutputFile} {name : String} :
    (written.map (·.name)).contains name = true ↔
      written.filter (fun f => f.name = name) ≠ [] := by
  rw [List.contains_iff_mem]
  simp [List.filter_eq_nil_iff]

/-- The synonyms are written if there are any and they are not there yet. -/
theorem write_eq (s : Synonyms) (written : List OutputFile) (part : Split × List Example) :
    write s written part = written ++ [file part.1 part.2] ++
      if s.isEmpty ∨ (written ++ [file part.1 part.2]).filter
          (fun f => f.name = (synonymFile s).name) ≠ [] then [] else [synonymFile s] := by
  unfold Jsonl.write
  simp only [Bool.or_eq_true, contains_iff]
  split_ifs
  · rw [List.append_nil]
  · rfl

/-- The file of a part counts as one of the parts. -/
theorem Written.append_file (h : Written s parts written) (part : Split × List Example) :
    (written ++ [file part.1 part.2]).filter (fun f => f.name ≠ (synonymFile s).name) =
        (parts ++ [part]).map (fun part => file part.1 part.2) ∧
      (written ++ [file part.1 part.2]).filter (fun f => f.name = (synonymFile s).name) =
        if s.isEmpty ∨ parts = [] then [] else [synonymFile s] := by
  have hname := name_file_ne part s
  constructor
  · rw [List.filter_append, h.ofParts, List.map_append]
    simp [hname]
  · rw [List.filter_append, h.ofSynonyms]
    simp [hname]

theorem Written.write (h : Written s parts written) (part : Split × List Example) :
    Written s (parts ++ [part]) (write s written part) := by
  obtain ⟨hparts, hsynonyms⟩ := h.append_file part
  rw [write_eq, hsynonyms]
  constructor
  · rw [List.filter_append, hparts]
    split_ifs <;> simp
  · rw [List.filter_append, hsynonyms]
    by_cases hempty : s.isEmpty = true
    · simp [hempty]
    · -- The synonyms were written behind the first part, unless this is the first.
      by_cases hfirst : parts = [] <;> simp [hempty, hfirst]

theorem written_writeAll (s : Synonyms) (parts : List (Split × List Example)) :
    Written s parts (Format.jsonl.writeAll s parts) := by
  induction parts using List.reverseRecOn with
  | nil => exact ⟨rfl, by simp [Format.writeAll]⟩
  | append_singleton parts part ih =>
      unfold Format.writeAll at ih ⊢
      rw [List.foldl_append]
      exact ih.write part

end

end Jsonl

/-! ### One document for each part -/

namespace Rasa

/-- Reads an entity. -/
def entityOfJson (j : Json) : Decoded Entity := do
  let r ← j.record ["end", "entity", "start", "value"]
  return {
    slot := ← r.get "entity" Json.asString
    value := ← r.get "value" Json.asText
    start := ← r.get "start" Json.asWord
    stop := ← r.get "end" Json.asWord }

/-- Reads an example; its intent may be the empty one. -/
def commonExampleOfJson (j : Json) : Decoded Example := do
  let r ← j.record ["entities", "intent", "text"]
  return {
    intent := some (← r.get "intent" Json.asString)
    text := ← r.get "text" Json.asText
    entities := ← r.get "entities" (Json.asList entityOfJson) }

/-- Reads a value with its surface forms. -/
def synonymOfJson (j : Json) : Decoded (Text × List Text) := do
  let r ← j.record ["synonyms", "value"]
  return (← r.get "value" Json.asText, ← r.get "synonyms" (Json.asList Json.asText))

/-- Reads what the only field of a document holds: examples, and the values with their surface
forms. -/
def dataOfJson (j : Json) : Decoded (List Example × List (Text × List Text)) := do
  let r ← j.record ["common_examples", "entity_synonyms", "regex_features"]
  return (← r.get "common_examples" (Json.asList commonExampleOfJson),
    ← r.get "entity_synonyms" (Json.asList synonymOfJson))

/-- Reads a document. -/
def ofJson (j : Json) : Decoded (List Example × List (Text × List Text)) := do
  let r ← j.record ["rasa_nlu_data"]
  r.get "rasa_nlu_data" dataOfJson

theorem keeps_entity (limit : Nat) {e : Entity}
    (h : e.start < 2 ^ (64 : Nat) ∧ e.stop < 2 ^ (64 : Nat)) :
    Json.Keeps entityOfJson (limit + 1) e (entity e) := by
  have hslot := Json.keeps_string limit e.slot
  have hvalue := Json.keeps_text limit e.value
  have hstart := Json.keeps_nat limit h.1
  have hstop := Json.keeps_nat limit h.2
  have hnames : ["end", "entity", "start", "value"].Nodup := by decide
  refine .ofRecord ⟨_, rfl⟩ (.object hnames ?_) rfl fun r hr => ?_
  · simp [hslot.toIsReadable, hvalue.toIsReadable, hstart.toIsReadable, hstop.toIsReadable]
  · exact bind_eq_ok.mpr ⟨_, hslot.get hr (by decide) rfl,
      bind_eq_ok.mpr ⟨_, hvalue.get hr (by decide) rfl,
        bind_eq_ok.mpr ⟨_, hstart.get hr (by decide) rfl,
          bind_eq_ok.mpr ⟨_, hstop.get hr (by decide) rfl, rfl⟩⟩⟩⟩

/-- The example as the document has it: one without an intent is one of the empty intent. -/
def named (e : Example) : Example := e.withIntent (e.intent.getD "")

theorem keeps_commonExample {e : Example} (h : e.FitsWords) :
    Json.Keeps commonExampleOfJson 3 (named e) (commonExample e) := by
  have hintent := Json.keeps_string 2 (e.intent.getD "")
  have htext := Json.keeps_text 2 e.text
  have hentities : Json.Keeps (Json.asList entityOfJson) 2 e.entities
      (Json.ofList entity e.entities) := .ofList fun x hx => keeps_entity 0 (h x hx)
  have hnames : ["entities", "intent", "text"].Nodup := by decide
  refine .ofRecord ⟨_, rfl⟩ (.object hnames ?_) rfl fun r hr => ?_
  · simp [hintent.toIsReadable, htext.toIsReadable, hentities.toIsReadable]
  · exact bind_eq_ok.mpr ⟨_, hintent.get hr (by decide) rfl,
      bind_eq_ok.mpr ⟨_, htext.get hr (by decide) rfl,
        bind_eq_ok.mpr ⟨_, hentities.get hr (by decide) rfl, rfl⟩⟩⟩

theorem keeps_synonym (limit : Nat) (entry : Text × List Text) :
    Json.Keeps synonymOfJson (limit + 2) entry (synonym entry) := by
  have hvalue := Json.keeps_text (limit + 1) entry.1
  have hsurfaces := Json.keeps_texts limit entry.2
  have hnames : ["synonyms", "value"].Nodup := by decide
  refine .ofRecord ⟨_, rfl⟩ (.object hnames ?_) rfl fun r hr => ?_
  · simp [hvalue.toIsReadable, hsurfaces.toIsReadable]
  · exact bind_eq_ok.mpr ⟨_, hvalue.get hr (by decide) rfl,
      bind_eq_ok.mpr ⟨_, hsurfaces.get hr (by decide) rfl, rfl⟩⟩

theorem keeps_data {examples : List Example} (h : ∀ e ∈ examples, e.FitsWords) (s : Synonyms) :
    Json.Keeps dataOfJson 5 (examples.map named, s.byValue.toList) (data examples s) := by
  have hexamples : Json.Keeps (Json.asList commonExampleOfJson) 4 (examples.map named)
      (Json.ofList commonExample examples) :=
    .mapList fun e he => keeps_commonExample (h e he)
  have hsynonyms : Json.Keeps (Json.asList synonymOfJson) 4 s.byValue.toList
      (Json.ofList synonym s.byValue.toList) := .ofList fun entry _ => keeps_synonym 1 entry
  have hregexes : Json.IsReadable 4 (.array []) := .array (by simp)
  have hnames : ["common_examples", "entity_synonyms", "regex_features"].Nodup := by decide
  refine .ofRecord ⟨_, rfl⟩ (.object hnames ?_) rfl fun r hr => ?_
  · simp [hexamples.toIsReadable, hsynonyms.toIsReadable, hregexes]
  · exact bind_eq_ok.mpr ⟨_, hexamples.get hr (by decide) rfl,
      bind_eq_ok.mpr ⟨_, hsynonyms.get hr (by decide) rfl, rfl⟩⟩

theorem keeps_document {examples : List Example} (h : ∀ e ∈ examples, e.FitsWords)
    (s : Synonyms) :
    Json.Keeps ofJson 6 (examples.map named, s.byValue.toList) (document examples s) := by
  have hdata := keeps_data h s
  have hnames : ["rasa_nlu_data"].Nodup := by decide
  refine .ofRecord ⟨_, rfl⟩ (.object hnames ?_) rfl fun r hr => hdata.get hr (by decide) rfl
  exact List.forall_mem_singleton.mpr hdata.toIsReadable

/-- The text is that of a document with the examples and, value by value, the synonyms. -/
def Lists (t : Text) (examples : List Example) (s : Synonyms) : Prop :=
  ∃ entries, Json.Reads ofJson t (examples.map named, entries) ∧
    Synonyms.IsByValue s.pairs entries

theorem lists_file (split : Split) {examples : List Example}
    (h : ∀ e ∈ examples, e.FitsWords) (s : Synonyms) :
    Lists (file split examples s).content examples s := by
  refine ⟨s.byValue.toList, ?_, s.isByValue_byValue⟩
  exact (keeps_document h s).reads_pretty_append (by decide) (by simp [Json.IsBlank])

theorem writeAll_eq (s : Synonyms) (parts : List (Split × List Example)) :
    Format.rasa.writeAll s parts = parts.map fun part => file part.1 part.2 s := by
  induction parts using List.reverseRecOn with
  | nil => rfl
  | append_singleton parts part ih =>
      unfold Format.writeAll at ih ⊢
      rw [List.foldl_append, List.map_append, ih]
      rfl

end Rasa

/-! ### The files of a data set -/

/--
**The files of a data set give its examples back.**  Of the parts that are written, each gets one
file.  In the format with lines this file splits into one line for each example, from which the
example is decoded; the synonyms, unless there are none, get one file more, however many parts
there are, and are decoded from it.  In the other format the file is one document, with the
examples in order and all pairs of the synonyms under their values.
-/
theorem files_read_back {parts : List (Split × List Example)}
    (h : ∀ part ∈ parts, ∀ e ∈ part.2, e.FitsWords) (s : Synonyms) :
    List.Forall₂ (fun file part =>
        file.name = part.1.name ++ ".jsonl" ∧ Jsonl.Lists file.content part.2)
        ((Format.jsonl.writeAll s parts).filter fun file => file.name ≠ "synonyms.json") parts ∧
      (∃ content s',
        ((Format.jsonl.writeAll s parts).filter fun file => file.name = "synonyms.json") =
            (if s.isEmpty ∨ parts = [] then [] else [⟨"synonyms.json", content⟩]) ∧
          Json.Reads Synonyms.ofJson content s' ∧ s'.toList = s.toList) ∧
      List.Forall₂ (fun file part =>
        file.name = part.1.name ++ ".json" ∧ Rasa.Lists file.content part.2 s)
        (Format.rasa.writeAll s parts) parts := by
  have hwritten := Jsonl.written_writeAll s parts
  refine ⟨?_, ?_, ?_⟩
  · refine hwritten.ofParts ▸ ?_
    rw [List.forall₂_map_left_iff, List.forall₂_same]
    exact fun part hpart => ⟨rfl, Jsonl.lists_file part.1 (h part hpart)⟩
  · obtain ⟨s', hlist, hkeeps⟩ := s.exists_keeps
    exact ⟨s.toJson.pretty, s', hwritten.ofSynonyms, hkeeps.reads_pretty (by decide), hlist⟩
  · rw [Rasa.writeAll_eq, List.forall₂_map_left_iff, List.forall₂_same]
    exact fun part hpart => ⟨rfl, Rasa.lists_file part.1 (h part hpart) s⟩

namespace Odd

/-- A text with a quote, a backslash, a line end and a control character. -/
def text : Text := ['"', '\\', '\n', '\x01', 'é']

def parts : List (Split × List Example) :=
  [(.train, [⟨some "say", text, [⟨"it", text, 0, 5⟩]⟩, .empty]), (.test, [.ofText text])]

def synonyms : Synonyms := Synonyms.empty.insert text ['\n']

theorem fitsWords : ∀ part ∈ parts, ∀ e ∈ part.2, e.FitsWords := by
  unfold Example.FitsWords
  decide

end Odd

/-- Line ends in texts, and an example without text, leave the lines as they should be. -/
theorem files_read_back_odd :
    List.Forall₂ (fun file part =>
        file.name = part.1.name ++ ".jsonl" ∧ Jsonl.Lists file.content part.2)
        ((Format.jsonl.writeAll Odd.synonyms Odd.parts).filter fun file =>
          file.name ≠ "synonyms.json") Odd.parts ∧
      (∃ content s',
        ((Format.jsonl.writeAll Odd.synonyms Odd.parts).filter fun file =>
            file.name = "synonyms.json") = [⟨"synonyms.json", content⟩] ∧
          Json.Reads Synonyms.ofJson content s' ∧ s'.toList = [(Odd.text, [['\n']])]) ∧
      List.Forall₂ (fun file part =>
        file.name = part.1.name ++ ".json" ∧ Rasa.Lists file.content part.2 Odd.synonyms)
        (Format.rasa.writeAll Odd.synonyms Odd.parts) Odd.parts :=
  files_read_back Odd.fitsWords Odd.synonyms

end Phrasebook
