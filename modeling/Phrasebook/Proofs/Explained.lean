import Phrasebook.Proofs.Answers
import Phrasebook.Proofs.Entities
import Phrasebook.Proofs.Locality
import Phrasebook.Proofs.Synonyms

/-!
Canonical values are explained by the synonyms.

The synonyms and the sentences come from two walks over the same rules.  The first lists the
rules of each slot by themselves; what it records is said by `Definition.Renders`, rule by rule.
The second lists a slot wherever it is used, and what it makes of a sentence of a rule is one
entity with the value of the rule.  Without parameters nothing is bound in either, so both list
the same sentences, and the entity is explained: it has what it covers for its value, or a value
that is recorded for that (`IsExplainedBy`).

From there on an entity is only moved, as long as no casing is asked for outside of slots.  What
is inside of a slot may have any casing, for it is covered by the new entity.
-/

namespace Phrasebook

open Synonyms (Records)

/-! ### What the synonyms record -/

section

variable {answer : String → Reference → Sentences} {d : Definition} {s : Synonyms}
  {surface value : Text}

/-- With nothing bound in it, the rule has a sentence with the text `surface`, and this is a
surface form of its value. -/
def Definition.Renders (answer : String → Reference → Sentences) (d : Definition) (r : Rule)
    (surface value : Text) : Prop :=
  r.value = some value ∧ ∃ es, enumerateRule answer (.root d.name) r = .ok es ∧
    ∃ e ∈ es, d.isSurface value e = true ∧ e.text = surface

/-- What is recorded along a list is recorded for one of its members. -/
theorem records_foldlM {ε α : Type} {f : Synonyms → α → Except ε Synonyms}
    {R : α → Prop} {xs : List α}
    (h : ∀ x ∈ xs, ∀ s s', f s x = .ok s' →
      (s'.Records surface value ↔ s.Records surface value ∨ R x))
    {s s' : Synonyms} (hfold : xs.foldlM f s = .ok s') :
    s'.Records surface value ↔ s.Records surface value ∨ ∃ x ∈ xs, R x := by
  induction xs generalizing s with
  | nil =>
      obtain rfl : s = s' := by injection hfold
      simp
  | cons x rest ih =>
      obtain ⟨hx, hrest⟩ := List.forall_mem_cons.mp h
      rw [List.foldlM_cons] at hfold
      obtain ⟨t, ht, hfold⟩ := bind_eq_ok.mp hfold
      rw [ih hrest hfold, hx s t ht, List.exists_mem_cons_iff, or_assoc]

theorem records_addSynonyms {r : Rule} {s' : Synonyms} (h : d.addSynonyms answer s r = .ok s') :
    s'.Records surface value ↔ s.Records surface value ∨ d.Renders answer r surface value := by
  unfold Definition.addSynonyms at h
  unfold Definition.Renders
  cases hvalue : r.value with
  | none =>
      rw [hvalue] at h
      obtain rfl : s = s' := by injection h
      simp
  | some written =>
      rw [hvalue] at h
      obtain ⟨es, hes, h⟩ := bind_eq_ok.mp h
      obtain rfl : (es.filter (d.isSurface written)).foldl
          (fun s e => s.insert e.text written) s = s' := by injection h
      rw [Synonyms.records_foldl]
      refine or_congr_right ⟨?_, ?_⟩
      · rintro ⟨e, he, rfl, rfl⟩
        obtain ⟨he, hsurface⟩ := List.mem_filter.mp he
        exact ⟨rfl, es, hes, e, he, hsurface, rfl⟩
      · rintro ⟨hwritten, es', hes', e, he, hsurface, rfl⟩
        obtain rfl : written = value := Option.some.inj hwritten
        obtain rfl : es = es' := Except.ok.inj (hes.symm.trans hes')
        exact ⟨e, List.mem_filter.mpr ⟨he, hsurface⟩, rfl, rfl⟩

theorem Definition.records_synonyms (h : d.synonyms answer = .ok s) :
    s.Records surface value ↔
      ∃ r ∈ d.allRules, r.isReachable = true ∧ d.Renders answer r surface value := by
  have hstep : ∀ r ∈ d.allRules.filter Rule.isReachable, ∀ s s',
      d.addSynonyms answer s r = .ok s' → (s'.Records surface value ↔
        s.Records surface value ∨ d.Renders answer r surface value) :=
    fun r _ s s' hs' => records_addSynonyms hs'
  unfold Definition.synonyms at h
  rw [records_foldlM hstep h]
  simp [Synonyms.not_records_empty, and_assoc]

/-- **The synonyms of a graph are the surface forms of the reachable rules of its slots.** -/
theorem Graph.records_synonyms {g : Graph} (h : g.synonyms = .ok s) :
    s.Records surface value ↔ ∃ d ∈ g.definitions, d.kind = .slot ∧
      ∃ r ∈ d.allRules, r.isReachable = true ∧ d.Renders g.enumerate r surface value := by
  have hstep : ∀ d ∈ g.ofKind .slot, ∀ s s' : Synonyms,
      (do return s.merge (← d.synonyms g.enumerate)) = (.ok s' : Except GenerationError Synonyms) →
      (s'.Records surface value ↔ s.Records surface value ∨
        ∃ r ∈ d.allRules, r.isReachable = true ∧ d.Renders g.enumerate r surface value) := by
    intro d _ s s' hs'
    obtain ⟨t, ht, hs'⟩ := bind_eq_ok.mp hs'
    obtain rfl : s.merge t = s' := by injection hs'
    rw [Synonyms.records_merge, d.records_synonyms ht]
  unfold Graph.synonyms at h
  rw [records_foldlM hstep h]
  simp only [Synonyms.not_records_empty, false_or, mem_ofKind, and_assoc]
  rfl

end

/-! ### Entities that are explained -/

namespace Example

/-- Every entity has what it covers for its value, or a value that is recorded for that. -/
def IsExplainedBy (s : Synonyms) (e : Example) : Prop :=
  ∀ x ∈ e.entities, x.surface e.text = x.value ∨ s.Records (x.surface e.text) x.value

variable {s : Synonyms} {e : Example}

/-- Where no casing is asked for, entities are only moved. -/
theorem isKept_explained (s : Synonyms) :
    IsKept (fun _ c => c = .unchanged) fun _ e => e.Spans ∧ e.IsExplainedBy s where
  text _ t := ⟨.of_entities_eq_nil rfl, fun _ hx => absurd hx List.not_mem_nil⟩
  append ha hb := ⟨ha.1.append hb.1, ha.1.forall_append
    (Q := fun _ surface value => surface = value ∨ s.Records surface value) ha.2 hb.2⟩
  recase hc he := by
    subst hc
    exact he
  mono _ he := he

theorem isKept_spans : IsKept (fun _ _ => True) fun _ e => e.Spans where
  text _ _ := .of_entities_eq_nil rfl
  append ha hb := ha.append hb
  recase _ he := he.recase _
  mono _ he := he

/-- The one entity of a slot is explained, if the sentence is recorded for the value of the rule. -/
theorem IsExplainedBy.asSlot (hspans : e.Spans) {slot : String} {value : Option Text}
    (h : ∀ v, value = some v → e.text ≠ [] → e.text ≠ v → s.Records e.text v) :
    (e.asSlot slot value).IsExplainedBy s := by
  unfold Example.asSlot
  by_cases hempty : e.text = []
  · rw [if_pos (by simp [hempty])]
    intro x hx
    simp [hspans.isTidy hempty] at hx
  · rw [if_neg (by simpa using hempty)]
    refine List.forall_mem_singleton.mpr ?_
    have hsurface : Entity.surface e.text ⟨slot, value.getD e.text, 0, e.text.length⟩ = e.text := by
      simp [Entity.surface]
    rw [hsurface]
    cases value with
    | none => exact .inl rfl
    | some v =>
        by_cases hv : e.text = v
        · exact .inl hv
        · exact .inr (h v rfl hempty hv)

theorem IsExplainedBy.finish (h : e.IsExplainedBy s) {d : Definition} (hkind : d.kind ≠ .slot)
    (r : Rule) : (d.finish r e).IsExplainedBy s := by
  unfold Definition.finish
  split
  · exact h
  · rename_i hslot
    exact absurd hslot hkind
  · exact h

end Example

/-- Where there are no parameters, nothing is bound. -/
theorem Scope.ofDefinition_eq_root {d : Definition} (h : d.parameters = [])
    (arguments : List Text) : ofDefinition d arguments = root d.name := by
  unfold ofDefinition root
  rw [h, List.zip_nil_left, List.mergeSort_nil]

/-! ### Along the layers -/

namespace Graph

/-- No slot declares parameters. -/
def HasBareSlots (g : Graph) : Prop :=
  ∀ d ∈ g.definitions, d.kind = .slot → d.parameters = []

/-- No token of a phrase or an intent, however deep in groups, asks for a casing. -/
def HasPlainCasings (g : Graph) : Prop :=
  ∀ d ∈ g.definitions, d.kind ≠ .slot → ∀ token ∈ d.tokens, token.modifiers.casing = .unchanged

namespace Valid

variable {g : Graph} {s : Synonyms}

/-- With nothing bound, a sentence of a rule of a slot is recorded for the value of the rule. -/
theorem records_of_slot (hs : g.synonyms = .ok s) {d : Definition} (hd : d ∈ g.definitions)
    (hkind : d.kind = .slot) (hbare : d.parameters = []) {rule : Rule} (hrule : rule ∈ d.allRules)
    (hreach : rule.isReachable = true) {es : List Example}
    (hes : enumerateRule g.enumerate (.root d.name) rule = .ok es) {e : Example} (he : e ∈ es)
    {value : Text} (hvalue : rule.value = some value) (hempty : e.text ≠ [])
    (hne : e.text ≠ value) : s.Records e.text value := by
  refine (records_synonyms hs).mpr ⟨d, hd, hkind, rule, hrule, hreach, hvalue, es, hes, e, he, ?_,
    rfl⟩
  simp [Definition.isSurface, Definition.hasPlaceholder, hbare, hempty, hne]

/-- **Every entity in a sentence that is listed is explained.** -/
theorem explained_enumerate (hg : g.Valid) (hslots : g.HasBareSlots) (hcasings : g.HasPlainCasings)
    (hs : g.synonyms = .ok s) {r : Reference} (hr : r.Resolves g.layers) (owner : String)
    {es : List Example} (h : g.enumerate owner r = .ok es) :
    ∀ e ∈ es, e.Spans ∧ e.IsExplainedBy s := by
  have hanswers : g.enumerate = answerIn Definition.enumerateUse
      (fun owner r => .error (.unresolved owner r.target)) g.layers := by
    unfold Graph.enumerate
    rw [enumerateIn_eq_answerIn]
  rw [hanswers] at h
  refine answerIn_induction _ Definition.asksOwn_enumerateUse hg.layered
    (motive := fun _ answer => ∀ es, answer = .ok es → ∀ e ∈ es, e.Spans ∧ e.IsExplainedBy s)
    (fun d hd r rules _ _ ih es h => ?_) hr owner es h
  rw [← hanswers] at ih h
  have hmem := (hg.mem_layers d).mp hd
  by_cases hkind : d.kind = .slot
  · have hbare := hslots d hmem hkind
    refine kept_enumerate Example.isKept_spans (r := r)
      (fun r' hr' es hes e he => (ih r' hr' es hes e he).1) (fun _ _ _ _ => trivial) ?_ h
    intro rule hrule hreach here hhere e he hspans
    rw [Scope.ofDefinition_eq_root hbare] at hhere
    refine ⟨hspans.finish d rule, ?_⟩
    rw [show d.finish rule e = e.asSlot d.name rule.value by simp [Definition.finish, hkind]]
    exact .asSlot hspans fun v hv hempty hne =>
      records_of_slot hs hmem hkind hbare hrule hreach hhere he hv hempty hne
  · refine kept_enumerate (Example.isKept_explained s) (r := r) ih (fun token ht c hc => ?_) ?_ h
    · rw [hcasings d hmem hkind token ht] at hc
      exact List.mem_singleton.mp hc
    · intro rule _ _ here _ e _ he
      exact ⟨he.1.finish d rule, he.2.finish hkind rule⟩

end Valid

end Graph

/--
**Canonical values are explained by the synonyms.**  Let no slot have parameters, and let no
casing be asked for outside of slots.  In every sentence that is listed for a definition, each
entity has what it covers for its value, or a value that the synonyms of the graph have for that.
And the synonyms hold nothing else than surface forms: what they have for a value is a text other
than the value, and it is a sentence of a reachable rule of a slot with that value, listed with
nothing bound.
-/
theorem values_explained_by_synonyms {definitions : List Definition} {g : Graph}
    (hg : Graph.ofDefinitions definitions = .ok g) (hslots : g.HasBareSlots)
    (hcasings : g.HasPlainCasings) :
    ∃ s, g.synonyms = .ok s ∧
      (∀ d ∈ g.definitions, ∀ c : Counts, ∃ es, (((Item.unit d.key).all g).run c).1 = .ok es ∧
        ∀ e ∈ es, ∀ x ∈ e.entities, x.surface e.text = x.value ∨
          ∃ values, s.get? (x.surface e.text) = some values ∧ x.value ∈ values) ∧
      ∀ surface values, s.get? surface = some values → ∀ value ∈ values,
        surface ≠ [] ∧ surface ≠ value ∧ ∃ d ∈ g.definitions, d.kind = .slot ∧
          ∃ r ∈ d.allRules, r.isReachable = true ∧ r.value = some value ∧
            ∃ es, enumerateRule g.enumerate (.root d.name) r = .ok es ∧
              ∃ e ∈ es, e.text = surface := by
  have hvalid := Graph.valid_of_ofDefinitions hg
  obtain ⟨s, hs⟩ := hvalid.exists_synonyms
  refine ⟨s, hs, fun d hd c => ?_, fun surface values hvalues value hvalue => ?_⟩
  · obtain ⟨es, hes⟩ := hvalid.exists_enumerate hd
    refine ⟨es, (Item.run_all g _ c).trans hes, fun e he => ?_⟩
    exact (hvalid.explained_enumerate hslots hcasings hs (hvalid.resolves_use hd rfl [])
      d.key.name hes e he).2
  · obtain ⟨d, hd, hkind, r, hr, hreach, hwritten, es, hes, e, he, hsurface, rfl⟩ :=
      (Graph.records_synonyms hs).mp ⟨values, hvalues, hvalue⟩
    simp only [Definition.isSurface, Bool.and_eq_true, Bool.not_eq_true', bne_iff_ne] at hsurface
    obtain ⟨⟨hempty, hne⟩, -⟩ := hsurface
    exact ⟨by simpa using hempty, hne, d, hd, hkind, r, hr, hreach, hwritten, es, hes, e, he, rfl⟩

/-! ### A city by another name -/

namespace Travel

/-- The city as it is, alone or behind a word that may be missing. -/
def stay : Definition where
  kind := .intent
  name := "stay"
  rules := [.mk [.word "in".toList { Modifiers.plain with chance := some .half },
    .reference ⟨.slot, "city"⟩ .plain] .one none]
  variations := []
  parameters := []
  directive := none

/-- The graph of both. -/
def stays : Graph := ⟨[city, stay], [stay, city]⟩

/-- The sentence with the other name, marked with the name. -/
def inPaname : Example :=
  ⟨some "stay", "in Paname".toList, [⟨"city", "Paris".toList, 3, 9⟩]⟩

theorem references_stay : stay.references = [⟨⟨.slot, "city"⟩, .plain⟩] := rfl

theorem ofDefinitions_stays : Graph.ofDefinitions [city, stay] = .ok stays :=
  Graph.ofDefinitions_pair (by decide) (by decide) (ok_of_toOption (by decide +kernel))
    (ok_of_toOption (by decide +kernel)) rfl (by decide)

theorem hasBareSlots : stays.HasBareSlots := by
  simp [Graph.HasBareSlots, stays, city, stay]

theorem hasPlainCasings : stays.HasPlainCasings := by
  have htokens : ∀ token ∈ stay.tokens, token.modifiers.casing = .unchanged := by decide
  intro d hd hkind
  rcases List.mem_pair.mp hd with rfl | rfl
  · exact absurd rfl hkind
  · exact htokens

theorem exists_inPaname :
    ∃ es, (((Item.unit stay.key).all stays).run .empty).1 = .ok es ∧ inPaname ∈ es := by
  have hways : stays.expand stay.key.name (Item.useOf stay.key) =
      .ok [⟨some "stay", "in Paris".toList, [⟨"city", "Paris".toList, 3, 8⟩]⟩, inPaname,
        ⟨some "stay", "Paris".toList, [⟨"city", "Paris".toList, 0, 5⟩]⟩,
        ⟨some "stay", "Paname".toList, [⟨"city", "Paris".toList, 0, 6⟩]⟩] :=
    ok_of_toOption (by decide +kernel)
  have hsolid : stays.HasSolidArguments := by
    simp [Graph.HasSolidArguments, stays, references_city, references_stay, Reference.IsSolid,
      Modifiers.plain]
  have henumerate := (Graph.valid_of_ofDefinitions ofDefinitions_stays).enumerate_unit hsolid hways
  rw [distinct_of_nodup (by decide)] at henumerate
  refine ⟨_, (Item.run_all _ _ _).trans henumerate, ?_⟩
  exact List.mem_cons_of_mem _ List.mem_cons_self

end Travel

/-- The other name is recorded for the name. -/
theorem values_explained_by_synonyms_paname :
    Graph.ofDefinitions [Travel.city, Travel.stay] = .ok Travel.stays ∧
      Travel.stays.HasBareSlots ∧ Travel.stays.HasPlainCasings ∧
      ∃ s values, Travel.stays.synonyms = .ok s ∧ s.get? "Paname".toList = some values ∧
        "Paris".toList ∈ values := by
  obtain ⟨s, hs, hexplained, -⟩ := values_explained_by_synonyms Travel.ofDefinitions_stays
    Travel.hasBareSlots Travel.hasPlainCasings
  have hstay : Travel.stay ∈ Travel.stays.definitions := by simp [Travel.stays]
  obtain ⟨es, hes, hvalues⟩ := hexplained Travel.stay hstay .empty
  obtain ⟨es', hes', hmem⟩ := Travel.exists_inPaname
  obtain rfl : es = es' := Except.ok.inj (hes.symm.trans hes')
  refine ⟨Travel.ofDefinitions_stays, Travel.hasBareSlots, Travel.hasPlainCasings, ?_⟩
  rcases hvalues _ hmem _ List.mem_cons_self with hsame | ⟨values, hget, hvalue⟩
  · exact absurd hsame (by decide)
  · exact ⟨s, values, hs, hget, hvalue⟩

end Phrasebook
