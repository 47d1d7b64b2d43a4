import Phrasebook.Proofs.Circles

/-!
Which lists of definitions are graphs.

`Graph.ofDefinitions` goes over the definitions three times, for repeated keys, for faults of
single definitions and for circles, and stops at the first thing that is wrong.  What it
accepts can be said without any of that: the list is `WellFormed`.

Nor does it matter in which order the definitions come.  They are sorted before anything but
their keys is looked at, and where no key is repeated there is one sorted order only; so the
answer is the same for every order, the graph as well as the fault that is reported.
-/

namespace Phrasebook

namespace Graph

theorem ofDefinitions_eq_of_perm {definitions definitions' : List Definition}
    (hkeys : (definitions.map Definition.key).Nodup) (hperm : definitions'.Perm definitions) :
    ofDefinitions definitions' = ofDefinitions definitions := by
  have hkeys' : (definitions'.map Definition.key).Nodup := (hperm.map _).nodup_iff.mpr hkeys
  rw [ofDefinitions_inOrder hkeys', ofDefinitions_inOrder hkeys,
    Definition.inOrder_eq_of_perm hkeys hperm]

/-! ### Well-formed lists -/

/-- No key is repeated, every definition is in order, and no key leads to itself along
references. -/
structure WellFormed (definitions : List Definition) : Prop where
  nodup_key : (definitions.map Definition.key).Nodup
  wellFormed : ∀ d ∈ definitions, d.WellFormed definitions
  acyclic : ∀ key, ¬ Relation.TransGen (Refers definitions) key key

/--
**Exactly the well-formed lists are graphs.**  The graph holds the definitions of the list and
no others, and where no key is repeated, every order of the list has the same answer.
-/
theorem ofDefinitions_iff_wellFormed (definitions : List Definition) :
    ((∃ g, ofDefinitions definitions = .ok g) ↔ WellFormed definitions) ∧
    (∀ g, ofDefinitions definitions = .ok g → g.definitions.Perm definitions) ∧
    ∀ definitions' : List Definition, definitions'.Perm definitions →
      (definitions.map Definition.key).Nodup →
      ofDefinitions definitions' = ofDefinitions definitions := by
  refine ⟨⟨?_, fun h => ?_⟩, ?_, ?_⟩
  · rintro ⟨g, h⟩
    obtain ⟨hkeys, hchecked⟩ := checked_of_ofDefinitions h
    refine ⟨hkeys, fun d hd => (Definition.check_eq_ok_iff hkeys).mp (hchecked d hd), ?_⟩
    exact acyclic_of_ofDefinitions h
  · have hchecked : ∀ d ∈ definitions, d.check definitions = .ok () :=
      fun d hd => (Definition.check_eq_ok_iff h.nodup_key).mpr (h.wellFormed d hd)
    cases hresult : ofDefinitions definitions with
    | ok g => exact ⟨g, rfl⟩
    | error e =>
        obtain ⟨path, -, hcircle⟩ := isCircle_of_ofDefinitions h.nodup_key hchecked hresult
        obtain ⟨key, hcycle⟩ := hcircle.exists_transGen
        exact absurd hcycle (h.acyclic key)
  · exact fun g h => perm_of_ofDefinitions h
  · exact fun definitions' hperm hkeys => ofDefinitions_eq_of_perm hkeys hperm

end Graph

/-! ### A list back to front -/

namespace Salutation

/-- A phrase with a variation, a parameter and a group that stands by chance. -/
def hello : Definition where
  kind := .phrase
  name := "hello"
  rules := [.mk [.word "hello".toList .plain,
    .group [.mk [.word "$who".toList .plain] .one none]
      { Modifiers.plain with chance := some .one }] .one none]
  variations := [⟨"short", [.mk [.word "hi".toList .plain] .one none,
    .mk [.word "yo".toList .plain] .zero none]⟩]
  parameters := ["who".toList]
  directive := none

/-- An intent that passes an argument and asks for a variation. -/
def greet : Definition where
  kind := .intent
  name := "greet"
  rules := [
    .mk [.reference ⟨.phrase, "hello"⟩ { Modifiers.plain with arguments := ["you".toList] }]
      .one none,
    .mk [.reference ⟨.phrase, "hello"⟩ { Modifiers.plain with variation := some "short" }]
      .one none]
  variations := []
  parameters := []
  directive := none

/-- The graph of both. -/
def graph : Graph := ⟨[hello, greet], [greet, hello]⟩

theorem ofDefinitions_eq : Graph.ofDefinitions [hello, greet] = .ok graph :=
  Graph.ofDefinitions_pair (by decide) (by decide) (ok_of_toOption (by decide +kernel))
    (ok_of_toOption (by decide +kernel)) rfl (by decide)

/-- With the intent first, they are a graph as well, and the same one. -/
theorem wellFormed_greet_hello :
    Graph.WellFormed [greet, hello] ∧ Graph.ofDefinitions [greet, hello] = .ok graph := by
  have hkeys : ([hello, greet].map Definition.key).Nodup := by
    simp [hello, greet, Definition.key]
  have hswap : [greet, hello].Perm [hello, greet] := List.Perm.swap _ _ _
  have hsame : Graph.ofDefinitions [greet, hello] = .ok graph := by
    rw [(Graph.ofDefinitions_iff_wellFormed [hello, greet]).2.2 [greet, hello] hswap hkeys]
    exact ofDefinitions_eq
  exact ⟨(Graph.ofDefinitions_iff_wellFormed [greet, hello]).1.mp ⟨_, hsame⟩, hsame⟩

end Salutation

end Phrasebook
