import Phrasebook.Proofs.Enumeration
import Phrasebook.Proofs.Impartiality
import Phrasebook.Proofs.Sampling

/-!
The sampler and the enumeration agree.

Both walk the same templates, but they are written apart, and they disagree where early
dropping loses a sentence: the sampler draws from every way to make a sentence, the
enumeration drops repeats before a casing is applied outside of them.  So what is drawn is
the same sentence as one that is listed as long as casings are impartial, and at the end
there is a graph where they are not and a sentence is drawn that is never listed.
-/

namespace Phrasebook

namespace Graph

/-- The choice among the rules of each rule set is fair. -/
def IsFair (g : Graph) : Prop := ∀ d ∈ g.definitions, d.IsFair

/-- Every argument passed has a text, and it does not begin with a blank. -/
def HasSolidArguments (g : Graph) : Prop := ∀ d ∈ g.definitions, ∀ r ∈ d.references, r.IsSolid

namespace Valid

variable {g : Graph} {d : Definition} {es : List Example}

theorem hasChances (hg : g.Valid) : ∀ d ∈ g.layers, d.HasChances := by
  intro d hd
  exact (hg.wellFormed ((hg.mem_layers d).mp hd)).hasChances

/-- Solid arguments make all casings impartial. -/
theorem impartial (hg : g.Valid) (hsolid : g.HasSolidArguments) (owner : String) (key : Key) :
    g.Impartial owner (Item.useOf key) := by
  refine impartialIn_of_solid (fun d hd => hsolid d ((hg.mem_layers d).mp hd)) owner _ ?_
  simp [Item.useOf, Modifiers.plain, Reference.IsSolid]

/-- Where casings are impartial, a sentence that is drawn is the same as one that is listed. -/
theorem yields_sample (hg : g.Valid) (hfair : g.IsFair)
    (himpartial : g.Impartial d.name (Item.useOf d.key))
    (h : (Item.unit d.key).enumerate g = .ok es) :
    Yields ((Item.unit d.key).sample g) fun e => e.key ∈ es.map Example.key := by
  have hexpand := enumerateIn_eq g.layers d.name (Item.useOf d.key) himpartial
  rw [show enumerateIn g.layers d.name (Item.useOf d.key) = .ok es from h] at hexpand
  obtain ⟨all, hall, rfl⟩ := map_eq_ok.mp hexpand.symm
  have hdrawn := yields_sampleIn (fun d hd => hfair d ((hg.mem_layers d).mp hd)) hg.hasChances
    d.name (Item.useOf d.key) all hall
  exact hdrawn.mono fun e he => mem_key_distinct.mpr (List.mem_map_of_mem he)

end Valid

end Graph

/--
**What is drawn is listed**, as the same sentence, whatever the graph and the stream, if the
casings behind the definition are impartial.  They are where no argument passed is empty or
begins with a blank.
-/
theorem exists_enumerated_of_sample {definitions : List Definition} {g : Graph}
    (hg : Graph.ofDefinitions definitions = .ok g) (hfair : g.IsFair) {d : Definition}
    (hd : d ∈ g.definitions) (himpartial : g.Impartial d.name (Item.useOf d.key))
    {stream : Stream} {e : Example}
    (h : (((Item.unit d.key).sample g).run stream).1 = .ok e) :
    ∃ es, (Item.unit d.key).enumerate g = .ok es ∧ ∃ e' ∈ es, e'.key = e.key := by
  have hvalid := Graph.valid_of_ofDefinitions hg
  obtain ⟨es, hes⟩ := hvalid.exists_enumerate hd
  obtain ⟨-, hyields⟩ := hvalid.yields_sample hfair himpartial hes stream trivial
  obtain ⟨e', he', hkey⟩ := List.mem_map.mp (hyields e h)
  exact ⟨es, hes, e', he', hkey⟩

/-! ### A title in front of which stands a blank -/

namespace Greetings

/-- Someone by a title, or just sir, capitalized. -/
def polite : Definition where
  kind := .phrase
  name := "polite"
  rules := [.mk [.group
    [.mk [.word "$t".toList .plain] .one none, .mk [.word "sir".toList .plain] .one none]
    { Modifiers.plain with casing := .capitalize }] .one none]
  variations := []
  parameters := ["t".toList]
  directive := none

/-- A greeting with a title. -/
def greet (title : Text) : Definition where
  kind := .intent
  name := "greet"
  rules := [.mk [.reference ⟨.phrase, "polite"⟩
    { Modifiers.plain with arguments := [title] }] .one none]
  variations := []
  parameters := []
  directive := none

/-- What is drawn below. -/
def sir : Example := ⟨some "greet", "Sir".toList, []⟩

/-- The graph of both. -/
def graph (title : Text) : Graph := ⟨[polite, greet title], [greet title, polite]⟩

theorem check_polite (title : Text) : polite.check [polite, greet title] = .ok () := by
  simp [polite, Definition.check, RuleSet.check, Definition.allRules, Definition.checkRules,
    Definition.checkTokens, Definition.checkToken, Definition.checkChance, Rule.isWeighted,
    Rule.isReachable, Rule.weight, Modifiers.plain, bind, Except.bind, pure,
    Except.pure]
  decide

theorem check_greet (title : Text) : (greet title).check [polite, greet title] = .ok () := by
  simp [polite, greet, Definition.check, RuleSet.check, Definition.allRules,
    Definition.checkRules, Definition.checkTokens, Definition.checkToken, Definition.checkChance,
    Definition.checkReference, Definition.find?_cons, Definition.key, Rule.isWeighted,
    Rule.isReachable, Rule.weight, Modifiers.plain, bind, Except.bind, pure,
    Except.pure]
  decide

theorem references_greet (title : Text) : (greet title).references =
    [⟨⟨.phrase, "polite"⟩, { Modifiers.plain with arguments := [title] }⟩] := rfl

theorem references_polite : polite.references = [] := rfl

theorem ofDefinitions_eq (title : Text) :
    Graph.ofDefinitions [polite, greet title] = .ok (graph title) :=
  Graph.ofDefinitions_pair (by simp [polite, greet, Definition.key])
    (by simp [polite, greet, Definition.key, Key.le, Kind.rank]) (check_polite title)
    (check_greet title) references_polite (by simp [references_greet, polite, Definition.key])

/-- Whatever the title, one or two weights of one add up to a normal number. -/
theorem isFair (title : Text) : (graph title).IsFair := by
  have hone : Dice.IsFair [.one] := Dice.isFair_of_total (by decide +kernel)
  have htwo : Dice.IsFair [.one, .one] := Dice.isFair_of_total (by decide +kernel)
  simp [Graph.IsFair, graph, Definition.IsFair, Definition.ruleSets, Definition.tokens,
    Definition.allRules, polite, greet, tokensWithinRules, tokensWithin, tokensWithinToken,
    Token.rules?, Rule.weight, hone, htwo]

theorem enumerate_blank_sir :
    (Item.unit ⟨.intent, "greet"⟩).enumerate (graph " sir".toList) =
      .ok [⟨some "greet", " sir".toList, []⟩] := by
  have htitle : (Text.trim ['$', 't']).replace ['$', 't'] [' ', 's', 'i', 'r'] =
      [' ', 's', 'i', 'r'] := by decide
  have hsir : (Text.trim ['s', 'i', 'r']).replace ['$', 't'] [' ', 's', 'i', 'r'] =
      ['s', 'i', 'r'] := by decide
  -- Both are the same sentence here, and only the first one is left for the casing.
  have hsame : distinct [Example.empty.append (.ofText [' ', 's', 'i', 'r']),
      Example.empty.append (.ofText ['s', 'i', 'r'])] = [.ofText [' ', 's', 'i', 'r']] := by
    rw [distinct_cons, distinct_singleton, List.filter_eq_nil_iff.mpr]
    · rfl
    · simp only [List.mem_singleton, forall_eq]
      decide
  simp [Item.enumerate, Graph.enumerate, graph, enumerateIn, Definition.enumerate, greet, polite,
    Definition.key, Item.useOf, Definition.select, Definition.allRules, enumerateRules,
    Rule.isReachable, Rule.weight, enumerateTokens, enumerateToken, Modifiers.plain,
    Modifiers.isAbsent, bind, Except.bind, pure, Except.pure, Scope.ofDefinition, Scope.render,
    Scope.placeholder, htitle, hsir, Definition.finish, Modifiers.spread_singleton,
    Example.recase, hsame]
  decide +kernel

end Greetings

/-- With a solid title, what is drawn is listed. -/
theorem exists_enumerated_of_sample_sir :
    (((Item.unit ⟨.intent, "greet"⟩).sample (Greetings.graph "sir".toList)).run
        (.ofWords [4294967295])).1 = .ok Greetings.sir ∧
      ∃ es, (Item.unit ⟨.intent, "greet"⟩).enumerate (Greetings.graph "sir".toList) = .ok es ∧
        ∃ e' ∈ es, e'.key = Greetings.sir.key := by
  have hdrawn : (((Item.unit ⟨.intent, "greet"⟩).sample (Greetings.graph "sir".toList)).run
      (.ofWords [4294967295])).1 = .ok Greetings.sir := ok_of_toOption (by decide +kernel)
  have hgraph := Greetings.ofDefinitions_eq "sir".toList
  have hsolid : (Greetings.graph "sir".toList).HasSolidArguments := by
    have hsir : Text.IsSolid "sir".toList := by decide
    simpa [Graph.HasSolidArguments, Greetings.graph, Greetings.references_polite,
      Greetings.references_greet, Reference.IsSolid] using hsir
  have himpartial := (Graph.valid_of_ofDefinitions hgraph).impartial hsolid
    (Greetings.greet "sir".toList).name (Greetings.greet "sir".toList).key
  have hmem : Greetings.greet "sir".toList ∈ (Greetings.graph "sir".toList).definitions := by
    simp [Greetings.graph]
  exact ⟨hdrawn, exists_enumerated_of_sample hgraph (Greetings.isFair _) hmem himpartial hdrawn⟩

/--
With a blank in front of the title, the enumeration drops the plain sir as a repeat of the
title before it is capitalized, and the blank keeps the title from being capitalized.  So
`Sir` is drawn and never listed.
-/
theorem sample_not_enumerated :
    Graph.ofDefinitions [Greetings.polite, Greetings.greet " sir".toList] =
        .ok (Greetings.graph " sir".toList) ∧
      (Greetings.graph " sir".toList).IsFair ∧
      (((Item.unit ⟨.intent, "greet"⟩).sample (Greetings.graph " sir".toList)).run
        (.ofWords [4294967295])).1 = .ok Greetings.sir ∧
      ∃ es, (Item.unit ⟨.intent, "greet"⟩).enumerate (Greetings.graph " sir".toList) = .ok es ∧
        ∀ e' ∈ es, e'.key ≠ Greetings.sir.key := by
  refine ⟨Greetings.ofDefinitions_eq _, Greetings.isFair _, ok_of_toOption (by decide +kernel),
    _, Greetings.enumerate_blank_sir, ?_⟩
  simp only [List.mem_singleton, forall_eq]
  decide

end Phrasebook
