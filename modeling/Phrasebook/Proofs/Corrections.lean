import Phrasebook.Proofs.Repeats
import Phrasebook.Proofs.Session

/-!
Counts after corrections.

Who lists all sentences of a definition has their number, and it replaces the count.  What was
listed is the definition as it is, with its parameters standing for themselves, while a use may
pass arguments and make more of it: texts that were one as long as nothing was put in become
two.  The count of the use is looked up in the same place.

So a count bounds the sentences of its definition after corrections, too, if no definition
that was listed has more sentences with the arguments that some use passes than it has as it
is.  At the end there is a graph where one has, and the bound fails.
-/

namespace Phrasebook

namespace Graph

/-- The arguments that a definition is used with: none, where it is asked for by its key, or
those that some use in the graph passes. -/
def Passes (g : Graph) (key : Key) (arguments : List Text) : Prop :=
  arguments = [] ∨
    ∃ d ∈ g.definitions, ∃ r ∈ d.references, r.target = key ∧ r.modifiers.arguments = arguments

theorem passes_of_mem {g : Graph} : ∀ d ∈ g.definitions, ∀ r ∈ d.references,
    g.Passes r.target r.modifiers.arguments :=
  fun d hd r hr => Or.inr ⟨d, hd, r, hr, rfl, rfl⟩

namespace Valid

variable {g : Graph} {o : Options} {ops : List Session.Operation}

/-- After queries that list only what is largest as it is, counts are sound for all arguments
that are passed. -/
theorem keeps_sound (hg : g.Valid) (hcap : o.possibilityCap < Possibilities.largest)
    (hops : ∀ op ∈ ops, op.IsQuery)
    (hlisted : ∀ op ∈ ops, ∀ key, op.listed? = some key → g.IsLargestBare g.Passes key)
    (stream : Stream) :
    ((Session.performAll ops).run (Session.start g o stream)).2.Keeps g o
      (Counts.Sound g.layers g.Passes o.possibilityCap) := by
  refine Session.keeps_performAll_of_listed (fun key => ?_) hops (fun op hop key hkey => ?_)
    ⟨rfl, rfl, Counts.Sound.empty⟩
  · exact (hg.bounds_unit hcap passes_of_mem (Or.inl rfl)).mono fun _ _ => trivial
  · exact sound_all_of_isLargestBare (hlisted op hop key hkey)

end Valid

end Graph

/--
**Counts stay bounds through corrections.**  In a session that starts with nothing known,
after any queries that list only definitions which have no more sentences with any arguments
passed to them than as they are, each definition is answered with a count, and unless that hit
the cap the definition has no more sentences.
-/
theorem length_le_count_of_queries {definitions : List Definition} {g : Graph}
    (hg : Graph.ofDefinitions definitions = .ok g) {o : Options}
    (hcap : o.possibilityCap < Possibilities.largest) (stream : Stream)
    {ops : List Session.Operation} (hops : ∀ op ∈ ops, op.IsQuery)
    (hlisted : ∀ op ∈ ops, ∀ key, op.listed? = some key → g.IsLargestBare g.Passes key)
    {d : Definition} (hd : d ∈ g.definitions) :
    ∃ es p, (Item.unit d.key).enumerate g = .ok es ∧
      (Session.perform (.count (.unit d.key))
        ((Session.performAll ops).run (Session.start g o stream)).2).1 = .count p ∧
      (p.isCapped o.possibilityCap = false → es.length ≤ p.value) := by
  have hvalid := Graph.valid_of_ofDefinitions hg
  obtain ⟨es, hes⟩ := hvalid.exists_enumerate hd
  have hkeeps := hvalid.keeps_sound hcap hops hlisted stream
  have hcount := (hvalid.returns_count hd).succeeds
    (hvalid.bounds_unit hcap Graph.passes_of_mem (Or.inl rfl)) hkeeps.counts
  obtain ⟨p, hbounds, hanswer, -⟩ := hkeeps.answers_count hcount
  refine ⟨es, p, hes, hanswer, fun huncapped => ?_⟩
  rcases hbounds es hes with hcapped | hle
  · rw [huncapped] at hcapped
    injection hcapped
  · exact hle

/-! ### A word that is shouted -/

namespace Shouting

/-- Whatever is said, in both casings. -/
def shout : Definition where
  kind := .phrase
  name := "shout"
  rules := [.mk [.word "$t".toList { Modifiers.plain with casing := .either }] .one none]
  variations := []
  parameters := ["t".toList]
  directive := none

/-- A greeting that is shouted. -/
def greet : Definition where
  kind := .intent
  name := "greet"
  rules := [.mk [.reference ⟨.phrase, "shout"⟩
    { Modifiers.plain with arguments := ["hi".toList] }] .one none]
  variations := []
  parameters := []
  directive := none

/-- The graph of both. -/
def graph : Graph := ⟨[shout, greet], [greet, shout]⟩

/-- A sentence of the greeting. -/
def shouted (text : String) : Example := ⟨some "greet", text.toList, []⟩

theorem references_shout : shout.references = [] := rfl

theorem references_greet : greet.references =
    [⟨⟨.phrase, "shout"⟩, { Modifiers.plain with arguments := ["hi".toList] }⟩] := rfl

theorem ofDefinitions_eq : Graph.ofDefinitions [shout, greet] = .ok graph :=
  Graph.ofDefinitions_pair (by decide) (by decide) (ok_of_toOption (by decide +kernel))
    (ok_of_toOption (by decide +kernel)) rfl (by decide)

theorem hasSolidArguments : graph.HasSolidArguments := by
  have hhi : Text.IsSolid "hi".toList := by decide
  simpa [Graph.HasSolidArguments, graph, references_shout, references_greet,
    Reference.IsSolid] using hhi

/-- The phrase as it is begins with no letter, so both of its ways make one sentence. -/
theorem enumerate_shout :
    (Item.unit shout.key).enumerate graph = .ok [.ofText "$t".toList] := by
  have hways : graph.expand shout.key.name (Item.useOf shout.key) =
      .ok [.ofText "$t".toList, .ofText "$t".toList] := ok_of_toOption (by decide +kernel)
  rw [(Graph.valid_of_ofDefinitions ofDefinitions_eq).enumerate_unit hasSolidArguments hways]
  simp [distinct_cons]

/-- What is greeted with has a letter, and so two forms. -/
theorem enumerate_greet :
    (Item.unit greet.key).enumerate graph = .ok [shouted "hi", shouted "Hi"] := by
  have hways : graph.expand greet.key.name (Item.useOf greet.key) =
      .ok [shouted "hi", shouted "Hi"] := ok_of_toOption (by decide +kernel)
  rw [(Graph.valid_of_ofDefinitions ofDefinitions_eq).enumerate_unit hasSolidArguments hways]
  rw [distinct_of_nodup (by decide)]

/-- One is known for the phrase, and nothing for the greeting. -/
structure Known (c : Counts) : Prop where
  shout : c.get? shout.key.whole = some (.exact 1)
  greet : c.get? greet.key.whole = none

/-- Listing the phrase leaves one as its count. -/
theorem succeeds_all : Succeeds ((Item.unit shout.key).all graph) .empty fun es c =>
    es = [.ofText "$t".toList] ∧ Known c := by
  have hne : shout.key.whole ≠ greet.key.whole := by decide
  obtain ⟨_, _, hrun, rfl, rfl⟩ := Item.succeeds_all enumerate_shout .empty
  refine ⟨_, _, hrun, rfl, (Counts.get?_set _ _ _ _).trans (if_pos rfl), ?_⟩
  exact (Counts.get?_set _ _ _ _).trans ((if_neg hne).trans (Counts.get?_empty _))

/-- What is known of the phrase is taken for its use, whatever arguments are passed. -/
theorem succeeds_countIn {c : Counts} (h : Known c) (cap : Nat)
    (arguments : List Text) :
    Succeeds (countIn cap [shout] "greet" (shout.key.use none arguments)) c
      fun p _ => p = .exact 1 := by
  have hknown : Succeeds (shout.count (countIn cap []) cap (.unit shout.key) none) c
      fun p c' => p = .exact 1 ∧ c' = c := Counts.succeeds_remember_of_some h.shout
  obtain ⟨p, c', hrun, rfl, -⟩ := hknown
  exact ⟨_, c', hrun, rfl⟩

/-- The count of the greeting is then one, too. -/
theorem succeeds_count {c : Counts} (h : Known c) :
    Succeeds ((Item.unit greet.key).count graph Options.default.possibilityCap) c
      fun p _ => p = .exact 1 ∧ True := by
  have htoken : Succeeds (countToken (countIn Options.default.possibilityCap [shout])
      Options.default.possibilityCap "greet" (.unit greet.key) [0, 0]
      (.reference shout.key (shout.key.use none ["hi".toList]).modifiers)) c
      fun p _ => p = .exact 1 := by
    have hplain : (shout.key.use none ["hi".toList]).modifiers.isAbsent = false := rfl
    rw [countToken, hplain]
    refine Succeeds.bind (succeeds_countIn h Options.default.possibilityCap ["hi".toList]) ?_
    rintro _ c' rfl
    exact Succeeds.pure rfl
  have hrules : Succeeds (countRules (countIn Options.default.possibilityCap [shout])
      Options.default.possibilityCap "greet" (.unit greet.key) [] 0 (.exact 0) greet.allRules) c
      fun p _ => p = .exact 1 := by
    show Succeeds (countRules _ _ _ _ [] 0 (.exact 0)
      [.mk [.reference shout.key (shout.key.use none ["hi".toList]).modifiers] .one none]) c _
    rw [countRules, countTokens]
    refine Succeeds.bind (Succeeds.bind htoken (S := fun p _ => p = .exact 1) ?_) ?_
    · rintro _ c' rfl
      exact Succeeds.pure rfl
    · rintro _ c' rfl
      exact Succeeds.pure (by decide +kernel)
  obtain ⟨p, c', hrun, hp, -⟩ := Counts.succeeds_remember_of_none h.greet hrules
  exact ⟨p, c', hrun, hp, trivial⟩

/-- The session in which the greeting itself was listed. -/
def listed : Session :=
  ((Session.performAll [.all (.unit greet.key)]).run
    (Session.start graph .default (.ofWords [0]))).2

theorem keeps_listed :
    listed.Keeps graph .default fun c => c.get? greet.key.whole = some (.exact 2) := by
  have hstart : (Session.start graph .default (.ofWords [0])).Keeps graph .default fun _ => True :=
    ⟨rfl, rfl, trivial⟩
  unfold listed
  rw [Session.performAll_cons, Session.performAll_nil]
  generalize Session.start graph .default (.ofWords [0]) = s at hstart
  obtain ⟨es, c, hrun, -, rfl⟩ := Item.succeeds_all enumerate_greet s.progress.counts
  obtain ⟨_, -, -, hkeeps⟩ := hstart.answers_all (Q := fun _ => True)
    (J := fun c => c.get? greet.key.whole = some (.exact 2))
    ⟨es, _, hrun, trivial, (Counts.get?_set _ _ _ _).trans (if_pos rfl)⟩
  exact hkeeps

/-- Then the number of its sentences is its count. -/
theorem count_listed :
    (Session.perform (.count (.unit greet.key)) listed).1 = .count (.exact 2) := by
  have hmem : greet ∈ graph.definitions := by simp [graph]
  obtain ⟨p, rfl, hanswer, -⟩ := keeps_listed.answers_count
    ((Graph.valid_of_ofDefinitions ofDefinitions_eq).succeeds_count_of_known hmem
      keeps_listed.counts)
  exact hanswer

/-- Nothing uses the greeting, with or without arguments. -/
theorem isLargestBare_greet : graph.IsLargestBare graph.Passes greet.key := by
  have hne : (⟨.phrase, "shout"⟩ : Key) ≠ greet.key := by decide
  refine Graph.IsLargestBare.of_bare ?_
  rintro arguments (harguments | ⟨d, hd, r, hr, htarget, -⟩)
  · exact harguments
  · rcases List.mem_pair.mp hd with rfl | rfl
    · simp [references_shout] at hr
    · obtain rfl := List.mem_singleton.mp (references_greet ▸ hr)
      exact absurd htarget hne

end Shouting

/-- When the greeting itself was listed, its count is two, and it has two sentences. -/
theorem length_le_count_of_queries_greet :
    ∃ es p, (Item.unit Shouting.greet.key).enumerate Shouting.graph = .ok es ∧ es.length = 2 ∧
      (Session.perform (.count (.unit Shouting.greet.key)) Shouting.listed).1 = .count p ∧
      p = ⟨2, false⟩ ∧ es.length ≤ p.value := by
  have hmem : Shouting.greet ∈ Shouting.graph.definitions := by simp [Shouting.graph]
  have hops : ∀ op ∈ [Session.Operation.all (.unit Shouting.greet.key)], op.IsQuery := by
    simp [Session.Operation.IsQuery]
  have hlisted : ∀ op ∈ [Session.Operation.all (.unit Shouting.greet.key)], ∀ key,
      op.listed? = some key → Shouting.graph.IsLargestBare Shouting.graph.Passes key := by
    intro op hop key hkey
    obtain rfl := List.mem_singleton.mp hop
    obtain rfl : Shouting.greet.key = key := Option.some.inj hkey
    exact Shouting.isLargestBare_greet
  obtain ⟨es, p, hes, hanswer, hle⟩ := length_le_count_of_queries Shouting.ofDefinitions_eq
    (o := .default) (by decide) (.ofWords [0]) hops hlisted hmem
  obtain rfl : p = .exact 2 := by
    have hsame := hanswer.symm.trans Shouting.count_listed
    injection hsame
  refine ⟨es, _, hes, ?_, hanswer, rfl, hle rfl⟩
  obtain rfl := Except.ok.inj (Shouting.enumerate_greet.symm.trans hes)
  rfl

/--
When the phrase was listed as it is, its count is one, and so is then that of the greeting,
which has two sentences.
-/
theorem count_below_enumeration :
    Graph.ofDefinitions [Shouting.shout, Shouting.greet] = .ok Shouting.graph ∧
      ((Session.performAll
          [.all (.unit Shouting.shout.key), .count (.unit Shouting.greet.key)]).run
        (Session.start Shouting.graph .default (.ofWords [0]))).1 =
          [.examples [.ofText "$t".toList], .count ⟨1, false⟩] ∧
      (Item.unit Shouting.greet.key).enumerate Shouting.graph =
        .ok [Shouting.shouted "hi", Shouting.shouted "Hi"] := by
  refine ⟨Shouting.ofDefinitions_eq, ?_, Shouting.enumerate_greet⟩
  have hstart : (Session.start Shouting.graph .default (.ofWords [0])).Keeps Shouting.graph
      .default (· = .empty) := ⟨rfl, rfl, rfl⟩
  generalize Session.start Shouting.graph .default (.ofWords [0]) = s at hstart
  have hall := Shouting.succeeds_all
  rw [← hstart.counts] at hall
  obtain ⟨es, hes, hlisted, hkeeps⟩ := hstart.answers_all hall
  obtain ⟨p, hp, hcounted, -⟩ := hkeeps.answers_count (Shouting.succeeds_count hkeeps.counts)
  rw [Session.answers_cons, Session.answers_cons, hlisted, hcounted, hes, hp]
  rfl

end Phrasebook
