import Phrasebook.Proofs.Alike
import Phrasebook.Proofs.Dataset
import Phrasebook.Proofs.Direct

/-!
Intents do not disturb one another.

The examples of an intent are made from a table of counts that the intents before it have
filled, also with counts of phrases and slots that they share with it.  These are direct
counts, as nothing but intents is listed in a run and no rule refers to an intent.  So from
any two graphs that share what an intent reaches, the tables it meets are `Matching`, and what
it makes of them is the same.

The streams need no argument: each intent and each part has its own, which depends on nothing
but the names and the seed.
-/

namespace Phrasebook

/-! ### Tables of two graphs -/

/-- Two tables keep direct counts, each for its graph, unless for free parts, and know the same
of the parts that are shared. -/
structure Counts.Matching (g g' : Graph) (cap : Nat) (free shared : Key → Part → Prop)
    (c c' : Counts) : Prop where
  direct : c.Direct g.layers cap free
  direct' : c'.Direct g'.layers cap free
  known : ∀ key part, shared key part → c.get? ⟨.unit key, part⟩ = c'.get? ⟨.unit key, part⟩

/-- Keeping the same for a free part keeps tables matching. -/
theorem Counts.Matching.set {g g' : Graph} {cap : Nat} {free shared : Key → Part → Prop}
    {c c' : Counts} (h : c.Matching g g' cap free shared c') {key : Key} {part : Part}
    (hfree : free key part) (p : Possibilities) :
    (c.set ⟨.unit key, part⟩ p).Matching g g' cap free shared (c'.set ⟨.unit key, part⟩ p) := by
  refine ⟨h.direct.set_free hfree p, h.direct'.set_free hfree p, fun key' part' hshared => ?_⟩
  rw [get?_set, get?_set, h.known key' part' hshared]

/-- The part is an intent as a whole. -/
def WholeIntent (key : Key) (part : Part) : Prop := key.kind = .intent ∧ part = .whole

/-- The part is the definition with the first key as a whole. -/
def WholeOf (key key' : Key) (part : Part) : Prop := key' = key ∧ part = .whole

theorem not_wholeIntent_group (key : Key) (path : List Nat) : ¬ WholeIntent key (.group path) :=
  fun h => by injection h.2

theorem Graph.settles_wholeIntent {g : Graph}
    (h : ∀ d ∈ g.definitions, ∀ r ∈ d.references, r.target.kind ≠ .intent) :
    g.Settles WholeIntent :=
  fun d hd r hr _ hpart => h d hd r hr hpart.1

namespace Graph.Valid

variable {g g' : Graph} {cap : Nat} {d : Definition}

theorem mem_of_shares (hg : g.Valid) (hd : d ∈ g.definitions) (hshares : g.Shares g' d.key) :
    d ∈ g'.definitions := by
  have hfound : g.get? d.key = some d := Definition.find?_of_mem hg.nodup_key hd
  rw [hshares d.key .refl] at hfound
  exact Definition.mem_of_find? hfound

theorem direct_eq_of_shares (hg : g.Valid) (hg' : g'.Valid) (hd : d ∈ g.definitions)
    (hshares : g.Shares g' d.key) : g.direct cap d.key = g'.direct cap d.key :=
  answerIn_eq_of_shares (Definition.asksOwn_directUse cap) _ hg hg' hd hshares _

/-- **An intent is counted alike** where graphs share what it reaches. -/
theorem alike_count (hg : g.Valid) (hg' : g'.Valid) (hsettles : g.Settles WholeIntent)
    (hsettles' : g'.Settles WholeIntent) (hd : d ∈ g.definitions) (hintent : d.key.kind = .intent)
    (hshares : g.Shares g' d.key) :
    Alike (Counts.Matching g g' cap WholeIntent (WholeOf d.key)) ((Item.unit d.key).count g cap)
      ((Item.unit d.key).count g' cap) := by
  have hd' := hg.mem_of_shares hd hshares
  refine Alike.of_succeeds fun c c' hc => ?_
  obtain ⟨p, t, hrun, hp, ht⟩ := hg.succeeds_free hsettles hd ⟨hintent, rfl⟩
    (not_wholeIntent_group d.key) hc.direct.with_known
  obtain ⟨p', t', hrun', hp', ht'⟩ := hg'.succeeds_free hsettles' hd' ⟨hintent, rfl⟩
    (not_wholeIntent_group d.key) hc.direct'.with_known
  obtain rfl : p = p' := by
    rw [hp, hp', hc.known d.key .whole ⟨rfl, rfl⟩, hg.direct_eq_of_shares hg' hd hshares]
  refine ⟨p, p, t, hrun, rfl, p, t', hrun', rfl, ht.direct, ht'.direct, ?_⟩
  rintro _ _ ⟨rfl, rfl⟩
  rw [ht.known d.key .whole ⟨hintent, rfl⟩, ht'.known d.key .whole ⟨hintent, rfl⟩,
    if_pos ⟨rfl, rfl⟩, if_pos ⟨rfl, rfl⟩]

/-- **The answers about an intent go alike** where graphs share what it reaches. -/
theorem answersAlike (hg : g.Valid) (hg' : g'.Valid) (hsettles : g.Settles WholeIntent)
    (hsettles' : g'.Settles WholeIntent) (hd : d ∈ g.definitions) (hintent : d.key.kind = .intent)
    (hshares : g.Shares g' d.key) (o : Options) :
    (Item.unit d.key).AnswersAlike g g' o
      (Counts.Matching g g' o.possibilityCap WholeIntent (WholeOf d.key)) where
  count := hg.alike_count hg' hsettles hsettles' hd hintent hshares
  all := Item.alike_all (hg.enumerate_eq_of_shares hg' hd hshares) fun _ _ _ hc =>
    hc.set ⟨hintent, rfl⟩ _
  sample := hg.sample_eq_of_shares hg' hd hshares

end Graph.Valid

/-! ### The other intents -/

/-- The table keeps direct counts, and nothing is known of the intent with the key. -/
structure Counts.Untouched (g : Graph) (cap : Nat) (key : Key) (c : Counts) : Prop where
  direct : c.Direct g.layers cap WholeIntent
  unknown : c.get? key.whole = none

namespace Graph.Valid

variable {g : Graph} {d other : Definition}

/-- **An intent leaves nothing behind about another one.** -/
theorem untouched_answers (hg : g.Valid) (hsettles : g.Settles WholeIntent)
    (hother : other ∈ g.definitions) (hintent : other.key.kind = .intent)
    (hd : d.key.kind = .intent) (hne : other.key ≠ d.key) (o : Options) :
    (Item.unit other.key).Answers g o (Counts.Untouched g o.possibilityCap d.key)
      (fun _ => True) fun _ => True where
  count := by
    intro c hc
    obtain ⟨p, t, hrun, -, ht⟩ := hg.succeeds_free hsettles hother ⟨hintent, rfl⟩
      (not_wholeIntent_group other.key) hc.direct.with_known
    rw [hrun]
    refine ⟨⟨ht.direct, ?_⟩, fun _ _ => trivial⟩
    refine (ht.known d.key .whole ⟨hd, rfl⟩).trans ?_
    rw [if_neg fun h => hne h.1.symm]
    exact hc.unknown
  all := by
    refine Item.ensures_all fun c es hc _ => ⟨hc.direct.set_free ⟨hintent, rfl⟩ _, ?_⟩
    have hplace : other.key.whole ≠ d.key.whole := by
      simpa [Key.whole] using hne
    exact (Counts.get?_set _ _ _ _).trans ((if_neg hplace).trans hc.unknown)
  sample := Ensures.any _
  enumerate es hes := ⟨nodup_key_enumerateIn hes, fun _ _ => trivial⟩

end Graph.Valid

/-! ### A whole run -/

theorem Ensures.run_bind_eq_ok {ε σ α β : Type} {m : ExceptT ε (StateM σ) α}
    {f : α → ExceptT ε (StateM σ) β} {s : σ} {b : β} (h : ((m >>= f).run s).1 = .ok b) :
    ∃ a t, m.run s = (.ok a, t) ∧ ((f a).run t).1 = .ok b := by
  rw [run_bind] at h
  rcases hr : m.run s with ⟨e | a, t⟩
  · rw [hr] at h
    injection h
  · rw [hr] at h
    exact ⟨a, t, rfl, h⟩

/-- What is made of one of a list is made from a state as the others leave it. -/
theorem Ensures.exists_run_of_mapM {ε σ α β : Type} {f : α → ExceptT ε (StateM σ) β}
    {J : σ → Prop} {xs : List α} {x : α} (hx : x ∈ xs)
    (hother : ∀ y ∈ xs, y ≠ x → Ensures J (f y) fun _ => True) {s : σ} (hs : J s) {ys : List β}
    (h : ((xs.mapM f).run s).1 = .ok ys) :
    ∃ y t, J t ∧ ((f x).run t).1 = .ok y ∧ (x, y) ∈ xs.zip ys := by
  induction xs generalizing s ys with
  | nil => simp at hx
  | cons first rest ih =>
      rw [List.mapM_cons] at h
      obtain ⟨y, t, hfirst, h⟩ := run_bind_eq_ok h
      obtain ⟨ys', t', hrest, h⟩ := run_bind_eq_ok h
      obtain rfl : y :: ys' = ys := by injection h
      rw [List.zip_cons_cons]
      by_cases hsame : first = x
      · obtain rfl := hsame
        exact ⟨y, s, hs, by rw [hfirst], by simp⟩
      · have hmem : x ∈ rest := (List.mem_cons.mp hx).resolve_left (Ne.symm hsame)
        have ht : J t := by
          have h := (hother first (by simp) hsame s hs).1
          rwa [hfirst] at h
        obtain ⟨y', t'', hJ, hrun, hzip⟩ := ih hmem
          (fun z hz => hother z (List.mem_cons_of_mem first hz)) ht (by rw [hrest])
        exact ⟨y', t'', hJ, hrun, List.mem_cons_of_mem _ hzip⟩

namespace Dataset

variable {g : Graph} {o : Options} {c : Counts} {ds : Dataset}

theorem exists_mapM_of_generate (h : ((generate g o).run c).1 = .ok ds) :
    ∃ parts, (((g.ofKind .intent).mapM (ofIntent g o)).run c).1 = .ok parts ∧ Holds parts ds := by
  unfold generate at h
  cases hcheck : o.check with
  | error reason =>
      rw [hcheck] at h
      obtain ⟨_, _, hthrow, -⟩ := Ensures.run_bind_eq_ok h
      injection hthrow with hthrow
      injection hthrow
  | ok u =>
      rw [hcheck] at h
      obtain ⟨synonyms, t, hsynonyms, h⟩ := Ensures.run_bind_eq_ok h
      obtain ⟨parts, t', hparts, hresult⟩ := Ensures.run_bind_eq_ok h
      obtain rfl : c = t := by
        cases hs : g.synonyms with
        | error e =>
            rw [hs] at hsynonyms
            injection hsynonyms with hfailed
        | ok _ =>
            rw [hs] at hsynonyms
            injection hsynonyms
      refine ⟨parts, by rw [hparts], ?_⟩
      injection hresult with hds
      rw [← hds]
      exact ⟨rfl, rfl, rfl, by simp [Function.comp_def], by simp [Function.comp_def]⟩

/-- What a data set holds of an intent, by its name. -/
structure HasPart (name : String) (ds : Dataset) (r : IntentExamples) : Prop where
  train : ds.train.filter (fun e => e.intent = some name) = r.train.examples
  test : ds.test.filter (fun e => e.intent = some name) = r.test.examples
  report : ds.report.intents.filter (fun i => i.intent = name) = [r.report]

/-- A data set holds of an intent what was made of it. -/
theorem Holds.hasPart {intents : List Definition} {parts : List IntentExamples} {d : Definition}
    {r : IntentExamples} (hds : Holds parts ds)
    (h : List.Forall₂ (fun e r => IsOf e (fun x => x.intent = some e.name) r) intents parts)
    (hfilter : ((intents.zip parts).filter fun pair => pair.1.name = d.name) = [(d, r)]) :
    HasPart d.name ds r := by
  have htrain := filter_flatMap_zip (h.imp fun e r hr x hx =>
    hr.fresh.all x (List.mem_append_left _ hx)) d.name
  have htest := filter_flatMap_zip (h.imp fun e r hr x hx =>
    hr.fresh.all x (List.mem_append_right _ hx)) d.name
  have hreport : (parts.flatMap fun r => [r.report]).filter
      (fun i => some i.intent = some d.name) = _ :=
    filter_flatMap_zip (h.imp fun e r hr x hx => by
      rw [List.mem_singleton.mp hx, hr.intent]) d.name
  rw [hfilter] at htrain htest hreport
  refine ⟨?_, ?_, ?_⟩
  · rw [hds.train, htrain]
    simp
  · rw [hds.test, htest]
    simp
  · rw [hds.intents, List.map_eq_flatMap]
    simpa using hreport

/-- **In a run an intent is made from a table that the others left untouched.** -/
theorem exists_part_of_generate (hg : g.Valid) (hsettles : g.Settles WholeIntent)
    {d : Definition} (hd : d ∈ g.ofKind .intent) (hc : ∀ key part, c.get? ⟨.unit key, part⟩ = none)
    (h : ((generate g o).run c).1 = .ok ds) :
    ∃ t r, Counts.Untouched g o.possibilityCap d.key t ∧ ((ofIntent g o d).run t).1 = .ok r ∧
      HasPart d.name ds r := by
  obtain ⟨parts, hparts, hds⟩ := exists_mapM_of_generate h
  have hintent : ∀ e ∈ g.ofKind .intent, e ∈ g.definitions ∧ e.key.kind = .intent :=
    fun e he => Graph.mem_ofKind.mp he
  have hother : ∀ e ∈ g.ofKind .intent, e ≠ d →
      Ensures (Counts.Untouched g o.possibilityCap d.key) (ofIntent g o e) fun _ => True := by
    intro e he hne
    have hkey : e.key ≠ d.key := fun hkey =>
      hne (Definition.eq_of_key hg.nodup_key (hintent e he).1 (hintent d hd).1 hkey)
    have hanswers := hg.untouched_answers hsettles (hintent e he).1 (hintent e he).2
      (hintent d hd).2 hkey o
    exact (ensures_ofIntent hanswers).mono fun _ _ => trivial
  have hstart : c.Untouched g o.possibilityCap d.key := ⟨.of_none hc, hc d.key .whole⟩
  obtain ⟨r, t, ht, hrun, hzip⟩ := Ensures.exists_run_of_mapM hd hother hstart hparts
  have hmade : Ensures (fun _ => True) ((g.ofKind .intent).mapM (ofIntent g o))
      (List.Forall₂ (fun e r => IsOf e (fun x => x.intent = some e.name) r) (g.ofKind .intent)) :=
    Ensures.mapM fun e he =>
      (ensures_ofIntent ((Item.Answers.any g o e.key).intent (hintent e he).2)).mono
        fun r hr => hr.1
  have hall := (hmade c trivial).2 parts hparts
  obtain ⟨r', -, hfilter⟩ := exists_filter_zip hall (hg.pairwise_name .intent) hd
  have hmem : (d, r) ∈ ((g.ofKind .intent).zip parts).filter fun pair => pair.1.name = d.name :=
    List.mem_filter.mpr ⟨hzip, by simp⟩
  obtain rfl : r = r' := by simpa [hfilter] using hmem
  exact ⟨t, r, ht, hrun, hds.hasPart hall hfilter⟩

end Dataset

/--
**Intents do not disturb one another.**  In two graphs no rule refers to an intent, and both
have the same intent and the same of all that it reaches.  If both runs with the same options,
from tables that know nothing of the definitions, come to a data set, the two have the same
examples of the intent for training and for testing, in the same order, and report the same
on it.
-/
theorem generate_intent_eq {definitions definitions' : List Definition} {g g' : Graph}
    (hg : Graph.ofDefinitions definitions = .ok g) (hg' : Graph.ofDefinitions definitions' = .ok g')
    (hunused : ∀ d ∈ g.definitions, ∀ r ∈ d.references, r.target.kind ≠ .intent)
    (hunused' : ∀ d ∈ g'.definitions, ∀ r ∈ d.references, r.target.kind ≠ .intent)
    {d : Definition} (hd : d ∈ g.ofKind .intent) (hshares : g.Shares g' d.key) {o : Options}
    {c c' : Counts} (hc : ∀ key part, c.get? ⟨.unit key, part⟩ = none)
    (hc' : ∀ key part, c'.get? ⟨.unit key, part⟩ = none) {ds ds' : Dataset}
    (h : ((Dataset.generate g o).run c).1 = .ok ds)
    (h' : ((Dataset.generate g' o).run c').1 = .ok ds') :
    ds.train.filter (fun e => e.intent = some d.name) =
        ds'.train.filter (fun e => e.intent = some d.name) ∧
      ds.test.filter (fun e => e.intent = some d.name) =
        ds'.test.filter (fun e => e.intent = some d.name) ∧
      ∃ report, ds.report.intents.filter (fun i => i.intent = d.name) = [report] ∧
        ds'.report.intents.filter (fun i => i.intent = d.name) = [report] := by
  have hvalid := Graph.valid_of_ofDefinitions hg
  have hvalid' := Graph.valid_of_ofDefinitions hg'
  obtain ⟨hmem, hintent⟩ := Graph.mem_ofKind.mp hd
  have hsettles := Graph.settles_wholeIntent hunused
  have hsettles' := Graph.settles_wholeIntent hunused'
  have hd' : d ∈ g'.ofKind .intent :=
    Graph.mem_ofKind.mpr ⟨hvalid.mem_of_shares hmem hshares, hintent⟩
  obtain ⟨t, r, ht, hrun, hpart⟩ := Dataset.exists_part_of_generate hvalid hsettles hd hc h
  obtain ⟨t', r', ht', hrun', hpart'⟩ :=
    Dataset.exists_part_of_generate hvalid' hsettles' hd' hc' h'
  have hanswers := hvalid.answersAlike hvalid' hsettles hsettles' hmem hintent hshares o
  have hmatching : t.Matching g g' o.possibilityCap WholeIntent (WholeOf d.key) t' := by
    refine ⟨ht.direct, ht'.direct, ?_⟩
    rintro _ _ ⟨rfl, rfl⟩
    exact ht.unknown.trans ht'.unknown.symm
  have hsame := (Dataset.alike_ofIntent hanswers t t' hmatching).1
  rw [hrun, hrun'] at hsame
  obtain rfl : r = r' := Except.ok.inj hsame
  exact ⟨hpart.train.trans hpart'.train.symm, hpart.test.trans hpart'.test.symm,
    r.report, hpart.report, hpart'.report⟩

/-! ### A title that two intents share -/

namespace Greetings

/-- A farewell with the title of the greeting. -/
def farewell : Definition where
  kind := .intent
  name := "farewell"
  rules := [.mk [.word "bye".toList .plain, .reference ⟨.phrase, "polite"⟩
    { Modifiers.plain with arguments := ["madam".toList] }] .one none]
  variations := []
  parameters := []
  directive := none

/-- The greeting of a sir. -/
def greetSir : Definition := greet "sir".toList

/-- The graph that has the farewell too, which comes first in a run. -/
def both : Graph := ⟨[polite, farewell, greetSir], [greetSir, farewell, polite]⟩

theorem references_farewell : farewell.references =
    [⟨⟨.phrase, "polite"⟩, { Modifiers.plain with arguments := ["madam".toList] }⟩] := rfl

theorem ofDefinitions_both : Graph.ofDefinitions [polite, farewell, greetSir] = .ok both := by
  refine Graph.ofDefinitions_of_looksBack ?_ ?_ ?_ ?_
  · decide
  · decide
  · simp only [List.forall_mem_cons, List.not_mem_nil, false_implies, implies_true, and_true]
    exact ⟨ok_of_toOption (by decide +kernel), ok_of_toOption (by decide +kernel),
      ok_of_toOption (by decide +kernel)⟩
  · simp [Definition.LooksBack, references_polite, references_farewell, greetSir, references_greet]
    decide

/-- The greeting reaches itself and the title, which the farewell does not change. -/
theorem shares_greet : (graph "sir".toList).Shares both greetSir.key := by
  intro reached h
  have hreached : reached = greetSir.key ∨ reached = polite.key := by
    induction h with
    | refl => exact Or.inl rfl
    | step _ hd hr ih =>
        simp only [graph, List.mem_cons, List.not_mem_nil, or_false] at hd
        rcases hd with rfl | rfl
        · simp [references_polite] at hr
        · simp only [references_greet, List.mem_singleton] at hr
          rw [hr]
          exact Or.inr rfl
  rcases hreached with rfl | rfl
  · rfl
  · rfl

/-- A graph of these definitions comes to a data set. -/
theorem exists_generate_default {g : Graph} (hg : g.Valid)
    (hdefinitions : ∀ d ∈ g.definitions, d = polite ∨ d = farewell ∨ d = greetSir) :
    ∃ ds, ((Dataset.generate g .default).run .empty).1 = .ok ds := by
  have hslots : g.ofKind .slot = [] := by
    rw [Graph.ofKind, List.filter_eq_nil_iff]
    intro d hd
    rcases hdefinitions d hd with rfl | rfl | rfl
    all_goals decide
  have hreturns : Returns ((g.ofKind .intent).mapM (Dataset.ofIntent g .default)) := by
    refine Returns.mapM fun d hd => Dataset.returns_ofIntent hg _ (Graph.mem_ofKind.mp hd).1 ?_
    rcases hdefinitions d (Graph.mem_ofKind.mp hd).1 with rfl | rfl | rfl
    all_goals rfl
  have hsynonyms : g.synonyms = .ok .empty := by
    rw [Graph.synonyms, hslots]
    rfl
  exact Dataset.exists_generate Options.check_default hsynonyms (hreturns .empty)

end Greetings

/-- The farewell, which comes first and needs the title too, makes no difference to the
greeting. -/
theorem generate_intent_eq_greet :
    ∃ ds ds', ((Dataset.generate (Greetings.graph "sir".toList) .default).run .empty).1 = .ok ds ∧
      ((Dataset.generate Greetings.both .default).run .empty).1 = .ok ds' ∧
      ds.train.filter (fun e => e.intent = some "greet") =
        ds'.train.filter (fun e => e.intent = some "greet") := by
  have hgraph := Greetings.ofDefinitions_eq "sir".toList
  obtain ⟨ds, hds⟩ := Greetings.exists_generate_default (Graph.valid_of_ofDefinitions hgraph)
    (by simp [Greetings.graph, Greetings.greetSir])
  obtain ⟨ds', hds'⟩ := Greetings.exists_generate_default
    (Graph.valid_of_ofDefinitions Greetings.ofDefinitions_both) (by simp [Greetings.both])
  refine ⟨ds, ds', hds, hds', ?_⟩
  exact (generate_intent_eq hgraph Greetings.ofDefinitions_both
    (by simp [Greetings.graph, Greetings.references_polite, Greetings.references_greet])
    (by simp [Greetings.both, Greetings.references_polite, Greetings.references_farewell,
      Greetings.greetSir, Greetings.references_greet])
    (d := Greetings.greetSir)
    (Graph.mem_ofKind.mpr ⟨by simp [Greetings.graph, Greetings.greetSir], rfl⟩)
    Greetings.shares_greet
    (by simp) (by simp) hds hds').1

end Phrasebook
