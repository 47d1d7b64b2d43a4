import Phrasebook.Proofs.Answers
import Phrasebook.Proofs.DistinctSampling
import Phrasebook.Proofs.Totals

/-!
When a graph can be drawn from.

Drawing takes the way that listing and counting take, so no use is unresolved and nothing
goes on for ever.  It may fail all the same, and in one way only: where a rule is to be chosen
whose rule set has weights without a finite sum.  Validation looks at the weights one by one
and lets such a set pass.

So a rule can be chosen from a rule set of a graph exactly if its weights have a total, and if
those of all rule sets have that a definition reaches, it is drawn from on every stream, once
or for any number of different sentences.  The loop that draws different sentences ends by
itself: each of its turns finds one of those that are missing or is the last.
-/

namespace Phrasebook

/-! ### Ways to fail -/

/-- Fails, if at all, in one of the ways in `E`. -/
def FailsOnly {ε σ α : Type} (E : ε → Prop) (m : ExceptT ε (StateM σ) α) : Prop :=
  ∀ s e, (m.run s).1 = .error e → E e

section

variable {ε σ α β : Type} {E : ε → Prop} {m : ExceptT ε (StateM σ) α}

theorem Returns.failsOnly (h : Returns m) : FailsOnly E m := by
  intro s e herror
  obtain ⟨a, s', hrun, -⟩ := h s
  rw [hrun] at herror
  injection herror

namespace FailsOnly

theorem returns (h : FailsOnly (fun _ => False) m) : Returns m := by
  intro s
  rcases hrun : m.run s with ⟨e | a, s'⟩
  · exact absurd (congrArg Prod.fst hrun) (h s e)
  · exact ⟨a, s', hrun, trivial⟩

theorem pure (a : α) : FailsOnly E (Pure.pure a : ExceptT ε (StateM σ) α) :=
  (Returns.pure a).failsOnly

theorem bind {f : α → ExceptT ε (StateM σ) β} (hm : FailsOnly E m)
    (hf : ∀ a, FailsOnly E (f a)) : FailsOnly E (m >>= f) := by
  intro s e herror
  rw [Ensures.run_bind] at herror
  rcases hrun : m.run s with ⟨e' | a, s'⟩
  · rw [hrun] at herror
    obtain rfl : e' = e := by injection herror
    exact hm s e' (congrArg Prod.fst hrun)
  · rw [hrun] at herror
    exact hf a s' e herror

theorem map {f : α → β} (hm : FailsOnly E m) : FailsOnly E (f <$> m) := by
  rw [map_eq_pure_bind]
  exact hm.bind fun a => pure (f a)

theorem liftState (x : StateM σ α) : FailsOnly E (liftM x : ExceptT ε (StateM σ) α) := by
  intro s e herror
  injection herror

end FailsOnly

end

/-! ### Choosing a rule -/

/-- The rule set has weights that add up to a finite number. -/
def HasTotal (rules : List Rule) : Prop := Dice.HasTotal (rules.map Rule.weight)

theorem returns_chooseRule {rules : List Rule} (hweights : HasWeights rules)
    (htotal : HasTotal rules) (owner : String) : Returns (chooseRule owner rules) := by
  obtain ⟨⟨partialSums, total⟩, hsums⟩ := (Dice.sumsOf_of_hasWeights hweights).1 htotal
  intro s
  refine ⟨(Dice.chooseBySums partialSums total s).1, (Dice.chooseBySums partialSums total s).2,
    ?_, trivial⟩
  unfold chooseRule Dice.weighted
  rw [hsums]
  rfl

/-- Weights without a finite sum are the end of the choice, and no word is drawn for it. -/
theorem run_chooseRule_of_not_hasTotal {rules : List Rule} (hweights : HasWeights rules)
    (htotal : ¬ HasTotal rules) (owner : String) (s : Stream) :
    (chooseRule owner rules).run s = (.error (.noChoice owner .overflow), s) := by
  unfold chooseRule Dice.weighted
  rw [(Dice.sumsOf_of_hasWeights hweights).2 htotal]
  rfl

theorem succeeds_chooseRule_iff {rules : List Rule} (hweights : HasWeights rules)
    (owner : String) (s : Stream) :
    Succeeds (chooseRule owner rules) s (fun _ _ => True) ↔ HasTotal rules := by
  refine ⟨fun h => ?_, fun h => returns_chooseRule hweights h owner s⟩
  by_contra htotal
  obtain ⟨i, s', hrun, -⟩ := h
  rw [run_chooseRule_of_not_hasTotal hweights htotal] at hrun
  injection hrun with hrun
  injection hrun

/-- The weights of some rule set add up to more than any finite number. -/
def GenerationError.IsOverflow (e : GenerationError) : Prop :=
  ∃ owner, e = .noChoice owner .overflow

theorem failsOnly_chooseRule {rules : List Rule} (hweights : HasWeights rules) (owner : String) :
    FailsOnly GenerationError.IsOverflow (chooseRule owner rules) := by
  by_cases htotal : HasTotal rules
  · exact (returns_chooseRule hweights htotal owner).failsOnly
  · intro s e herror
    rw [run_chooseRule_of_not_hasTotal hweights htotal] at herror
    exact ⟨owner, by injection herror with herror; exact herror.symm⟩

/-! ### Drawing a sentence -/

section

variable {E : GenerationError → Prop}

namespace Modifiers

theorem failsOnly_stands (m : Modifiers) : FailsOnly E m.stands := by
  unfold stands
  cases m.chance with
  | none => exact FailsOnly.pure true
  | some p => exact FailsOnly.liftState (Dice.chance p)

theorem failsOnly_chooseCasing (m : Modifiers) : FailsOnly E m.chooseCasing := by
  unfold chooseCasing
  cases m.casing with
  | either => exact (FailsOnly.liftState (Dice.chance .half)).bind fun heads => FailsOnly.pure _
  | unchanged => exact FailsOnly.pure _
  | capitalize => exact FailsOnly.pure _
  | lowercase => exact FailsOnly.pure _

/-- A token that is made or left out fails as making it does. -/
theorem failsOnly_token (m : Modifiers) {make : Sampling Example} (h : FailsOnly E make) :
    FailsOnly E
      (do if ← m.stands then return (← make).recase (← m.chooseCasing) else return .empty) := by
  refine m.failsOnly_stands.bind fun stands => ?_
  cases stands with
  | false => exact FailsOnly.pure _
  | true => exact h.bind fun e => m.failsOnly_chooseCasing.bind fun c => FailsOnly.pure _

end Modifiers

variable {answer : String → Reference → Sampling Example} {scope : Scope}

mutual

theorem failsOnly_sampleTokens :
    ∀ (tokens : List Token) (front : Example),
      (∀ r ∈ referencesOfTokens tokens, FailsOnly E (answer scope.owner r)) →
      (∀ rules ∈ (tokensWithin tokens).filterMap Token.rules?,
        FailsOnly E (chooseRule scope.owner rules)) →
      FailsOnly E (sampleTokens answer scope front tokens)
  | [] => by
      intro front _ _
      rw [sampleTokens]
      exact FailsOnly.pure front
  | token :: rest => by
      intro front hanswer hchoice
      rw [referencesOfTokens] at hanswer
      rw [tokensWithin, List.filterMap_append] at hchoice
      rw [sampleTokens]
      refine (failsOnly_sampleToken token (fun r hr => hanswer r (List.mem_append_left _ hr))
        fun rules hrules => hchoice rules (List.mem_append_left _ hrules)).bind fun e => ?_
      exact failsOnly_sampleTokens rest (front.append e)
        (fun r hr => hanswer r (List.mem_append_right _ hr))
        fun rules hrules => hchoice rules (List.mem_append_right _ hrules)

theorem failsOnly_sampleToken :
    ∀ token : Token, (∀ r ∈ referencesOfToken token, FailsOnly E (answer scope.owner r)) →
      (∀ rules ∈ (tokensWithinToken token).filterMap Token.rules?,
        FailsOnly E (chooseRule scope.owner rules)) →
      FailsOnly E (sampleToken answer scope token)
  | .word text m => by
      intro _ _
      rw [sampleToken]
      simpa using m.failsOnly_token (FailsOnly.pure (.ofText (scope.render text)))
  | .group rules m => by
      intro hanswer hchoice
      rw [referencesOfToken] at hanswer
      rw [tokensWithinToken, List.filterMap_cons] at hchoice
      have hmake : FailsOnly E (do
          let i ← chooseRule scope.owner rules
          let (e, _) ← sampleRule answer scope i rules
          return e) := by
        refine (hchoice rules (by simp [Token.rules?])).bind fun i => ?_
        refine (failsOnly_sampleRule rules i hanswer fun inner hinner => ?_).bind
          fun pair => FailsOnly.pure _
        exact hchoice inner (List.mem_cons_of_mem rules hinner)
      rw [sampleToken]
      simpa using m.failsOnly_token hmake
  | .reference target m => by
      intro hanswer _
      rw [sampleToken]
      exact m.failsOnly_token (hanswer ⟨target, m⟩ (by simp [referencesOfToken]))

/-- Drawing from rules fails only as answering the uses in them does, or choosing in the groups
in them, at any depth. -/
theorem failsOnly_sampleRule :
    ∀ (rules : List Rule) (i : Nat),
      (∀ r ∈ referencesOfRules rules, FailsOnly E (answer scope.owner r)) →
      (∀ inner ∈ (tokensWithinRules rules).filterMap Token.rules?,
        FailsOnly E (chooseRule scope.owner inner)) →
      FailsOnly E (sampleRule answer scope i rules)
  | [], i => by
      intro _ _
      rw [sampleRule]
      exact FailsOnly.pure _
  | .mk tokens weight value :: rest, 0 => by
      intro hanswer hchoice
      rw [referencesOfRules] at hanswer
      rw [tokensWithinRules, List.filterMap_append] at hchoice
      rw [sampleRule]
      exact (failsOnly_sampleTokens tokens .empty
        (fun r hr => hanswer r (List.mem_append_left _ hr))
        fun inner hinner => hchoice inner (List.mem_append_left _ hinner)).bind
          fun e => FailsOnly.pure _
  | .mk tokens weight value :: rest, i + 1 => by
      intro hanswer hchoice
      rw [referencesOfRules] at hanswer
      rw [tokensWithinRules, List.filterMap_append] at hchoice
      rw [sampleRule]
      exact failsOnly_sampleRule rest i (fun r hr => hanswer r (List.mem_append_right _ hr))
        fun inner hinner => hchoice inner (List.mem_append_right _ hinner)

end

/-- Choosing from the rule sets of the definition fails only in the ways in `E`. -/
def Definition.ChoosesUpTo (E : GenerationError → Prop) (d : Definition) : Prop :=
  ∀ rules ∈ d.ruleSets, ∀ owner, FailsOnly E (chooseRule owner rules)

theorem Definition.failsOnly_sample {d : Definition} {variation : Option String}
    {rules : List Rule} (hselect : d.select variation = .ok rules) (hchoices : d.ChoosesUpTo E)
    (hanswer : ∀ r ∈ d.references, FailsOnly E (answer d.name r)) (arguments : List Text) :
    FailsOnly E (d.sample answer variation arguments) := by
  have hrules : FailsOnly E (sampleRules answer (.ofDefinition d arguments) rules) := by
    refine (hchoices rules (select_mem_ruleSets hselect) d.name).bind fun i => ?_
    refine failsOnly_sampleRule rules i
      (fun r hr => hanswer r (references_of_select hselect r hr)) fun inner hinner => ?_
    obtain ⟨token, htoken, hgroup⟩ := List.mem_filterMap.mp hinner
    refine hchoices inner ?_ d.name
    exact List.mem_cons_of_mem _ (List.mem_append_right _
      (List.mem_filterMap.mpr ⟨token, tokens_of_select hselect token htoken, hgroup⟩))
  unfold sample
  rw [hselect]
  exact hrules.bind fun pair => FailsOnly.pure _

/-- **Along the layers nothing fails but a choice** in a definition that the use reaches. -/
theorem failsOnly_sampleIn {layers : List Definition} (hl : Layered layers)
    (reached : Key → Prop)
    (hclosed : ∀ d ∈ layers, reached d.key → ∀ r ∈ d.references, reached r.target)
    (hchoices : ∀ d ∈ layers, reached d.key → d.ChoosesUpTo E) (owner : String) (r : Reference)
    (hr : r.Resolves layers) (hreached : reached r.target) :
    FailsOnly E (sampleIn layers owner r) := by
  induction layers, r, hl, hr using Layered.use_induction generalizing owner with
  | asked d below r rules _ _ hkey hselect ih =>
      have ih := fun r' hr' => ih r' hr' (fun e he => hclosed e (List.mem_cons_of_mem d he))
        fun e he => hchoices e (List.mem_cons_of_mem d he)
      have hd : reached d.key := hkey ▸ hreached
      rw [sampleIn, if_pos hkey]
      exact Definition.failsOnly_sample hselect (hchoices d (by simp) hd)
        (fun r' hr' => ih r' hr' d.name (hclosed d (by simp) hd r' hr')) r.modifiers.arguments
  | passed d below r _ _ _ hkey ih =>
      rw [sampleIn, if_neg hkey]
      exact ih (fun e he => hclosed e (List.mem_cons_of_mem d he))
        (fun e he => hchoices e (List.mem_cons_of_mem d he)) owner hreached

/-! ### Drawing different sentences -/

namespace Generating

variable {α : Type}

theorem failsOnly_ofCounting {m : Counting α} (h : FailsOnly E m) :
    FailsOnly E (ofCounting m) :=
  fun s e herror => h s.counts e herror

theorem failsOnly_ofSampling {m : Sampling α} (h : FailsOnly E m) :
    FailsOnly E (ofSampling m) :=
  fun s e herror => h s.stream e herror

end Generating

namespace Item

variable {g : Graph} {item : Item}

theorem failsOnly_drawUnseen (hsample : FailsOnly E (item.sample g)) (seen : Seen)
    (budget : Nat) : FailsOnly E (drawUnseen g item seen budget) := by
  induction budget with
  | zero => exact FailsOnly.pure none
  | succ budget ih =>
      rw [drawUnseen]
      refine hsample.bind fun e => ?_
      split
      · exact ih
      · exact FailsOnly.pure (some e)

theorem failsOnly_drawBatch (hsample : FailsOnly E (item.sample g)) (budget : Nat → Nat)
    (missing : Nat) (seen : Seen) (found : List Example) :
    FailsOnly E (drawBatch g item budget seen found missing) := by
  induction missing generalizing seen found with
  | zero => exact FailsOnly.pure _
  | succ missing ih =>
      rw [drawBatch]
      refine (failsOnly_drawUnseen hsample seen (budget found.length)).bind fun drawn => ?_
      cases drawn with
      | none => exact FailsOnly.pure _
      | some e => exact ih (seen.insert e.key) (e :: found)

theorem failsOnly_enumerateUnseen (hall : FailsOnly E (item.all g)) (seen : Seen)
    (missing : Nat) : FailsOnly E (enumerateUnseen g item seen missing) := by
  unfold enumerateUnseen
  refine (Generating.failsOnly_ofCounting hall).bind fun examples => ?_
  exact (Generating.failsOnly_ofSampling (FailsOnly.liftState _)).bind fun _ => FailsOnly.pure _

/-- Drawing different sentences fails only as counting, listing or drawing one does. -/
theorem failsOnly_distinctUnseen {o : Options}
    (hcount : FailsOnly E (item.count g o.possibilityCap)) (hall : FailsOnly E (item.all g))
    (hsample : FailsOnly E (item.sample g)) (n : Nat) (seen : Seen) :
    FailsOnly E (item.distinctUnseen g o n seen) := by
  rw [distinctUnseen_eq]
  refine (Generating.failsOnly_ofCounting hcount).bind fun p => ?_
  simp only
  split
  · exact FailsOnly.pure _
  split
  · exact (failsOnly_enumerateUnseen hall seen _).bind fun _ => FailsOnly.pure _
  refine (Generating.failsOnly_ofSampling (failsOnly_drawBatch hsample _ _ seen [])).bind ?_
  rintro ⟨found, seen', missing⟩
  simp only
  split
  · exact FailsOnly.pure _
  · exact (failsOnly_enumerateUnseen hall seen' missing).bind fun _ => FailsOnly.pure _

end Item

end

/-! ### Drawing from a graph -/

namespace Graph

/-- The weights of every rule set of the definitions reached add up to a finite number. -/
def HasTotals (g : Graph) (key : Key) : Prop :=
  ∀ d ∈ g.definitions, g.Reaches key d.key → ∀ rules ∈ d.ruleSets, HasTotal rules

namespace Valid

variable {g : Graph} {d : Definition} {r : Reference}

theorem failsOnly_sample_of_offers {E : GenerationError → Prop} (hg : g.Valid)
    (hchoices : ∀ d ∈ g.definitions, g.Reaches r.target d.key → d.ChoosesUpTo E)
    (hr : g.Offers r) (owner : String) : FailsOnly E (g.sample owner r) := by
  refine failsOnly_sampleIn hg.layered (g.Reaches r.target) (fun d hd hreached r' hr' => ?_)
    (fun d hd hreached => hchoices d ((hg.mem_layers d).mp hd) hreached) owner r
    (hg.resolves_of_offers hr) .refl
  exact .step hreached ((hg.mem_layers d).mp hd) hr'

/-- Whatever the weights, nothing but their sum can be wrong. -/
theorem overflows_only (hg : g.Valid) (hr : g.Offers r) (owner : String) :
    FailsOnly GenerationError.IsOverflow (g.sample owner r) :=
  hg.failsOnly_sample_of_offers
    (fun _ hd _ rules hrules => failsOnly_chooseRule ((hg.wellFormed hd).weights rules hrules))
    hr owner

theorem returns_sample_of_offers (hg : g.Valid) (htotals : g.HasTotals r.target)
    (hr : g.Offers r) (owner : String) : Returns (g.sample owner r) := by
  refine (hg.failsOnly_sample_of_offers (fun d hd hreached rules hrules owner => ?_) hr
    owner).returns
  have hweights : HasWeights rules := (hg.wellFormed hd).weights rules hrules
  exact (returns_chooseRule hweights (htotals d hd hreached rules hrules) owner).failsOnly

theorem failsOnly_someDistinct {E : GenerationError → Prop} (hg : g.Valid)
    (hd : d ∈ g.definitions) (hsample : FailsOnly E ((Item.unit d.key).sample g)) (o : Options)
    (n : Nat) : FailsOnly E ((Item.unit d.key).someDistinct g o n) :=
  (Item.failsOnly_distinctUnseen (hg.returns_count hd).failsOnly (hg.returns_all hd).failsOnly
    hsample n ∅).map

/-- Where the weights that a use chooses among have no finite sum, it is not drawn. -/
theorem run_sample_of_not_hasTotal (hg : g.Valid) (hd : d ∈ g.definitions)
    {variation : Option String} {rules : List Rule} (hselect : d.select variation = .ok rules)
    (htotal : ¬ HasTotal rules) (arguments : List Text) (owner : String) (s : Stream) :
    (g.sample owner (d.key.use variation arguments)).run s =
      (.error (.noChoice d.name .overflow), s) := by
  have hfind : Definition.find? g.layers d.key = some d :=
    Definition.find?_of_mem hg.layered.nodup_key ((hg.mem_layers d).mpr hd)
  have hweights : HasWeights rules :=
    (hg.wellFormed hd).weights rules (Definition.select_mem_ruleSets hselect)
  have hrules : ∀ answer, (sampleRules answer (.ofDefinition d arguments) rules).run s =
      (.error (.noChoice d.name .overflow), s) := by
    intro answer
    have hchoice : (chooseRule (Scope.ofDefinition d arguments).owner rules).run s =
        (.error (.noChoice d.name .overflow), s) :=
      run_chooseRule_of_not_hasTotal hweights htotal d.name s
    unfold sampleRules
    rw [Ensures.run_bind, hchoice]
  unfold sample
  rw [sampleIn_eq_answerIn, answerIn_eq _ Definition.asksOwn_sampleUse hg.layered hfind]
  unfold Definition.sampleUse Definition.sample
  simp only [Key.use]
  rw [hselect]
  change (sampleRules _ _ rules >>= _).run s = _
  rw [Ensures.run_bind, hrules]

end Valid

/--
**What is a graph can be drawn from, as far as weights can be added.**  Of a rule set of a
graph a rule can be chosen exactly if its weights have a finite sum, on whatever stream.  An
offer is drawn without fault if this is so for all rule sets that it reaches, and different
sentences are, any number of them and under all options.  Nothing else than such a sum is ever
wrong; and where the rules of a definition have none, the definition is not drawn at all.
Looking definitions up again and again comes to the same as for listing.
-/
theorem draws_of_ofDefinitions {definitions : List Definition} {g : Graph}
    (h : ofDefinitions definitions = .ok g) :
    (∀ d ∈ g.definitions, ∀ rules ∈ d.ruleSets, ∀ owner s,
      Succeeds (chooseRule owner rules) s (fun _ _ => True) ↔ HasTotal rules) ∧
    (∀ r owner, g.Offers r →
      FailsOnly GenerationError.IsOverflow (g.sample owner r) ∧
      (g.HasTotals r.target → Returns (g.sample owner r)) ∧
      ∀ depth unresolved deeper, g.definitions.length ≤ depth →
        answerTo Definition.sampleUse unresolved g.definitions deeper depth owner r =
          g.sample owner r) ∧
    ∀ d ∈ g.definitions, ∀ o n,
      FailsOnly GenerationError.IsOverflow ((Item.unit d.key).someDistinct g o n) ∧
      (g.HasTotals d.key → Returns ((Item.unit d.key).sample g) ∧
        Returns ((Item.unit d.key).someDistinct g o n)) ∧
      (¬ HasTotal d.allRules → ∀ s,
        ((Item.unit d.key).sample g).run s = (.error (.noChoice d.name .overflow), s)) := by
  have hg : g.Valid := valid_of_ofDefinitions h
  refine ⟨fun d hd rules hrules owner s => ?_, fun r owner hr => ⟨?_, ?_, ?_⟩,
    fun d hd o n => ⟨?_, fun htotals => ?_, fun htotal s => ?_⟩⟩
  · exact succeeds_chooseRule_iff ((hg.wellFormed hd).weights rules hrules) owner s
  · exact hg.overflows_only hr owner
  · exact fun htotals => hg.returns_sample_of_offers htotals hr owner
  · intro depth unresolved deeper hdepth
    unfold sample
    rw [sampleIn_eq_answerIn]
    exact hg.answerTo_eq Definition.asksOwn_sampleUse unresolved deeper _ hr hdepth owner
  · exact hg.failsOnly_someDistinct hd (hg.overflows_only (Valid.offers_use hd []) d.name) o n
  · have hsample : Returns ((Item.unit d.key).sample g) :=
      hg.returns_sample_of_offers htotals (Valid.offers_use hd []) d.name
    exact ⟨hsample, (hg.failsOnly_someDistinct hd hsample.failsOnly o n).returns⟩
  · exact hg.run_sample_of_not_hasTotal hd rfl htotal [] d.name s

end Graph

/-! ### Small weights and large ones -/

namespace Salutation

/-- Weights of zero and one add up. -/
theorem hasTotals (key : Key) : graph.HasTotals key := by
  have hsmall : (graph.definitions.all fun d => d.ruleSets.all fun rules =>
      rules.length ≤ 3 && (rules.map Rule.weight).all fun w =>
        w.isFinite && Binary64.zero.le w && w.le Dice.modest) = true := by decide +kernel
  simp only [List.all_eq_true, Bool.and_eq_true, decide_eq_true_eq, and_assoc] at hsmall
  intro d hd _ rules hrules
  obtain ⟨hlength, hweights⟩ := hsmall d hd rules hrules
  refine Dice.hasTotal_of_le hweights ?_
  rw [List.length_map]
  omega

/-- The intent is drawn from, on every stream and for any number of sentences. -/
theorem draws_greet : Graph.ofDefinitions [hello, greet] = .ok graph ∧
    Returns ((Item.unit greet.key).sample graph) ∧
    ∀ o n, Returns ((Item.unit greet.key).someDistinct graph o n) := by
  obtain ⟨-, -, hdraws⟩ := Graph.draws_of_ofDefinitions ofDefinitions_eq
  have hgreet : greet ∈ graph.definitions := by simp [graph]
  refine ⟨ofDefinitions_eq, ?_, fun o n => ?_⟩
  · exact ((hdraws greet hgreet .default 0).2.1 (hasTotals greet.key)).1
  · exact ((hdraws greet hgreet o n).2.1 (hasTotals greet.key)).2

end Salutation

namespace Loud

/-- The weight 10^308, more than half of the largest finite number. -/
def weight : Binary64 := .ofNat (Nat.pow 10 308)

/-- An intent with two rules of that weight. -/
def greet : Definition where
  kind := .intent
  name := "greet"
  rules := [.mk [.word "hi".toList .plain] weight none,
    .mk [.word "hi".toList .plain] weight none]
  variations := []
  parameters := []
  directive := none

/-- Each weight is finite and above zero, so the intent is a graph; but their sum is infinite,
and no sentence is drawn, on any stream and with options that are in order. -/
theorem sample_overflows : ∃ g, Graph.ofDefinitions [greet] = .ok g ∧ greet ∈ g.definitions ∧
    Options.default.check = .ok () ∧
    ∀ s, ((Item.unit greet.key).sample g).run s = (.error (.noChoice "greet" .overflow), s) := by
  have hchecked : greet.check [greet] = .ok () := ok_of_toOption (by decide +kernel)
  have hgraph : Graph.ofDefinitions [greet] = .ok ⟨[greet], [greet]⟩ :=
    Graph.ofDefinitions_singleton hchecked rfl
  have hmem : greet ∈ (Graph.mk [greet] [greet]).definitions := by simp
  have hsums : Dice.sumsOf (greet.allRules.map Rule.weight) = .error .overflow := by
    decide +kernel
  have hvalid := Graph.valid_of_ofDefinitions hgraph
  have hweights : HasWeights greet.allRules :=
    (hvalid.wellFormed hmem).weights _ (by simp [Definition.ruleSets])
  have htotal : ¬ HasTotal greet.allRules := by
    intro htotal
    obtain ⟨sums, hok⟩ := (Dice.sumsOf_of_hasWeights hweights).1 htotal
    rw [hsums] at hok
    injection hok
  refine ⟨⟨[greet], [greet]⟩, hgraph, hmem, ok_of_toOption (by decide +kernel), fun s => ?_⟩
  exact hvalid.run_sample_of_not_hasTotal hmem rfl htotal [] "greet" s

end Loud

end Phrasebook
