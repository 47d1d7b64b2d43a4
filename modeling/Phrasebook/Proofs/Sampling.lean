import Phrasebook.Generation.Sampling
import Phrasebook.Proofs.Dice
import Phrasebook.Proofs.Expansion
import Phrasebook.Proofs.Template

/-!
What a random sentence can be.

Sampling and expanding go the same way through a template; the one picks where the other
lists.  So whatever the stream, a sentence drawn is one of the ways to make a sentence: the
very example, not only its key, and whether casings are impartial or not.

This needs of the template that its chances are numbers, which every graph was checked for,
and of the dice that a choice by weight is fair on its rule sets.  That a sentence of an
intent carries the intent's name needs neither.
-/

namespace Phrasebook

/-- Returns nothing but what satisfies `Q`, whatever the stream. -/
abbrev Yields {α : Type} (m : Sampling α) (Q : α → Prop) : Prop := Ensures (fun _ => True) m Q

/-- The chance of the token is a number, and if the token is a group, the choice among its
rules is fair. -/
def Token.IsFair (token : Token) : Prop :=
  token.modifiers.chance ≠ some .nan ∧
    ∀ rules ∈ token.rules?, Dice.IsFair (rules.map Rule.weight)

/-! ### The decisions of one token -/

namespace Modifiers

theorem yields_stands {m : Modifiers} (hm : m.chance ≠ some .nan) :
    Yields m.stands fun b =>
      (b = true → m.isAbsent = false) ∧ (b = false → m.mayBeAbsent = true) := by
  unfold stands isAbsent mayBeAbsent
  cases hchance : m.chance with
  | none => exact Ensures.pure ⟨fun _ => rfl, fun h => by simp at h⟩
  | some p =>
      refine Ensures.liftState fun s _ => ⟨trivial, fun h => ?_, fun h => ?_⟩
      · simpa using Dice.le_zero_of_chance h
      · have hp : p ≠ .nan := by
          rintro rfl
          exact hm hchance
        simpa using Dice.lt_one_of_not_chance hp h

theorem yields_chooseCasing (m : Modifiers) :
    Yields m.chooseCasing fun c => c ∈ m.casing.resolved := by
  unfold chooseCasing
  cases m.casing with
  | either =>
      refine Ensures.bind (Q := fun _ => True) (Ensures.liftState fun _ _ => ⟨trivial, trivial⟩) ?_
      intro heads _
      exact Ensures.pure (by cases heads <;> simp [Casing.resolved])
  | unchanged => exact Ensures.pure (by simp [Casing.resolved])
  | capitalize => exact Ensures.pure (by simp [Casing.resolved])
  | lowercase => exact Ensures.pure (by simp [Casing.resolved])

theorem recase_mem_expand {m : Modifiers} {base : List Example} {e : Example} {c : Casing}
    (he : e ∈ base) (hc : c ∈ m.casing.resolved) : e.recase c ∈ m.expand base := by
  have hcased : e.recase c ∈ base.flatMap fun e => m.casing.resolved.map fun c => e.recase c :=
    List.mem_flatMap.mpr ⟨e, he, List.mem_map.mpr ⟨c, hc, rfl⟩⟩
  unfold expand
  split
  · exact List.mem_append_left _ hcased
  · exact hcased

theorem empty_mem_expand {m : Modifiers} (h : m.mayBeAbsent = true) (base : List Example) :
    .empty ∈ m.expand base := by
  simp [expand, h]

/-- A token that is made or left out as its modifiers say is among the ways to make it. -/
theorem yields_token (m : Modifiers) (make : Sampling Example) (base : Sentences)
    {es : List Example} (hm : m.chance ≠ some .nan)
    (hmake : ∀ all, base = .ok all → Yields make (· ∈ all))
    (h : (if m.isAbsent then .ok [.empty] else base >>= fun all => .ok (m.expand all)) = .ok es) :
    Yields (do if ← m.stands then return (← make).recase (← m.chooseCasing) else return .empty)
      (· ∈ es) := by
  refine Ensures.bind (yields_stands hm) fun stands hstands => ?_
  cases stands with
  | true =>
      rw [if_neg (by simp [hstands.1 rfl])] at h
      obtain ⟨all, hbase, h⟩ := bind_eq_ok.mp h
      obtain rfl : m.expand all = es := by injection h
      refine Ensures.bind (hmake all hbase) fun e he => ?_
      refine Ensures.bind m.yields_chooseCasing fun c hc => ?_
      exact Ensures.pure (recase_mem_expand he hc)
  | false =>
      refine Ensures.pure ?_
      split at h
      · obtain rfl : [Example.empty] = es := by injection h
        simp
      · obtain ⟨all, hbase, h⟩ := bind_eq_ok.mp h
        obtain rfl : m.expand all = es := by injection h
        exact empty_mem_expand (hstands.2 rfl) all

end Modifiers

/-- A rule that a fair choice falls on is reachable. -/
theorem yields_chooseRule (owner : String) {rules : List Rule}
    (hfair : Dice.IsFair (rules.map Rule.weight)) :
    Yields (chooseRule owner rules) fun i =>
      ∃ rule, rules[i]? = some rule ∧ rule.isReachable = true := by
  unfold chooseRule
  refine Ensures.bind (Q := fun r => ∀ i, r = .ok i →
    ∃ rule, rules[i]? = some rule ∧ rule.isReachable = true) ?_ ?_
  · refine Ensures.liftState fun s _ => ⟨trivial, fun i hi => ?_⟩
    obtain ⟨w, hw, hpos⟩ := hfair s i hi
    rw [List.getElem?_map, Option.map_eq_some_iff] at hw
    obtain ⟨rule, hrule, rfl⟩ := hw
    exact ⟨rule, hrule, hpos⟩
  · intro r hr
    cases r with
    | ok i => exact Ensures.pure (hr i rfl)
    | error reason => exact Ensures.throw _

/-! ### Whole templates -/

section

variable {answer : String → Reference → Sampling Example}
  {expanded : String → Reference → Sentences} {scope : Scope}

mutual

theorem yields_sampleTokens
    (hanswer : ∀ owner r es, expanded owner r = .ok es → Yields (answer owner r) (· ∈ es)) :
    ∀ tokens : List Token, (∀ token ∈ tokensWithin tokens, token.IsFair) →
      ∀ (front : Example) (fronts es : List Example), front ∈ fronts →
        expandTokens expanded scope fronts tokens = .ok es →
        Yields (sampleTokens answer scope front tokens) (· ∈ es)
  | [] => by
      intro _ front fronts es hfront h
      rw [expandTokens] at h
      obtain rfl : fronts = es := by injection h
      rw [sampleTokens]
      exact Ensures.pure hfront
  | token :: rest => by
      intro hfair front fronts es hfront h
      rw [tokensWithin] at hfair
      rw [expandTokens] at h
      obtain ⟨backs, hbacks, h⟩ := bind_eq_ok.mp h
      rw [sampleTokens]
      refine Ensures.bind (yields_sampleToken hanswer token
        (fun t ht => hfair t (List.mem_append_left _ ht)) backs hbacks) fun back hback => ?_
      refine yields_sampleTokens hanswer rest (fun t ht => hfair t (List.mem_append_right _ ht))
        (front.append back) _ es ?_ h
      exact List.mem_flatMap.mpr ⟨front, hfront, List.mem_map.mpr ⟨back, hback, rfl⟩⟩

theorem yields_sampleToken
    (hanswer : ∀ owner r es, expanded owner r = .ok es → Yields (answer owner r) (· ∈ es)) :
    ∀ token : Token, (∀ t ∈ tokensWithinToken token, t.IsFair) →
      ∀ es, expandToken expanded scope token = .ok es →
        Yields (sampleToken answer scope token) (· ∈ es)
  | .word text m => by
      intro hfair es h
      rw [expandToken] at h
      rw [sampleToken]
      have hword := Modifiers.yields_token m (pure (.ofText (scope.render text)))
        (.ok [.ofText (scope.render text)]) (hfair _ (self_mem_tokensWithinToken _)).1
        (fun all hall => by injection hall with hall; exact Ensures.pure (by simp [← hall])) h
      simpa using hword
  | .group rules m => by
      intro hfair es h
      have hself := hfair _ (self_mem_tokensWithinToken _)
      rw [tokensWithinToken] at hfair
      rw [expandToken] at h
      rw [sampleToken]
      have hgroup := Modifiers.yields_token m
        (do
          let i ← chooseRule scope.owner rules
          let (e, _) ← sampleRule answer scope i rules
          return e)
        (expandRules expanded scope (fun _ e => e) rules) hself.1 ?_ h
      · simpa using hgroup
      · intro all hall
        refine Ensures.bind (yields_chooseRule _ (hself.2 rules rfl)) fun i hi => ?_
        obtain ⟨rule, hrule, hreach⟩ := hi
        refine Ensures.bind (yields_sampleRule hanswer rules
          (fun t ht => hfair t (List.mem_cons_of_mem _ ht)) i rule hrule hreach _ all hall) ?_
        intro pair hpair
        exact Ensures.pure hpair.2
  | .reference target m => by
      intro hfair es h
      rw [expandToken] at h
      rw [sampleToken]
      exact Modifiers.yields_token m _ _ (hfair _ (self_mem_tokensWithinToken _)).1
        (fun all hall => hanswer _ _ all hall) h

theorem yields_sampleRule
    (hanswer : ∀ owner r es, expanded owner r = .ok es → Yields (answer owner r) (· ∈ es)) :
    ∀ rules : List Rule, (∀ token ∈ tokensWithinRules rules, token.IsFair) →
      ∀ (i : Nat) (rule : Rule), rules[i]? = some rule → rule.isReachable = true →
      ∀ (finish : Rule → Example → Example) (es : List Example),
        expandRules expanded scope finish rules = .ok es →
        Yields (sampleRule answer scope i rules) fun pair =>
          pair.2 = some rule ∧ finish rule pair.1 ∈ es
  | [] => by
      intro _ i rule hrule
      simp at hrule
  | .mk tokens weight value :: rest => by
      intro hfair i rule hrule hreach finish es h
      rw [tokensWithinRules] at hfair
      have hcases := of_expandRules_cons h
      cases i with
      | zero =>
          obtain rfl : Rule.mk tokens weight value = rule := by simpa using hrule
          obtain ⟨-, here, later, hhere, hlater, rfl⟩ :=
            hcases.resolve_right fun hnot => hnot.1 hreach
          rw [sampleRule]
          refine Ensures.bind (yields_sampleTokens hanswer tokens
            (fun t ht => hfair t (List.mem_append_left _ ht)) .empty [.empty] here (by simp)
            hhere) fun e he => ?_
          exact Ensures.pure ⟨rfl, List.mem_append_left _ (List.mem_map.mpr ⟨e, he, rfl⟩)⟩
      | succ i =>
          have hrest := yields_sampleRule hanswer rest
            (fun t ht => hfair t (List.mem_append_right _ ht)) i rule (by simpa using hrule)
            hreach finish
          rw [sampleRule]
          rcases hcases with ⟨-, here, later, -, hlater, rfl⟩ | ⟨-, h⟩
          · exact (hrest later hlater).mono fun pair hpair =>
              ⟨hpair.1, List.mem_append_right _ hpair.2⟩
          · exact hrest es h

end

end

namespace Definition

/-- The choice among the rules of each rule set is fair. -/
def IsFair (d : Definition) : Prop := ∀ rules ∈ d.ruleSets, Dice.IsFair (rules.map Rule.weight)

theorem isFair_token {d : Definition} (hfair : d.IsFair) (hchance : d.HasChances) :
    ∀ token ∈ d.tokens, token.IsFair := by
  intro token ht
  refine ⟨hchance token ht, fun rules hrules => ?_⟩
  cases token with
  | group rules' m =>
      obtain rfl : rules' = rules := by simpa [Token.rules?] using hrules
      exact hfair _ (mem_ruleSets_of_group ht)
  | word text m => simp [Token.rules?] at hrules
  | reference target m => simp [Token.rules?] at hrules

theorem yields_sample {answer : String → Reference → Sampling Example}
    {expanded : String → Reference → Sentences}
    (hanswer : ∀ owner r es, expanded owner r = .ok es → Yields (answer owner r) (· ∈ es))
    {d : Definition} (hfair : d.IsFair) (hchance : d.HasChances) {variation : Option String}
    {arguments : List Text} {es : List Example}
    (h : d.expand expanded variation arguments = .ok es) :
    Yields (d.sample answer variation arguments) (· ∈ es) := by
  obtain ⟨rules, hselect, h⟩ := bind_eq_ok.mp h
  unfold sample
  refine Ensures.bind (Q := (· = rules)) (Ensures.liftExcept fun rules' hrules' => ?_) ?_
  · rw [hselect] at hrules'
    injection hrules' with hrules'
    exact hrules'.symm
  · rintro _ rfl
    refine Ensures.bind (Q := fun pair => ∃ rule, pair.2 = some rule ∧ d.finish rule pair.1 ∈ es)
      ?_ ?_
    · have hrules := hfair _ (select_mem_ruleSets hselect)
      refine Ensures.bind (yields_chooseRule _ hrules) fun i hi => ?_
      obtain ⟨rule, hrule, hreach⟩ := hi
      have htokens := fun t ht => isFair_token hfair hchance t (tokens_of_select hselect t ht)
      exact (yields_sampleRule hanswer _ htokens i rule hrule hreach d.finish es h).mono
        fun pair hpair => ⟨rule, hpair⟩
    · rintro ⟨e, _⟩ ⟨rule, rfl, hmem⟩
      exact Ensures.pure hmem

end Definition

/-- **A sentence drawn is one of the ways to make a sentence.** -/
theorem yields_sampleIn {definitions : List Definition}
    (hfair : ∀ d ∈ definitions, d.IsFair) (hchance : ∀ d ∈ definitions, d.HasChances)
    (owner : String) (r : Reference) (es : List Example)
    (h : expandIn definitions owner r = .ok es) :
    Yields (sampleIn definitions owner r) (· ∈ es) := by
  induction definitions generalizing owner r es with
  | nil => injection h
  | cons d below ih =>
      have hbelow := ih (fun d' hd' => hfair d' (by simp [hd']))
        fun d' hd' => hchance d' (by simp [hd'])
      rw [expandIn] at h
      rw [sampleIn]
      by_cases hkey : d.key = r.target
      · rw [if_pos hkey] at h ⊢
        exact Definition.yields_sample hbelow (hfair d (by simp)) (hchance d (by simp)) h
      · rw [if_neg hkey] at h ⊢
        exact hbelow owner r es h

/-! ### What needs no fair dice -/

/-- The rule chosen is one of the rules. -/
theorem yields_chooseRule_lt (owner : String) (rules : List Rule) :
    Yields (chooseRule owner rules) (· < rules.length) := by
  unfold chooseRule
  refine Ensures.bind (Q := fun r => ∀ i, r = .ok i → i < rules.length) ?_ fun r hr => ?_
  · refine Ensures.liftState fun s _ => ⟨trivial, fun i hi => ?_⟩
    simpa using Dice.lt_length_of_weighted hi
  · cases r with
    | ok i => exact Ensures.pure (hr i rfl)
    | error reason => exact Ensures.throw _

/-- A sentence made of one of the rules comes with the rule. -/
theorem yields_sampleRule_isSome {answer : String → Reference → Sampling Example} {scope : Scope}
    {rules : List Rule} {i : Nat} (hi : i < rules.length) :
    Yields (sampleRule answer scope i rules) fun pair => pair.2.isSome = true := by
  induction rules generalizing i with
  | nil => simp at hi
  | cons rule rest ih =>
      obtain ⟨tokens, weight, value⟩ := rule
      cases i with
      | zero =>
          rw [sampleRule]
          refine Ensures.bind (Ensures.any _) ?_
          exact fun e _ => Ensures.pure rfl
      | succ i =>
          rw [sampleRule]
          exact ih (by simpa using hi)

/-- An intent puts its name on every sentence that is drawn. -/
theorem Definition.yields_intent {answer : String → Reference → Sampling Example}
    {d : Definition} (hkind : d.kind = .intent) (variation : Option String)
    (arguments : List Text) :
    Yields (d.sample answer variation arguments) fun e => e.intent = some d.name := by
  unfold sample
  refine Ensures.bind (Ensures.any _) ?_
  intro rules _
  refine Ensures.bind (Ensures.bind (yields_chooseRule_lt _ rules) fun i hi =>
    yields_sampleRule_isSome hi) ?_
  rintro ⟨e, rule⟩ hsome
  obtain ⟨r, rfl⟩ := Option.isSome_iff_exists.mp hsome
  exact Ensures.pure (by simp [finish, hkind, Example.withIntent])

/-- A use of an intent puts the name of the intent on every sentence that is drawn. -/
theorem yields_intent_sampleIn {layers : List Definition} {owner : String} {r : Reference}
    (hkind : r.target.kind = .intent) :
    Yields (sampleIn layers owner r) fun e => e.intent = some r.target.name := by
  induction layers with
  | nil => exact Ensures.throw _
  | cons d below ih =>
      rw [sampleIn]
      split
      · rename_i hkey
        rw [← hkey] at hkind ⊢
        exact Definition.yields_intent hkind _ _
      · exact ih

end Phrasebook
