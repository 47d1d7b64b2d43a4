import Phrasebook.Proofs.Dice
import Phrasebook.Proofs.Keys
import Phrasebook.Proofs.Template
import Mathlib.Data.List.TakeWhile

/-!
What the checks of a definition ask for.

The checks run in a fixed order and stop at the first fault, because the fault is the answer.
Whether there is one does not depend on the order: a definition passes exactly if it is
`WellFormed`, which says of each of its rule sets and of each of its tokens what must hold
there.  It makes no difference how deep in groups a token stands, in which variation, or
whether the rules around it are ever used.

Of the other definitions `WellFormed` knows only what is among them, so what passes in one
order of the definitions passes in any.
-/

namespace Phrasebook

/-! ### Checks one after the other -/

section

variable {ε α : Type} {P : Prop} [Decidable P] {e : ε}

theorem admit_eq_ok_iff : (if P then .ok () else .error e : Except ε PUnit) = .ok () ↔ P := by
  by_cases h : P <;> simp [h]

theorem refuse_eq_ok_iff :
    (if P then .error e else pure () : Except ε PUnit) = .ok () ↔ ¬ P := by
  by_cases h : P
  · simp [h]
  · simp [h, pure, Except.pure]

/-- Both of two checks are passed. -/
theorem seq_eq_ok_iff {x : Except ε PUnit} {y : Except ε α} {a : α} :
    (x >>= fun _ => y) = .ok a ↔ x = .ok () ∧ y = .ok a := by
  rw [bind_eq_ok]
  exact ⟨fun ⟨_, hx, hy⟩ => ⟨hx, hy⟩, fun ⟨hx, hy⟩ => ⟨(), hx, hy⟩⟩

theorem refuse_bind_eq_ok_iff {go : PUnit → Except ε α} {a : α} :
    (if P then .error e >>= go else go ()) = .ok a ↔ ¬ P ∧ go () = .ok a := by
  by_cases h : P
  · simp [h, bind, Except.bind]
  · simp [h]

end

/-! ### Weights and chances -/

theorem Rule.isWeighted_iff {rule : Rule} :
    rule.isWeighted = true ↔
      rule.weight.isFinite = true ∧ Binary64.zero.le rule.weight = true := by
  unfold isWeighted Binary64.lt Binary64.le
  rw [Binary64.units_zero]
  cases rule.weight with
  | finite negative m => cases negative <;> simp [Binary64.isFinite, Binary64.units?]
  | infinite negative => simp [Binary64.isFinite]
  | nan => simp [Binary64.isFinite]

/-- A rule can be chosen: the weights are finite and not negative, and one is above zero. -/
structure HasWeights (rules : List Rule) : Prop where
  weighted : ∀ rule ∈ rules,
    rule.weight.isFinite = true ∧ Binary64.zero.le rule.weight = true
  positive : ∃ rule ∈ rules, Binary64.zero.lt rule.weight = true

theorem RuleSet.check_eq_ok_iff {set : RuleSet} {rules : List Rule} :
    set.check rules = .ok () ↔ HasWeights rules := by
  unfold check
  cases hfind : rules.find? fun rule => !rule.isWeighted with
  | some rule =>
      have hbad : ¬ rule.isWeighted = true := by simpa using List.find?_some hfind
      have hmem : rule ∈ rules := List.mem_of_find?_eq_some hfind
      constructor
      · intro h
        injection h
      · exact fun h => absurd (Rule.isWeighted_iff.mpr (h.weighted rule hmem)) hbad
  | none =>
      have hgood : ∀ rule ∈ rules, rule.isWeighted = true := by
        simpa using List.find?_eq_none.mp hfind
      refine admit_eq_ok_iff.trans ⟨fun hany => ⟨?_, List.any_eq_true.mp hany⟩, ?_⟩
      · exact fun rule hrule => Rule.isWeighted_iff.mp (hgood rule hrule)
      · exact fun h => List.any_eq_true.mpr h.positive

/-- The chance lies between zero and one, if there is one. -/
def Modifiers.HasChance (m : Modifiers) : Prop :=
  ∀ p ∈ m.chance, Binary64.zero.le p = true ∧ p.le .one = true

/-- Not a number is no chance. -/
theorem Modifiers.HasChance.ne_nan {m : Modifiers} (h : m.HasChance) : m.chance ≠ some .nan := by
  intro hnan
  have hzero : Binary64.zero.le .nan = false := by decide +kernel
  have hbetween := (h .nan hnan).1
  rw [hzero] at hbetween
  injection hbetween

theorem Definition.checkChance_eq_ok_iff {owner : Key} {m : Modifiers} :
    checkChance owner m = .ok () ↔ m.HasChance := by
  unfold checkChance Modifiers.HasChance
  cases m.chance with
  | none => simp
  | some p =>
      refine admit_eq_ok_iff.trans ?_
      simp

/-! ### Names -/

/-- Nothing is left of a text without its blank ends exactly if all of it is blank. -/
theorem Text.trim_eq_nil_iff {t : Text} : t.trim = [] ↔ ∀ c ∈ t, isBlank c = true := by
  unfold trim
  rw [List.reverse_eq_nil_iff, List.dropWhile_eq_nil_iff]
  constructor
  · intro h
    by_contra hblank
    -- What is left begins with a character that is not blank.
    have hne : t.dropWhile isBlank ≠ [] := fun hnil => hblank (List.dropWhile_eq_nil_iff.mp hnil)
    have hhead := List.head_dropWhile_not isBlank hne
    simp [h _ (List.mem_reverse.mpr (List.head_mem hne))] at hhead
  · intro h
    simp [List.dropWhile_eq_nil_iff.mpr h]

/-! ### References -/

/-- The reference names one of the definitions, a variation that it has, if any, and passes
no arguments or one for each parameter. -/
def Reference.IsAnswered (definitions : List Definition) (r : Reference) : Prop :=
  ∃ d ∈ definitions, d.key = r.target ∧
    (∀ name ∈ r.modifiers.variation, ∃ v ∈ d.variations, v.name = name) ∧
    (r.modifiers.arguments = [] ∨ r.modifiers.arguments.length = d.parameters.length)

namespace Definition

variable {definitions : List Definition} {owner : Key}

theorem variation?_ne_none_iff {d : Definition} {name : String} :
    d.variation? name ≠ none ↔ ∃ v ∈ d.variations, v.name = name := by
  unfold variation?
  simp

theorem checkReference_eq_ok_iff (hkeys : (definitions.map key).Nodup) {target : Key}
    {m : Modifiers} :
    checkReference definitions owner target m = .ok () ↔
      Reference.IsAnswered definitions ⟨target, m⟩ := by
  unfold checkReference Reference.IsAnswered
  cases hfind : find? definitions target with
  | none =>
      constructor
      · intro h
        injection h
      · rintro ⟨d, hd, hkey, -⟩
        rw [(find?_eq_some_iff hkeys).mpr ⟨hd, hkey⟩] at hfind
        injection hfind
  | some d =>
      obtain ⟨hd, hkey⟩ := (find?_eq_some_iff hkeys).mp hfind
      -- No other definition can be meant.
      have hone : ∀ {P : Definition → Prop},
          (∃ e ∈ definitions, e.key = target ∧ P e) ↔ P d := by
        intro P
        constructor
        · rintro ⟨e, he, hkey', hP⟩
          obtain rfl := eq_of_key hkeys hd he (hkey.trans hkey'.symm)
          exact hP
        · exact fun hP => ⟨d, hd, hkey, hP⟩
      have harity : ¬(m.arguments ≠ [] ∧ m.arguments.length ≠ d.parameters.length) ↔
          m.arguments = [] ∨ m.arguments.length = d.parameters.length := by
        rw [not_and_or, not_not, not_not]
      rw [hone]
      cases hvariation : m.variation with
      | none =>
          refine bind_eq_ok.trans ?_
          simp [refuse_eq_ok_iff, harity]
      | some name =>
          refine refuse_bind_eq_ok_iff.trans ?_
          simp [refuse_eq_ok_iff, harity, ← variation?_ne_none_iff]

end Definition

/-! ### Tokens at any depth -/

/-- The token is in order, whatever stands in it if it is a group. -/
def Token.IsSound (definitions : List Definition) : Token → Prop
  | .word _ m => m.HasChance ∧ m.variation = none ∧ m.arguments = []
  | .group rules m => m.HasChance ∧ HasWeights rules
  | .reference target m => m.HasChance ∧ Reference.IsAnswered definitions ⟨target, m⟩

namespace Definition

mutual

theorem checkTokens_eq_ok_iff (hkeys : (definitions.map key).Nodup) :
    ∀ tokens : List Token, checkTokens definitions owner tokens = .ok () ↔
      ∀ token ∈ tokensWithin tokens, token.IsSound definitions
  | [] => by simp [checkTokens, tokensWithin]
  | token :: rest => by
      rw [checkTokens, tokensWithin, List.forall_mem_append, seq_eq_ok_iff,
        checkToken_eq_ok_iff hkeys token, checkTokens_eq_ok_iff hkeys rest]

theorem checkToken_eq_ok_iff (hkeys : (definitions.map key).Nodup) :
    ∀ token : Token, checkToken definitions owner token = .ok () ↔
      ∀ inner ∈ tokensWithinToken token, inner.IsSound definitions
  | .word text m => by
      rw [checkToken, seq_eq_ok_iff, checkChance_eq_ok_iff, refuse_eq_ok_iff]
      simp [tokensWithinToken, Token.IsSound]
  | .group rules m => by
      rw [checkToken, seq_eq_ok_iff, seq_eq_ok_iff, checkChance_eq_ok_iff,
        RuleSet.check_eq_ok_iff, checkRules_eq_ok_iff hkeys rules, tokensWithinToken,
        List.forall_mem_cons, Token.IsSound, and_assoc]
  | .reference target m => by
      rw [checkToken, seq_eq_ok_iff, checkChance_eq_ok_iff, checkReference_eq_ok_iff hkeys]
      simp [tokensWithinToken, Token.IsSound]

/-- Rules pass if every token in them is in order, at any depth. -/
theorem checkRules_eq_ok_iff (hkeys : (definitions.map key).Nodup) :
    ∀ rules : List Rule, checkRules definitions owner rules = .ok () ↔
      ∀ token ∈ tokensWithinRules rules, token.IsSound definitions
  | [] => by simp [checkRules, tokensWithinRules]
  | .mk tokens weight value :: rest => by
      rw [checkRules, tokensWithinRules, List.forall_mem_append, seq_eq_ok_iff,
        checkTokens_eq_ok_iff hkeys tokens, checkRules_eq_ok_iff hkeys rest]

end

/-! ### Definitions -/

/-- The tokens are in order if the chances, the words, the groups and the references are. -/
theorem forall_isSound_iff {tokens : List Token} :
    (∀ token ∈ tokens, token.IsSound definitions) ↔
      (∀ token ∈ tokens, token.modifiers.HasChance) ∧
      (∀ text m, .word text m ∈ tokens → m.variation = none ∧ m.arguments = []) ∧
      (∀ rules ∈ tokens.filterMap Token.rules?, HasWeights rules) ∧
      ∀ target m, .reference target m ∈ tokens → Reference.IsAnswered definitions ⟨target, m⟩ := by
  constructor
  · intro h
    refine ⟨fun token htoken => ?_, fun text m htoken => (h _ htoken).2, fun rules hrules => ?_,
      fun target m htoken => (h _ htoken).2⟩
    · have hsound := h token htoken
      cases token <;> exact hsound.1
    · obtain ⟨token, htoken, hgroup⟩ := List.mem_filterMap.mp hrules
      cases token with
      | group inner m =>
          obtain rfl : inner = rules := Option.some.inj hgroup
          exact (h _ htoken).2
      | _ => injection hgroup
  · rintro ⟨hchances, hwords, hgroups, hreferences⟩ token htoken
    have hchance := hchances token htoken
    cases token with
    | word text m => exact ⟨hchance, hwords text m htoken⟩
    | group rules m => exact ⟨hchance, hgroups rules (List.mem_filterMap.mpr ⟨_, htoken, rfl⟩)⟩
    | reference target m => exact ⟨hchance, hreferences target m htoken⟩

/-- The definition is in order by itself and towards the definitions it refers to. -/
structure WellFormed (definitions : List Definition) (d : Definition) : Prop where
  named : ∃ c ∈ d.name.toList, Text.isBlank c = false
  weights : ∀ rules ∈ d.ruleSets, HasWeights rules
  chances : ∀ token ∈ d.tokens, token.modifiers.HasChance
  words : ∀ text m, .word text m ∈ d.tokens → m.variation = none ∧ m.arguments = []
  references : ∀ target m, .reference target m ∈ d.tokens →
    Reference.IsAnswered definitions ⟨target, m⟩

/-- **A definition passes its checks exactly if it is well-formed.** -/
theorem check_eq_ok_iff (hkeys : (definitions.map key).Nodup) {d : Definition} :
    d.check definitions = .ok () ↔ d.WellFormed definitions := by
  have hname : ¬ (Text.trim d.name.toList).isEmpty = true ↔
      ∃ c ∈ d.name.toList, Text.isBlank c = false := by
    rw [List.isEmpty_iff, Text.trim_eq_nil_iff]
    simp
  have hsets : (∀ rules ∈ d.ruleSets, HasWeights rules) ↔ HasWeights d.allRules ∧
      (∀ v ∈ d.variations, HasWeights v.rules) ∧
      ∀ rules ∈ d.tokens.filterMap Token.rules?, HasWeights rules := by
    rw [ruleSets, List.forall_mem_cons, List.forall_mem_append, List.forall_mem_map]
  unfold check
  rw [refuse_bind_eq_ok_iff, seq_eq_ok_iff, seq_eq_ok_iff, RuleSet.check_eq_ok_iff, forM_eq_ok,
    checkRules_eq_ok_iff hkeys, hname]
  simp only [RuleSet.check_eq_ok_iff]
  constructor
  · rintro ⟨hnamed, hall, hvariations, htokens⟩
    obtain ⟨hchances, hwords, hgroups, hreferences⟩ := forall_isSound_iff.mp htokens
    exact ⟨hnamed, hsets.mpr ⟨hall, hvariations, hgroups⟩, hchances, hwords, hreferences⟩
  · rintro ⟨hnamed, hweights, hchances, hwords, hreferences⟩
    obtain ⟨hall, hvariations, hgroups⟩ := hsets.mp hweights
    exact ⟨hnamed, hall, hvariations,
      forall_isSound_iff.mpr ⟨hchances, hwords, hgroups, hreferences⟩⟩

theorem WellFormed.hasChances {d : Definition} (h : d.WellFormed definitions) : d.HasChances :=
  fun token htoken => (h.chances token htoken).ne_nan

/-- Among other definitions in another order, the same definitions are in order. -/
theorem WellFormed.of_perm {definitions' : List Definition} {d : Definition}
    (hperm : definitions.Perm definitions') (h : d.WellFormed definitions) :
    d.WellFormed definitions' := by
  refine ⟨h.named, h.weights, h.chances, h.words, fun target m htoken => ?_⟩
  obtain ⟨e, he, hrest⟩ := h.references target m htoken
  exact ⟨e, hperm.subset he, hrest⟩

/-- It makes no difference whether a definition is checked among the others in their order. -/
theorem check_of_perm {definitions' : List Definition} {d : Definition}
    (hkeys : (definitions.map key).Nodup) (hperm : definitions.Perm definitions')
    (h : d.check definitions = .ok ()) : d.check definitions' = .ok () := by
  have hkeys' : (definitions'.map key).Nodup := (hperm.map key).nodup_iff.mp hkeys
  exact (check_eq_ok_iff hkeys').mpr (((check_eq_ok_iff hkeys).mp h).of_perm hperm)

end Definition

end Phrasebook
