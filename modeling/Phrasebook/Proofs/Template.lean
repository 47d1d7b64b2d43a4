import Phrasebook.Generation.Scope

/-!
What a use of a definition can come across.

A use takes the rules of a variation or all rules, and from there it meets references and
groups, at any depth.  Whatever it meets is found among the references and the rule sets of
the definition as a whole, so a condition on all of those is a condition on every use.
-/

namespace Phrasebook

/-- A use of the definition with a key, with rules of its own choice and arguments. -/
def Key.use (key : Key) (variation : Option String) (arguments : List Text) : Reference :=
  ⟨key, { Modifiers.plain with variation := variation, arguments := arguments }⟩

/-! ### References -/

theorem mem_referencesOfRules {rules : List Rule} {r : Reference} :
    r ∈ referencesOfRules rules ↔ ∃ rule ∈ rules, r ∈ rule.references := by
  induction rules with
  | nil => simp [referencesOfRules]
  | cons rule rest ih =>
      obtain ⟨tokens, weight, value⟩ := rule
      rw [referencesOfRules, List.mem_append, ih]
      simp [Rule.references, Rule.tokens]

/-! ### Tokens and rule sets -/

mutual

/-- Tokens and those in the groups among them, at any depth. -/
def tokensWithin : List Token → List Token
  | [] => []
  | token :: rest => tokensWithinToken token ++ tokensWithin rest

/-- A token and, if it is a group, those in it. -/
def tokensWithinToken : Token → List Token
  | .group rules m => .group rules m :: tokensWithinRules rules
  | token => [token]

/-- The tokens in rules. -/
def tokensWithinRules : List Rule → List Token
  | [] => []
  | .mk tokens _ _ :: rest => tokensWithin tokens ++ tokensWithinRules rest

end

theorem mem_tokensWithin {tokens : List Token} {token : Token} :
    token ∈ tokensWithin tokens ↔ ∃ outer ∈ tokens, token ∈ tokensWithinToken outer := by
  induction tokens with
  | nil => simp [tokensWithin]
  | cons outer rest ih =>
      rw [tokensWithin, List.mem_append, ih]
      simp

theorem mem_tokensWithinRules {rules : List Rule} {token : Token} :
    token ∈ tokensWithinRules rules ↔ ∃ rule ∈ rules, token ∈ tokensWithin rule.tokens := by
  induction rules with
  | nil => simp [tokensWithinRules]
  | cons rule rest ih =>
      obtain ⟨tokens, weight, value⟩ := rule
      rw [tokensWithinRules, List.mem_append, ih]
      simp [Rule.tokens]

theorem self_mem_tokensWithinToken (token : Token) : token ∈ tokensWithinToken token := by
  cases token <;> simp [tokensWithinToken]

/-- The use that a token makes of a definition. -/
def Token.reference? : Token → Option Reference
  | .reference target m => some ⟨target, m⟩
  | _ => none

mutual

theorem referencesOfTokens_eq :
    ∀ tokens : List Token,
      referencesOfTokens tokens = (tokensWithin tokens).filterMap Token.reference?
  | [] => by rw [referencesOfTokens, tokensWithin, List.filterMap_nil]
  | token :: rest => by
      rw [referencesOfTokens, tokensWithin, List.filterMap_append, referencesOfToken_eq token,
        referencesOfTokens_eq rest]

theorem referencesOfToken_eq :
    ∀ token : Token, referencesOfToken token = (tokensWithinToken token).filterMap Token.reference?
  | .word text m => by simp [referencesOfToken, tokensWithinToken, Token.reference?]
  | .group rules m => by
      rw [referencesOfToken, tokensWithinToken, List.filterMap_cons, referencesOfRules_eq rules]
      rfl
  | .reference target m => by simp [referencesOfToken, tokensWithinToken, Token.reference?]

/-- The uses in rules are those of the tokens in them. -/
theorem referencesOfRules_eq :
    ∀ rules : List Rule,
      referencesOfRules rules = (tokensWithinRules rules).filterMap Token.reference?
  | [] => by rw [referencesOfRules, tokensWithinRules, List.filterMap_nil]
  | .mk tokens weight value :: rest => by
      rw [referencesOfRules, tokensWithinRules, List.filterMap_append,
        referencesOfTokens_eq tokens, referencesOfRules_eq rest]

end

/-- Every use in rules is made by a token in them. -/
theorem mem_referencesOfRules_iff {rules : List Rule} {r : Reference} :
    r ∈ referencesOfRules rules ↔ .reference r.target r.modifiers ∈ tokensWithinRules rules := by
  rw [referencesOfRules_eq, List.mem_filterMap]
  constructor
  · rintro ⟨token, htoken, hr⟩
    cases token with
    | reference target m =>
        obtain rfl : ⟨target, m⟩ = r := Option.some.inj hr
        exact htoken
    | _ => injection hr
  · exact fun h => ⟨_, h, rfl⟩

/-- The rules of a group. -/
def Token.rules? : Token → Option (List Rule)
  | .group rules _ => some rules
  | _ => none

namespace Definition

/-- Every token in the rules of a definition. -/
def tokens (d : Definition) : List Token := tokensWithinRules d.allRules

/-- The rule sets that something is chosen from: all rules, those of a variation, those of a
group. -/
def ruleSets (d : Definition) : List (List Rule) :=
  d.allRules :: (d.variations.map (·.rules) ++ d.tokens.filterMap Token.rules?)

/-- Every chance in the definition is a number. -/
def HasChances (d : Definition) : Prop := ∀ token ∈ d.tokens, token.modifiers.chance ≠ some .nan

variable {d : Definition} {variation : Option String} {rules : List Rule}

/-- A use takes all rules or those of a variation. -/
theorem select_cases (h : d.select variation = .ok rules) :
    rules = d.allRules ∨ ∃ v ∈ d.variations, v.rules = rules := by
  unfold select at h
  cases variation with
  | none => exact Or.inl (by injection h with h; exact h.symm)
  | some name =>
      simp only at h
      split at h
      · rename_i v hv
        exact Or.inr ⟨v, List.mem_of_find?_eq_some hv, by injection h⟩
      · injection h

theorem select_subset (h : d.select variation = .ok rules) : rules ⊆ d.allRules := by
  rcases select_cases h with rfl | ⟨v, hv, rfl⟩
  · exact List.Subset.refl _
  · intro rule hrule
    exact List.mem_append_right _ (List.mem_flatMap.mpr ⟨v, hv, hrule⟩)

theorem select_mem_ruleSets (h : d.select variation = .ok rules) : rules ∈ d.ruleSets := by
  rcases select_cases h with rfl | ⟨v, hv, rfl⟩
  · simp [ruleSets]
  · exact List.mem_cons_of_mem _ (List.mem_append_left _ (List.mem_map_of_mem hv))

theorem mem_ruleSets_of_group {m : Modifiers} (h : Token.group rules m ∈ d.tokens) :
    rules ∈ d.ruleSets :=
  List.mem_cons_of_mem _ (List.mem_append_right _ (List.mem_filterMap.mpr ⟨_, h, rfl⟩))

theorem references_of_select (h : d.select variation = .ok rules) :
    ∀ r ∈ referencesOfRules rules, r ∈ d.references := by
  intro r hr
  obtain ⟨rule, hrule, hmem⟩ := mem_referencesOfRules.mp hr
  exact mem_referencesOfRules.mpr ⟨rule, select_subset h hrule, hmem⟩

theorem tokens_of_select (h : d.select variation = .ok rules) :
    ∀ token ∈ tokensWithinRules rules, token ∈ d.tokens := by
  intro token ht
  obtain ⟨rule, hrule, hmem⟩ := mem_tokensWithinRules.mp ht
  exact mem_tokensWithinRules.mpr ⟨rule, select_subset h hrule, hmem⟩

end Definition

end Phrasebook
