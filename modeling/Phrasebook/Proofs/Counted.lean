import Phrasebook.Proofs.Counts

/-!
What counting can come to.

Counting walks through the rules of a definition, and on its way it looks up what is known of
the groups in them and asks for the counts of the definitions they refer to.  Whatever is
known there, it comes to a sum over the rules of products over their tokens, taken in order
and capped at each step.  `CountedRules` says just this.  Of the count of a group it knows
only that it is `held` to be one of the group's rules, and of that of a reference only that
it is `used` for it.

The walk with its paths and its table appears in one induction, which shows that counting
comes to nothing else.  What a count is good for is then a question about sums and products,
and an answer to it is an instance of `PartsKept`.

That there is a count at all is the other half.  As in the enumeration, each use is answered
further down the layers, so none is left unresolved.
-/

namespace Phrasebook

section

variable (cap : Nat) (held : List Rule → Possibilities → Prop)
  (used : Reference → Possibilities → Prop)

/-- The count of a token that may hold something of the counts given. -/
def Modifiers.CountedAs (m : Modifiers) (base : Possibilities → Prop) (p : Possibilities) : Prop :=
  if m.isAbsent then p = .exact 1 else ∃ q, base q ∧ p = m.counted cap q

/-- What a token can be counted as. -/
def CountedToken : Token → Possibilities → Prop
  | .word _ m, p => m.CountedAs cap (· = .exact 1) p
  | .group rules m, p => m.CountedAs cap (held rules) p
  | .reference target m, p => m.CountedAs cap (used ⟨target, m⟩) p

/-- What a product can come to when it goes on with tokens. -/
inductive CountedTokens : Possibilities → List Token → Possibilities → Prop
  | nil (product : Possibilities) : CountedTokens product [] product
  | cons {product q p : Possibilities} {token : Token} {rest : List Token}
      (htoken : CountedToken cap held used token q)
      (hrest : CountedTokens (product.mul cap q) rest p) : CountedTokens product (token :: rest) p

/-- What a sum can come to when it goes on with rules. -/
inductive CountedRules : Possibilities → List Rule → Possibilities → Prop
  | nil (total : Possibilities) : CountedRules total [] total
  | cons {total product p : Possibilities} {rule : Rule} {rest : List Rule}
      (htokens : CountedTokens cap held used (.exact 1) rule.tokens product)
      (hrest : CountedRules
        (total.add cap (if rule.isReachable then product else product.mark)) rest p) :
      CountedRules total (rule :: rest) p

/-- What is kept for a part is held to be a count of its rules, what is held to be one may be
kept, and whatever counting can come to is held to be one. -/
structure PartKept (owner : Owner) (I : Counts → Prop) (part : Part) (rules : List Rule) :
    Prop where
  known : ∀ c p, I c → c.get? ⟨owner, part⟩ = some p → held rules p
  set : ∀ c p, I c → held rules p → I (c.set ⟨owner, part⟩ p)
  counted : ∀ p, CountedRules cap held used (.exact 0) rules p → held rules p

/-- So it is with the groups in a definition. -/
def GroupsKept (owner : Owner) (I : Counts → Prop) (d : Definition) : Prop :=
  ∀ path rules, d.rulesAt (.group path) = some rules →
    PartKept cap held used owner I (.group path) rules

/-- So it is with all parts of a definition. -/
def PartsKept (owner : Owner) (I : Counts → Prop) (d : Definition) : Prop :=
  ∀ part rules, d.rulesAt part = some rules → PartKept cap held used owner I part rules

end

/-! ### The walk -/

section

variable {answer : String → Reference → Counting Possibilities} {cap : Nat} {label : String}
  {held : List Rule → Possibilities → Prop} {used : Reference → Possibilities → Prop}
  {owner : Owner} {I : Counts → Prop} {d : Definition}

theorem Modifiers.ensures_countedAs (m : Modifiers) {make : Counting Possibilities}
    {base : Possibilities → Prop} (h : Ensures I make base) :
    Ensures I (if m.isAbsent then return .exact 1 else return m.counted cap (← make))
      (m.CountedAs cap base) := by
  unfold CountedAs
  by_cases habsent : m.isAbsent = true
  · rw [if_pos habsent]
    exact Ensures.pure (by rw [if_pos habsent])
  · rw [if_neg habsent]
    refine Ensures.bind h fun q hq => Ensures.pure ?_
    rw [if_neg habsent]
    exact ⟨q, hq, rfl⟩

mutual

theorem ensures_countTokens (hkept : GroupsKept cap held used owner I d) :
    ∀ (tokens : List Token) (path : List Nat) (rules : List Rule) (i j : Nat) (rule : Rule)
      (product : Possibilities), rulesUnder d.allRules path = some rules →
      rules[i]? = some rule → rule.tokens.drop j = tokens →
      (∀ r ∈ referencesOfTokens tokens, Ensures I (answer label r) (used r)) →
      Ensures I (countTokens answer cap label owner (path ++ [i]) j product tokens)
        (CountedTokens cap held used product tokens)
  | [] => by
      intro path rules i j rule product _ _ _ _
      rw [countTokens]
      exact Ensures.pure (CountedTokens.nil product)
  | token :: rest => by
      intro path rules i j rule product hpath hrule hdrop hanswer
      rw [referencesOfTokens] at hanswer
      have htoken : rule.tokens[j]? = some token := by
        rw [← List.head?_drop, hdrop]
        rfl
      have hrest : rule.tokens.drop (j + 1) = rest := by
        rw [← List.tail_drop, hdrop]
        rfl
      rw [countTokens]
      refine Ensures.bind (ensures_countToken hkept token path rules i j rule hpath hrule htoken
        fun r hr => hanswer r (List.mem_append_left _ hr)) fun q hq => ?_
      exact (ensures_countTokens hkept rest path rules i (j + 1) rule (product.mul cap q) hpath
        hrule hrest fun r hr => hanswer r (List.mem_append_right _ hr)).mono
        fun p hp => CountedTokens.cons hq hp

theorem ensures_countToken (hkept : GroupsKept cap held used owner I d) :
    ∀ (token : Token) (path : List Nat) (rules : List Rule) (i j : Nat) (rule : Rule),
      rulesUnder d.allRules path = some rules → rules[i]? = some rule →
      rule.tokens[j]? = some token →
      (∀ r ∈ referencesOfToken token, Ensures I (answer label r) (used r)) →
      Ensures I (countToken answer cap label owner (path ++ [i] ++ [j]) token)
        (CountedToken cap held used token)
  | .word text m => by
      intro path rules i j rule _ _ _ _
      rw [countToken]
      have hone : Ensures I (pure (.exact 1) : Counting Possibilities) (· = .exact 1) :=
        Ensures.pure rfl
      exact m.ensures_countedAs hone
  | .group inner m => by
      intro path rules i j rule hpath hrule htoken hanswer
      rw [referencesOfToken] at hanswer
      have hinner : d.rulesAt (.group (path ++ [i] ++ [j])) = some inner :=
        rulesUnder_append hrule htoken hpath
      have hcompute := ensures_countRules hkept inner (path ++ [i] ++ [j]) inner 0 (.exact 0)
        hinner (List.prefix_refl _) hanswer
      rw [countToken]
      have hgroup := hkept _ inner hinner
      exact m.ensures_countedAs (Ensures.remember hgroup.known
        (hcompute.mono hgroup.counted) hgroup.set)
  | .reference target m => by
      intro path rules i j rule _ _ _ hanswer
      rw [countToken]
      exact m.ensures_countedAs (hanswer ⟨target, m⟩ (by simp [referencesOfToken]))

/-- **Counting rules comes to what it can come to**, wherever they stand in the definition. -/
theorem ensures_countRules (hkept : GroupsKept cap held used owner I d) :
    ∀ (segment : List Rule) (path : List Nat) (rules : List Rule) (i : Nat)
      (total : Possibilities), rulesUnder d.allRules path = some rules →
      segment <+: rules.drop i →
      (∀ r ∈ referencesOfRules segment, Ensures I (answer label r) (used r)) →
      Ensures I (countRules answer cap label owner path i total segment)
        (CountedRules cap held used total segment)
  | [] => by
      intro path rules i total _ _ _
      rw [countRules]
      exact Ensures.pure (CountedRules.nil total)
  | .mk tokens weight value :: rest => by
      intro path rules i total hpath hprefix hanswer
      rw [referencesOfRules] at hanswer
      obtain ⟨later, hlater⟩ := hprefix
      have hrule : rules[i]? = some (.mk tokens weight value) := by
        rw [← List.head?_drop, ← hlater]
        rfl
      have hrest : rest <+: rules.drop (i + 1) := by
        rw [← List.tail_drop, ← hlater]
        exact List.prefix_append rest later
      rw [countRules]
      refine Ensures.bind (ensures_countTokens hkept tokens path rules i 0 _ (.exact 1) hpath
        hrule rfl fun r hr => hanswer r (List.mem_append_left _ hr)) fun product hproduct => ?_
      exact (ensures_countRules hkept rest path rules (i + 1) _ hpath hrest
        fun r hr => hanswer r (List.mem_append_right _ hr)).mono
        fun p hp => CountedRules.cons hproduct hp

end

/-- The count of a use is held to be one of the rules that the use chooses from. -/
theorem Definition.ensures_count (hkept : PartsKept cap held used owner I d)
    (hanswer : ∀ r ∈ d.references, Ensures I (answer d.name r) (used r))
    (variation : Option String) :
    Ensures I (d.count answer cap owner variation) fun p =>
      ∃ rules part, d.select variation = .ok rules ∧ d.rulesAt part = some rules ∧
        held rules p := by
  unfold Definition.count
  refine Ensures.bind (Q := fun counted => d.counted variation = .ok counted)
    (Ensures.liftExcept fun counted h => h) ?_
  rintro ⟨rules, first, part⟩ hcounted
  obtain ⟨hselect, hpart, hprefix⟩ := Definition.counted_spec hcounted
  have hgroups : GroupsKept cap held used owner I d := fun path => hkept (.group path)
  have hcompute := ensures_countRules hgroups rules [] d.allRules first (.exact 0) rfl hprefix
    fun r hr => hanswer r (Definition.references_of_select hselect r hr)
  have hkept := hkept part rules hpart
  exact (Ensures.remember hkept.known (hcompute.mono hkept.counted) hkept.set).mono
    fun p hp => ⟨rules, part, hselect, hpart, hp⟩

end

/-! ### Counting returns -/

section

variable {answer : String → Reference → Counting Possibilities} {cap : Nat} {label : String}
  {owner : Owner}

mutual

theorem returns_countTokens :
    ∀ (tokens : List Token) (path : List Nat) (j : Nat) (product : Possibilities),
      (∀ r ∈ referencesOfTokens tokens, Returns (answer label r)) →
      Returns (countTokens answer cap label owner path j product tokens)
  | [] => by
      intro path j product _
      rw [countTokens]
      exact Returns.pure product
  | token :: rest => by
      intro path j product hanswer
      rw [referencesOfTokens] at hanswer
      rw [countTokens]
      refine Returns.bind (returns_countToken token (path ++ [j])
        fun r hr => hanswer r (List.mem_append_left _ hr)) fun p => ?_
      exact returns_countTokens rest path (j + 1) (product.mul cap p)
        fun r hr => hanswer r (List.mem_append_right _ hr)

theorem returns_countToken :
    ∀ (token : Token) (path : List Nat),
      (∀ r ∈ referencesOfToken token, Returns (answer label r)) →
      Returns (countToken answer cap label owner path token)
  | .word text m => by
      intro path _
      rw [countToken]
      split
      · exact Returns.pure _
      · exact Returns.pure _
  | .group rules m => by
      intro path hanswer
      rw [referencesOfToken] at hanswer
      have hcompute := returns_countRules rules path 0 (.exact 0) hanswer
      rw [countToken]
      split
      · exact Returns.pure _
      · exact Returns.bind (Counts.returns_remember hcompute) fun base => Returns.pure _
  | .reference target m => by
      intro path hanswer
      rw [countToken]
      split
      · exact Returns.pure _
      · exact Returns.bind (hanswer ⟨target, m⟩ (by simp [referencesOfToken]))
          fun base => Returns.pure _

theorem returns_countRules :
    ∀ (rules : List Rule) (path : List Nat) (i : Nat) (total : Possibilities),
      (∀ r ∈ referencesOfRules rules, Returns (answer label r)) →
      Returns (countRules answer cap label owner path i total rules)
  | [] => by
      intro path i total _
      rw [countRules]
      exact Returns.pure total
  | .mk tokens weight value :: rest => by
      intro path i total hanswer
      rw [referencesOfRules] at hanswer
      rw [countRules]
      refine Returns.bind (returns_countTokens tokens (path ++ [i]) 0 (.exact 1)
        fun r hr => hanswer r (List.mem_append_left _ hr)) fun product => ?_
      exact returns_countRules rest path (i + 1) _
        fun r hr => hanswer r (List.mem_append_right _ hr)

end

/-- A use that can be enumerated can be counted. -/
theorem Definition.returns_count {d : Definition} {variation : Option String} {rules : List Rule}
    (hselect : d.select variation = .ok rules)
    (hanswer : ∀ r ∈ d.references, Returns (answer d.name r)) :
    Returns (d.count answer cap owner variation) := by
  obtain ⟨⟨rules', first, part⟩, hcounted⟩ := exists_counted hselect
  obtain ⟨hselect', -, -⟩ := counted_spec hcounted
  have hcompute : Returns
      (countRules answer cap d.name owner [] first (.exact 0) rules') :=
    returns_countRules rules' [] first (.exact 0)
      fun r hr => hanswer r (references_of_select hselect' r hr)
  unfold Definition.count
  rw [hcounted]
  exact Counts.returns_remember hcompute

/-- The use of a definition is counted by the definition, with the layers behind it. -/
theorem countIn_of_suffix {layers below : List Definition} {d : Definition} (hl : Layered layers)
    (hs : d :: below <:+ layers) {r : Reference} (hkey : d.key = r.target) (label : String) :
    countIn cap layers label r =
      d.count (countIn cap below) cap (.unit d.key) r.modifiers.variation := by
  induction layers with
  | nil => simp at hs
  | cons e rest ih =>
      obtain ⟨-, hnew, hrest⟩ := hl
      rw [countIn]
      rcases List.suffix_cons_iff.mp hs with heq | hs
      · obtain ⟨rfl, rfl⟩ := List.cons.inj heq
        rw [if_pos hkey]
      · have hne : e.key ≠ r.target := by
          rw [← hkey]
          exact fun h => hnew (h ▸ List.mem_map_of_mem (hs.subset (by simp)))
        rw [if_neg hne]
        exact ih hrest hs

/-- **Whatever is resolved is counted.** -/
theorem returns_countIn {layers : List Definition} (hl : Layered layers) (label : String)
    (r : Reference) (hr : r.Resolves layers) : Returns (countIn cap layers label r) := by
  induction layers, r, hl, hr using Layered.use_induction generalizing label with
  | asked d below r rules _ _ hkey hselect ih =>
      rw [countIn, if_pos hkey]
      exact Definition.returns_count hselect fun r' hr' => ih r' hr' d.name
  | passed d below r _ _ _ hkey ih =>
      rw [countIn, if_neg hkey]
      exact ih label

/-- Every definition of a graph is counted. -/
theorem Graph.Valid.returns_count {g : Graph} (hg : g.Valid) {d : Definition}
    (hd : d ∈ g.definitions) : Returns ((Item.unit d.key).count g cap) :=
  returns_countIn hg.layered d.key.name (Item.useOf d.key) (hg.resolves_use hd rfl [])

/-- Every definition of a graph is listed, and its count corrected. -/
theorem Graph.Valid.returns_all {g : Graph} (hg : g.Valid) {d : Definition}
    (hd : d ∈ g.definitions) : Returns ((Item.unit d.key).all g) := by
  obtain ⟨es, hes⟩ := hg.exists_enumerate hd
  intro c
  obtain ⟨_, _, hrun, -⟩ := Item.succeeds_all hes c
  exact ⟨_, _, hrun, trivial⟩

/-- A definition of which a count is known has this count, and nothing else is learnt. -/
theorem Graph.Valid.succeeds_count_of_known {g : Graph} (hg : g.Valid) {d : Definition}
    (hd : d ∈ g.definitions) {c : Counts} {p : Possibilities}
    (hknown : c.get? d.key.whole = some p) :
    Succeeds ((Item.unit d.key).count g cap) c fun q c' => q = p ∧ c' = c := by
  obtain ⟨above, below, hsplit⟩ := List.append_of_mem ((hg.mem_layers d).mpr hd)
  have hcount : (Item.unit d.key).count g cap =
      d.count (countIn cap below) cap (.unit d.key) none :=
    countIn_of_suffix hg.layered ⟨above, hsplit.symm⟩ (r := Item.useOf d.key) rfl d.key.name
  rw [hcount]
  exact Counts.succeeds_remember_of_some hknown

end

end Phrasebook
