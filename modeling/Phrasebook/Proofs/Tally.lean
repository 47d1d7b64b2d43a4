import Phrasebook.Proofs.Counted

/-!
The true number of ways to make a sentence.

The tally of a template is what its count would be without a cap: the sum over the rules of
the products over their tokens, where a token that may be left out adds one and a casing that
asks for two forms doubles.  The value is a natural number of any size, and the mark says
that one of the rules gone through is never used.  Chances, casings and weights enter the formula
as they are written in the template; `Modifiers.tally_eq` and `tallyRules_cons` say it in the terms
that counting goes by.

Counting does something else.  It cuts off at the cap after each step and takes for a place
what was kept for it.  It still comes to the tally, cut off once, since from each set of
rules something can be chosen and so nothing multiplies a value that was cut off by zero.
-/

namespace Phrasebook

/-! ### The tally -/

/-- The tally of a token that holds something of a given tally: one if the chance of the token is
not above zero, and otherwise what it holds, twice if both casings are asked for, and one more if
the chance is below one. -/
def Modifiers.tally (m : Modifiers) (base : Possibilities) : Possibilities :=
  let cased := base.times (.exact (if m.casing = .either then 2 else 1))
  match m.chance with
  | none => cased
  | some chance =>
    if chance.le .zero then .exact 1
    else if chance.lt .one then cased.plus (.exact 1)
    else cased

section

variable (answer : Reference → Possibilities)

mutual

/-- The product of the tallies of tokens. -/
def tallyTokens : List Token → Possibilities
  | [] => .exact 1
  | token :: rest => (tallyToken token).times (tallyTokens rest)

/-- The tally of a token: a word is one way. -/
def tallyToken : Token → Possibilities
  | .word _ m => m.tally (.exact 1)
  | .group rules m => m.tally (tallyRules rules)
  | .reference target m => m.tally (answer ⟨target, m⟩)

/-- The sum of the tallies of rules, marked if one of them has a weight that is not above zero. -/
def tallyRules : List Rule → Possibilities
  | [] => .exact 0
  | .mk tokens weight _ :: rest =>
    let product := tallyTokens tokens
    let product := if Binary64.zero.lt weight then product else product.mark
    product.plus (tallyRules rest)

end

/-- The tally of a use of a definition, which is that of the rules it chooses from. -/
def Definition.tally (d : Definition) (variation : Option String) : Possibilities :=
  match d.select variation with
  | .ok rules => tallyRules answer rules
  | .error _ => .exact 0

end

/-- The tally of a use, along definitions that each refer only to later ones. -/
def tallyIn : List Definition → Reference → Possibilities
  | [], _ => .exact 0
  | d :: below, r =>
    if d.key = r.target then d.tally (tallyIn below) r.modifiers.variation else tallyIn below r

namespace Graph

/-- The tally of a use of a definition. -/
def tally (g : Graph) : Reference → Possibilities := tallyIn g.layers

end Graph

section

variable {answer : Reference → Possibilities}

/-- The factor of a token by what counting asks of it: whether it never stands, whether it may be
left out, and how many forms its casing asks for. -/
theorem Modifiers.tally_eq (m : Modifiers) (base : Possibilities) :
    m.tally base =
      if m.isAbsent then .exact 1
      else if m.mayBeAbsent then (base.times (.exact m.casing.forms)).plus (.exact 1)
      else base.times (.exact m.casing.forms) := by
  have hforms : (if m.casing = .either then 2 else 1) = m.casing.forms := by
    cases m.casing <;> rfl
  unfold tally isAbsent mayBeAbsent
  rw [hforms]
  cases m.chance with
  | none => rfl
  | some chance => rfl

theorem tallyRules_cons (rule : Rule) (rest : List Rule) :
    tallyRules answer (rule :: rest) =
      (if rule.isReachable then tallyTokens answer rule.tokens
        else (tallyTokens answer rule.tokens).mark).plus (tallyRules answer rest) := by
  obtain ⟨tokens, weight, value⟩ := rule
  rw [tallyRules]
  rfl

theorem Definition.tally_of_select {d : Definition} {variation : Option String}
    {rules : List Rule} (h : d.select variation = .ok rules) :
    d.tally answer variation = tallyRules answer rules := by
  rw [Definition.tally, h]

/-! ### Nothing is impossible -/

/-- What a token holds is there: a group has rules, and a use can be made. -/
def Token.HoldsSome (answer : Reference → Possibilities) : Token → Prop
  | .word _ _ => True
  | .group rules _ => rules ≠ []
  | .reference target m => 0 < (answer ⟨target, m⟩).value

theorem Modifiers.pos_tally (m : Modifiers) {base : Possibilities} (h : 0 < base.value) :
    0 < (m.tally base).value := by
  have hforms : 0 < m.casing.forms := by cases m.casing <;> decide
  have hcased : 0 < (base.times (.exact m.casing.forms)).value := Nat.mul_pos h hforms
  rw [tally_eq]
  split
  · exact Nat.one_pos
  · split
    · exact Nat.succ_pos _
    · exact hcased

mutual

theorem pos_tallyTokens :
    ∀ tokens : List Token, (∀ token ∈ tokensWithin tokens, token.HoldsSome answer) →
      0 < (tallyTokens answer tokens).value
  | [] => by
      intro _
      rw [tallyTokens]
      exact Nat.one_pos
  | token :: rest => by
      intro h
      rw [tokensWithin] at h
      rw [tallyTokens]
      exact Nat.mul_pos (pos_tallyToken token fun t ht => h t (List.mem_append_left _ ht))
        (pos_tallyTokens rest fun t ht => h t (List.mem_append_right _ ht))

theorem pos_tallyToken :
    ∀ token : Token, (∀ inner ∈ tokensWithinToken token, inner.HoldsSome answer) →
      0 < (tallyToken answer token).value
  | .word text m => by
      intro _
      rw [tallyToken]
      exact m.pos_tally Nat.one_pos
  | .group rules m => by
      intro h
      rw [tokensWithinToken] at h
      rw [tallyToken]
      have hrules : rules ≠ [] := h (.group rules m) List.mem_cons_self
      exact m.pos_tally (pos_tallyRules rules hrules fun t ht => h t (List.mem_cons_of_mem _ ht))
  | .reference target m => by
      intro h
      rw [tallyToken]
      exact m.pos_tally (h _ (self_mem_tokensWithinToken _))

/-- Rules in which everything is there have a way to make a sentence. -/
theorem pos_tallyRules :
    ∀ rules : List Rule, rules ≠ [] →
      (∀ token ∈ tokensWithinRules rules, token.HoldsSome answer) →
      0 < (tallyRules answer rules).value
  | [] => by
      intro h
      exact absurd rfl h
  | .mk tokens weight value :: rest => by
      intro _ h
      rw [tokensWithinRules] at h
      have hproduct := pos_tallyTokens tokens fun t ht => h t (List.mem_append_left _ ht)
      rw [tallyRules_cons, Possibilities.plus_value, Rule.tokens]
      split
      · exact Nat.add_pos_left hproduct _
      · exact Nat.add_pos_left hproduct _

end

end

/-- Each set of rules in a definition has some. -/
def Definition.HasRules (d : Definition) : Prop := ∀ rules ∈ d.ruleSets, rules ≠ []

theorem Definition.holdsSome {d : Definition} {answer : Reference → Possibilities}
    (hd : d.HasRules) (hanswer : ∀ r ∈ d.references, 0 < (answer r).value) :
    ∀ token ∈ d.tokens, token.HoldsSome answer := by
  intro token htoken
  cases token with
  | word text m => trivial
  | group rules m => exact hd rules (mem_ruleSets_of_group htoken)
  | reference target m => exact hanswer ⟨target, m⟩ (mem_referencesOfRules_iff.mpr htoken)

/-- A use that is resolved has a way to make a sentence. -/
theorem pos_tallyIn {layers : List Definition} (hl : Layered layers)
    (hrules : ∀ d ∈ layers, d.HasRules) (r : Reference) (hr : r.Resolves layers) :
    0 < (tallyIn layers r).value := by
  induction layers, r, hl, hr using Layered.use_induction with
  | asked d below r rules _ _ hkey hselect ih =>
      have hd : d.HasRules := hrules d (by simp)
      have hsome := Definition.holdsSome hd fun r' hr' =>
        ih r' hr' fun d' hd' => hrules d' (List.mem_cons_of_mem d hd')
      rw [tallyIn, if_pos hkey, Definition.tally_of_select hselect]
      have hnonempty := hd rules (Definition.select_mem_ruleSets hselect)
      exact pos_tallyRules rules hnonempty fun token htoken =>
        hsome token (Definition.tokens_of_select hselect token htoken)
  | passed d below r _ _ _ hkey ih =>
      rw [tallyIn, if_neg hkey]
      exact ih fun d' hd' => hrules d' (List.mem_cons_of_mem d hd')

/-! ### Capping at each step -/

section

variable {answer : Reference → Possibilities} {cap : Nat}

/-- The count of rules is their tally, capped. -/
def CapsRules (answer : Reference → Possibilities) (cap : Nat) (rules : List Rule)
    (p : Possibilities) : Prop :=
  p = (tallyRules answer rules).capped cap

/-- The count of a use is its tally, capped. -/
def CapsAnswer (answer : Reference → Possibilities) (cap : Nat) (r : Reference)
    (p : Possibilities) : Prop :=
  p = (answer r).capped cap

theorem Modifiers.standsFor_countedAs (hcap : cap < Possibilities.largest) {m : Modifiers}
    {base : Possibilities → Prop} {p t : Possibilities} (h : m.CountedAs cap base p)
    (hbase : ∀ q, base q → Possibilities.StandsFor cap q t) (ht : 0 < t.value) :
    Possibilities.StandsFor cap p (m.tally t) := by
  unfold CountedAs at h
  rw [tally_eq]
  by_cases habsent : m.isAbsent = true
  · rw [if_pos habsent] at h ⊢
    exact Or.inl h
  · rw [if_neg habsent] at h ⊢
    obtain ⟨q, hq, rfl⟩ := h
    have hforms : 0 < (Possibilities.exact m.casing.forms).value := by
      cases m.casing <;> decide
    have hcased : Possibilities.StandsFor cap (q.cased cap m.casing)
        (t.times (.exact m.casing.forms)) :=
      .of_capped ((hbase q hq).mul hcap (.refl cap _) ht hforms)
    unfold counted
    split
    · exact .of_capped (hcased.add hcap (.refl cap _))
    · exact hcased

theorem standsFor_countedToken (hcap : cap < Possibilities.largest) {token : Token}
    {p : Possibilities}
    (h : CountedToken cap (CapsRules answer cap) (CapsAnswer answer cap) token p)
    (hsome : ∀ inner ∈ tokensWithinToken token, inner.HoldsSome answer) :
    Possibilities.StandsFor cap p (tallyToken answer token) := by
  cases token with
  | word text m =>
      rw [tallyToken]
      exact Modifiers.standsFor_countedAs hcap h (fun q hq => Or.inl hq) Nat.one_pos
  | group rules m =>
      rw [tokensWithinToken] at hsome
      rw [tallyToken]
      have hrules : rules ≠ [] := hsome (.group rules m) List.mem_cons_self
      exact Modifiers.standsFor_countedAs hcap h (fun q hq => .of_capped hq)
        (pos_tallyRules rules hrules fun t ht => hsome t (List.mem_cons_of_mem _ ht))
  | reference target m =>
      rw [tallyToken]
      exact Modifiers.standsFor_countedAs hcap h (fun q hq => .of_capped hq)
        (hsome _ (self_mem_tokensWithinToken _))

theorem standsFor_countedTokens (hcap : cap < Possibilities.largest)
    {product p t : Possibilities} {tokens : List Token}
    (h : CountedTokens cap (CapsRules answer cap) (CapsAnswer answer cap) product tokens p)
    (hsome : ∀ token ∈ tokensWithin tokens, token.HoldsSome answer)
    (hproduct : Possibilities.StandsFor cap product t) (ht : 0 < t.value) :
    Possibilities.StandsFor cap p (t.times (tallyTokens answer tokens)) := by
  induction h generalizing t with
  | nil product =>
      rw [tallyTokens, Possibilities.times_one]
      exact hproduct
  | @cons product q p token rest htoken hrest ih =>
      rw [tokensWithin] at hsome
      have hhere : ∀ inner ∈ tokensWithinToken token, inner.HoldsSome answer :=
        fun inner hinner => hsome inner (List.mem_append_left _ hinner)
      have hpos := pos_tallyToken token hhere
      have hmul := hproduct.mul hcap (standsFor_countedToken hcap htoken hhere) ht hpos
      rw [tallyTokens, ← Possibilities.times_assoc]
      exact ih (fun inner hinner => hsome inner (List.mem_append_right _ hinner))
        (.of_capped hmul) (Nat.mul_pos ht hpos)

theorem standsFor_countedRules (hcap : cap < Possibilities.largest)
    {total p t : Possibilities} {rules : List Rule}
    (h : CountedRules cap (CapsRules answer cap) (CapsAnswer answer cap) total rules p)
    (hsome : ∀ token ∈ tokensWithinRules rules, token.HoldsSome answer)
    (htotal : total = t.capped cap) : p = (t.plus (tallyRules answer rules)).capped cap := by
  induction h generalizing t with
  | nil total =>
      rw [tallyRules, Possibilities.plus_zero]
      exact htotal
  | @cons total product p rule rest htokens hrest ih =>
      have hhere : ∀ token ∈ tokensWithin rule.tokens, token.HoldsSome answer :=
        fun token htoken => hsome token (mem_tokensWithinRules.mpr ⟨rule, by simp, htoken⟩)
      have hproduct : Possibilities.StandsFor cap product (tallyTokens answer rule.tokens) := by
        have h := standsFor_countedTokens hcap htokens hhere (Possibilities.StandsFor.refl cap _)
          Nat.one_pos
        rwa [Possibilities.one_times] at h
      have hmarked : Possibilities.StandsFor cap
          (if rule.isReachable then product else product.mark)
          (if rule.isReachable then tallyTokens answer rule.tokens
            else (tallyTokens answer rule.tokens).mark) := by
        split
        · exact hproduct
        · exact hproduct.mark
      have hsum := (Possibilities.StandsFor.of_capped htotal).add hcap hmarked
      rw [tallyRules_cons, ← Possibilities.plus_assoc]
      refine ih (fun token htoken => ?_) hsum
      obtain ⟨rule', hrule', hmem⟩ := mem_tokensWithinRules.mp htoken
      exact hsome token (mem_tokensWithinRules.mpr ⟨rule', List.mem_cons_of_mem _ hrule', hmem⟩)

/-- **Whatever counting can come to is the tally**, capped once. -/
theorem CapsRules.of_counted (hcap : cap < Possibilities.largest) {rules : List Rule}
    {p : Possibilities}
    (h : CountedRules cap (CapsRules answer cap) (CapsAnswer answer cap) (.exact 0) rules p)
    (hsome : ∀ token ∈ tokensWithinRules rules, token.HoldsSome answer) :
    CapsRules answer cap rules p := by
  have hzero : Possibilities.exact 0 = (Possibilities.exact 0).capped cap :=
    (Possibilities.capped_of_le (Nat.zero_le cap)).symm
  have h := standsFor_countedRules hcap h hsome hzero
  rwa [Possibilities.zero_plus] at h

end

/-! ### Along the layers -/

/-- Every count kept for a part of a definition is the tally of the part, capped. -/
def Counts.Tallied (layers : List Definition) (cap : Nat) (c : Counts) : Prop :=
  ∀ d below, d :: below <:+ layers → ∀ part rules, d.rulesAt part = some rules →
    ∀ p, c.get? ⟨.unit d.key, part⟩ = some p → CapsRules (tallyIn below) cap rules p

section

variable {layers below : List Definition} {cap : Nat} {d : Definition}

namespace Counts.Tallied

theorem empty : Counts.empty.Tallied layers cap := by
  intro d below _ part rules _ p h
  simp at h

theorem set {c : Counts} (hc : c.Tallied layers cap) (hl : Layered layers)
    (hs : d :: below <:+ layers) {part : Part} {rules : List Rule}
    (hpart : d.rulesAt part = some rules) {p : Possibilities}
    (hp : CapsRules (tallyIn below) cap rules p) :
    (c.set ⟨.unit d.key, part⟩ p).Tallied layers cap := by
  intro d' below' hs' part' rules' hpart' p' h
  rcases Counts.get?_set_cases h with ⟨hkey, rfl, rfl⟩ | h
  · obtain ⟨rfl, rfl⟩ := hl.eq_of_suffix hs hs' hkey
    obtain rfl : rules = rules' := Option.some.inj (hpart.symm.trans hpart')
    exact hp
  · exact hc d' below' hs' part' rules' hpart' p' h

end Counts.Tallied

theorem partsKept_tally (hcap : cap < Possibilities.largest) (hl : Layered layers)
    (hrules : ∀ d ∈ layers, d.HasRules) (hs : d :: below <:+ layers) :
    PartsKept cap (CapsRules (tallyIn below) cap) (CapsAnswer (tallyIn below) cap) (.unit d.key)
      (Counts.Tallied layers cap) d := by
  intro part rules hpart
  refine ⟨fun c p hc => hc d below hs part rules hpart p, fun c p hc => hc.set hl hs hpart, ?_⟩
  intro p hp
  obtain ⟨hreferences, -, hbelow⟩ := hl.of_suffix hs
  have hsome := Definition.holdsSome (hrules d (hs.subset (by simp))) fun r hr =>
    pos_tallyIn hbelow (fun d' hd' => hrules d' (hs.subset (List.mem_cons_of_mem d hd'))) r
      (hreferences r hr)
  exact CapsRules.of_counted hcap hp fun token htoken =>
    hsome token (Definition.tokens_of_rulesAt hpart token htoken)

/-- **Counting comes to the tally, capped once**, and keeps such counts only. -/
theorem caps_countIn (hcap : cap < Possibilities.largest) (hl : Layered layers)
    (hrules : ∀ d ∈ layers, d.HasRules) (hs : below <:+ layers) (label : String)
    (r : Reference) :
    Ensures (Counts.Tallied layers cap) (countIn cap below label r)
      (CapsAnswer (tallyIn below) cap r) := by
  induction below generalizing label r with
  | nil => exact Ensures.throw _
  | cons d below ih =>
      have hbelow := ih ((List.suffix_cons d below).trans hs)
      rw [countIn]
      unfold CapsAnswer
      rw [tallyIn]
      by_cases hkey : d.key = r.target
      · rw [if_pos hkey, if_pos hkey]
        refine (Definition.ensures_count (partsKept_tally hcap hl hrules hs)
          (fun r' _ => hbelow d.name r') r.modifiers.variation).mono ?_
        rintro p ⟨rules, part, hselect, -, hp⟩
        rw [Definition.tally_of_select hselect]
        exact hp
      · rw [if_neg hkey, if_neg hkey]
        exact hbelow label r

end

/-! ### Items -/

namespace Graph.Valid

variable {g : Graph} {cap : Nat} {d : Definition} {c : Counts}

theorem hasRules (hg : g.Valid) : ∀ d ∈ g.layers, d.HasRules := by
  intro d hd rules hrules hnil
  obtain ⟨rule, hrule, -⟩ :=
    ((hg.wellFormed ((hg.mem_layers d).mp hd)).weights rules hrules).positive
  simp [hnil] at hrule

/-- The count of a use is there, and it is the tally, capped. -/
theorem succeeds_countIn (hg : g.Valid) (hcap : cap < Possibilities.largest) (label : String)
    {r : Reference} (hr : r.Resolves g.layers) (hc : c.Tallied g.layers cap) :
    Succeeds (g.count cap label r) c fun p c' =>
      p = (g.tally r).capped cap ∧ c'.Tallied g.layers cap :=
  (returns_countIn hg.layered label r hr).succeeds
    (caps_countIn hcap hg.layered hg.hasRules (List.suffix_refl _) label r) hc

/-- So it is with the count of a definition. -/
theorem succeeds_count (hg : g.Valid) (hcap : cap < Possibilities.largest)
    (hd : d ∈ g.definitions) (hc : c.Tallied g.layers cap) :
    Succeeds ((Item.unit d.key).count g cap) c fun p c' =>
      p = (g.tally (Item.useOf d.key)).capped cap ∧ c'.Tallied g.layers cap :=
  hg.succeeds_countIn hcap d.key.name (hg.resolves_use hd rfl []) hc

/-- The first count of a definition is its tally, capped. -/
theorem run_count_empty (hg : g.Valid) (hcap : cap < Possibilities.largest)
    (hd : d ∈ g.definitions) :
    (((Item.unit d.key).count g cap).run .empty).1 =
      .ok ((g.tally (Item.useOf d.key)).capped cap) :=
  (hg.succeeds_count hcap hd Counts.Tallied.empty).eq_ok

end Graph.Valid

end Phrasebook
