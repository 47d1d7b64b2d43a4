import Phrasebook.Proofs.Counts

/-!
What an answer depends on.

Listing, drawing and counting answer a use of a definition in the same way: along the layers,
until the definition comes, which then asks the layers behind it.  `answerIn` is this way,
with what a definition makes of the answers left open.  All it has to fulfil is that it asks
for no other uses than those in the definition (`AsksOwn`).

Then it makes no difference which layers answer, as long as they have the definition, and so
the answer depends on nothing but the definitions that the use reaches.  Two graphs that have
these in common give the same answers, whatever else is in them and whatever order the rest
brings their layers into.
-/

namespace Phrasebook

/-! ### Uses that are answered along the layers -/

section

variable {α : Type} (use : Definition → (String → Reference → α) → Reference → α)
  (unresolved : String → Reference → α)

/-- Answers a use: the first definition with the key does, and asks those behind it. -/
def answerIn : List Definition → String → Reference → α
  | [], owner, r => unresolved owner r
  | d :: below, owner, r =>
    if d.key = r.target then use d (answerIn below) r else answerIn below owner r

/-- A definition asks for no uses but its own, and in its own name. -/
def AsksOwn : Prop :=
  ∀ (d : Definition) (answer answer' : String → Reference → α) (r : Reference),
    (∀ r' ∈ d.references, answer d.name r' = answer' d.name r') → use d answer r = use d answer' r

variable {use} {layers layers' below : List Definition} {d : Definition} {r : Reference}

/-- What lies above the answer makes no difference. -/
theorem answerIn_cons (hl : Layered (d :: below)) (hr : r.Resolves below) (owner : String) :
    answerIn use unresolved (d :: below) owner r = answerIn use unresolved below owner r := by
  rw [answerIn, if_neg (hl.key_ne_of_resolves hr)]

/-- A use is answered by the definition it is a use of, with all layers to answer its own
uses. -/
theorem answerIn_eq (huse : AsksOwn use) (hl : Layered layers)
    (hd : Definition.find? layers r.target = some d) (owner : String) :
    answerIn use unresolved layers owner r = use d (answerIn use unresolved layers) r := by
  induction layers with
  | nil => simp [Definition.find?] at hd
  | cons e below ih =>
      have hbelow : Layered below := hl.2.2
      rw [Definition.find?_cons] at hd
      by_cases hkey : e.key = r.target
      · rw [if_pos hkey] at hd
        obtain rfl : e = d := Option.some.inj hd
        rw [answerIn, if_pos hkey]
        exact huse _ _ _ r fun r' hr' => (answerIn_cons unresolved hl (hl.1 r' hr') _).symm
      · rw [if_neg hkey] at hd
        rw [answerIn, if_neg hkey, ih hbelow hd]
        refine huse _ _ _ r fun r' hr' => (answerIn_cons unresolved hl ?_ _).symm
        exact hbelow.resolves d (Definition.mem_of_find? hd) r' hr'

/--
**Induction over answers.**  What holds of every answer that a definition makes, if it holds of
the answers to its own uses, holds of all answers.
-/
theorem answerIn_induction (huse : AsksOwn use) (hl : Layered layers)
    {motive : Reference → α → Prop}
    (step : ∀ d ∈ layers, ∀ (r : Reference) (rules : List Rule), d.key = r.target →
      d.select r.modifiers.variation = .ok rules →
      (∀ r' ∈ d.references, motive r' (answerIn use unresolved layers d.name r')) →
      motive r (use d (answerIn use unresolved layers) r))
    (hr : r.Resolves layers) (owner : String) :
    motive r (answerIn use unresolved layers owner r) := by
  -- The induction is on the layers that are left, for the answers go on to use all of them.
  have hsuffix : ∀ below, below <:+ layers → ∀ (r : Reference) (owner : String),
      r.Resolves below → motive r (answerIn use unresolved layers owner r) := by
    intro below hs r owner hr
    have hbelow : Layered below := hl.of_suffix hs
    induction below, r, hbelow, hr using Layered.use_induction generalizing owner with
    | asked d below r rules _ _ hkey hselect ih =>
        have hd : d ∈ layers := hs.subset (by simp)
        have hfind : Definition.find? layers r.target = some d := by
          rw [← hkey]
          exact Definition.find?_of_mem hl.nodup_key hd
        rw [answerIn_eq unresolved huse hl hfind]
        refine step d hd r rules hkey hselect fun r' hr' => ?_
        exact ih r' hr' ((List.suffix_cons d below).trans hs) d.name
    | passed d below r _ _ _ _ ih =>
        exact ih ((List.suffix_cons d below).trans hs) owner
  exact hsuffix layers (List.suffix_refl _) r owner hr

/--
**An answer depends on the definitions that the use reaches.**  Let two lists of layers have
the same definitions for some keys, and let these refer to each other only.  Then both answer
uses of them alike.
-/
theorem answerIn_congr (huse : AsksOwn use) (hl : Layered layers) (hl' : Layered layers')
    (reached : Key → Prop)
    (hsame : ∀ key, reached key → Definition.find? layers key = Definition.find? layers' key)
    (hclosed : ∀ d ∈ layers, reached d.key → ∀ r ∈ d.references, reached r.target)
    (hr : r.Resolves layers) (hreached : reached r.target) (owner : String) :
    answerIn use unresolved layers owner r = answerIn use unresolved layers' owner r := by
  refine answerIn_induction unresolved huse hl
    (motive := fun r a => reached r.target → ∀ owner, a = answerIn use unresolved layers' owner r)
    (fun d hd r rules hkey _ ih hreached owner => ?_) hr owner hreached owner
  have hfind' : Definition.find? layers' r.target = some d := by
    rw [← hsame _ hreached, ← hkey]
    exact Definition.find?_of_mem hl.nodup_key hd
  rw [answerIn_eq unresolved huse hl' hfind']
  exact huse d _ _ r fun r' hr' => ih r' hr' (hclosed d hd (hkey ▸ hreached) r' hr') d.name

end

/-! ### Listing -/

section

variable {answer answer' : String → Reference → Sentences} {scope : Scope}

mutual

theorem enumerateTokens_congr :
    ∀ (tokens : List Token) (fronts : List Example),
      (∀ r ∈ referencesOfTokens tokens, answer scope.owner r = answer' scope.owner r) →
      enumerateTokens answer scope fronts tokens = enumerateTokens answer' scope fronts tokens
  | [] => by
      intro fronts _
      rw [enumerateTokens, enumerateTokens]
  | token :: rest => by
      intro fronts h
      rw [referencesOfTokens] at h
      rw [enumerateTokens, enumerateTokens,
        enumerateToken_congr token fun r hr => h r (List.mem_append_left _ hr)]
      congr 1
      funext backs
      exact enumerateTokens_congr rest _ fun r hr => h r (List.mem_append_right _ hr)

theorem enumerateToken_congr :
    ∀ token : Token,
      (∀ r ∈ referencesOfToken token, answer scope.owner r = answer' scope.owner r) →
      enumerateToken answer scope token = enumerateToken answer' scope token
  | .word text m => by
      intro _
      rw [enumerateToken, enumerateToken]
  | .group rules m => by
      intro h
      rw [referencesOfToken] at h
      rw [enumerateToken, enumerateToken, enumerateRules_congr _ rules h]
  | .reference target m => by
      intro h
      rw [enumerateToken, enumerateToken, h ⟨target, m⟩ (by simp [referencesOfToken])]

/-- The sentences of rules depend on those of the uses in them only. -/
theorem enumerateRules_congr (finish : Rule → Example → Example) :
    ∀ rules : List Rule,
      (∀ r ∈ referencesOfRules rules, answer scope.owner r = answer' scope.owner r) →
      enumerateRules answer scope finish rules = enumerateRules answer' scope finish rules
  | [] => by
      intro _
      rw [enumerateRules, enumerateRules]
  | .mk tokens weight value :: rest => by
      intro h
      rw [referencesOfRules] at h
      rw [enumerateRules_cons, enumerateRules_cons, Rule.tokens,
        enumerateTokens_congr tokens _ fun r hr => h r (List.mem_append_left _ hr),
        enumerateRules_congr finish rest fun r hr => h r (List.mem_append_right _ hr)]

end

end

namespace Definition

/-- The sentences of a use, of which enumeration makes an answer. -/
def enumerateUse (d : Definition) (answer : String → Reference → Sentences) (r : Reference) :
    Sentences :=
  d.enumerate answer r.modifiers.variation r.modifiers.arguments

theorem asksOwn_enumerateUse : AsksOwn enumerateUse := by
  intro d answer answer' r h
  unfold enumerateUse enumerate
  cases hselect : d.select r.modifiers.variation with
  | error e => rfl
  | ok rules =>
      have hrules : enumerateRules answer (.ofDefinition d r.modifiers.arguments) d.finish rules =
          enumerateRules answer' (.ofDefinition d r.modifiers.arguments) d.finish rules :=
        enumerateRules_congr d.finish rules
          fun r' hr' => h r' (references_of_select hselect r' hr')
      exact congrArg (distinct <$> ·) hrules

end Definition

theorem enumerateIn_eq_answerIn : enumerateIn =
    answerIn Definition.enumerateUse fun owner r => .error (.unresolved owner r.target) := by
  funext layers
  induction layers with
  | nil => rfl
  | cons d below ih =>
      funext owner r
      rw [enumerateIn, answerIn, ih]
      rfl

/-! ### Drawing -/

section

variable {answer answer' : String → Reference → Sampling Example} {scope : Scope}

mutual

theorem sampleTokens_congr :
    ∀ (tokens : List Token) (front : Example),
      (∀ r ∈ referencesOfTokens tokens, answer scope.owner r = answer' scope.owner r) →
      sampleTokens answer scope front tokens = sampleTokens answer' scope front tokens
  | [] => by
      intro front _
      rw [sampleTokens, sampleTokens]
  | token :: rest => by
      intro front h
      rw [referencesOfTokens] at h
      rw [sampleTokens, sampleTokens,
        sampleToken_congr token fun r hr => h r (List.mem_append_left _ hr)]
      congr 1
      funext e
      exact sampleTokens_congr rest _ fun r hr => h r (List.mem_append_right _ hr)

theorem sampleToken_congr :
    ∀ token : Token,
      (∀ r ∈ referencesOfToken token, answer scope.owner r = answer' scope.owner r) →
      sampleToken answer scope token = sampleToken answer' scope token
  | .word text m => by
      intro _
      rw [sampleToken, sampleToken]
  | .group rules m => by
      intro h
      rw [referencesOfToken] at h
      have hrules : ∀ i, sampleRule answer scope i rules = sampleRule answer' scope i rules :=
        fun i => sampleRule_congr rules i h
      rw [sampleToken, sampleToken]
      simp only [hrules]
  | .reference target m => by
      intro h
      rw [sampleToken, sampleToken, h ⟨target, m⟩ (by simp [referencesOfToken])]

/-- A sentence of a rule depends on those of the uses in the rules only. -/
theorem sampleRule_congr :
    ∀ (rules : List Rule) (i : Nat),
      (∀ r ∈ referencesOfRules rules, answer scope.owner r = answer' scope.owner r) →
      sampleRule answer scope i rules = sampleRule answer' scope i rules
  | [], i => by
      intro _
      rw [sampleRule, sampleRule]
  | .mk tokens weight value :: rest, 0 => by
      intro h
      rw [referencesOfRules] at h
      rw [sampleRule, sampleRule,
        sampleTokens_congr tokens _ fun r hr => h r (List.mem_append_left _ hr)]
  | .mk tokens weight value :: rest, i + 1 => by
      intro h
      rw [referencesOfRules] at h
      rw [sampleRule, sampleRule]
      exact sampleRule_congr rest i fun r hr => h r (List.mem_append_right _ hr)

end

end

namespace Definition

/-- A sentence of a use, of which sampling makes an answer. -/
def sampleUse (d : Definition) (answer : String → Reference → Sampling Example) (r : Reference) :
    Sampling Example :=
  d.sample answer r.modifiers.variation r.modifiers.arguments

theorem asksOwn_sampleUse : AsksOwn sampleUse := by
  intro d answer answer' r h
  unfold sampleUse sample
  cases hselect : d.select r.modifiers.variation with
  | error e => rfl
  | ok rules =>
      have hrules : ∀ i, sampleRule answer (.ofDefinition d r.modifiers.arguments) i rules =
          sampleRule answer' (.ofDefinition d r.modifiers.arguments) i rules :=
        fun i => sampleRule_congr rules i fun r' hr' => h r' (references_of_select hselect r' hr')
      have hsample : sampleRules answer (.ofDefinition d r.modifiers.arguments) rules =
          sampleRules answer' (.ofDefinition d r.modifiers.arguments) rules := by
        unfold sampleRules
        simp only [hrules]
      exact congrArg (fun m : Sampling (Example × Option Rule) =>
        m >>= fun pair => pure (pair.2.elim pair.1 fun r => d.finish r pair.1)) hsample

end Definition

theorem sampleIn_eq_answerIn : sampleIn =
    answerIn Definition.sampleUse fun owner r => throw (.unresolved owner r.target) := by
  funext layers
  induction layers with
  | nil => rfl
  | cons d below ih =>
      funext owner r
      rw [sampleIn, answerIn, ih]
      rfl

/-! ### Counting -/

section

variable {answer answer' : String → Reference → Counting Possibilities} {cap : Nat}
  {label : String} {owner : Owner}

mutual

theorem countTokens_congr :
    ∀ (tokens : List Token) (path : List Nat) (j : Nat) (product : Possibilities),
      (∀ r ∈ referencesOfTokens tokens, answer label r = answer' label r) →
      countTokens answer cap label owner path j product tokens =
        countTokens answer' cap label owner path j product tokens
  | [] => by
      intro path j product _
      rw [countTokens, countTokens]
  | token :: rest => by
      intro path j product h
      rw [referencesOfTokens] at h
      rw [countTokens, countTokens,
        countToken_congr token _ fun r hr => h r (List.mem_append_left _ hr)]
      congr 1
      funext p
      exact countTokens_congr rest _ _ _ fun r hr => h r (List.mem_append_right _ hr)

theorem countToken_congr :
    ∀ (token : Token) (path : List Nat),
      (∀ r ∈ referencesOfToken token, answer label r = answer' label r) →
      countToken answer cap label owner path token =
        countToken answer' cap label owner path token
  | .word text m => by
      intro path _
      rw [countToken, countToken]
  | .group rules m => by
      intro path h
      rw [referencesOfToken] at h
      rw [countToken, countToken, countRules_congr rules path 0 (.exact 0) h]
  | .reference target m => by
      intro path h
      rw [countToken, countToken, h ⟨target, m⟩ (by simp [referencesOfToken])]

/-- The count of rules depends on those of the uses in them only. -/
theorem countRules_congr :
    ∀ (rules : List Rule) (path : List Nat) (i : Nat) (total : Possibilities),
      (∀ r ∈ referencesOfRules rules, answer label r = answer' label r) →
      countRules answer cap label owner path i total rules =
        countRules answer' cap label owner path i total rules
  | [] => by
      intro path i total _
      rw [countRules, countRules]
  | .mk tokens weight value :: rest => by
      intro path i total h
      rw [referencesOfRules] at h
      rw [countRules, countRules,
        countTokens_congr tokens _ 0 _ fun r hr => h r (List.mem_append_left _ hr)]
      congr 1
      funext product
      exact countRules_congr rest _ _ _ fun r hr => h r (List.mem_append_right _ hr)

end

end

namespace Definition

/-- The count of a use, of which counting makes an answer. -/
def countUse (cap : Nat) (d : Definition) (answer : String → Reference → Counting Possibilities)
    (r : Reference) : Counting Possibilities :=
  d.count answer cap (.unit d.key) r.modifiers.variation

theorem asksOwn_countUse (cap : Nat) : AsksOwn (countUse cap) := by
  intro d answer answer' r h
  unfold countUse count
  cases hcounted : d.counted r.modifiers.variation with
  | error e => rfl
  | ok counted =>
      obtain ⟨rules, first, part⟩ := counted
      obtain ⟨hselect, -, -⟩ := counted_spec hcounted
      have hrules : countRules answer cap d.name (.unit d.key) [] first (.exact 0) rules =
          countRules answer' cap d.name (.unit d.key) [] first (.exact 0) rules :=
        countRules_congr rules [] first (.exact 0)
          fun r' hr' => h r' (references_of_select hselect r' hr')
      exact congrArg (Counts.remember ⟨.unit d.key, part⟩) hrules

end Definition

theorem countIn_eq_answerIn (cap : Nat) : countIn cap =
    answerIn (Definition.countUse cap) fun owner r => throw (.unresolved owner r.target) := by
  funext layers
  induction layers with
  | nil => rfl
  | cons d below ih =>
      funext owner r
      rw [countIn, answerIn, ih]
      rfl

/-! ### Graphs -/

namespace Graph

/-- The keys that a definition reaches: its own, and those that definitions it reaches refer
to. -/
inductive Reaches (g : Graph) (key : Key) : Key → Prop
  | refl : Reaches g key key
  | step {d : Definition} {r : Reference} (h : Reaches g key d.key) (hd : d ∈ g.definitions)
      (hr : r ∈ d.references) : Reaches g key r.target

theorem Reaches.trans {g : Graph} {key between reached : Key} (h : g.Reaches key between)
    (hreached : g.Reaches between reached) : g.Reaches key reached := by
  induction hreached with
  | refl => exact h
  | step _ hd hr ih => exact .step ih hd hr

/-- All that a definition reaches is the same in another graph. -/
def Shares (g g' : Graph) (key : Key) : Prop :=
  ∀ reached, g.Reaches key reached → g.get? reached = g'.get? reached

namespace Valid

variable {g g' : Graph} {d : Definition}

theorem find?_layers (hg : g.Valid) (key : Key) : Definition.find? g.layers key = g.get? key := by
  cases hfind : g.get? key with
  | some d =>
      obtain rfl := Definition.key_of_find? hfind
      exact Definition.find?_of_mem hg.layered.nodup_key
        ((hg.mem_layers d).mpr (Definition.mem_of_find? hfind))
  | none =>
      cases hlayers : Definition.find? g.layers key with
      | none => rfl
      | some d =>
          obtain rfl := Definition.key_of_find? hlayers
          have hd := (hg.mem_layers d).mp (Definition.mem_of_find? hlayers)
          have hfound := Definition.find?_of_mem hg.nodup_key hd
          rw [show Definition.find? g.definitions d.key = none from hfind] at hfound
          injection hfound

/-- **A definition is answered alike in graphs that share what it reaches.** -/
theorem answerIn_eq_of_shares {α : Type}
    {use : Definition → (String → Reference → α) → Reference → α} (huse : AsksOwn use)
    (unresolved : String → Reference → α) (hg : g.Valid) (hg' : g'.Valid)
    (hd : d ∈ g.definitions) (hshares : g.Shares g' d.key) (owner : String) :
    answerIn use unresolved g.layers owner (Item.useOf d.key) =
      answerIn use unresolved g'.layers owner (Item.useOf d.key) := by
  refine answerIn_congr unresolved huse hg.layered hg'.layered (g.Reaches d.key)
    (fun key hkey => ?_) (fun e he hreached r hr => ?_) (hg.resolves_use hd rfl []) .refl owner
  · rw [hg.find?_layers, hg'.find?_layers, hshares key hkey]
  · exact .step hreached ((hg.mem_layers e).mp he) hr

theorem enumerate_eq_of_shares (hg : g.Valid) (hg' : g'.Valid) (hd : d ∈ g.definitions)
    (hshares : g.Shares g' d.key) :
    (Item.unit d.key).enumerate g = (Item.unit d.key).enumerate g' := by
  unfold Item.enumerate enumerate
  rw [enumerateIn_eq_answerIn]
  exact answerIn_eq_of_shares Definition.asksOwn_enumerateUse _ hg hg' hd hshares _

theorem sample_eq_of_shares (hg : g.Valid) (hg' : g'.Valid) (hd : d ∈ g.definitions)
    (hshares : g.Shares g' d.key) : (Item.unit d.key).sample g = (Item.unit d.key).sample g' := by
  unfold Item.sample sample
  rw [sampleIn_eq_answerIn]
  exact answerIn_eq_of_shares Definition.asksOwn_sampleUse _ hg hg' hd hshares _

end Valid

end Graph

end Phrasebook
