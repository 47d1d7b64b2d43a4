import Phrasebook.Proofs.Counted
import Phrasebook.Proofs.Locality

/-!
Counting without a table.

The direct count of a template is what counting comes to when nothing is known and nothing is
kept.  It is capped at each step as counting is, so unlike the tally it is what is answered
under any cap.

A table does not change it, as long as what is kept are direct counts.  That is so until the
sentences of a definition are listed and its count is corrected to their number.  From there
the correction spreads to whatever refers to the definition, and no further.  So `Counts.Direct`
says of the parts that are `free` nothing, and of all others that only direct counts are kept.
Definitions without free parts that refer to such definitions only are settled: a question
about them changes nothing that is known of the free parts.
-/

namespace Phrasebook

/-! ### The direct count -/

/-- The direct count of a token that holds something of a given count. -/
def Modifiers.direct (cap : Nat) (m : Modifiers) (base : Possibilities) : Possibilities :=
  if m.isAbsent then .exact 1 else m.counted cap base

section

variable (answer : Reference → Possibilities) (cap : Nat)

mutual

/-- The direct counts of tokens. -/
def directTokens : List Token → List Possibilities
  | [] => []
  | token :: rest => directToken token :: directTokens rest

/-- The direct count of a token. -/
def directToken : Token → Possibilities
  | .word _ m => m.direct cap (.exact 1)
  | .group rules m => m.direct cap ((directRules rules).foldl (Possibilities.add cap) (.exact 0))
  | .reference target m => m.direct cap (answer ⟨target, m⟩)

/-- The direct counts of rules, each the product of those of its tokens. -/
def directRules : List Rule → List Possibilities
  | [] => []
  | .mk tokens weight value :: rest =>
    let product := (directTokens tokens).foldl (Possibilities.mul cap) (.exact 1)
    (if (Rule.mk tokens weight value).isReachable then product else product.mark) ::
      directRules rest

end

/-- The direct count of a set of rules. -/
def directSum (rules : List Rule) : Possibilities :=
  (directRules answer cap rules).foldl (Possibilities.add cap) (.exact 0)

theorem directRules_cons (rule : Rule) (rest : List Rule) :
    directRules answer cap (rule :: rest) =
      (if rule.isReachable
        then (directTokens answer cap rule.tokens).foldl (Possibilities.mul cap) (.exact 1)
        else ((directTokens answer cap rule.tokens).foldl (Possibilities.mul cap)
          (.exact 1)).mark) :: directRules answer cap rest := by
  obtain ⟨tokens, weight, value⟩ := rule
  rw [directRules]
  rfl

/-- The direct count of a use of a definition. -/
def Definition.direct (d : Definition) (variation : Option String) : Possibilities :=
  match d.select variation with
  | .ok rules => directSum answer cap rules
  | .error _ => .exact 0

theorem Definition.direct_of_select {d : Definition} {variation : Option String}
    {rules : List Rule} (h : d.select variation = .ok rules) :
    d.direct answer cap variation = directSum answer cap rules := by
  unfold direct
  rw [h]

end

section

variable {answer answer' : Reference → Possibilities} {cap : Nat}

mutual

theorem directTokens_congr :
    ∀ tokens : List Token, (∀ r ∈ referencesOfTokens tokens, answer r = answer' r) →
      directTokens answer cap tokens = directTokens answer' cap tokens
  | [] => by
      intro _
      rw [directTokens, directTokens]
  | token :: rest => by
      intro h
      rw [referencesOfTokens] at h
      rw [directTokens, directTokens,
        directToken_congr token fun r hr => h r (List.mem_append_left _ hr),
        directTokens_congr rest fun r hr => h r (List.mem_append_right _ hr)]

theorem directToken_congr :
    ∀ token : Token, (∀ r ∈ referencesOfToken token, answer r = answer' r) →
      directToken answer cap token = directToken answer' cap token
  | .word text m => by
      intro _
      rw [directToken, directToken]
  | .group rules m => by
      intro h
      rw [referencesOfToken] at h
      rw [directToken, directToken, directRules_congr rules h]
  | .reference target m => by
      intro h
      rw [directToken, directToken, h ⟨target, m⟩ (by simp [referencesOfToken])]

/-- The direct counts of rules depend on those of the uses in them only. -/
theorem directRules_congr :
    ∀ rules : List Rule, (∀ r ∈ referencesOfRules rules, answer r = answer' r) →
      directRules answer cap rules = directRules answer' cap rules
  | [] => by
      intro _
      rw [directRules, directRules]
  | .mk tokens weight value :: rest => by
      intro h
      rw [referencesOfRules] at h
      rw [directRules_cons, directRules_cons, Rule.tokens,
        directTokens_congr tokens fun r hr => h r (List.mem_append_left _ hr),
        directRules_congr rest fun r hr => h r (List.mem_append_right _ hr)]

end

end

/-- The direct count of a use, of which counting makes an answer. -/
def Definition.directUse (cap : Nat) (d : Definition)
    (answer : String → Reference → Possibilities) (r : Reference) : Possibilities :=
  d.direct (answer d.name) cap r.modifiers.variation

theorem Definition.asksOwn_directUse (cap : Nat) : AsksOwn (Definition.directUse cap) := by
  intro d answer answer' r h
  unfold directUse
  cases hselect : d.select r.modifiers.variation with
  | error e => rw [direct, direct, hselect]
  | ok rules =>
      rw [direct_of_select _ _ hselect, direct_of_select _ _ hselect, directSum, directSum,
        directRules_congr rules fun r' hr' => h r' (references_of_select hselect r' hr')]

/-- The direct count of a use along the layers. -/
def directIn (cap : Nat) : List Definition → String → Reference → Possibilities :=
  answerIn (Definition.directUse cap) fun _ _ => .exact 0

/-- The direct count of a definition as it is. -/
def Graph.direct (g : Graph) (cap : Nat) (key : Key) : Possibilities :=
  directIn cap g.layers key.name (Item.useOf key)

/-! ### Counting comes to it -/

section

variable {answer : Reference → Possibilities} {cap : Nat}

theorem Modifiers.CountedAs.eq_direct {m : Modifiers} {base p : Possibilities}
    (h : m.CountedAs cap (· = base) p) : p = m.direct cap base := by
  unfold CountedAs at h
  unfold direct
  by_cases habsent : m.isAbsent = true
  · rw [if_pos habsent] at h ⊢
    exact h
  · rw [if_neg habsent] at h ⊢
    obtain ⟨q, rfl, hp⟩ := h
    exact hp

theorem eq_directToken {token : Token} {p : Possibilities}
    (h : CountedToken cap (fun rules p => p = directSum answer cap rules)
      (fun r p => p = answer r) token p) : p = directToken answer cap token := by
  cases token with
  | word text m =>
      rw [directToken]
      exact Modifiers.CountedAs.eq_direct h
  | group rules m =>
      rw [directToken]
      exact Modifiers.CountedAs.eq_direct h
  | reference target m =>
      rw [directToken]
      exact Modifiers.CountedAs.eq_direct h

theorem eq_foldl_directTokens {product p : Possibilities} {tokens : List Token}
    (h : CountedTokens cap (fun rules p => p = directSum answer cap rules)
      (fun r p => p = answer r) product tokens p) :
    p = (directTokens answer cap tokens).foldl (Possibilities.mul cap) product := by
  induction h with
  | nil product => rw [directTokens, List.foldl_nil]
  | cons htoken _ ih => rw [directTokens, List.foldl_cons, ← eq_directToken htoken, ih]

/-- **Whatever counting can come to is the direct count**, if it is so for what is kept and
for what is asked. -/
theorem eq_foldl_directRules {total p : Possibilities} {rules : List Rule}
    (h : CountedRules cap (fun rules p => p = directSum answer cap rules)
      (fun r p => p = answer r) total rules p) :
    p = (directRules answer cap rules).foldl (Possibilities.add cap) total := by
  induction h with
  | nil total => rw [directRules, List.foldl_nil]
  | cons htokens _ ih =>
      rw [directRules_cons, List.foldl_cons, ← eq_foldl_directTokens htokens, ih]

end

/-! ### Tables of direct counts -/

/-- No part of the definition with the key is free. -/
def Key.IsSettled (free : Key → Part → Prop) (key : Key) : Prop := ∀ part, ¬ free key part

/-- What settled definitions refer to is settled. -/
def Closed (layers : List Definition) (free : Key → Part → Prop) : Prop :=
  ∀ d ∈ layers, d.key.IsSettled free → ∀ r ∈ d.references, r.target.IsSettled free

section

variable (layers : List Definition) (cap : Nat) (free : Key → Part → Prop)

/-- Every count kept for a part is the direct count of its rules, unless the part is free. -/
def Counts.Direct (c : Counts) : Prop :=
  ∀ d ∈ layers, ∀ part rules, d.rulesAt part = some rules → ¬ free d.key part →
    ∀ p, c.get? ⟨.unit d.key, part⟩ = some p →
      p = directSum (directIn cap layers d.name) cap rules

/-- And what is known of the free parts is as given. -/
structure Counts.DirectWith (known : Key → Part → Option Possibilities) (c : Counts) : Prop where
  direct : c.Direct layers cap free
  known : ∀ key part, free key part → c.get? ⟨.unit key, part⟩ = known key part

end

section

variable {layers below : List Definition} {cap : Nat} {free : Key → Part → Prop}
  {d : Definition} {known : Key → Part → Option Possibilities} {c : Counts}

theorem Counts.Direct.of_none (h : ∀ key part, c.get? ⟨.unit key, part⟩ = none) :
    c.Direct layers cap free := by
  intro d _ part rules _ _ p hget
  simp [h] at hget

theorem Counts.Direct.with_known (hc : c.Direct layers cap free) :
    c.DirectWith layers cap free fun key part => c.get? ⟨.unit key, part⟩ :=
  ⟨hc, fun _ _ _ => rfl⟩

/-- The count of a free part may be anything. -/
theorem Counts.Direct.set_free (hc : c.Direct layers cap free) {key : Key} {part : Part}
    (hfree : free key part) (p : Possibilities) :
    (c.set ⟨.unit key, part⟩ p).Direct layers cap free := by
  intro d hd part' rules hpart hopen p' h
  rcases Counts.get?_set_cases h with ⟨rfl, rfl, -⟩ | h
  · exact absurd hfree hopen
  · exact hc d hd part' rules hpart hopen p' h

theorem partKept_direct (hl : Layered layers) (hd : d ∈ layers) {part : Part}
    {rules : List Rule} (hpart : d.rulesAt part = some rules) (hopen : ¬ free d.key part) :
    PartKept cap (fun rules p => p = directSum (directIn cap layers d.name) cap rules)
      (fun r p => p = directIn cap layers d.name r) (.unit d.key)
      (Counts.DirectWith layers cap free known) part rules := by
  refine ⟨fun c p hc => hc.direct d hd part rules hpart hopen p, ?_,
    fun p hp => eq_foldl_directRules hp⟩
  intro c p hc hp
  refine ⟨fun d' hd' part' rules' hpart' hopen' p' h => ?_, fun key part' hfree => ?_⟩
  · rcases Counts.get?_set_cases h with ⟨hkey, rfl, rfl⟩ | h
    · obtain rfl := Definition.eq_of_key hl.nodup_key hd hd' hkey
      obtain rfl : rules = rules' := Option.some.inj (hpart.symm.trans hpart')
      exact hp
    · exact hc.direct d' hd' part' rules' hpart' hopen' p' h
  · have hne : (⟨.unit d.key, part⟩ : Place) ≠ ⟨.unit key, part'⟩ := by
      intro h
      obtain ⟨rfl, rfl⟩ : d.key = key ∧ part = part' := by simpa using h
      exact hopen hfree
    rw [Counts.get?_set, if_neg hne]
    exact hc.known key part' hfree

/-- **Counting a use of a settled definition comes to its direct count**, and nothing more is
known of the free parts afterwards. -/
theorem ensures_directIn (hl : Layered layers) (hclosed : Closed layers free)
    (hs : below <:+ layers) (label : String) (r : Reference) (hr : r.target.IsSettled free) :
    Ensures (Counts.DirectWith layers cap free known) (countIn cap below label r)
      (· = directIn cap layers label r) := by
  induction below generalizing label r with
  | nil => exact Ensures.throw _
  | cons d below ih =>
      have ih := ih ((List.suffix_cons d below).trans hs)
      have hd : d ∈ layers := hs.subset (by simp)
      rw [countIn]
      by_cases hkey : d.key = r.target
      · rw [if_pos hkey]
        have hsettled : d.key.IsSettled free := hkey ▸ hr
        have hkept : PartsKept cap
            (fun rules p => p = directSum (directIn cap layers d.name) cap rules)
            (fun r p => p = directIn cap layers d.name r) (.unit d.key)
            (Counts.DirectWith layers cap free known) d :=
          fun part rules hpart => partKept_direct hl hd hpart (hsettled part)
        refine (Definition.ensures_count hkept
          (fun r' hr' => ih d.name r' (hclosed d hd hsettled r' hr')) r.modifiers.variation).mono ?_
        rintro p ⟨rules, part, hselect, -, rfl⟩
        have hfind : Definition.find? layers r.target = some d := by
          rw [← hkey]
          exact Definition.find?_of_mem hl.nodup_key hd
        unfold directIn
        rw [answerIn_eq _ (Definition.asksOwn_directUse cap) hl hfind, Definition.directUse,
          Definition.direct_of_select _ _ hselect]
      · rw [if_neg hkey]
        exact ih label r hr

theorem succeeds_directIn (hl : Layered layers) (hclosed : Closed layers free)
    (hs : below <:+ layers) (label : String) {r : Reference} (hresolves : r.Resolves below)
    (hr : r.target.IsSettled free) (hc : c.DirectWith layers cap free known) :
    Succeeds (countIn cap below label r) c fun p c' =>
      p = directIn cap layers label r ∧ c'.DirectWith layers cap free known :=
  (returns_countIn (hl.of_suffix hs) label r hresolves).succeeds
    (ensures_directIn hl hclosed hs label r hr) hc

/-- Rules in a definition that refer to settled ones come to their direct count, if no group in
the definition is free. -/
theorem succeeds_directSum (hl : Layered layers) (hclosed : Closed layers free)
    (hs : d :: below <:+ layers) (hgroups : ∀ path, ¬ free d.key (.group path)) {path : List Nat}
    {rules : List Rule} (hpath : d.rulesAt (.group path) = some rules)
    (hrules : ∀ r ∈ referencesOfRules rules, r.target.IsSettled free)
    (hc : c.DirectWith layers cap free known) :
    Succeeds (countRules (countIn cap below) cap d.name (.unit d.key) path 0 (.exact 0) rules) c
      fun p c' => p = directSum (directIn cap layers d.name) cap rules ∧
        c'.DirectWith layers cap free known := by
  have hd : d ∈ layers := hs.subset (by simp)
  have hbelow : below <:+ layers := (List.suffix_cons d below).trans hs
  have hkept : GroupsKept cap
      (fun rules p => p = directSum (directIn cap layers d.name) cap rules)
      (fun r p => p = directIn cap layers d.name r) (.unit d.key)
      (Counts.DirectWith layers cap free known) d :=
    fun path rules hpart => partKept_direct hl hd hpart (hgroups path)
  have hensures := ensures_countRules hkept rules path rules 0 (.exact 0) hpath
    (List.prefix_refl _) fun r hr => ensures_directIn hl hclosed hbelow d.name r (hrules r hr)
  have hreturns : Returns
      (countRules (countIn cap below) cap d.name (.unit d.key) path 0 (.exact 0) rules) :=
    returns_countRules rules path 0 (.exact 0) fun r hr =>
      returns_countIn (hl.of_suffix hbelow) d.name r
        ((hl.of_suffix hs).1 r (Definition.references_of_rulesAt hpath r hr))
  obtain ⟨p, c', hrun, hcounted, hc'⟩ := hreturns.succeeds hensures hc
  exact ⟨p, c', hrun, eq_foldl_directRules hcounted, hc'⟩

end

/-! ### Questions to a graph -/

namespace Graph

/-- All that the definitions of the graph refer to is settled. -/
def Settles (g : Graph) (free : Key → Part → Prop) : Prop :=
  ∀ d ∈ g.definitions, ∀ r ∈ d.references, r.target.IsSettled free

namespace Valid

variable {g : Graph} {cap : Nat} {free : Key → Part → Prop} {d : Definition} {c : Counts}
  {known : Key → Part → Option Possibilities}

theorem closed (hg : g.Valid) (hsettles : g.Settles free) : Closed g.layers free :=
  fun d hd _ => hsettles d ((hg.mem_layers d).mp hd)

theorem direct_eq_directSum (hg : g.Valid) (hd : d ∈ g.definitions) :
    g.direct cap d.key = directSum (directIn cap g.layers d.name) cap d.allRules := by
  have hfind : Definition.find? g.layers (Item.useOf d.key).target = some d :=
    Definition.find?_of_mem hg.layered.nodup_key ((hg.mem_layers d).mpr hd)
  unfold Graph.direct directIn
  rw [answerIn_eq _ (Definition.asksOwn_directUse cap) hg.layered hfind, Definition.directUse]
  exact Definition.direct_of_select _ _ rfl

/-- A definition that is free as a whole has the count that is known for it, or else its direct
count, which is known from then on. -/
theorem succeeds_free (hg : g.Valid) (hsettles : g.Settles free) (hd : d ∈ g.definitions)
    (hfree : free d.key .whole) (hgroups : ∀ path, ¬ free d.key (.group path))
    (hc : c.DirectWith g.layers cap free known) :
    Succeeds ((Item.unit d.key).count g cap) c fun p c' =>
      p = (known d.key .whole).getD (g.direct cap d.key) ∧ c'.DirectWith g.layers cap free
        fun key part => if key = d.key ∧ part = .whole then some p else known key part := by
  have hl := hg.layered
  obtain ⟨above, below, hsplit⟩ := List.append_of_mem ((hg.mem_layers d).mpr hd)
  have hs : d :: below <:+ g.layers := ⟨above, hsplit.symm⟩
  have hcount : (Item.unit d.key).count g cap = Counts.remember d.key.whole
      (countRules (countIn cap below) cap d.name (.unit d.key) [] 0 (.exact 0) d.allRules) :=
    countIn_of_suffix hl hs (r := Item.useOf d.key) rfl d.key.name
  rw [hcount]
  refine Counts.succeeds_remember (fun p hget => ?_) fun hget => ?_
  · have hp : known d.key .whole = some p := (hc.known d.key .whole hfree).symm.trans hget
    refine ⟨by rw [hp]; rfl, hc.direct, fun key part hpart => ?_⟩
    split
    · rename_i heq
      obtain ⟨rfl, rfl⟩ := heq
      exact hget
    · exact hc.known key part hpart
  · have hp : known d.key .whole = none := (hc.known d.key .whole hfree).symm.trans hget
    have hpath : d.rulesAt (.group []) = some d.allRules := rfl
    obtain ⟨p, c', hrun, rfl, hc'⟩ := succeeds_directSum hl (hg.closed hsettles) hs hgroups hpath
      (fun r hr => hsettles d hd r hr) hc
    refine ⟨_, c', hrun, by rw [hp, hg.direct_eq_directSum hd]; rfl, hc'.direct.set_free hfree _,
      fun key part hpart => ?_⟩
    rw [Counts.get?_set]
    by_cases heq : key = d.key ∧ part = .whole
    · obtain ⟨rfl, rfl⟩ := heq
      exact (if_pos rfl).trans (if_pos ⟨rfl, rfl⟩).symm
    · have hne : d.key.whole ≠ ⟨.unit key, part⟩ := by
        rintro h
        obtain ⟨rfl, rfl⟩ : d.key = key ∧ .whole = part := by simpa [Key.whole] using h
        exact heq ⟨rfl, rfl⟩
      rw [if_neg heq, if_neg hne]
      exact hc'.known key part hpart

end Valid

end Graph

end Phrasebook
