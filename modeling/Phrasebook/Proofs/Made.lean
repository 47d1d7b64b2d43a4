import Phrasebook.Proofs.Locality
import Phrasebook.Proofs.Sampling

/-!
What examples are made of.

However a sentence comes about, by listing or by chance, it was made of plain texts by three
operations: one sentence was put behind another, a first letter was given a form, and what a
rule of a definition made was finished as the kind of the definition asks.  A property that the
operations keep is kept by listing and by drawing (`IsKept`), and neither has to be looked at
again.

A property may be kept by some forms of the first letter only, and whether it is may depend on
the uses of which a sentence is made.  So properties are families over these uses, and a token
has to ask for no other forms than those that keep the property of what its own uses make.

`Made` is the least set of examples with the three operations, where a form is given only to
what holds occurrences of slots that are allowed to have it.  Whatever a graph produces for a
definition is made with the forms that some token asks for on the way from the definition to the
slot (`AsksAbove`).  For this the family also says which slots the uses reach.

Nothing here depends on weights, chances or the dice.
-/

namespace Phrasebook

/-! ### The slots of an example -/

namespace Example

/-- The slots of the entities. -/
def slots (e : Example) : List String := e.entities.map Entity.slot

variable {slot : String} {e : Example}

theorem mem_slots_append {a b : Example} (h : slot ∈ (a.append b).slots) :
    slot ∈ a.slots ∨ slot ∈ b.slots := by
  unfold append at h
  split at h
  · exact Or.inl h
  · rw [slots, List.map_append, List.map_map] at h
    exact List.mem_append.mp h

@[simp] theorem slot_recaseEntity (old new : Text) (x : Entity) :
    (recaseEntity old new x).slot = x.slot := by
  unfold recaseEntity
  split <;> rfl

@[simp] theorem slots_recase (c : Casing) (e : Example) : (e.recase c).slots = e.slots := by
  cases c <;> simp [recase, slots]

/-- A definition adds no other slot than itself. -/
theorem mem_slots_finish {d : Definition} {r : Rule} (h : slot ∈ (d.finish r e).slots) :
    slot ∈ e.slots ∨ d.key = ⟨.slot, slot⟩ := by
  unfold Definition.finish at h
  split at h
  · exact Or.inl h
  · rename_i hkind
    unfold asSlot at h
    split at h
    · exact Or.inl h
    · obtain rfl := List.mem_singleton.mp h
      exact Or.inr (by rw [Definition.key, hkind])
  · exact Or.inl h

end Example

/-- Examples that are made of texts, with the rules of the given definitions.  What holds an
occurrence of a slot is given only such forms as are allowed for the slot. -/
inductive Made (definitions : List Definition) (forms : String → Casing → Prop) : Example → Prop
  | text (t : Text) : Made definitions forms (.ofText t)
  | append {a b : Example} (ha : Made definitions forms a) (hb : Made definitions forms b) :
      Made definitions forms (a.append b)
  | recase {c : Casing} {e : Example} (hforms : ∀ slot ∈ e.slots, forms slot c)
      (he : Made definitions forms e) : Made definitions forms (e.recase c)
  | finish {d : Definition} {r : Rule} {e : Example} (hd : d ∈ definitions)
      (hr : r ∈ d.allRules) (he : Made definitions forms e) :
      Made definitions forms (d.finish r e)

/-! ### What listing keeps -/

/-- Plain texts have the property, putting sentences side by side keeps it, and so does giving a
first letter one of some forms.  The property and the forms may depend on the uses of which a
sentence is made, and further uses take nothing away. -/
structure IsKept (forms : List Reference → Casing → Prop) (P : List Reference → Example → Prop) :
    Prop where
  text : ∀ uses t, P uses (.ofText t)
  append : ∀ {uses a b}, P uses a → P uses b → P uses (a.append b)
  recase : ∀ {uses c e}, forms uses c → P uses e → P uses (e.recase c)
  mono : ∀ {uses uses' e}, uses ⊆ uses' → P uses e → P uses' e

/-- The token asks for no other forms than those of what is made of the uses in it. -/
def Token.AsksOnly (forms : List Reference → Casing → Prop) (token : Token) : Prop :=
  ∀ c ∈ token.modifiers.casing.resolved, forms (referencesOfToken token) c

section

variable {forms : List Reference → Casing → Prop} {P : List Reference → Example → Prop}

theorem IsKept.empty (hP : IsKept forms P) (uses : List Reference) : P uses .empty :=
  hP.text uses []

theorem kept_spread (hP : IsKept forms P) {uses : List Reference} {m : Modifiers}
    (hforms : ∀ c ∈ m.casing.resolved, forms uses c) {base : List Example}
    (h : ∀ e ∈ base, P uses e) : ∀ e ∈ m.spread base, P uses e := by
  have hcased : ∀ e ∈ base.flatMap fun e => m.casing.resolved.map fun c => e.recase c,
      P uses e := by
    intro e he
    obtain ⟨e', he', hforms'⟩ := List.mem_flatMap.mp he
    obtain ⟨c, hc, rfl⟩ := List.mem_map.mp hforms'
    exact hP.recase (hforms c hc) (h e' he')
  intro e he
  rw [Modifiers.spread_eq] at he
  have he := mem_of_mem_distinct he
  unfold Modifiers.expand at he
  split at he
  · rcases List.mem_append.mp he with he | he
    · exact hcased e he
    · obtain rfl : e = .empty := by simpa using he
      exact hP.empty uses
  · exact hcased e he

theorem kept_sideBySide (hP : IsKept forms P) {uses : List Reference}
    {fronts backs : List Example} (hfronts : ∀ e ∈ fronts, P uses e)
    (hbacks : ∀ e ∈ backs, P uses e) : ∀ e ∈ sideBySide fronts backs, P uses e := by
  intro e he
  obtain ⟨front, hfront, he⟩ := List.mem_flatMap.mp (mem_of_mem_distinct he)
  obtain ⟨back, hback, rfl⟩ := List.mem_map.mp he
  exact hP.append (hfronts front hfront) (hbacks back hback)

variable {answer : String → Reference → Sentences} {scope : Scope}

/-- The property holds of what is answered to a use. -/
def KeepsAnswer (P : List Reference → Example → Prop) (answer : String → Reference → Sentences)
    (owner : String) (r : Reference) : Prop :=
  ∀ es, answer owner r = .ok es → ∀ e ∈ es, P [r] e

mutual

theorem kept_enumerateTokens (hP : IsKept forms P) :
    ∀ tokens : List Token,
      (∀ r ∈ referencesOfTokens tokens, KeepsAnswer P answer scope.owner r) →
      (∀ token ∈ tokensWithin tokens, token.AsksOnly forms) →
      ∀ uses, referencesOfTokens tokens ⊆ uses → ∀ fronts, (∀ e ∈ fronts, P uses e) →
        ∀ es, enumerateTokens answer scope fronts tokens = .ok es → ∀ e ∈ es, P uses e
  | [] => by
      intro _ _ uses _ fronts hfronts es h
      rw [enumerateTokens] at h
      obtain rfl : fronts = es := by injection h
      exact hfronts
  | token :: rest => by
      intro hanswer hforms uses huses fronts hfronts es h
      rw [referencesOfTokens] at hanswer huses
      rw [tokensWithin] at hforms
      rw [enumerateTokens] at h
      obtain ⟨hanswer, hanswerRest⟩ := List.forall_mem_append.mp hanswer
      obtain ⟨hforms, hformsRest⟩ := List.forall_mem_append.mp hforms
      obtain ⟨huses, husesRest⟩ := List.append_subset.mp huses
      obtain ⟨backs, hbacks, h⟩ := bind_eq_ok.mp h
      have hback := kept_enumerateToken hP token hanswer hforms backs hbacks
      exact kept_enumerateTokens hP rest hanswerRest hformsRest uses husesRest _
        (kept_sideBySide hP hfronts fun e he => hP.mono huses (hback e he)) es h

theorem kept_enumerateToken (hP : IsKept forms P) :
    ∀ token : Token,
      (∀ r ∈ referencesOfToken token, KeepsAnswer P answer scope.owner r) →
      (∀ inner ∈ tokensWithinToken token, inner.AsksOnly forms) →
      ∀ es, enumerateToken answer scope token = .ok es → ∀ e ∈ es, P (referencesOfToken token) e
  | .word text m => by
      intro _ hforms es h
      rw [enumerateToken] at h
      split at h
      · obtain rfl : [Example.empty] = es := by injection h
        exact List.forall_mem_singleton.mpr (hP.empty _)
      · obtain rfl : m.spread [.ofText (scope.render text)] = es := by injection h
        exact kept_spread hP (hforms _ (self_mem_tokensWithinToken _))
          (List.forall_mem_singleton.mpr (hP.text _ _))
  | .group rules m => by
      intro hanswer hforms es h
      have hself := hforms _ (self_mem_tokensWithinToken _)
      rw [Token.AsksOnly, referencesOfToken] at hself
      rw [referencesOfToken] at hanswer ⊢
      rw [tokensWithinToken] at hforms
      rw [enumerateToken] at h
      split at h
      · obtain rfl : [Example.empty] = es := by injection h
        exact List.forall_mem_singleton.mpr (hP.empty _)
      · obtain ⟨base, hbase, h⟩ := bind_eq_ok.mp h
        obtain rfl : m.spread (distinct base) = es := by injection h
        have hrules := kept_enumerateRules hP rules hanswer (List.forall_mem_cons.mp hforms).2
          base hbase
        exact kept_spread hP hself fun e he => hrules e (mem_of_mem_distinct he)
  | .reference target m => by
      intro hanswer hforms es h
      have hself := hforms _ (self_mem_tokensWithinToken _)
      rw [Token.AsksOnly, referencesOfToken] at hself
      rw [referencesOfToken] at hanswer ⊢
      rw [enumerateToken] at h
      split at h
      · obtain rfl : [Example.empty] = es := by injection h
        exact List.forall_mem_singleton.mpr (hP.empty _)
      · obtain ⟨base, hbase, h⟩ := bind_eq_ok.mp h
        obtain rfl : m.spread base = es := by injection h
        exact kept_spread hP hself (hanswer _ (List.mem_singleton_self _) base hbase)

theorem kept_enumerateRules (hP : IsKept forms P) :
    ∀ rules : List Rule,
      (∀ r ∈ referencesOfRules rules, KeepsAnswer P answer scope.owner r) →
      (∀ token ∈ tokensWithinRules rules, token.AsksOnly forms) →
      ∀ es, enumerateRules answer scope (fun _ e => e) rules = .ok es →
        ∀ e ∈ es, P (referencesOfRules rules) e
  | [] => by
      intro _ _ es h
      rw [enumerateRules] at h
      obtain rfl : [] = es := by injection h
      exact fun _ he => absurd he List.not_mem_nil
  | .mk tokens weight value :: rest => by
      intro hanswer hforms es h
      rw [referencesOfRules] at hanswer ⊢
      rw [tokensWithinRules] at hforms
      obtain ⟨hanswer, hanswerRest⟩ := List.forall_mem_append.mp hanswer
      obtain ⟨hforms, hformsRest⟩ := List.forall_mem_append.mp hforms
      have hrest : ∀ es, enumerateRules answer scope (fun _ e => e) rest = .ok es →
          ∀ e ∈ es, P (referencesOfTokens tokens ++ referencesOfRules rest) e :=
        fun es h e he => hP.mono (List.subset_append_right _ _)
          (kept_enumerateRules hP rest hanswerRest hformsRest es h e he)
      rcases of_enumerateRules_cons h with ⟨-, here, later, hhere, hlater, rfl⟩ | ⟨-, h⟩
      · rw [List.map_id']
        refine List.forall_mem_append.mpr ⟨?_, hrest later hlater⟩
        exact kept_enumerateTokens hP tokens hanswer hforms _ (List.subset_append_left _ _)
          [.empty] (List.forall_mem_singleton.mpr (hP.empty _)) here hhere
      · exact hrest es h

end

/-- What a definition makes has the property, if what is finished of what has it has it. -/
theorem kept_enumerate (hP : IsKept forms P) {Q : Example → Prop} {d : Definition}
    {r : Reference} (hanswer : ∀ r' ∈ d.references, KeepsAnswer P answer d.name r')
    (hforms : ∀ token ∈ d.tokens, token.AsksOnly forms)
    (hfinish : ∀ rule ∈ d.allRules, rule.isReachable = true → ∀ here,
      enumerateTokens answer (.ofDefinition d r.modifiers.arguments) [.empty]
        rule.tokens = .ok here → ∀ e ∈ here, P d.references e → Q (d.finish rule e))
    {es : List Example}
    (h : d.enumerate answer r.modifiers.variation r.modifiers.arguments = .ok es) :
    ∀ e ∈ es, Q e := by
  obtain ⟨rules, hselect, h⟩ := bind_eq_ok.mp h
  obtain ⟨all, hall, rfl⟩ := map_eq_ok.mp h
  intro e he
  obtain ⟨rule, hrule, hreach, here, hhere, e', he', rfl⟩ :=
    exists_of_mem_enumerateRules all hall e (mem_of_mem_distinct he)
  have hmem := Definition.select_subset hselect hrule
  have huses : referencesOfTokens rule.tokens ⊆ d.references :=
    fun r' hr' => mem_referencesOfRules.mpr ⟨rule, hmem, hr'⟩
  refine hfinish rule hmem hreach here hhere e' he' ?_
  refine kept_enumerateTokens hP rule.tokens (fun r' hr' => hanswer r' (huses hr'))
    (fun token ht => hforms token ?_) _ huses [.empty]
    (List.forall_mem_singleton.mpr (hP.empty _)) here hhere e' he'
  exact mem_tokensWithinRules.mpr ⟨rule, hmem, ht⟩

end

/-! ### What drawing keeps -/

section

variable {forms : List Reference → Casing → Prop} {P : List Reference → Example → Prop}
  {answer : String → Reference → Sampling Example} {scope : Scope}

theorem yields_kept_token (hP : IsKept forms P) {uses : List Reference} (m : Modifiers)
    (hforms : ∀ c ∈ m.casing.resolved, forms uses c) (make : Sampling Example)
    (hmake : Yields make (P uses)) :
    Yields (do if ← m.stands then return (← make).recase (← m.chooseCasing) else return .empty)
      (P uses) := by
  refine Ensures.bind (Ensures.any _) fun stands _ => ?_
  cases stands with
  | true =>
      refine Ensures.bind hmake fun e he => ?_
      exact Ensures.bind m.yields_chooseCasing fun c hc => Ensures.pure (hP.recase (hforms c hc) he)
  | false => exact Ensures.pure (hP.empty uses)

mutual

theorem yields_kept_sampleTokens (hP : IsKept forms P) :
    ∀ tokens : List Token,
      (∀ r ∈ referencesOfTokens tokens, Yields (answer scope.owner r) (P [r])) →
      (∀ token ∈ tokensWithin tokens, token.AsksOnly forms) →
      ∀ uses, referencesOfTokens tokens ⊆ uses → ∀ front, P uses front →
        Yields (sampleTokens answer scope front tokens) (P uses)
  | [] => by
      intro _ _ uses _ front hfront
      rw [sampleTokens]
      exact Ensures.pure hfront
  | token :: rest => by
      intro hanswer hforms uses huses front hfront
      rw [referencesOfTokens] at hanswer huses
      rw [tokensWithin] at hforms
      rw [sampleTokens]
      obtain ⟨hanswer, hanswerRest⟩ := List.forall_mem_append.mp hanswer
      obtain ⟨hforms, hformsRest⟩ := List.forall_mem_append.mp hforms
      obtain ⟨huses, husesRest⟩ := List.append_subset.mp huses
      refine Ensures.bind (yields_kept_sampleToken hP token hanswer hforms) fun e he => ?_
      exact yields_kept_sampleTokens hP rest hanswerRest hformsRest uses husesRest _
        (hP.append hfront (hP.mono huses he))

theorem yields_kept_sampleToken (hP : IsKept forms P) :
    ∀ token : Token,
      (∀ r ∈ referencesOfToken token, Yields (answer scope.owner r) (P [r])) →
      (∀ inner ∈ tokensWithinToken token, inner.AsksOnly forms) →
      Yields (sampleToken answer scope token) (P (referencesOfToken token))
  | .word text m => by
      intro _ hforms
      have hself := hforms _ (self_mem_tokensWithinToken _)
      rw [sampleToken]
      simpa using yields_kept_token hP m hself (pure (.ofText (scope.render text)))
        (Ensures.pure (hP.text _ _))
  | .group rules m => by
      intro hanswer hforms
      have hself := hforms _ (self_mem_tokensWithinToken _)
      rw [Token.AsksOnly, referencesOfToken] at hself
      rw [referencesOfToken] at hanswer ⊢
      rw [tokensWithinToken] at hforms
      rw [sampleToken]
      have hrules := yields_kept_sampleRule hP rules hanswer (List.forall_mem_cons.mp hforms).2
      have hgroup := yields_kept_token hP m hself
        (do
          let i ← chooseRule scope.owner rules
          let (e, _) ← sampleRule answer scope i rules
          return e)
        (Ensures.bind (Ensures.any _) fun i _ =>
          Ensures.bind (hrules i) fun _ h => Ensures.pure h.1)
      simpa using hgroup
  | .reference target m => by
      intro hanswer hforms
      have hself := hforms _ (self_mem_tokensWithinToken _)
      rw [Token.AsksOnly, referencesOfToken] at hself
      rw [referencesOfToken] at hanswer ⊢
      rw [sampleToken]
      exact yields_kept_token hP m hself _ (hanswer _ (List.mem_singleton_self _))

theorem yields_kept_sampleRule (hP : IsKept forms P) :
    ∀ rules : List Rule,
      (∀ r ∈ referencesOfRules rules, Yields (answer scope.owner r) (P [r])) →
      (∀ token ∈ tokensWithinRules rules, token.AsksOnly forms) →
      ∀ i, Yields (sampleRule answer scope i rules) fun pair =>
        P (referencesOfRules rules) pair.1 ∧ ∀ rule, pair.2 = some rule → rule ∈ rules
  | [] => by
      intro _ _ i
      rw [sampleRule]
      exact Ensures.pure ⟨hP.empty _, by simp⟩
  | .mk tokens weight value :: rest => by
      intro hanswer hforms i
      rw [referencesOfRules] at hanswer ⊢
      rw [tokensWithinRules] at hforms
      obtain ⟨hanswer, hanswerRest⟩ := List.forall_mem_append.mp hanswer
      obtain ⟨hforms, hformsRest⟩ := List.forall_mem_append.mp hforms
      cases i with
      | zero =>
          rw [sampleRule]
          have htokens := yields_kept_sampleTokens hP tokens hanswer hforms _
            (List.subset_append_left _ (referencesOfRules rest)) .empty (hP.empty _)
          exact Ensures.bind htokens fun e he => Ensures.pure ⟨he, by simp⟩
      | succ i =>
          rw [sampleRule]
          exact (yields_kept_sampleRule hP rest hanswerRest hformsRest i).mono fun pair h =>
            ⟨hP.mono (List.subset_append_right _ _) h.1,
              fun rule hrule => List.mem_cons_of_mem _ (h.2 rule hrule)⟩

end

/-- What a definition draws has the property, if what is finished of what has it has it, and so
does what is left as it is. -/
theorem yields_kept_sample (hP : IsKept forms P) {Q : Example → Prop} {d : Definition}
    {r : Reference} (hanswer : ∀ r' ∈ d.references, Yields (answer d.name r') (P [r']))
    (hforms : ∀ token ∈ d.tokens, token.AsksOnly forms)
    (hfinish : ∀ rule ∈ d.allRules, ∀ e, P d.references e → Q (d.finish rule e))
    (hleft : ∀ e, P d.references e → Q e) :
    Yields (d.sample answer r.modifiers.variation r.modifiers.arguments) Q := by
  unfold Definition.sample
  refine Ensures.bind (Q := (· ⊆ d.allRules)) (Ensures.liftExcept fun rules hrules =>
    Definition.select_subset hrules) fun rules hrules => ?_
  have huses : referencesOfRules rules ⊆ d.references := fun r' hr' => by
    obtain ⟨rule, hrule, hr'⟩ := mem_referencesOfRules.mp hr'
    exact mem_referencesOfRules.mpr ⟨rule, hrules hrule, hr'⟩
  have htokens : tokensWithinRules rules ⊆ d.tokens := fun token ht => by
    obtain ⟨rule, hrule, ht⟩ := mem_tokensWithinRules.mp ht
    exact mem_tokensWithinRules.mpr ⟨rule, hrules hrule, ht⟩
  refine Ensures.bind (Q := fun pair => P d.references pair.1 ∧
    ∀ rule, pair.2 = some rule → rule ∈ rules) ?_ ?_
  · refine Ensures.bind (Ensures.any _) fun i _ => ?_
    exact (yields_kept_sampleRule hP rules (fun r' hr' => hanswer r' (huses hr'))
      (fun token ht => hforms token (htokens ht)) i).mono fun pair h => ⟨hP.mono huses h.1, h.2⟩
  · rintro ⟨e, rule⟩ ⟨he, hrule⟩
    refine Ensures.pure ?_
    cases rule with
    | none => exact hleft e he
    | some rule => exact hfinish rule (hrules (hrule rule rfl)) e he

end

/-! ### What a graph produces -/

namespace Graph

/-- The example is among all sentences of the definition with a key, whatever is known of
their number, or is drawn for it with some random stream. -/
def Produces (g : Graph) (key : Key) (e : Example) : Prop :=
  (∃ (c : Counts) (es : List Example),
    (((Item.unit key).all g).run c).1 = .ok es ∧ e ∈ es) ∨
  ∃ s : Stream, (((Item.unit key).sample g).run s).1 = .ok e

theorem produces_of_enumerate {g : Graph} {key : Key} {es : List Example}
    (h : (Item.unit key).enumerate g = .ok es) {e : Example} (he : e ∈ es) :
    g.Produces key e :=
  Or.inl ⟨.empty, es, (Item.run_all g (.unit key) .empty).trans h, he⟩

/-- On the way from the definition with a key to a slot, a token asks for a form of the first
letter: a token of a definition that is reached, with a use in it that reaches the slot. -/
def AsksAbove (g : Graph) (key : Key) (slot : String) (c : Casing) : Prop :=
  ∃ d ∈ g.definitions, g.Reaches key d.key ∧
    ∃ token ∈ d.tokens, c ∈ token.modifiers.casing.resolved ∧
      ∃ r ∈ referencesOfToken token, g.Reaches r.target ⟨.slot, slot⟩

/-- The form is asked for above all slots that the uses reach. -/
def MayTake (g : Graph) (key : Key) (uses : List Reference) (c : Casing) : Prop :=
  ∀ r ∈ uses, ∀ slot, g.Reaches r.target ⟨.slot, slot⟩ → g.AsksAbove key slot c

/-- The example is made with the forms that are asked for, and its slots are reached from the
uses of which it is made. -/
structure IsMade (g : Graph) (key : Key) (uses : List Reference) (e : Example) : Prop where
  made : Made g.definitions (g.AsksAbove key) e
  reached : ∀ slot ∈ e.slots, ∃ r ∈ uses, g.Reaches r.target ⟨.slot, slot⟩

variable {g : Graph} {key : Key} {e : Example}

theorem isKept_isMade (g : Graph) (key : Key) : IsKept (g.MayTake key) (g.IsMade key) where
  text uses t := ⟨.text t, by simp [Example.slots, Example.ofText]⟩
  append ha hb := ⟨.append ha.made hb.made,
    fun slot hslot => (Example.mem_slots_append hslot).elim (ha.reached slot) (hb.reached slot)⟩
  recase hforms he := by
    refine ⟨.recase (fun slot hslot => ?_) he.made, fun slot hslot => ?_⟩
    · obtain ⟨r, hr, hreached⟩ := he.reached slot hslot
      exact hforms r hr slot hreached
    · rw [Example.slots_recase] at hslot
      exact he.reached slot hslot
  mono hsub he := by
    refine ⟨he.made, fun slot hslot => ?_⟩
    obtain ⟨r, hr, hreached⟩ := he.reached slot hslot
    exact ⟨r, hsub hr, hreached⟩

variable {d : Definition} {r : Reference}

/-- A definition reaches what the uses in it reach. -/
theorem IsMade.use (he : g.IsMade key d.references e) (hd : d ∈ g.definitions)
    (hkey : d.key = r.target) : g.IsMade key [r] e := by
  refine ⟨he.made, fun slot hslot => ?_⟩
  obtain ⟨r', hr', hreached⟩ := he.reached slot hslot
  have hstep : g.Reaches r.target r'.target := by
    rw [← hkey]
    exact .step .refl hd hr'
  exact ⟨r, List.mem_singleton_self r, hstep.trans hreached⟩

theorem IsMade.finish (he : g.IsMade key d.references e) (hd : d ∈ g.definitions)
    (hkey : d.key = r.target) {rule : Rule} (hrule : rule ∈ d.allRules) :
    g.IsMade key [r] (d.finish rule e) := by
  refine ⟨.finish hd hrule he.made, fun slot hslot => ?_⟩
  rcases Example.mem_slots_finish hslot with hslot | hself
  · exact (he.use hd hkey).reached slot hslot
  · refine ⟨r, List.mem_singleton_self r, ?_⟩
    rw [← hkey, hself]
    exact .refl

/-- A token of a definition that is reached asks for forms above all slots that it reaches. -/
theorem asksOnly_of_reaches (hd : d ∈ g.definitions) (hreached : g.Reaches key d.key) :
    ∀ token ∈ d.tokens, token.AsksOnly (g.MayTake key) :=
  fun token htoken _ hc r hr _ hslot => ⟨d, hd, hreached, token, htoken, hc, r, hr, hslot⟩

theorem isMade_enumerateIn {layers : List Definition} (hsub : layers ⊆ g.definitions)
    (owner : String) (r : Reference) (hr : g.Reaches key r.target) (es : List Example)
    (h : enumerateIn layers owner r = .ok es) : ∀ e ∈ es, g.IsMade key [r] e := by
  induction layers generalizing owner r es with
  | nil => injection h
  | cons d below ih =>
      obtain ⟨hd, hbelow⟩ := List.cons_subset.mp hsub
      rw [enumerateIn] at h
      split at h
      · rename_i hkey
        rw [← hkey] at hr
        exact kept_enumerate (g.isKept_isMade key)
          (fun r' hr' => ih hbelow d.name r' (.step hr hd hr')) (asksOnly_of_reaches hd hr)
          (fun rule hrule _ _ _ e _ he => he.finish hd hkey hrule) h
      · exact ih hbelow owner r hr es h

theorem yields_isMade_sampleIn {layers : List Definition} (hsub : layers ⊆ g.definitions)
    (owner : String) (r : Reference) (hr : g.Reaches key r.target) :
    Yields (sampleIn layers owner r) (g.IsMade key [r]) := by
  induction layers generalizing owner r with
  | nil => exact Ensures.throw _
  | cons d below ih =>
      obtain ⟨hd, hbelow⟩ := List.cons_subset.mp hsub
      rw [sampleIn]
      split
      · rename_i hkey
        rw [← hkey] at hr
        exact yields_kept_sample (g.isKept_isMade key)
          (fun r' hr' => ih hbelow d.name r' (.step hr hd hr')) (asksOnly_of_reaches hd hr)
          (fun rule hrule e he => he.finish hd hkey hrule) fun e he => he.use hd hkey
      · exact ih hbelow owner r hr

/-- **Every example that a graph produces is made of texts**, and its slots have no other forms
than those that are asked for above them. -/
theorem Valid.made (hg : g.Valid) (h : g.Produces key e) :
    Made g.definitions (g.AsksAbove key) e := by
  have hsub : g.layers ⊆ g.definitions := fun d hd => (hg.mem_layers d).mp hd
  rcases h with ⟨c, es, hrun, he⟩ | ⟨s, hrun⟩
  · rw [Item.run_all] at hrun
    exact (isMade_enumerateIn hsub _ (Item.useOf key) .refl es hrun e he).made
  · exact ((yields_isMade_sampleIn hsub _ (Item.useOf key) .refl s trivial).2 e hrun).made

end Graph

end Phrasebook
