import Phrasebook.Proofs.Counted
import Phrasebook.Proofs.Expansion

/-!
Counting bounds what the enumeration lists.

A rule has at most the product of what its tokens have, a set of rules at most the sum over
its rules, and dropping repeats and rules that are never used only makes less.  So whatever
counting can come to is a bound, if what is known of groups and of uses is one, and then it
may be kept as such.

A count is computed without looking at arguments, so it bounds the enumeration in every
scope; `scopes` are those in which the places of the definition are used.
-/

namespace Phrasebook

/-! ### One token -/

namespace Modifiers

theorem length_spread_le (m : Modifiers) (base : List Example) :
    (m.spread base).length ≤
      base.length * m.casing.forms + (if m.mayBeAbsent then 1 else 0) := by
  rw [spread_eq, ← length_expand]
  exact length_distinct_le _

theorem bounds_counted {cap : Nat} (hcap : cap < Possibilities.largest) (m : Modifiers)
    {p : Possibilities} {base : List Example} (h : p.Bounds cap base.length) :
    (m.counted cap p).Bounds cap (m.spread base).length := by
  have hcased : (p.cased cap m.casing).Bounds cap (base.length * m.casing.forms) :=
    h.mul hcap (Possibilities.Bounds.exact _)
  refine Possibilities.Bounds.mono ?_ (m.length_spread_le base)
  unfold counted
  split
  · exact hcased.add hcap (Possibilities.Bounds.exact 1)
  · exact hcased

/-- What a token is counted as bounds what it is enumerated to, if that is so of what it
holds. -/
theorem bounds_countedAs {cap : Nat} (hcap : cap < Possibilities.largest) {m : Modifiers}
    {base : Possibilities → Prop} {p : Possibilities} (h : m.CountedAs cap base p)
    (listed : Sentences)
    (hbase : ∀ q, base q → ∀ es, listed = .ok es → q.Bounds cap es.length) {es : List Example}
    (hes : (if m.isAbsent then .ok [.empty] else listed >>= fun held => .ok (m.spread held)) =
      .ok es) : p.Bounds cap es.length := by
  unfold CountedAs at h
  by_cases habsent : m.isAbsent = true
  · rw [if_pos habsent] at h hes
    obtain rfl := h
    obtain rfl : [Example.empty] = es := by injection hes
    exact Possibilities.Bounds.exact 1
  · rw [if_neg habsent] at h hes
    obtain ⟨q, hq, rfl⟩ := h
    obtain ⟨xs, hxs, hes⟩ := bind_eq_ok.mp hes
    obtain rfl : m.spread xs = es := by injection hes
    exact m.bounds_counted hcap (hbase q hq xs hxs)

end Modifiers

/-! ### Whole templates -/

/-- The count bounds what a reference is answered with. -/
def BoundsAnswer (listed : String → Reference → Sentences) (cap : Nat) (r : Reference)
    (p : Possibilities) : Prop :=
  ∀ owner es, listed owner r = .ok es → p.Bounds cap es.length

/-- The count bounds the sentences of rules in all of the scopes. -/
def BoundsRules (listed : String → Reference → Sentences) (scopes : Scope → Prop) (cap : Nat)
    (rules : List Rule) (p : Possibilities) : Prop :=
  ∀ scope, scopes scope → ∀ es, enumerateRules listed scope (fun _ e => e) rules = .ok es →
    p.Bounds cap (distinct es).length

section

variable {listed : String → Reference → Sentences} {scopes : Scope → Prop} {cap : Nat}
  {scope : Scope}

theorem bounds_countedToken (hcap : cap < Possibilities.largest) (hscope : scopes scope)
    {token : Token} {p : Possibilities}
    (h : CountedToken cap (BoundsRules listed scopes cap) (BoundsAnswer listed cap) token p)
    {es : List Example} (hes : enumerateToken listed scope token = .ok es) :
    p.Bounds cap es.length := by
  cases token with
  | word text m =>
      rw [enumerateToken] at hes
      refine Modifiers.bounds_countedAs hcap h (.ok [.ofText (scope.render text)]) ?_ hes
      rintro _ rfl xs hxs
      obtain rfl := Except.ok.inj hxs
      exact Possibilities.Bounds.exact 1
  | group rules m =>
      rw [enumerateToken] at hes
      refine Modifiers.bounds_countedAs hcap h
        (distinct <$> enumerateRules listed scope (fun _ e => e) rules) ?_ ?_
      · intro q hq xs hxs
        obtain ⟨all, hall, rfl⟩ := map_eq_ok.mp hxs
        exact hq scope hscope all hall
      · rw [bind_map_left]
        exact hes
  | reference target m =>
      rw [enumerateToken] at hes
      exact Modifiers.bounds_countedAs hcap h _ (fun q hq xs hxs => hq scope.owner xs hxs) hes

theorem bounds_countedTokens (hcap : cap < Possibilities.largest) (hscope : scopes scope)
    {product p : Possibilities} {tokens : List Token}
    (h : CountedTokens cap (BoundsRules listed scopes cap) (BoundsAnswer listed cap) product
      tokens p) {fronts es : List Example} (hproduct : product.Bounds cap fronts.length)
    (hes : enumerateTokens listed scope fronts tokens = .ok es) : p.Bounds cap es.length := by
  induction h generalizing fronts with
  | nil product =>
      rw [enumerateTokens] at hes
      obtain rfl : fronts = es := by injection hes
      exact hproduct
  | cons htoken hrest ih =>
      rw [enumerateTokens] at hes
      obtain ⟨backs, hbacks, hes⟩ := bind_eq_ok.mp hes
      have hboth := hproduct.mul hcap (bounds_countedToken hcap hscope htoken hbacks)
      exact ih (hboth.mono (length_sideBySide_le fronts backs)) hes

theorem bounds_countedRules (hcap : cap < Possibilities.largest) (hscope : scopes scope)
    {total p : Possibilities} {rules : List Rule}
    (h : CountedRules cap (BoundsRules listed scopes cap) (BoundsAnswer listed cap) total rules p)
    {n : Nat} {es : List Example} (htotal : total.Bounds cap n)
    (hes : enumerateRules listed scope (fun _ e => e) rules = .ok es) :
    p.Bounds cap (n + es.length) := by
  induction h generalizing n es with
  | nil total =>
      rw [enumerateRules] at hes
      obtain rfl : [] = es := by injection hes
      exact htotal
  | @cons total product p rule rest htokens hrest ih =>
      rcases of_enumerateRules_cons hes with
        ⟨hreach, here, later, hhere, hlater, rfl⟩ | ⟨hreach, hes⟩
      · rw [if_pos hreach] at ih
        have hproduct : product.Bounds cap here.length :=
          bounds_countedTokens hcap hscope htokens (Possibilities.Bounds.exact 1) hhere
        have hsum := ih (htotal.add hcap hproduct) hlater
        simpa [Nat.add_assoc] using hsum
      · -- What a rule that is never used counts for is added, and nothing is listed.
        rw [if_neg hreach] at ih
        exact ih (htotal.add hcap (m := 0) (Or.inr (Nat.zero_le _))) hes

/-- **Whatever counting can come to bounds the rules**, since dropping repeats only makes
less. -/
theorem BoundsRules.of_counted (hcap : cap < Possibilities.largest) {rules : List Rule}
    {p : Possibilities}
    (h : CountedRules cap (BoundsRules listed scopes cap) (BoundsAnswer listed cap) (.exact 0)
      rules p) : BoundsRules listed scopes cap rules p := by
  intro scope hscope es hes
  have hsum := bounds_countedRules hcap hscope h (Possibilities.Bounds.exact 0) hes
  rw [Nat.zero_add] at hsum
  exact hsum.mono (length_distinct_le es)

end

/-! ### Along the layers -/

section

variable {layers below : List Definition} {allowed : Key → List Text → Prop} {cap : Nat}
  {d : Definition}

/-- The scopes in which a definition may be used. -/
def Definition.Scopes (allowed : Key → List Text → Prop) (d : Definition) (scope : Scope) : Prop :=
  ∃ arguments, allowed d.key arguments ∧ scope = .ofDefinition d arguments

theorem boundsPart_iff (hl : Layered layers) (hs : d :: below <:+ layers) (part : Part)
    {rules : List Rule} (hpart : d.rulesAt part = some rules) {p : Possibilities} :
    p.BoundsPart layers allowed cap d.key part ↔
      BoundsRules (enumerateIn below) (d.Scopes allowed) cap rules p := by
  have hsentences : ∀ arguments, sentencesIn layers d.key part arguments = distinct <$>
      enumerateRules (enumerateIn below) (.ofDefinition d arguments) (fun _ e => e) rules := by
    intro arguments
    rw [sentencesIn_of_suffix hl hs, Definition.sentencesAt, hpart, Option.getD_some]
  constructor
  · rintro h _ ⟨arguments, hallowed, rfl⟩ es hes
    exact h arguments (distinct es) hallowed (by rw [hsentences, hes]; rfl)
  · intro h arguments es hallowed hes
    rw [hsentences] at hes
    obtain ⟨all, hall, rfl⟩ := map_eq_ok.mp hes
    exact h _ ⟨arguments, hallowed, rfl⟩ all hall

theorem partsKept_bounds (hcap : cap < Possibilities.largest) (hl : Layered layers)
    (hs : d :: below <:+ layers) :
    PartsKept cap (BoundsRules (enumerateIn below) (d.Scopes allowed) cap)
      (BoundsAnswer (enumerateIn below) cap) (.unit d.key) (Counts.Sound layers allowed cap) d := by
  intro part rules hpart
  refine ⟨fun c p hc hget => ?_, fun c p hc hp => ?_, fun p hp => BoundsRules.of_counted hcap hp⟩
  · exact (boundsPart_iff hl hs part hpart).mp (hc d.key part p hget)
  · exact hc.set ((boundsPart_iff hl hs part hpart).mpr hp)

/-- The count of a definition bounds what it is enumerated to. -/
theorem Definition.bounds_count (hcap : cap < Possibilities.largest) (hl : Layered layers)
    (hs : d :: below <:+ layers)
    (hreferences : ∀ r ∈ d.references, Ensures (Counts.Sound layers allowed cap)
      (countIn cap below d.name r) (BoundsAnswer (enumerateIn below) cap r))
    (variation : Option String) {arguments : List Text} (hallowed : allowed d.key arguments) :
    Ensures (Counts.Sound layers allowed cap)
      (d.count (countIn cap below) cap (.unit d.key) variation) fun p =>
        ∀ es, d.enumerate (enumerateIn below) variation arguments = .ok es →
          p.Bounds cap es.length := by
  refine (Definition.ensures_count (partsKept_bounds hcap hl hs) hreferences variation).mono ?_
  rintro p ⟨rules, part, hselect, hpart, hp⟩ es hes
  have hlength : List.length <$> d.enumerate (enumerateIn below) variation arguments =
      List.length <$> d.sentencesAt (enumerateIn below) part arguments :=
    Definition.length_enumerate hselect hpart
  rw [hes] at hlength
  obtain ⟨es', hes', heq⟩ := map_eq_ok.mp hlength.symm
  rw [← heq]
  have hbound := (boundsPart_iff hl hs part hpart).mpr hp arguments es' hallowed
  exact hbound (by rw [sentencesIn_of_suffix hl hs]; exact hes')

/-- **Counting bounds the enumeration**, and keeps bounds only, if all arguments passed are
allowed. -/
theorem bounds_countIn (hcap : cap < Possibilities.largest) (hl : Layered layers)
    (hallowed : ∀ d ∈ layers, ∀ r ∈ d.references, allowed r.target r.modifiers.arguments)
    (hs : below <:+ layers) (label : String) (r : Reference)
    (hr : allowed r.target r.modifiers.arguments) :
    Ensures (Counts.Sound layers allowed cap) (countIn cap below label r)
      (BoundsAnswer (enumerateIn below) cap r) := by
  induction below generalizing label r with
  | nil => exact Ensures.throw _
  | cons d below ih =>
      have hbelow := ih ((List.suffix_cons d below).trans hs)
      rw [countIn]
      by_cases hkey : d.key = r.target
      · rw [if_pos hkey]
        have hcount := Definition.bounds_count hcap hl hs
          (fun r' hr' => hbelow d.name r' (hallowed d (hs.subset (by simp)) r' hr'))
          r.modifiers.variation (show allowed d.key r.modifiers.arguments by rw [hkey]; exact hr)
        refine hcount.mono fun p hp owner es hes => hp es ?_
        rw [enumerateIn, if_pos hkey] at hes
        exact hes
      · rw [if_neg hkey]
        refine (hbelow label r hr).mono fun p hp owner es hes => hp owner es ?_
        rw [enumerateIn, if_neg hkey] at hes
        exact hes

end

/-! ### Items -/

/-- The definition with a key has as many sentences as the whole of it, whatever arguments it
is used with. -/
theorem length_enumerateIn (layers : List Definition) (key : Key) (arguments : List Text) :
    List.length <$> enumerateIn layers key.name (key.use none arguments) =
      List.length <$> sentencesIn layers key .whole arguments := by
  induction layers with
  | nil => rfl
  | cons d below ih =>
      have htarget : (key.use none arguments).target = key := rfl
      rw [enumerateIn, sentencesIn, htarget]
      by_cases hkey : d.key = key
      · rw [if_pos hkey, if_pos hkey]
        exact Definition.length_enumerate rfl rfl
      · rw [if_neg hkey, if_neg hkey]
        exact ih

namespace Graph

/-- The definition with a key has no more sentences with any of the arguments than without. -/
def IsLargestBare (g : Graph) (allowed : Key → List Text → Prop) (key : Key) : Prop :=
  ∀ arguments, allowed key arguments → ∀ bare bound,
    g.enumerate key.name (key.use none []) = .ok bare →
    g.enumerate key.name (key.use none arguments) = .ok bound → bound.length ≤ bare.length

/-- A definition that is never used with arguments has not. -/
theorem IsLargestBare.of_bare {g : Graph} {allowed : Key → List Text → Prop} {key : Key}
    (h : ∀ arguments, allowed key arguments → arguments = []) : g.IsLargestBare allowed key := by
  intro arguments hallowed bare bound hbare hbound
  obtain rfl := h arguments hallowed
  obtain rfl : bare = bound := Except.ok.inj (hbare.symm.trans hbound)
  exact Nat.le_refl _

namespace Valid

variable {g : Graph} {allowed : Key → List Text → Prop} {cap : Nat} {key : Key}

/-- The count of a definition bounds its sentences. -/
theorem bounds_unit (hg : g.Valid) (hcap : cap < Possibilities.largest)
    (hallowed : ∀ d ∈ g.definitions, ∀ r ∈ d.references, allowed r.target r.modifiers.arguments)
    (hkey : allowed key []) :
    Ensures (Counts.Sound g.layers allowed cap) ((Item.unit key).count g cap) fun p =>
      ∀ es, (Item.unit key).enumerate g = .ok es → p.Bounds cap es.length := by
  have hcount := bounds_countIn hcap hg.layered
    (fun d hd => hallowed d ((hg.mem_layers d).mp hd)) (List.suffix_refl _) key.name
    (Item.useOf key) hkey
  exact hcount.mono fun p hp es hes => hp key.name es hes

/-- Listing all sentences corrects the count to a bound, if the definition has no more of them
with any of the arguments it may be used with. -/
theorem sound_all_of_isLargestBare (hkey : g.IsLargestBare allowed key) :
    Ensures (Counts.Sound g.layers allowed cap) ((Item.unit key).all g) fun es =>
      (Item.unit key).enumerate g = .ok es := by
  refine Item.ensures_all fun c es hc hes => hc.set fun arguments es' hallowed hes' => ?_
  have hlength := length_enumerateIn g.layers key arguments
  rw [hes'] at hlength
  obtain ⟨bound, hbound, heq⟩ := map_eq_ok.mp hlength
  have hle := hkey arguments hallowed es bound hes hbound
  exact (Possibilities.Bounds.exact es.length).mono (heq ▸ hle)

/-- Listing all sentences corrects the count to a bound, if the definition is never used with
arguments. -/
theorem sound_all (hkey : ∀ arguments, allowed key arguments → arguments = []) :
    Ensures (Counts.Sound g.layers allowed cap) ((Item.unit key).all g) fun es =>
      (Item.unit key).enumerate g = .ok es :=
  sound_all_of_isLargestBare (IsLargestBare.of_bare hkey)

end Valid

end Graph

end Phrasebook
