import Phrasebook.Generation.SlotSynonyms
import Phrasebook.Proofs.Counted
import Phrasebook.Proofs.Locality
import Phrasebook.Proofs.WellFormed
import Mathlib.Data.List.Nodup

/-!
A graph answers whatever it is asked.

A definition is used as it is or in one of its variations, with any arguments.  In a graph
such a use is listed and counted without fault, and so are all the uses that come up on the
way, for they are references, and the references of a graph are `Offers` of it.

That nothing goes on for ever is said apart from the layers, which take it for granted.
`answerTo` looks every definition up among all of them, and again for each reference in it,
and leaves to someone else what is asked too deep inside.  In a graph this is never more than
the number of its definitions deep, because each use takes the layers at least one further
down.
-/

namespace Phrasebook

/-! ### Asking all definitions again -/

section

variable {α : Type} (use : Definition → (String → Reference → α) → Reference → α)
  (unresolved : String → Reference → α) (definitions : List Definition)
  (deeper : String → Reference → α)

/-- Answers a use by the definition that is found under the key, which has its own uses answered
so, too, down to a depth from where on `deeper` answers. -/
def answerTo : Nat → String → Reference → α
  | 0, owner, r => deeper owner r
  | depth + 1, owner, r =>
    match Definition.find? definitions r.target with
    | none => unresolved owner r
    | some d => use d (answerTo depth) r

variable {use definitions} {layers : List Definition} {r : Reference}

/--
**Layers are not asked deeper than there are layers.**  With that depth nothing is left to
`deeper`, and no use in them is unresolved.
-/
theorem answerTo_eq_answerIn (huse : AsksOwn use) (hl : Layered layers)
    (hfind : ∀ key, Definition.find? definitions key = Definition.find? layers key)
    (unresolved' : String → Reference → α) (hr : r.Resolves layers) {depth : Nat}
    (hdepth : layers.length ≤ depth) (owner : String) :
    answerTo use unresolved definitions deeper depth owner r =
      answerIn use unresolved' layers owner r := by
  -- The induction is on the layers that are left: they answer the use, and bound the depth.
  have hsuffix : ∀ below, below <:+ layers → ∀ (r : Reference) (owner : String) (depth : Nat),
      r.Resolves below → below.length ≤ depth →
      answerTo use unresolved definitions deeper depth owner r =
        answerIn use unresolved' layers owner r := by
    intro below hs r owner depth hr hdepth
    have hbelow : Layered below := hl.of_suffix hs
    induction below, r, hbelow, hr using Layered.use_induction generalizing owner depth with
    | asked d below r rules _ _ hkey _ ih =>
        have hd : Definition.find? layers r.target = some d := by
          rw [← hkey]
          exact Definition.find?_of_mem hl.nodup_key (hs.subset (by simp))
        obtain ⟨rest, rfl⟩ : ∃ rest, depth = rest + 1 :=
          Nat.exists_eq_add_one.mpr (Nat.lt_of_lt_of_le (by simp) hdepth)
        rw [answerIn_eq unresolved' huse hl hd, answerTo, hfind, hd]
        refine huse d _ _ r fun r' hr' => ?_
        exact ih r' hr' ((List.suffix_cons d below).trans hs) d.name rest
          (Nat.le_of_succ_le_succ hdepth)
    | passed d below r _ _ _ _ ih =>
        exact ih ((List.suffix_cons d below).trans hs) owner depth (Nat.le_of_succ_le hdepth)
  exact hsuffix layers (List.suffix_refl _) r owner depth hr hdepth

end

/-! ### What a graph offers -/

namespace Graph

/-- The use is one of a definition of the graph, as it is or in a variation that it has; the
arguments may be any. -/
def Offers (g : Graph) (r : Reference) : Prop :=
  ∃ d ∈ g.definitions, d.key = r.target ∧
    ∀ name ∈ r.modifiers.variation, ∃ v ∈ d.variations, v.name = name

namespace Valid

variable {g : Graph} {d : Definition} {r : Reference}

/-- What validation asks of a reference is more than what makes a use an offer. -/
theorem offers_references (hg : g.Valid) (hd : d ∈ g.definitions) :
    ∀ r ∈ d.references, g.Offers r := by
  intro r hr
  obtain ⟨e, he, hkey, hvariation, -⟩ :=
    (hg.wellFormed hd).references r.target r.modifiers (mem_referencesOfRules_iff.mp hr)
  exact ⟨e, he, hkey, hvariation⟩

theorem offers_use (hd : d ∈ g.definitions) (arguments : List Text) :
    g.Offers (d.key.use none arguments) :=
  ⟨d, hd, rfl, by simp [Key.use]⟩

theorem resolves_of_offers (hg : g.Valid) (hr : g.Offers r) : r.Resolves g.layers := by
  obtain ⟨d, hd, hkey, hvariation⟩ := hr
  have hfind : Definition.find? g.layers r.target = some d :=
    hkey ▸ Definition.find?_of_mem hg.layered.nodup_key ((hg.mem_layers d).mpr hd)
  exact ⟨d, hfind, Definition.exists_select hvariation⟩

theorem length_layers (hg : g.Valid) : g.layers.length = g.definitions.length := by
  have hperm : g.layers.Perm g.definitions := by
    refine (List.perm_ext_iff_of_nodup ?_ ?_).mpr hg.mem_layers
    · exact hg.layered.nodup_key.of_map _
    · exact hg.nodup_key.of_map _
  exact hperm.length_eq

/-- What is offered is answered, be it looked up along the layers or among all definitions. -/
theorem answerTo_eq {α : Type} {use : Definition → (String → Reference → α) → Reference → α}
    (huse : AsksOwn use) (unresolved deeper unresolved' : String → Reference → α) (hg : g.Valid)
    (hr : g.Offers r) {depth : Nat} (hdepth : g.definitions.length ≤ depth) (owner : String) :
    answerTo use unresolved g.definitions deeper depth owner r =
      answerIn use unresolved' g.layers owner r :=
  answerTo_eq_answerIn unresolved deeper huse hg.layered (fun key => (hg.find?_layers key).symm)
    unresolved' (hg.resolves_of_offers hr) (hg.length_layers.trans_le hdepth) owner

theorem exists_enumerate_of_offers (hg : g.Valid) (hr : g.Offers r) (owner : String) :
    ∃ es, g.enumerate owner r = .ok es :=
  exists_enumerateIn hg.layered owner r (hg.resolves_of_offers hr)

theorem returns_count_of_offers (hg : g.Valid) (hr : g.Offers r) (cap : Nat) (owner : String) :
    Returns (g.count cap owner r) :=
  returns_countIn hg.layered owner r (hg.resolves_of_offers hr)

/-! ### Synonyms -/

theorem exists_synonyms_of_mem (hg : g.Valid) (hd : d ∈ g.definitions) :
    ∃ s, d.synonyms g.enumerate = .ok s := by
  unfold Definition.synonyms
  refine exists_foldlM (fun rule hrule s => ?_) _
  unfold Definition.addSynonyms
  cases rule.value with
  | none => exact ⟨s, rfl⟩
  | some value =>
      have hreferences : ∀ r ∈ referencesOfTokens rule.tokens, r ∈ d.references :=
        fun r hr => mem_referencesOfRules.mpr ⟨rule, (List.mem_filter.mp hrule).1, hr⟩
      obtain ⟨es, hes⟩ : ∃ es, enumerateRule g.enumerate (.root d.name) rule = .ok es :=
        exists_enumerateTokens rule.tokens (fun r hr =>
          hg.exists_enumerate_of_offers (hg.offers_references hd r (hreferences r hr)) d.name) _
      rw [hes]
      exact ⟨_, rfl⟩

theorem exists_synonyms (hg : g.Valid) : ∃ s, g.synonyms = .ok s := by
  unfold synonyms
  refine exists_foldlM (fun d hd s => ?_) _
  obtain ⟨t, ht⟩ := hg.exists_synonyms_of_mem (mem_ofKind.mp hd).1
  rw [ht]
  exact ⟨_, rfl⟩

end Valid

/--
**What is a graph answers without fault.**  Every reference in it is one of its offers.  An
offer, whoever makes use of it and with whatever arguments, is listed, and counted under every
cap from whatever counts are known; and looking definitions up again and again comes to the
same, whatever would be said of uses without a definition or deeper down than there are
definitions, so neither occurs.  Each definition is counted, listed with its count corrected,
and has its synonyms, and so has the graph.
-/
theorem answers_of_ofDefinitions {definitions : List Definition} {g : Graph}
    (h : ofDefinitions definitions = .ok g) :
    (∀ d ∈ g.definitions, ∀ r ∈ d.references, g.Offers r) ∧
    (∀ r owner, g.Offers r →
      (∃ es, g.enumerate owner r = .ok es) ∧ ∀ cap, Returns (g.count cap owner r)) ∧
    (∀ r owner depth, g.Offers r → g.definitions.length ≤ depth →
      (∀ unresolved deeper, answerTo Definition.enumerateUse unresolved g.definitions deeper
        depth owner r = g.enumerate owner r) ∧
      ∀ cap unresolved deeper, answerTo (Definition.countUse cap) unresolved g.definitions deeper
        depth owner r = g.count cap owner r) ∧
    (∀ d ∈ g.definitions,
      (∀ cap, Returns ((Item.unit d.key).count g cap)) ∧ Returns ((Item.unit d.key).all g) ∧
      ∃ s, d.synonyms g.enumerate = .ok s) ∧
    ∃ s, g.synonyms = .ok s := by
  have hg : g.Valid := valid_of_ofDefinitions h
  refine ⟨fun d hd => hg.offers_references hd, fun r owner hr => ?_,
    fun r owner depth hr hdepth => ⟨fun unresolved deeper => ?_, fun cap unresolved deeper => ?_⟩,
    fun d hd => ?_, hg.exists_synonyms⟩
  · exact ⟨hg.exists_enumerate_of_offers hr owner,
      fun cap => hg.returns_count_of_offers hr cap owner⟩
  · unfold enumerate
    rw [enumerateIn_eq_answerIn]
    exact hg.answerTo_eq Definition.asksOwn_enumerateUse unresolved deeper _ hr hdepth owner
  · unfold count
    rw [countIn_eq_answerIn]
    exact hg.answerTo_eq (Definition.asksOwn_countUse cap) unresolved deeper _ hr hdepth owner
  · exact ⟨fun cap => hg.returns_count hd, hg.returns_all hd, hg.exists_synonyms_of_mem hd⟩

end Graph

namespace Salutation

/-- The short form of the phrase, though with an argument, is listed and counted, and two
definitions deep is deep enough. -/
theorem answers_short :
    Graph.ofDefinitions [hello, greet] = .ok graph ∧
    (∃ es, graph.enumerate "greet" (hello.key.use (some "short") ["you".toList]) = .ok es ∧
      ∀ unresolved deeper, answerTo Definition.enumerateUse unresolved graph.definitions deeper 2
        "greet" (hello.key.use (some "short") ["you".toList]) = .ok es) ∧
    ∃ s, graph.synonyms = .ok s := by
  obtain ⟨-, hanswers, hdepth, -, hsynonyms⟩ := Graph.answers_of_ofDefinitions ofDefinitions_eq
  have hoffer : graph.Offers (hello.key.use (some "short") ["you".toList]) :=
    ⟨hello, by simp [graph], rfl, by simp [Key.use, hello]⟩
  obtain ⟨es, hes⟩ := (hanswers _ "greet" hoffer).1
  refine ⟨ofDefinitions_eq, ⟨es, hes, fun unresolved deeper => ?_⟩, hsynonyms⟩
  rw [(hdepth _ "greet" 2 hoffer (by simp [graph])).1 unresolved deeper, hes]

end Salutation

end Phrasebook
