import Phrasebook.Generation.Item
import Phrasebook.Proofs.Distinct
import Phrasebook.Proofs.Graph

/-!
What the enumeration of a graph returns.

It always returns: each use is answered by a definition further down the layers, so nothing
is left unresolved.  What it returns holds no key twice, and if the definition is an intent,
all of it is of that intent, whatever the references inside made of it before.
-/

namespace Phrasebook

section

variable {answer : String → Reference → Sentences} {scope : Scope}

theorem enumerateRules_cons (finish : Rule → Example → Example) (rule : Rule) (rest : List Rule) :
    enumerateRules answer scope finish (rule :: rest) =
      if rule.isReachable then
        enumerateTokens answer scope [.empty] rule.tokens >>= fun here =>
          enumerateRules answer scope finish rest >>= fun later =>
            .ok (here.map (finish rule) ++ later)
      else enumerateRules answer scope finish rest := by
  obtain ⟨tokens, weight, value⟩ := rule
  rw [enumerateRules]
  rfl

/-- What is listed of a rule stands in front of what is listed of the rules behind it; a rule that
is never used adds nothing. -/
theorem of_enumerateRules_cons {finish : Rule → Example → Example} {rule : Rule} {rest : List Rule}
    {es : List Example} (h : enumerateRules answer scope finish (rule :: rest) = .ok es) :
    (rule.isReachable = true ∧ ∃ here later,
        enumerateTokens answer scope [.empty] rule.tokens = .ok here ∧
        enumerateRules answer scope finish rest = .ok later ∧
        here.map (finish rule) ++ later = es) ∨
      rule.isReachable ≠ true ∧ enumerateRules answer scope finish rest = .ok es := by
  rw [enumerateRules_cons] at h
  by_cases hreach : rule.isReachable = true
  · rw [if_pos hreach] at h
    obtain ⟨here, hhere, h⟩ := bind_eq_ok.mp h
    obtain ⟨later, hlater, h⟩ := bind_eq_ok.mp h
    exact Or.inl ⟨hreach, here, later, hhere, hlater, Except.ok.inj h⟩
  · rw [if_neg hreach] at h
    exact Or.inr ⟨hreach, h⟩

/-! ### It returns -/

mutual

theorem exists_enumerateTokens :
    ∀ tokens : List Token,
      (∀ r ∈ referencesOfTokens tokens, ∃ es, answer scope.owner r = .ok es) →
      ∀ fronts, ∃ es, enumerateTokens answer scope fronts tokens = .ok es
  | [] => by
      intro _ fronts
      exact ⟨fronts, by rw [enumerateTokens]⟩
  | token :: rest => by
      intro hanswer fronts
      rw [referencesOfTokens] at hanswer
      obtain ⟨backs, hbacks⟩ :=
        exists_enumerateToken token fun r hr => hanswer r (List.mem_append_left _ hr)
      obtain ⟨es, hes⟩ := exists_enumerateTokens rest
        (fun r hr => hanswer r (List.mem_append_right _ hr)) (sideBySide fronts backs)
      rw [enumerateTokens, hbacks]
      exact ⟨es, hes⟩

theorem exists_enumerateToken :
    ∀ token : Token, (∀ r ∈ referencesOfToken token, ∃ es, answer scope.owner r = .ok es) →
      ∃ es, enumerateToken answer scope token = .ok es
  | .word text m => by
      intro _
      rw [enumerateToken]
      split
      · exact ⟨_, rfl⟩
      · exact ⟨_, rfl⟩
  | .group rules m => by
      intro hanswer
      rw [referencesOfToken] at hanswer
      obtain ⟨base, hbase⟩ := exists_enumerateRules (fun _ e => e) rules hanswer
      rw [enumerateToken, hbase]
      split
      · exact ⟨_, rfl⟩
      · exact ⟨_, rfl⟩
  | .reference target m => by
      intro hanswer
      obtain ⟨base, hbase⟩ := hanswer ⟨target, m⟩ (by simp [referencesOfToken])
      rw [enumerateToken, hbase]
      split
      · exact ⟨_, rfl⟩
      · exact ⟨_, rfl⟩

theorem exists_enumerateRules (finish : Rule → Example → Example) :
    ∀ rules : List Rule,
      (∀ r ∈ referencesOfRules rules, ∃ es, answer scope.owner r = .ok es) →
      ∃ es, enumerateRules answer scope finish rules = .ok es
  | [] => by
      intro _
      exact ⟨[], by rw [enumerateRules]⟩
  | .mk tokens weight value :: rest => by
      intro hanswer
      rw [referencesOfRules] at hanswer
      obtain ⟨later, hlater⟩ := exists_enumerateRules finish rest
        fun r hr => hanswer r (List.mem_append_right _ hr)
      obtain ⟨here, hhere⟩ := exists_enumerateTokens tokens
        (fun r hr => hanswer r (List.mem_append_left _ hr)) [.empty]
      rw [enumerateRules_cons, Rule.tokens, hhere, hlater]
      split
      · exact ⟨_, rfl⟩
      · exact ⟨_, rfl⟩

end

/-! ### What it returns is finished -/

/-- What rules make is made by one of them that is reachable, and finished. -/
theorem exists_of_mem_enumerateRules {finish : Rule → Example → Example} {rules : List Rule} :
    ∀ es, enumerateRules answer scope finish rules = .ok es → ∀ e ∈ es,
      ∃ rule ∈ rules, rule.isReachable = true ∧
        ∃ here, enumerateTokens answer scope [.empty] rule.tokens = .ok here ∧
          ∃ e' ∈ here, e = finish rule e' := by
  induction rules with
  | nil =>
      intro es h e he
      rw [enumerateRules] at h
      obtain rfl : [] = es := by injection h
      simp at he
  | cons rule rest ih =>
      intro es h e he
      rcases of_enumerateRules_cons h with ⟨hreach, here, later, hhere, hlater, rfl⟩ | ⟨-, h⟩
      · rcases List.mem_append.mp he with he | he
        · obtain ⟨e', he', rfl⟩ := List.mem_map.mp he
          exact ⟨rule, List.mem_cons_self, hreach, here, hhere, e', he', rfl⟩
        · obtain ⟨other, hother, hmade⟩ := ih later hlater e he
          exact ⟨other, List.mem_cons_of_mem _ hother, hmade⟩
      · obtain ⟨other, hother, hmade⟩ := ih es h e he
        exact ⟨other, List.mem_cons_of_mem _ hother, hmade⟩

end

/-- Ways to finish that leave the keys alone make the same sentences. -/
theorem map_key_enumerateRules (answer : String → Reference → Sentences) (scope : Scope)
    (finish finish' : Rule → Example → Example)
    (h : ∀ rule e, (finish rule e).key = (finish' rule e).key) (rules : List Rule) :
    List.map Example.key <$> enumerateRules answer scope finish rules =
      List.map Example.key <$> enumerateRules answer scope finish' rules := by
  induction rules with
  | nil => rw [enumerateRules, enumerateRules]
  | cons rule rest ih =>
      rw [enumerateRules_cons, enumerateRules_cons]
      by_cases hreach : rule.isReachable = true
      · rw [if_pos hreach, if_pos hreach]
        cases enumerateTokens answer scope [.empty] rule.tokens with
        | error e => rfl
        | ok here =>
            have hhere : (here.map (finish rule)).map Example.key =
                (here.map (finish' rule)).map Example.key := by
              simp [h]
            rcases map_eq_map_cases ih with ⟨e, hx, hy⟩ | ⟨later, later', hx, hy, hlater⟩
            · rw [hx, hy]
              rfl
            · rw [hx, hy]
              refine congrArg Except.ok ?_
              rw [List.map_append, List.map_append, hhere, hlater]
      · rw [if_neg hreach, if_neg hreach]
        exact ih

namespace Definition

variable {answer : String → Reference → Sentences} {d : Definition} {variation : Option String}
  {arguments : List Text} {es : List Example}

theorem nodup_key_enumerate (h : d.enumerate answer variation arguments = .ok es) :
    (es.map Example.key).Nodup := by
  obtain ⟨rules, -, h⟩ := bind_eq_ok.mp h
  obtain ⟨all, -, rfl⟩ := map_eq_ok.mp h
  exact nodup_key_distinct all

/-- An intent puts its name on all its sentences. -/
theorem intent_of_enumerate (hkind : d.kind = .intent)
    (h : d.enumerate answer variation arguments = .ok es) :
    ∀ e ∈ es, e.intent = some d.name := by
  intro e he
  obtain ⟨rules, -, h⟩ := bind_eq_ok.mp h
  obtain ⟨all, hall, rfl⟩ := map_eq_ok.mp h
  obtain ⟨rule, -, -, here, -, e', -, rfl⟩ :=
    exists_of_mem_enumerateRules all hall e (mem_of_mem_distinct he)
  simp [finish, hkind, Example.withIntent]

end Definition

/-! ### Along the layers -/

/-- **Whatever is resolved is enumerated.** -/
theorem exists_enumerateIn {layers : List Definition} (hl : Layered layers) (owner : String)
    (r : Reference) (hr : r.Resolves layers) : ∃ es, enumerateIn layers owner r = .ok es := by
  induction layers, r, hl, hr using Layered.use_induction generalizing owner with
  | asked d below r rules _ _ hkey hselect ih =>
      have hinner : ∀ r' ∈ referencesOfRules rules, ∃ es, enumerateIn below d.name r' = .ok es :=
        fun r' hr' => ih r' (Definition.references_of_select hselect r' hr') d.name
      obtain ⟨es, hes⟩ : ∃ es, enumerateRules (enumerateIn below)
          (.ofDefinition d r.modifiers.arguments) d.finish rules = .ok es :=
        exists_enumerateRules d.finish rules hinner
      rw [enumerateIn, if_pos hkey]
      refine ⟨distinct es, bind_eq_ok.mpr ⟨rules, hselect, ?_⟩⟩
      exact map_eq_ok.mpr ⟨es, hes, rfl⟩
  | passed d below r _ _ _ hkey ih =>
      rw [enumerateIn, if_neg hkey]
      exact ih owner

/-- What is enumerated is enumerated by some definition with the key. -/
theorem exists_of_enumerateIn {layers : List Definition} {owner : String} {r : Reference}
    {es : List Example} (h : enumerateIn layers owner r = .ok es) :
    ∃ (d : Definition) (below : List Definition), d.key = r.target ∧
      d.enumerate (enumerateIn below) r.modifiers.variation r.modifiers.arguments = .ok es := by
  induction layers with
  | nil => injection h
  | cons d below ih =>
      rw [enumerateIn] at h
      split at h
      · exact ⟨d, below, by assumption, h⟩
      · exact ih h

/-- No key is listed twice. -/
theorem nodup_key_enumerateIn {layers : List Definition} {owner : String} {r : Reference}
    {es : List Example} (h : enumerateIn layers owner r = .ok es) :
    (es.map Example.key).Nodup := by
  obtain ⟨d, below, -, h⟩ := exists_of_enumerateIn h
  exact Definition.nodup_key_enumerate h

/-- A use of an intent puts the name of the intent on all its sentences. -/
theorem intent_of_enumerateIn {layers : List Definition} {owner : String} {r : Reference}
    (hkind : r.target.kind = .intent) {es : List Example}
    (h : enumerateIn layers owner r = .ok es) : ∀ e ∈ es, e.intent = some r.target.name := by
  obtain ⟨d, below, hkey, h⟩ := exists_of_enumerateIn h
  rw [← hkey] at hkind ⊢
  exact Definition.intent_of_enumerate hkind h

namespace Graph.Valid

variable {g : Graph} {d : Definition}

/-- A use of a definition of the graph can be made, if it asks for rules that are there. -/
theorem resolves_use (hg : g.Valid) (hd : d ∈ g.definitions) {variation : Option String}
    {rules : List Rule} (hselect : d.select variation = .ok rules) (arguments : List Text) :
    (d.key.use variation arguments).Resolves g.layers :=
  ⟨d, Definition.find?_of_mem hg.layered.nodup_key ((hg.mem_layers d).mpr hd), rules, hselect⟩

theorem exists_enumerate (hg : g.Valid) (hd : d ∈ g.definitions) :
    ∃ es, (Item.unit d.key).enumerate g = .ok es :=
  exists_enumerateIn hg.layered d.key.name (Item.useOf d.key) (hg.resolves_use hd rfl [])

end Graph.Valid

end Phrasebook
