import Mathlib.Algebra.Group.Nat.Defs
import Phrasebook.Proofs.Decoding
import Phrasebook.Proofs.Graph
import Phrasebook.Proofs.Json.Encoded

/-!
Documents survive encoding.

The encoder, the decoder and the schema follow the same data, each along its own path.  What
one lemma says of all three is `IsEncoding`: the value has no repeated names, it meets the
schema of its place, and what is decoded from it is what was encoded.  One such lemma for each
kind of data makes the claim about documents; rules and tokens are nested in one another, and
theirs are proved together along the nesting.

A value is not yet a text.  Read from its text, compact or pretty, a document is the same again
as long as each of its numbers is read back from its own text and its groups are not nested too
deep.  Both conditions are needed: the text of a document can be written that cannot be read.
-/

namespace Phrasebook

/-! ### The numbers of a document -/

/-- The binary64 numbers of modifiers. -/
def Modifiers.reals (m : Modifiers) : List Binary64 := m.chance.toList

mutual

/-- The binary64 numbers of rules, those inside groups included. -/
def realsOfRules : List Rule → List Binary64
  | [] => []
  | .mk tokens weight _ :: rest => weight :: (realsOfTokens tokens ++ realsOfRules rest)

/-- The binary64 numbers of tokens. -/
def realsOfTokens : List Token → List Binary64
  | [] => []
  | token :: rest => realsOfToken token ++ realsOfTokens rest

/-- The binary64 numbers of a token. -/
def realsOfToken : Token → List Binary64
  | .word _ m | .reference _ m => m.reals
  | .group rules m => realsOfRules rules ++ m.reals

end

/-- The weights and chances of a document. -/
def Document.reals (d : Document) : List Binary64 :=
  d.definitions.flatMap fun definition => realsOfRules definition.allRules

/-- The counts that a directive asks for. -/
def Directive.counts (d : Directive) : List Nat :=
  [d.train, d.test].filterMap fun
    | some (.count n) => some n
    | _ => none

/-- The counts that a document asks for. -/
def Document.counts (d : Document) : List Nat :=
  d.definitions.flatMap fun definition => (definition.directive.map Directive.counts).getD []

/-! ### Encodings -/

/-- The value is accepted in its place and decoded to what it was made of. -/
structure IsEncoding {α : Type} (P : Json.Number → Prop) (s : Schema)
    (decode : Json → Decoded α) (x : α) (j : Json) : Prop where
  clean : j.IsClean P
  met : s.isMetBy j = true
  decoded : decode j = .ok x

/-- What is known of the numbers of some data. -/
def Known (P : Json.Number → Prop) (reals : List Binary64) : Prop :=
  ∀ x ∈ reals, x.isFinite = true ∧ P (.real x)

variable {P : Json.Number → Prop}

theorem mem_realsOfRules {x : Binary64} {rules : List Rule} :
    x ∈ realsOfRules rules ↔ ∃ rule ∈ rules, x ∈ realsOfRules [rule] := by
  induction rules with
  | nil => simp [realsOfRules]
  | cons rule rest ih =>
      obtain ⟨tokens, weight, value⟩ := rule
      rw [List.exists_mem_cons_iff, ← ih]
      simp [realsOfRules, or_assoc]

theorem Known.of_subset {rules all : List Rule} (h : Known P (realsOfRules all))
    (hsubset : ∀ rule ∈ rules, rule ∈ all) : Known P (realsOfRules rules) := by
  intro x hx
  obtain ⟨rule, hrule, hx⟩ := mem_realsOfRules.mp hx
  exact h x (mem_realsOfRules.mpr ⟨rule, hsubset rule hrule, hx⟩)

theorem Known.append {a b : List Binary64} (h : Known P (a ++ b)) : Known P a ∧ Known P b :=
  List.forall_mem_append.mp h

theorem IsEncoding.ofList {α : Type} {s : Schema} {encode : α → Json} {decode : Json → Decoded α}
    {xs : List α} (h : ∀ x ∈ xs, IsEncoding P s decode x (encode x)) :
    IsEncoding P (.listOf s) (Json.asList decode) xs (Json.ofList encode xs) where
  clean := .array (List.forall_mem_map.mpr fun x hx => (h x hx).clean)
  met := Schema.isMetBy_listOf_iff.mpr
    ⟨_, rfl, List.forall_mem_map.mpr fun x hx => (h x hx).met⟩
  decoded := Json.asList_ofList fun x hx => (h x hx).decoded

theorem IsEncoding.texts (xs : List Text) :
    IsEncoding P (.listOf .text) (Json.asList Json.asText) xs (Json.ofList .text xs) :=
  .ofList fun x _ => ⟨.text x, Schema.isMetBy_text_iff.mpr ⟨_, rfl⟩, Json.asText_text x⟩

/-! ### Modifiers -/

namespace Modifiers

theorem isClean (m : Modifiers) (h : Known P m.reals) : m.toJson.IsClean P := by
  refine .object ?_ (List.forall_mem_cons.mpr ⟨.string _, List.forall_mem_append.mpr
    ⟨Json.forall_someField fun x hx => ?_, List.forall_mem_append.mpr
      ⟨Json.forall_itemsField (IsEncoding.texts _).clean,
        Json.forall_someField fun x _ => .string x⟩⟩⟩)
  · have hnames : ["casing", "optional", "arguments", "variation"].Nodup := by decide
    refine hnames.sublist ?_
    rw [List.map_cons, List.map_append, List.map_append]
    exact ((Json.names_someField _).append ((Json.names_itemsField _).append
      (Json.names_someField _))).cons_cons _
  · obtain ⟨hfinite, hP⟩ := h x (by simp [reals, hx])
    exact .real hfinite hP

theorem field?_toJson (m : Modifiers) :
    m.toJson.field? "casing" = some (.string m.casing.name) ∧
      m.toJson.field? "optional" = m.chance.map .real ∧
      m.toJson.field? "arguments" =
        (if m.arguments.isEmpty then none else some (.ofList .text m.arguments)) ∧
      m.toJson.field? "variation" = m.variation.map .string := by
  refine ⟨?_, ?_, ?_, ?_⟩ <;>
    simp [toJson, Json.field?, Json.lookup_cons_eq, List.lookup_append, Json.lookup_someField,
      Json.lookup_itemsField]

theorem isEncoding (m : Modifiers) (h : Known P m.reals) (inToken : Bool) :
    IsEncoding P Schema.modifiers (ofJson inToken) m m.toJson := by
  obtain ⟨hcasing, hchance, harguments, hvariation⟩ := m.field?_toJson
  have hclean := m.isClean h
  have hreal : ∀ x, m.chance = some x → Json.real x = .number (.real x) := fun x hx =>
    Json.real_of_isFinite (h x (by simp [reals, hx])).1
  refine ⟨hclean, ?_, ?_⟩
  · refine (Schema.isMetBy_modifiers_iff hclean.noRepeats).mpr
      ⟨⟨_, rfl⟩, fun x hx => ?_, fun x hx => ?_, fun x hx => ?_, fun x hx => ?_⟩
    · exact ⟨m.casing, (Option.some.inj (hcasing.symm.trans hx)).symm⟩
    · obtain ⟨y, hy, rfl⟩ := Option.map_eq_some_iff.mp (hchance.symm.trans hx)
      exact .inl ⟨_, hreal y hy⟩
    · obtain rfl := Json.eq_of_itemsField (harguments.symm.trans hx)
      exact ⟨_, rfl, List.forall_mem_map.mpr fun t _ => ⟨_, rfl⟩⟩
    · obtain ⟨y, hy, rfl⟩ := Option.map_eq_some_iff.mp (hvariation.symm.trans hx)
      exact .inl ⟨_, rfl⟩
  · obtain ⟨r, hr, hholds⟩ := Json.exists_record hclean.noRepeats ⟨_, rfl⟩
      ["casing", "optional", "arguments", "variation"]
    refine bind_eq_ok.mpr ⟨r, hr, bind_eq_ok.mpr ⟨m.casing, ?_, bind_eq_ok.mpr ⟨m.chance, ?_,
      bind_eq_ok.mpr ⟨m.arguments, ?_, bind_eq_ok.mpr ⟨m.variation, ?_, rfl⟩⟩⟩⟩⟩
    · rw [hholds.getD (by decide), hcasing]
      exact Json.asChoice_casing m.casing inToken
    · refine hholds.getD_someField (by decide) hchance (fun x hx => ?_) fun x hx => ?_
      · rw [hreal x hx]
        exact Json.noConfusion
      · rw [hreal x hx]
        rfl
    · exact hholds.getD_itemsField (by decide) harguments (IsEncoding.texts (P := P) _).decoded
    · exact hholds.getD_someField (by decide) hvariation (fun _ _ => Json.noConfusion)
        fun _ _ => rfl

end Modifiers

/-! ### Rules and tokens -/

/-- Encodes a rule. -/
def Rule.toJson : Rule → Json
  | .mk tokens weight value =>
    .object (("tokens", .array (tokensToJson tokens)) :: ("weight", .real weight) ::
      Json.someField "value" .text value)

theorem rulesToJson_eq (rules : List Rule) : rulesToJson rules = rules.map Rule.toJson := by
  induction rules with
  | nil => rfl
  | cons rule rest ih =>
      obtain ⟨tokens, weight, value⟩ := rule
      rw [rulesToJson, ih]
      rfl

theorem tokensToJson_eq (tokens : List Token) : tokensToJson tokens = tokens.map tokenToJson := by
  induction tokens with
  | nil => rfl
  | cons token rest ih => rw [tokensToJson, ih, List.map_cons]

theorem Rule.isClean_mk {tokens : List Token} {weight : Binary64} {value : Option Text}
    (hweight : weight.isFinite = true ∧ P (.real weight))
    (htokens : (Json.array (tokensToJson tokens)).IsClean P) :
    (Rule.mk tokens weight value).toJson.IsClean P := by
  refine .object ?_ (List.forall_mem_cons.mpr ⟨htokens, List.forall_mem_cons.mpr
    ⟨.real hweight.1 hweight.2, Json.forall_someField fun x _ => .text x⟩⟩)
  have hnames : ["tokens", "weight", "value"].Nodup := by decide
  exact hnames.sublist (((Json.names_someField _).cons_cons _).cons_cons _)

theorem Rule.field?_toJson (tokens : List Token) (weight : Binary64) (value : Option Text) :
    (Rule.mk tokens weight value).toJson.field? "tokens" = some (.array (tokensToJson tokens)) ∧
      (Rule.mk tokens weight value).toJson.field? "weight" = some (.real weight) ∧
      (Rule.mk tokens weight value).toJson.field? "value" = value.map .text := by
  refine ⟨rfl, rfl, ?_⟩
  simp [toJson, Json.field?, Json.lookup_cons_eq, Json.lookup_someField]

theorem Rule.isEncoding_mk {tokens : List Token} {weight : Binary64} {value : Option Text}
    {inToken : Bool} (hweight : weight.isFinite = true ∧ P (.real weight))
    (htokens : ∀ token ∈ tokens,
      IsEncoding P Schema.token (Token.ofJson inToken) token (tokenToJson token)) :
    IsEncoding P Schema.rule (Rule.ofJson inToken) (.mk tokens weight value)
      (Rule.mk tokens weight value).toJson := by
  have hlist := IsEncoding.ofList htokens
  rw [Json.ofList, ← tokensToJson_eq] at hlist
  have hclean : (Rule.mk tokens weight value).toJson.IsClean P :=
    isClean_mk hweight hlist.clean
  obtain ⟨hfield, hweightField, hvalue⟩ := Rule.field?_toJson tokens weight value
  rw [Json.real_of_isFinite hweight.1] at hweightField
  refine ⟨hclean, ?_, ?_⟩
  · refine (Schema.isMetBy_rule_iff hclean.noRepeats).mpr
      ⟨⟨_, rfl⟩, ⟨_, hfield, ?_⟩, fun x hx => ?_, fun x hx => ?_⟩
    · exact Schema.isMetBy_listOf_iff.mp hlist.met
    · obtain ⟨y, -, rfl⟩ := Option.map_eq_some_iff.mp (hvalue.symm.trans hx)
      exact .inl ⟨_, rfl⟩
    · exact ⟨_, (Option.some.inj (hweightField.symm.trans hx)).symm⟩
  · obtain ⟨r, hr, hholds⟩ := Json.exists_record hclean.noRepeats ⟨_, rfl⟩
      ["tokens", "weight", "value"]
    rw [Rule.ofJson]
    refine bind_eq_ok.mpr ⟨r, hr, bind_eq_ok.mpr ⟨tokens, ?_, bind_eq_ok.mpr ⟨weight, ?_,
      bind_eq_ok.mpr ⟨value, ?_, rfl⟩⟩⟩⟩
    · exact (hholds.get (by decide) hfield _).trans hlist.decoded
    · rw [hholds.getD (by decide), hweightField]
      rfl
    · exact hholds.getD_someField (by decide) hvalue (fun _ _ => Json.noConfusion)
        fun x _ => Json.asText_text x

/-- What every token says of itself is decoded first. -/
theorem Token.exists_record (type : TokenType) {j : Json} (hj : j.NoRepeats)
    (hobject : ∃ fields, j = .object fields) {m : Modifiers} {inToken : Bool}
    (hfield : j.field? "modifiers" = some m.toJson)
    (hm : IsEncoding P Schema.modifiers (Modifiers.ofJson inToken) m m.toJson)
    (htype : j.field? "type" = some (.string type.name)) :
    ∃ r, j.recordOfObject ["type", "modifiers"] = .ok r ∧
      r.getD "modifiers" .plain (Modifiers.ofJson inToken) = .ok m ∧
      r.get "type" TokenType.ofJson = .ok type := by
  obtain ⟨r, hr, hholds⟩ := Json.exists_recordOfObject hj hobject ["type", "modifiers"]
  refine ⟨r, hr, ?_, ?_⟩
  · rw [hholds.getD (by decide), hfield]
    exact hm.decoded
  · rw [hholds.get (by decide) htype, TokenType.ofJson_name]

theorem Token.isEncoding_word {text : Text} {m : Modifiers} {inToken : Bool}
    (hm : Known P m.reals) :
    IsEncoding P Schema.token (Token.ofJson inToken) (.word text m)
      (tokenToJson (.word text m)) := by
  have hmodifiers := m.isEncoding hm inToken
  have hclean : (tokenToJson (.word text m)).IsClean P := by
    refine .object (show ["type", "text", "modifiers"].Nodup by decide) ?_
    exact List.forall_mem_cons.mpr ⟨.string _, List.forall_mem_cons.mpr
      ⟨.text text, List.forall_mem_singleton.mpr hmodifiers.clean⟩⟩
  refine ⟨hclean, ?_, ?_⟩
  · refine (Schema.isMetBy_token_iff hclean.noRepeats).mpr
      ⟨⟨_, rfl⟩, fun x hx => ?_, .inl ⟨⟨_, rfl, _, rfl⟩, _, rfl, rfl⟩⟩
    obtain rfl := Option.some.inj hx
    exact hmodifiers.met
  · obtain ⟨r, hr, hrm, hrtype⟩ :=
      Token.exists_record .word hclean.noRepeats ⟨_, rfl⟩ rfl hmodifiers rfl
    obtain ⟨r', hr', hholds⟩ := Json.exists_recordOfObject hclean.noRepeats ⟨_, rfl⟩ ["text"]
    rw [Token.ofJson]
    exact bind_eq_ok.mpr ⟨r, hr, bind_eq_ok.mpr ⟨m, hrm, bind_eq_ok.mpr ⟨.word, hrtype,
      bind_eq_ok.mpr ⟨r', hr', bind_eq_ok.mpr ⟨text,
        (hholds.get (by decide) rfl _).trans (Json.asText_text text), rfl⟩⟩⟩⟩⟩

theorem Token.isEncoding_reference {target : Key} {m : Modifiers} {inToken : Bool}
    (hm : Known P m.reals) :
    IsEncoding P Schema.token (Token.ofJson inToken) (.reference target m)
      (tokenToJson (.reference target m)) := by
  have hmodifiers := m.isEncoding hm inToken
  have hclean : (tokenToJson (.reference target m)).IsClean P := by
    refine .object (show ["type", "kind", "name", "modifiers"].Nodup by decide) ?_
    exact List.forall_mem_cons.mpr ⟨.string _, List.forall_mem_cons.mpr ⟨.string _,
      List.forall_mem_cons.mpr ⟨.string _, List.forall_mem_singleton.mpr hmodifiers.clean⟩⟩⟩
  refine ⟨hclean, ?_, ?_⟩
  · refine (Schema.isMetBy_token_iff hclean.noRepeats).mpr
      ⟨⟨_, rfl⟩, fun x hx => ?_, .inr (.inr ⟨⟨_, rfl, target.kind, rfl⟩, ⟨_, rfl, _, rfl⟩,
        _, rfl, rfl⟩)⟩
    obtain rfl := Option.some.inj hx
    exact hmodifiers.met
  · obtain ⟨r, hr, hrm, hrtype⟩ :=
      Token.exists_record .reference hclean.noRepeats ⟨_, rfl⟩ rfl hmodifiers rfl
    obtain ⟨r', hr', hholds⟩ :=
      Json.exists_recordOfObject hclean.noRepeats ⟨_, rfl⟩ ["kind", "name"]
    rw [Token.ofJson]
    refine bind_eq_ok.mpr ⟨r, hr, bind_eq_ok.mpr ⟨m, hrm, bind_eq_ok.mpr ⟨.reference, hrtype,
      bind_eq_ok.mpr ⟨target, bind_eq_ok.mpr ⟨r', hr', bind_eq_ok.mpr ⟨target.kind, ?_,
        bind_eq_ok.mpr ⟨target.name, ?_, rfl⟩⟩⟩, rfl⟩⟩⟩⟩
    · exact (hholds.get (by decide) rfl _).trans (Json.asChoice_kind target.kind true)
    · exact hholds.get (show "name" ∈ ["kind", "name"] by decide) rfl _

theorem Token.isEncoding_group {rules : List Rule} {m : Modifiers} {inToken : Bool}
    (hm : Known P m.reals)
    (hrules : ∀ rule ∈ rules, IsEncoding P Schema.rule (Rule.ofJson true) rule rule.toJson) :
    IsEncoding P Schema.token (Token.ofJson inToken) (.group rules m)
      (tokenToJson (.group rules m)) := by
  have hmodifiers := m.isEncoding hm inToken
  have hlist := IsEncoding.ofList hrules
  rw [Json.ofList, ← rulesToJson_eq] at hlist
  have hclean : (tokenToJson (.group rules m)).IsClean P := by
    refine .object (show ["type", "rules", "modifiers"].Nodup by decide) ?_
    exact List.forall_mem_cons.mpr ⟨.string _, List.forall_mem_cons.mpr
      ⟨hlist.clean, List.forall_mem_singleton.mpr hmodifiers.clean⟩⟩
  refine ⟨hclean, ?_, ?_⟩
  · refine (Schema.isMetBy_token_iff hclean.noRepeats).mpr
      ⟨⟨_, rfl⟩, fun x hx => ?_, .inr (.inl ⟨⟨_, rfl, ?_⟩, _, rfl, rfl⟩)⟩
    · obtain rfl := Option.some.inj hx
      exact hmodifiers.met
    · exact Schema.isMetBy_listOf_iff.mp hlist.met
  · obtain ⟨r, hr, hrm, hrtype⟩ :=
      Token.exists_record .group hclean.noRepeats ⟨_, rfl⟩ rfl hmodifiers rfl
    obtain ⟨r', hr', hholds⟩ := Json.exists_recordOfObject hclean.noRepeats ⟨_, rfl⟩ ["rules"]
    rw [Token.ofJson]
    exact bind_eq_ok.mpr ⟨r, hr, bind_eq_ok.mpr ⟨m, hrm, bind_eq_ok.mpr ⟨.group, hrtype,
      bind_eq_ok.mpr ⟨r', hr', bind_eq_ok.mpr ⟨rules, (hholds.get (by decide) rfl _).trans
        hlist.decoded, rfl⟩⟩⟩⟩⟩

mutual

/-- **Rules are encoded, whatever they hold.** -/
theorem isEncoding_rules (rules : List Rule) (h : Known P (realsOfRules rules)) (inToken : Bool) :
    ∀ rule ∈ rules, IsEncoding P Schema.rule (Rule.ofJson inToken) rule rule.toJson := by
  match rules with
  | [] => exact fun _ h => absurd h List.not_mem_nil
  | .mk tokens weight value :: rest =>
      obtain ⟨hweight, hinner⟩ := List.forall_mem_cons.mp h
      obtain ⟨htokens, hrest⟩ := Known.append hinner
      exact List.forall_mem_cons.mpr
        ⟨Rule.isEncoding_mk hweight (isEncoding_tokens tokens htokens inToken),
          isEncoding_rules rest hrest inToken⟩

theorem isEncoding_tokens (tokens : List Token) (h : Known P (realsOfTokens tokens))
    (inToken : Bool) :
    ∀ token ∈ tokens,
      IsEncoding P Schema.token (Token.ofJson inToken) token (tokenToJson token) := by
  match tokens with
  | [] => exact fun _ h => absurd h List.not_mem_nil
  | token :: rest =>
      obtain ⟨htoken, hrest⟩ := Known.append h
      exact List.forall_mem_cons.mpr
        ⟨isEncoding_token token htoken inToken, isEncoding_tokens rest hrest inToken⟩

theorem isEncoding_token (token : Token) (h : Known P (realsOfToken token)) (inToken : Bool) :
    IsEncoding P Schema.token (Token.ofJson inToken) token (tokenToJson token) := by
  match token with
  | .word text m => exact Token.isEncoding_word h
  | .reference target m => exact Token.isEncoding_reference h
  | .group rules m =>
      obtain ⟨hrules, hm⟩ := Known.append h
      exact Token.isEncoding_group hm (isEncoding_rules rules hrules true)

end

/-! ### Definitions and documents -/

theorem isEncoding_listOf_rules {rules : List Rule} (h : Known P (realsOfRules rules)) :
    IsEncoding P (.listOf Schema.rule) rulesOfJson rules (.array (rulesToJson rules)) := by
  rw [rulesToJson_eq]
  exact .ofList (isEncoding_rules rules h false)

theorem Variation.isEncoding {v : Variation} (h : Known P (realsOfRules v.rules)) :
    IsEncoding P Schema.variation ofJson v v.toJson := by
  have hrules := isEncoding_listOf_rules h
  have hclean : v.toJson.IsClean P := by
    refine .object (show ["name", "rules"].Nodup by decide) ?_
    exact List.forall_mem_cons.mpr ⟨.string _, List.forall_mem_singleton.mpr hrules.clean⟩
  refine ⟨hclean, ?_, ?_⟩
  · exact (Schema.isMetBy_variation_iff hclean.noRepeats).mpr ⟨⟨_, rfl⟩, ⟨_, rfl, _, rfl⟩, _, rfl,
      Schema.isMetBy_listOf_iff.mp hrules.met⟩
  · obtain ⟨r, hr, hholds⟩ := Json.exists_record hclean.noRepeats ⟨_, rfl⟩ ["name", "rules"]
    exact bind_eq_ok.mpr ⟨r, hr, bind_eq_ok.mpr ⟨v.name,
      hholds.get (show "name" ∈ ["name", "rules"] by decide) rfl _, bind_eq_ok.mpr ⟨v.rules,
        (hholds.get (by decide) rfl _).trans hrules.decoded, rfl⟩⟩⟩

/-- All machine words are among what is known of natural numbers. -/
def KnowsWords (P : Json.Number → Prop) : Prop := ∀ n < 2 ^ 64, P (.natural n)

theorem Amount.isEncoding (hP : KnowsWords P) {a : Amount}
    (h : ∀ n, a = .count n → n < 2 ^ 64) : IsEncoding P Schema.amount ofJson a a.toJson := by
  cases a with
  | all =>
      have hclean : (Amount.all.toJson).IsClean P := .string "all"
      exact ⟨hclean, (Schema.isMetBy_amount_iff hclean.noRepeats).mpr (.inl rfl), rfl⟩
  | count n =>
      have hn := h n rfl
      have hclean : ((Amount.count n).toJson).IsClean P :=
        .object (show ["count"].Nodup by decide)
          (List.forall_mem_singleton.mpr (.number (hP n hn)))
      refine ⟨hclean, (Schema.isMetBy_amount_iff hclean.noRepeats).mpr
        (.inr ⟨_, rfl, rfl, rfl⟩), ?_⟩
      refine map_eq_ok.mpr ⟨n, ?_, rfl⟩
      exact if_pos hn

theorem Amount.toJson_ne_null (a : Amount) : a.toJson ≠ .null := by
  cases a <;> exact Json.noConfusion

namespace Directive

theorem field?_toJson (d : Directive) :
    d.toJson.field? "train" = d.train.map Amount.toJson ∧
      d.toJson.field? "test" = d.test.map Amount.toJson := by
  constructor <;>
    simp [toJson, Json.field?, List.lookup_append, Json.lookup_someField]

theorem isEncoding (hP : KnowsWords P) {d : Directive} (h : ∀ n ∈ d.counts, n < 2 ^ 64) :
    IsEncoding P Schema.directive ofJson d d.toJson := by
  obtain ⟨htrain, htest⟩ := d.field?_toJson
  have hamount : ∀ a, d.train = some a ∨ d.test = some a →
      IsEncoding P Schema.amount Amount.ofJson a a.toJson := by
    intro a ha
    refine Amount.isEncoding hP fun n hn => h n ?_
    exact List.mem_filterMap.mpr ⟨some a, List.mem_pair.mpr (ha.imp Eq.symm Eq.symm), by rw [hn]⟩
  have hclean : d.toJson.IsClean P := by
    refine .object ?_ (List.forall_mem_append.mpr
      ⟨Json.forall_someField fun a ha => (hamount a (.inl ha)).clean,
        Json.forall_someField fun a ha => (hamount a (.inr ha)).clean⟩)
    have hnames : ["train", "test"].Nodup := by decide
    rw [List.map_append]
    exact hnames.sublist ((Json.names_someField _).append (Json.names_someField _))
  refine ⟨hclean, ?_, ?_⟩
  · refine (Schema.isMetBy_directive_iff hclean.noRepeats).mpr
      ⟨⟨_, rfl⟩, fun x hx => ?_, fun x hx => ?_⟩
    · obtain ⟨a, ha, rfl⟩ := Option.map_eq_some_iff.mp (htrain.symm.trans hx)
      exact .inl (hamount a (.inl ha)).met
    · obtain ⟨a, ha, rfl⟩ := Option.map_eq_some_iff.mp (htest.symm.trans hx)
      exact .inl (hamount a (.inr ha)).met
  · obtain ⟨r, hr, hholds⟩ := Json.exists_record hclean.noRepeats ⟨_, rfl⟩ ["train", "test"]
    refine bind_eq_ok.mpr ⟨r, hr, bind_eq_ok.mpr ⟨d.train, ?_, bind_eq_ok.mpr ⟨d.test, ?_, rfl⟩⟩⟩
    · exact hholds.getD_someField (by decide) htrain (fun a _ => a.toJson_ne_null)
        fun a ha => (hamount a (.inl ha)).decoded
    · exact hholds.getD_someField (by decide) htest (fun a _ => a.toJson_ne_null)
        fun a ha => (hamount a (.inr ha)).decoded

end Directive

namespace Definition

theorem field?_toJson (d : Definition) :
    d.toJson.field? "rules" = some (.array (rulesToJson d.rules)) ∧
      d.toJson.field? "variations" =
        (if d.variations.isEmpty then none else some (.ofList Variation.toJson d.variations)) ∧
      d.toJson.field? "parameters" =
        (if d.parameters.isEmpty then none else some (.ofList .text d.parameters)) ∧
      d.toJson.field? "directive" = d.directive.map Directive.toJson := by
  refine ⟨?_, ?_, ?_, ?_⟩ <;>
    simp [toJson, Json.field?, Json.lookup_cons_eq, List.lookup_append, Json.lookup_someField,
      Json.lookup_itemsField]

/-- The value of a definition is clean if those of its parts are. -/
theorem isClean {d : Definition} (hrules : (Json.array (rulesToJson d.rules)).IsClean P)
    (hvariations : (Json.ofList Variation.toJson d.variations).IsClean P)
    (hdirective : ∀ directive, d.directive = some directive → directive.toJson.IsClean P) :
    d.toJson.IsClean P := by
  refine .object ?_ (List.forall_mem_cons.mpr ⟨.string _, List.forall_mem_cons.mpr
    ⟨.string _, List.forall_mem_cons.mpr ⟨hrules, List.forall_mem_append.mpr
      ⟨Json.forall_itemsField hvariations, List.forall_mem_append.mpr
        ⟨Json.forall_itemsField (IsEncoding.texts _).clean,
          Json.forall_someField hdirective⟩⟩⟩⟩⟩)
  have hnames :
      ["kind", "name", "rules", "variations", "parameters", "directive"].Nodup := by decide
  refine hnames.sublist ?_
  simp only [List.map_cons, List.map_append]
  exact ((((Json.names_itemsField _).append ((Json.names_itemsField _).append
    (Json.names_someField _))).cons_cons _).cons_cons _).cons_cons _

theorem isEncoding (hP : KnowsWords P) {d : Definition} (h : Known P (realsOfRules d.allRules))
    (hcounts : ∀ directive, d.directive = some directive → ∀ n ∈ directive.counts, n < 2 ^ 64) :
    IsEncoding P Schema.definition ofJson d d.toJson := by
  obtain ⟨hrulesField, hvariationsField, hparametersField, hdirectiveField⟩ := d.field?_toJson
  have hrules : IsEncoding P (.listOf Schema.rule) rulesOfJson d.rules
      (.array (rulesToJson d.rules)) :=
    isEncoding_listOf_rules (h.of_subset fun rule hrule => List.mem_append_left _ hrule)
  have hvariations : IsEncoding P (.listOf Schema.variation) (Json.asList Variation.ofJson)
      d.variations (.ofList Variation.toJson d.variations) :=
    .ofList fun v hv => Variation.isEncoding (h.of_subset fun rule hrule =>
      List.mem_append_right _ (List.mem_flatMap.mpr ⟨v, hv, hrule⟩))
  have hdirective : ∀ directive, d.directive = some directive →
      IsEncoding P Schema.directive Directive.ofJson directive directive.toJson :=
    fun directive hd => Directive.isEncoding hP (hcounts directive hd)
  have hclean := isClean hrules.clean hvariations.clean fun x hx => (hdirective x hx).clean
  refine ⟨hclean, ?_, ?_⟩
  · refine (Schema.isMetBy_definition_iff hclean.noRepeats).mpr ⟨⟨_, rfl⟩, fun x hx => ?_,
      ⟨_, rfl, d.kind, rfl⟩, ⟨_, rfl, _, rfl⟩, fun x hx => ?_, fun x hx => ?_, fun x hx => ?_⟩
    · obtain ⟨y, hy, rfl⟩ := Option.map_eq_some_iff.mp (hdirectiveField.symm.trans hx)
      exact .inl (hdirective y hy).met
    · obtain rfl := Json.eq_of_itemsField (hparametersField.symm.trans hx)
      exact ⟨_, rfl, List.forall_mem_map.mpr fun t _ => ⟨_, rfl⟩⟩
    · obtain rfl := Option.some.inj (hrulesField.symm.trans hx)
      exact Schema.isMetBy_listOf_iff.mp hrules.met
    · obtain rfl := Json.eq_of_itemsField (hvariationsField.symm.trans hx)
      exact Schema.isMetBy_listOf_iff.mp hvariations.met
  · obtain ⟨r, hr, hholds⟩ := Json.exists_record hclean.noRepeats ⟨_, rfl⟩
      ["kind", "name", "rules", "variations", "parameters", "directive"]
    refine bind_eq_ok.mpr ⟨r, hr, bind_eq_ok.mpr ⟨d.kind, ?_, bind_eq_ok.mpr ⟨d.name, ?_,
      bind_eq_ok.mpr ⟨d.rules, ?_, bind_eq_ok.mpr ⟨d.variations, ?_, bind_eq_ok.mpr
        ⟨d.parameters, ?_, bind_eq_ok.mpr ⟨d.directive, ?_, rfl⟩⟩⟩⟩⟩⟩⟩
    · exact (hholds.get (by decide) rfl _).trans (Json.asChoice_kind d.kind false)
    · exact hholds.get (show "name" ∈ _ by decide) rfl _
    · rw [hholds.getD (by decide), hrulesField]
      exact hrules.decoded
    · exact hholds.getD_itemsField (by decide) hvariationsField hvariations.decoded
    · exact hholds.getD_itemsField (by decide) hparametersField
        (IsEncoding.texts (P := P) _).decoded
    · exact hholds.getD_someField (by decide) hdirectiveField (fun _ _ => Json.noConfusion)
        fun x hx => (hdirective x hx).decoded

end Definition

theorem Document.isEncoding (hP : KnowsWords P) {d : Document} (h : Known P d.reals)
    (hcounts : ∀ n ∈ d.counts, n < 2 ^ 64) :
    IsEncoding P Schema.document ofJson d d.toJson := by
  have hlist : IsEncoding P (.listOf Schema.definition) (Json.asList Definition.ofJson)
      d.definitions (.ofList Definition.toJson d.definitions) := by
    refine .ofList fun definition hd => Definition.isEncoding hP (fun x hx => h x ?_) ?_
    · exact List.mem_flatMap.mpr ⟨definition, hd, hx⟩
    · intro directive hdirective n hn
      refine hcounts n (List.mem_flatMap.mpr ⟨definition, hd, ?_⟩)
      rw [hdirective]
      exact hn
  have hclean : d.toJson.IsClean P :=
    .object (show ["definitions"].Nodup by decide) (List.forall_mem_singleton.mpr hlist.clean)
  refine ⟨hclean, ?_, ?_⟩
  · exact (Schema.isMetBy_document_iff hclean.noRepeats).mpr ⟨⟨_, rfl⟩, _, rfl,
      Schema.isMetBy_listOf_iff.mp hlist.met⟩
  · obtain ⟨r, hr, hholds⟩ := Json.exists_record hclean.noRepeats ⟨_, rfl⟩ ["definitions"]
    exact bind_eq_ok.mpr ⟨r, hr, bind_eq_ok.mpr ⟨d.definitions,
      (hholds.get (by decide) rfl _).trans hlist.decoded, rfl⟩⟩

/-! ### Reading a document -/

theorem Graph.ofJson_toJson {d : Document} (hreals : ∀ x ∈ d.reals, x.isFinite = true)
    (hcounts : ∀ n ∈ d.counts, n < 2 ^ 64) :
    Graph.ofJson d.toJson = (Graph.ofDefinitions d.definitions).mapError .invalid := by
  have h : IsEncoding (fun _ => True) Schema.document Document.ofJson d d.toJson :=
    Document.isEncoding (fun _ _ => trivial) (fun x hx => ⟨hreals x hx, trivial⟩) hcounts
  rw [Graph.ofJson_of_met h.met, h.decoded]
  rfl

theorem Document.isReadBack {d : Document} (hreals : ∀ x ∈ d.reals, x.isFinite = true)
    (hcounts : ∀ n ∈ d.counts, n < 2 ^ 64)
    (hread : ∀ x ∈ d.reals, (Json.Number.real x).IsReadBack) : d.toJson.IsReadBack :=
  (Document.isEncoding (fun _ hn => Json.Number.isReadBack_natural hn)
    (fun x hx => ⟨hreals x hx, hread x hx⟩) hcounts).clean.numbers

/--
**Documents survive encoding.**  The value of a document whose binary64 numbers are finite and
whose counts are machine words meets the schema and is decoded to the document again.  So every
text that is read as this value, whatever its blanks, makes the graph of the definitions or fails
as they do.  The compact and the pretty text are read as this value if each number of the
document is read back from its own text and if containers lie at most so deep in one another.
-/
theorem Document.survives_encoding {d : Document} (hreals : ∀ x ∈ d.reals, x.isFinite = true)
    (hcounts : ∀ n ∈ d.counts, n < 2 ^ 64) :
    Schema.document.isMetBy d.toJson = true ∧ ofJson d.toJson = .ok d ∧
      (∀ t j, Json.parse? t = some j → j.lastFields = d.toJson →
        Graph.ofText t = (Graph.ofDefinitions d.definitions).mapError .invalid) ∧
      ((∀ x ∈ d.reals, (Json.Number.real x).IsReadBack) → d.toJson.depth ≤ Json.maxDepth →
        ∀ t ∈ [d.toJson.compact, d.toJson.pretty], Json.parse? t = some d.toJson ∧
          Graph.ofText t = (Graph.ofDefinitions d.definitions).mapError .invalid) := by
  have h : IsEncoding (fun _ => True) Schema.document ofJson d d.toJson :=
    isEncoding (fun _ _ => trivial) (fun x hx => ⟨hreals x hx, trivial⟩) hcounts
  have hread : ∀ t j, Json.parse? t = some j → j.lastFields = d.toJson →
      Graph.ofText t = (Graph.ofDefinitions d.definitions).mapError .invalid := by
    intro t j hparse hlast
    rw [Graph.ofText_of_parse? hparse, hlast, Graph.ofJson_toJson hreals hcounts]
  refine ⟨h.met, h.decoded, hread, fun hreadBack hdepth t ht => ?_⟩
  have hnumbers := isReadBack hreals hcounts hreadBack
  have hspells : Json.Spells d.toJson.tokens t := by
    rcases List.mem_pair.mp ht with rfl | rfl
    · exact Json.spells_compact hnumbers
    · exact Json.spells_pretty hnumbers
  have hparse : Json.parse? t = some d.toJson := by
    rw [Json.parse?_of_spells hspells, if_pos hdepth]
  exact ⟨hparse, hread t d.toJson hparse h.clean.noRepeats.lastFields_eq⟩

/-! ### Groups in groups -/

namespace Nested

/-- A greeting in so many groups, one in another. -/
def rules : Nat → List Rule
  | 0 => [.mk [.word "hi".toList .plain] .one none]
  | depth + 1 => [.mk [.group (rules depth) .plain] .one none]

def greet (depth : Nat) : Definition where
  kind := .intent
  name := "greet"
  rules := rules depth
  variations := [⟨"warm", [.mk [.word "hello".toList ⟨.either, some .half, [], none⟩] .half none]⟩]
  parameters := ["who".toList]
  directive := some ⟨some (.count 3), none⟩

def document (depth : Nat) : Document := ⟨[greet depth]⟩

def graph (depth : Nat) : Graph := ⟨[greet depth], [greet depth]⟩

theorem ofDefinitions_shallow : Graph.ofDefinitions (document 2).definitions = .ok (graph 2) :=
  Graph.ofDefinitions_singleton (ok_of_toOption (by decide +kernel)) rfl

theorem ofDefinitions_deep : Graph.ofDefinitions (document 30).definitions = .ok (graph 30) :=
  Graph.ofDefinitions_singleton (ok_of_toOption (by decide +kernel)) rfl

theorem reals_shallow :
    ∀ x ∈ (document 2).reals, x.isFinite = true ∧ (Json.Number.real x).IsReadBack := by
  decide +kernel

theorem reals_deep :
    ∀ x ∈ (document 30).reals, x.isFinite = true ∧ (Json.Number.real x).IsReadBack := by
  decide +kernel

end Nested

/-- Groups in groups, probabilities and counts come back from the text. -/
theorem Document.survives_encoding_nested :
    Schema.document.isMetBy (Nested.document 2).toJson = true ∧
      ofJson (Nested.document 2).toJson = .ok (Nested.document 2) ∧
        Graph.ofText (Nested.document 2).toJson.compact = .ok (Nested.graph 2) := by
  have hreals := Nested.reals_shallow
  obtain ⟨hmet, hdecoded, -, htexts⟩ := Document.survives_encoding
    (fun x hx => (hreals x hx).1) (show ∀ n ∈ (Nested.document 2).counts, n < 2 ^ 64 by decide)
  have hdepth : (Nested.document 2).toJson.depth ≤ Json.maxDepth := by decide +kernel
  obtain ⟨-, hload⟩ := htexts (fun x hx => (hreals x hx).2) hdepth _ List.mem_cons_self
  rw [Nested.ofDefinitions_shallow] at hload
  exact ⟨hmet, hdecoded, hload⟩

/-- Thirty groups in one another make a graph, but the text of their document cannot be read. -/
theorem ofText_nested_deep :
    (∀ x ∈ (Nested.document 30).reals, x.isFinite = true) ∧
      (∀ n ∈ (Nested.document 30).counts, n < 2 ^ 64) ∧
        Graph.ofDefinitions (Nested.document 30).definitions = .ok (Nested.graph 30) ∧
          Graph.ofText (Nested.document 30).toJson.compact = .error .notJson := by
  have hreals := Nested.reals_deep
  have hfinite : ∀ x ∈ (Nested.document 30).reals, x.isFinite = true := fun x hx =>
    (hreals x hx).1
  have hcounts : ∀ n ∈ (Nested.document 30).counts, n < 2 ^ 64 := by decide
  have hreadBack := Document.isReadBack hfinite hcounts fun x hx => (hreals x hx).2
  have hdepth : ¬ (Nested.document 30).toJson.depth ≤ Json.maxDepth := by decide +kernel
  have hparse := Json.parse?_of_spells (Json.spells_compact hreadBack)
  rw [if_neg hdepth] at hparse
  exact ⟨hfinite, hcounts, Nested.ofDefinitions_deep, Graph.ofText_of_parse?_eq_none hparse⟩

end Phrasebook
