import Phrasebook.Graph.Loading
import Phrasebook.Proofs.Json.Reading
import Phrasebook.Proofs.Schema

/-!
What the schema accepts, the decoder decodes.

The schema of a document and its decoder describe the format apart from one another.  The
decoder takes more than the schema does, structures written as arrays for instance, and all
that it refuses is refused by the schema as well, with one exception: to a schema, a count is
any number without a fraction that is not negative, and to the decoder it is an integer that a
machine word holds.

The induction for rules and tokens is on the size of the value, as in the decoder: the parts of
a value that are decoded in turn meet the schemas of their places.
-/

namespace Phrasebook

open Json (Decodes)

namespace Json

/-! ### Parts of a value -/

theorem sizeOf_lt_of_field? {j x : Json} {name : String} (h : j.field? name = some x) :
    sizeOf x < sizeOf j := by
  cases j with
  | object fields =>
      have hmem := List.sizeOf_lt_of_mem (mem_of_lookup h)
      simp only [Prod.mk.sizeOf_spec, object.sizeOf_spec] at hmem ⊢
      omega
  | _ => injection h

theorem NoRepeats.field? {j x : Json} {name : String} (hj : j.NoRepeats)
    (h : j.field? name = some x) : x.NoRepeats := by
  cases j with
  | object fields => exact hj.value _ (mem_of_lookup h)
  | _ => injection h

theorem sizeOf_item_lt {items : List Json} {x : Json} (h : x ∈ items) :
    sizeOf x < sizeOf (array items) := by
  have hmem := List.sizeOf_lt_of_mem h
  simp only [array.sizeOf_spec]
  omega

/-! ### Names -/

theorem asChoice_casing (c : Casing) (inToken : Bool) :
    asChoice "casing" Casing.all Casing.name inToken (string c.name) = .ok c := by
  cases c <;> rfl

theorem asChoice_kind (k : Kind) (inToken : Bool) :
    asChoice "kind" Kind.all Kind.name inToken (string k.name) = .ok k := by
  cases k <;> rfl

theorem Decodes.texts {items : List Json} (h : ∀ x ∈ items, ∃ s, x = string s) :
    Decodes (Json.asList Json.asText (array items)) := by
  refine Decodes.asList fun x hx => ?_
  obtain ⟨s, rfl⟩ := h x hx
  exact Decodes.asText s

end Json

theorem TokenType.ofJson_name (type : TokenType) :
    TokenType.ofJson (.string type.name) = .ok type := by
  cases type <;> rfl

/-! ### Rules and tokens -/

theorem Modifiers.decodes (inToken : Bool) {j : Json} (hj : j.NoRepeats)
    (h : Schema.modifiers.isMetBy j = true) : Decodes (Modifiers.ofJson inToken j) := by
  obtain ⟨hobject, hcasing, hchance, harguments, hvariation⟩ :=
    (Schema.isMetBy_modifiers_iff hj).mp h
  obtain ⟨r, hr, hholds⟩ :=
    Json.exists_record hj hobject ["casing", "optional", "arguments", "variation"]
  unfold Modifiers.ofJson
  refine Decodes.bind_ok hr ?_
  refine (hholds.decodes_getD (by decide) fun x hx => ?_).bind fun casing => ?_
  · obtain ⟨c, rfl⟩ := hcasing x hx
    exact ⟨c, Json.asChoice_casing c inToken⟩
  refine (hholds.decodes_getD (by decide) fun x hx => ?_).bind fun chance => ?_
  · refine Decodes.asOption ((hchance x hx).imp_left ?_)
    rintro ⟨n, rfl⟩
    exact Decodes.asReal n
  refine (hholds.decodes_getD (by decide) fun x hx => ?_).bind fun arguments => ?_
  · obtain ⟨items, rfl, hitems⟩ := harguments x hx
    exact Decodes.texts hitems
  refine (hholds.decodes_getD (by decide) fun x hx => ?_).bind fun variation => Decodes.pure _
  refine Decodes.asOption ((hvariation x hx).imp_left ?_)
  rintro ⟨s, rfl⟩
  exact ⟨s, rfl⟩

mutual

theorem Rule.decodes (inToken : Bool) (j : Json) (hj : j.NoRepeats)
    (h : Schema.rule.isMetBy j = true) : Decodes (Rule.ofJson inToken j) := by
  obtain ⟨hobject, ⟨_, htokens, items, rfl, hitems⟩, hvalue, hweight⟩ :=
    (Schema.isMetBy_rule_iff hj).mp h
  obtain ⟨r, hr, hholds⟩ := Json.exists_record hj hobject ["tokens", "weight", "value"]
  rw [Rule.ofJson]
  refine Decodes.bind_ok hr ?_
  refine (hholds.decodes_get (by decide) htokens (Decodes.asList fun x hx => ?_)).bind
    fun tokens => ?_
  · have hsize := Nat.lt_trans (Json.sizeOf_item_lt hx) (Json.sizeOf_lt_of_field? htokens)
    exact Token.decodes inToken x ((hj.field? htokens).item x hx) (hitems x hx)
  refine (hholds.decodes_getD (by decide) fun x hx => ?_).bind fun weight => ?_
  · obtain ⟨n, rfl⟩ := hweight x hx
    exact Decodes.asReal n
  refine (hholds.decodes_getD (by decide) fun x hx => ?_).bind fun value => Decodes.pure _
  refine Decodes.asOption ((hvalue x hx).imp_left ?_)
  rintro ⟨s, rfl⟩
  exact Decodes.asText s
  termination_by sizeOf j
  decreasing_by exact hsize

theorem Token.decodes (inToken : Bool) (j : Json) (hj : j.NoRepeats)
    (h : Schema.token.isMetBy j = true) : Decodes (Token.ofJson inToken j) := by
  obtain ⟨hobject, hmodifiers, htypes⟩ := (Schema.isMetBy_token_iff hj).mp h
  obtain ⟨r, hr, hholds⟩ := Json.exists_recordOfObject hj hobject ["type", "modifiers"]
  rw [Token.ofJson]
  refine Decodes.bind_ok hr ?_
  refine (hholds.decodes_getD (by decide) fun x hx => ?_).bind fun modifiers => ?_
  · exact Modifiers.decodes inToken (hj.field? hx) (hmodifiers x hx)
  rcases htypes with ⟨⟨_, htext, s, rfl⟩, _, htype, rfl⟩ |
    ⟨⟨_, hrules, items, rfl, hitems⟩, _, htype, rfl⟩ |
    ⟨⟨_, hkind, k, rfl⟩, ⟨_, hname, s, rfl⟩, _, htype, rfl⟩
  · have htype := (hholds.get (by decide) htype _).trans (TokenType.ofJson_name .word)
    obtain ⟨r, hr, hholds⟩ := Json.exists_recordOfObject hj hobject ["text"]
    refine Decodes.bind_ok htype (Decodes.bind_ok hr ?_)
    exact (hholds.decodes_get (by decide) htext (Decodes.asText s)).bind fun text => Decodes.pure _
  · have htype := (hholds.get (by decide) htype _).trans (TokenType.ofJson_name .group)
    obtain ⟨r, hr, hholds⟩ := Json.exists_recordOfObject hj hobject ["rules"]
    refine Decodes.bind_ok htype (Decodes.bind_ok hr ?_)
    refine (hholds.decodes_get (by decide) hrules (Decodes.asList fun x hx => ?_)).bind
      fun rules => Decodes.pure _
    have hsize := Nat.lt_trans (Json.sizeOf_item_lt hx) (Json.sizeOf_lt_of_field? hrules)
    exact Rule.decodes true x ((hj.field? hrules).item x hx) (hitems x hx)
  · have htype := (hholds.get (by decide) htype _).trans (TokenType.ofJson_name .reference)
    obtain ⟨r, hr, hholds⟩ := Json.exists_recordOfObject hj hobject ["kind", "name"]
    refine Decodes.bind_ok htype ((Decodes.bind_ok hr ?_).bind fun key => Decodes.pure _)
    refine (hholds.decodes_get (by decide) hkind ⟨k, Json.asChoice_kind k true⟩).bind fun kind => ?_
    exact (hholds.decodes_get (by decide) hname ⟨s, rfl⟩).bind fun name => Decodes.pure _
  termination_by sizeOf j
  decreasing_by exact hsize

end

theorem Variation.decodes {j : Json} (hj : j.NoRepeats) (h : Schema.variation.isMetBy j = true) :
    Decodes (Variation.ofJson j) := by
  obtain ⟨hobject, ⟨_, hname, s, rfl⟩, _, hrules, items, rfl, hitems⟩ :=
    (Schema.isMetBy_variation_iff hj).mp h
  obtain ⟨r, hr, hholds⟩ := Json.exists_record hj hobject ["name", "rules"]
  unfold Variation.ofJson
  refine Decodes.bind_ok hr ?_
  refine (hholds.decodes_get (by decide) hname ⟨s, rfl⟩).bind fun name => ?_
  refine (hholds.decodes_get (by decide) hrules ?_).bind fun rules => Decodes.pure _
  exact Decodes.asList fun x hx =>
    Rule.decodes false x ((hj.field? hrules).item x hx) (hitems x hx)

/-! ### Counts -/

/-- The count is an integer that a machine word holds. -/
def Json.IsWord (j : Json) : Prop := ∃ n < 2 ^ (64 : Nat), j = .nat n

/-- The counts that a directive asks for. -/
def Directive.countsOf (j : Json) : List Json :=
  ["train", "test"].filterMap fun split => (j.field? split).bind (·.field? "count")

/-- The counts in the directives of a document. -/
def Document.countsOf (j : Json) : List Json :=
  match j.field? "definitions" with
  | some (.array items) =>
    items.flatMap fun d => ((d.field? "directive").map Directive.countsOf).getD []
  | _ => []

theorem Amount.decodes {j : Json} (hj : j.NoRepeats) (h : Schema.amount.isMetBy j = true)
    (hcount : ∀ x, j.field? "count" = some x → x.IsWord) : Decodes (Amount.ofJson j) := by
  rcases (Schema.isMetBy_amount_iff hj).mp h with rfl | ⟨n, rfl, -⟩
  · exact ⟨.all, rfl⟩
  · obtain ⟨m, hm, hn⟩ := hcount _ rfl
    refine Decodes.map ⟨m, ?_⟩ Amount.count
    rw [hn]
    exact if_pos hm

theorem Directive.decodes {j : Json} (hj : j.NoRepeats) (h : Schema.directive.isMetBy j = true)
    (hcounts : ∀ x ∈ countsOf j, x.IsWord) : Decodes (Directive.ofJson j) := by
  obtain ⟨hobject, htrain, htest⟩ := (Schema.isMetBy_directive_iff hj).mp h
  obtain ⟨r, hr, hholds⟩ := Json.exists_record hj hobject ["train", "test"]
  have hamount : ∀ split ∈ ["train", "test"], ∀ x, j.field? split = some x →
      Schema.amount.isMetBy x = true ∨ x = .null →
        Decodes (Json.asOption Amount.ofJson x) := by
    intro split hsplit x hx hmet
    refine Decodes.asOption (hmet.imp_left fun hmet => ?_)
    refine Amount.decodes (hj.field? hx) hmet fun count hcount => hcounts count ?_
    exact List.mem_filterMap.mpr ⟨split, hsplit, by rw [hx, Option.bind_some, hcount]⟩
  unfold Directive.ofJson
  refine Decodes.bind_ok hr ?_
  refine (hholds.decodes_getD (by decide) fun x hx => ?_).bind fun train => ?_
  · exact hamount "train" (by decide) x hx (htrain x hx)
  refine (hholds.decodes_getD (by decide) fun x hx => ?_).bind fun test => Decodes.pure _
  exact hamount "test" (by decide) x hx (htest x hx)

theorem Definition.decodes {j : Json} (hj : j.NoRepeats)
    (h : Schema.definition.isMetBy j = true)
    (hcounts : ∀ x, j.field? "directive" = some x → ∀ c ∈ Directive.countsOf x, c.IsWord) :
    Decodes (Definition.ofJson j) := by
  obtain ⟨hobject, hdirective, ⟨_, hkind, k, rfl⟩, ⟨_, hname, s, rfl⟩, hparameters, hrules,
    hvariations⟩ := (Schema.isMetBy_definition_iff hj).mp h
  obtain ⟨r, hr, hholds⟩ := Json.exists_record hj hobject
    ["kind", "name", "rules", "variations", "parameters", "directive"]
  unfold Definition.ofJson
  refine Decodes.bind_ok hr ?_
  refine (hholds.decodes_get (by decide) hkind ⟨k, Json.asChoice_kind k false⟩).bind
    fun kind => ?_
  refine (hholds.decodes_get (by decide) hname ⟨s, rfl⟩).bind fun name => ?_
  refine (hholds.decodes_getD (by decide) fun x hx => ?_).bind fun rules => ?_
  · obtain ⟨items, rfl, hitems⟩ := hrules x hx
    exact Decodes.asList fun y hy => Rule.decodes false y ((hj.field? hx).item y hy) (hitems y hy)
  refine (hholds.decodes_getD (by decide) fun x hx => ?_).bind fun variations => ?_
  · obtain ⟨items, rfl, hitems⟩ := hvariations x hx
    exact Decodes.asList fun y hy => Variation.decodes ((hj.field? hx).item y hy) (hitems y hy)
  refine (hholds.decodes_getD (by decide) fun x hx => ?_).bind fun parameters => ?_
  · obtain ⟨items, rfl, hitems⟩ := hparameters x hx
    exact Decodes.texts hitems
  refine (hholds.decodes_getD (by decide) fun x hx => ?_).bind fun directive => Decodes.pure _
  exact Decodes.asOption ((hdirective x hx).imp_left fun hmet =>
    Directive.decodes (hj.field? hx) hmet (hcounts x hx))

theorem Document.decodes {j : Json} (hj : j.NoRepeats) (h : Schema.document.isMetBy j = true)
    (hcounts : ∀ x ∈ countsOf j, x.IsWord) : Decodes (Document.ofJson j) := by
  obtain ⟨hobject, _, hdefinitions, items, rfl, hitems⟩ :=
    (Schema.isMetBy_document_iff hj).mp h
  obtain ⟨r, hr, hholds⟩ := Json.exists_record hj hobject ["definitions"]
  unfold countsOf at hcounts
  rw [hdefinitions] at hcounts
  unfold Document.ofJson
  refine Decodes.bind_ok hr ?_
  refine (hholds.decodes_get (by decide) hdefinitions (Decodes.asList fun x hx => ?_)).bind
    fun definitions => Decodes.pure _
  refine Definition.decodes ((hj.field? hdefinitions).item x hx) (hitems x hx)
    fun directive hdirective c hc => hcounts c ?_
  exact List.mem_flatMap.mpr ⟨x, hx, by rw [hdirective]; exact hc⟩

/-! ### Counts that the schema lets through -/

theorem Directive.integral_of_isMetBy {j : Json} (hj : j.NoRepeats)
    (h : Schema.directive.isMetBy j = true) {c : Json} (hc : c ∈ countsOf j) :
    ∃ n, c = .number n ∧ Schema.isIntegral n = true ∧ Schema.isNotNegative n = true := by
  obtain ⟨-, htrain, htest⟩ := (Schema.isMetBy_directive_iff hj).mp h
  obtain ⟨split, hsplit, hfield⟩ := List.mem_filterMap.mp hc
  obtain ⟨x, hx, hcount⟩ := Option.bind_eq_some_iff.mp hfield
  have hmet : Schema.amount.isMetBy x = true ∨ x = .null := by
    rcases List.mem_pair.mp hsplit with rfl | rfl
    · exact htrain x hx
    · exact htest x hx
  rcases hmet with hmet | rfl
  · rcases (Schema.isMetBy_amount_iff (hj.field? hx)).mp hmet with rfl | ⟨n, rfl, hn⟩
    · injection hcount
    · exact ⟨n, (Option.some.inj hcount).symm, hn⟩
  · injection hcount

theorem Document.integral_of_isMetBy {j : Json} (hj : j.NoRepeats)
    (h : Schema.document.isMetBy j = true) {c : Json} (hc : c ∈ countsOf j) :
    ∃ n, c = .number n ∧ Schema.isIntegral n = true ∧ Schema.isNotNegative n = true := by
  obtain ⟨-, _, hdefinitions, items, rfl, hitems⟩ := (Schema.isMetBy_document_iff hj).mp h
  unfold countsOf at hc
  rw [hdefinitions] at hc
  obtain ⟨definition, hdefinition, hc⟩ := List.mem_flatMap.mp hc
  have hnoRepeats := (hj.field? hdefinitions).item definition hdefinition
  obtain ⟨-, hdirective, -⟩ :=
    (Schema.isMetBy_definition_iff hnoRepeats).mp (hitems definition hdefinition)
  cases hfield : definition.field? "directive" with
  | none =>
      rw [hfield] at hc
      exact absurd hc List.not_mem_nil
  | some x =>
      rw [hfield] at hc
      rcases hdirective x hfield with hmet | rfl
      · exact Directive.integral_of_isMetBy (hnoRepeats.field? hfield) hmet hc
      · exact absurd hc List.not_mem_nil

/-- A number without a fraction that is not negative, but no integer that a machine word
holds. -/
def Json.IsOther (j : Json) : Prop :=
  (∃ n, 2 ^ (64 : Nat) ≤ n ∧ j = .nat n) ∨
    ∃ x, j = .number (.real x) ∧ Schema.isIntegral (.real x) = true ∧
      Schema.isNotNegative (.real x) = true

theorem Json.isOther_of_not_isWord {n : Number} (hintegral : Schema.isIntegral n = true)
    (hnotNegative : Schema.isNotNegative n = true) (h : ¬ IsWord (number n)) :
    IsOther (number n) := by
  cases n with
  | natural n => exact .inl ⟨n, Nat.le_of_not_lt fun hlt => h ⟨n, hlt, rfl⟩, rfl⟩
  | negative n => exact absurd hnotNegative (by simp [Schema.isNotNegative])
  | real x => exact .inr ⟨x, rfl, hintegral, hnotNegative⟩

theorem Schema.isEmpty_pointers (s : Schema) (j : Json) :
    (s.pointers j).isEmpty = s.isMetBy j := by
  rw [Bool.eq_iff_iff, List.isEmpty_iff, isMetBy_iff, ← List.length_eq_zero_iff, pointers,
    List.length_mergeSort, List.length_eq_zero_iff]
  cases violations s j with
  | nil => exact ⟨fun _ => rfl, fun _ => rfl⟩
  | cons path rest => simp [List.eraseDups_cons]

theorem Graph.ofJson_of_met {j : Json} (h : Schema.document.isMetBy j = true) :
    Graph.ofJson j = (Document.ofJson j).mapError .notDecoded >>= fun d =>
      (ofDocument d).mapError .invalid := by
  show (if (!(Schema.document.pointers j).isEmpty) = true then _ else _) = _
  rw [Schema.isEmpty_pointers, h]
  rfl

theorem Graph.ofJson_of_not_met {j : Json} (h : Schema.document.isMetBy j = false) :
    Graph.ofJson j = .error (.violations (Schema.document.pointers j)) := by
  show (if (!(Schema.document.pointers j).isEmpty) = true then _ else _) = _
  rw [Schema.isEmpty_pointers, h]
  rfl

theorem Graph.ofText_of_parse?_eq_none {t : Text} (h : Json.parse? t = none) :
    Graph.ofText t = .error .notJson := by
  unfold Graph.ofText
  rw [h]

theorem Graph.ofText_of_parse? {t : Text} {j : Json} (h : Json.parse? t = some j) :
    Graph.ofText t = Graph.ofJson j.lastFields := by
  unfold Graph.ofText
  rw [h]

/-- A value that meets the schema fails to be decoded only because of a count. -/
theorem Graph.exists_isOther_of_notDecoded {j : Json} (hj : j.NoRepeats) {reason : DecodeError}
    (h : Graph.ofJson j = .error (.notDecoded reason)) :
    Schema.document.isMetBy j = true ∧ ∃ c ∈ Document.countsOf j, c.IsOther := by
  cases hmet : Schema.document.isMetBy j with
  | false =>
      rw [ofJson_of_not_met hmet] at h
      injection h with h
      injection h
  | true =>
      refine ⟨rfl, ?_⟩
      rw [ofJson_of_met hmet] at h
      by_contra hnone
      have hwords : ∀ c ∈ Document.countsOf j, c.IsWord := by
        intro c hc
        by_contra hword
        obtain ⟨n, rfl, hintegral, hnotNegative⟩ := Document.integral_of_isMetBy hj hmet hc
        exact hnone ⟨_, hc, Json.isOther_of_not_isWord hintegral hnotNegative hword⟩
      obtain ⟨d, hd⟩ := Document.decodes hj hmet hwords
      rw [hd] at h
      -- What is decoded may still be no graph, but that is an error of another kind.
      cases hgraph : ofDocument d <;>
        simp [Except.mapError, hgraph, bind, Except.bind] at h

/--
**What the schema accepts, the decoder decodes.**  A value without repeated names that meets the
schema, and in which each count of a directive is an integer that a machine word holds, is
decoded to a document.  So a text whose value meets the schema fails to be decoded only because
of a count that is too large or that is written with a point or an exponent.
-/
theorem ofJson_of_isMetBy :
    (∀ j : Json, j.NoRepeats → Schema.document.isMetBy j = true →
      (∀ c ∈ Document.countsOf j, c.IsWord) → ∃ d, Document.ofJson j = .ok d) ∧
    ∀ (t : Text) (reason : DecodeError), Graph.ofText t = .error (.notDecoded reason) →
      ∃ j, Json.parse? t = some j ∧ Schema.document.isMetBy j.lastFields = true ∧
        ∃ c ∈ Document.countsOf j.lastFields, c.IsOther := by
  refine ⟨fun j hj hmet hcounts => Document.decodes hj hmet hcounts, fun t reason h => ?_⟩
  cases hparse : Json.parse? t with
  | none =>
      rw [Graph.ofText_of_parse?_eq_none hparse] at h
      injection h with h
      injection h
  | some j =>
      rw [Graph.ofText_of_parse? hparse] at h
      exact ⟨j, rfl, Graph.exists_isOther_of_notDecoded (Json.noRepeats_lastFields j) h⟩

/-! ### A document with remarks -/

namespace Remarked

def token : Json :=
  .object [("type", .string "group"), ("rules", .array []), ("text", .string "a remark")]

def rule : Json := .object [("remark", .null), ("tokens", .array [token]), ("value", .null)]

/-- How many examples are wanted. -/
def directive (count : Json) : Json :=
  .object [("test", .null), ("train", .object [("count", count)])]

/-- An intent of which so many sentences are wanted. -/
def definition (rules : List Json) (count : Json) : Json :=
  .object [("remark", .array []), ("kind", .string "intent"), ("name", .string "greet"),
    ("rules", .array rules), ("directive", directive count)]

def document (rules : List Json) (count : Json) : Json :=
  .object [("definitions", .array [definition rules count]), ("remark", .bool true)]

theorem isMetBy_token (hj : token.NoRepeats) : Schema.token.isMetBy token = true := by
  refine (Schema.isMetBy_token_iff hj).mpr ⟨⟨_, rfl⟩, fun x hx => ?_, ?_⟩
  · injection hx
  · exact .inr (.inl ⟨⟨_, rfl, [], rfl, by simp⟩, _, rfl, rfl⟩)

theorem isMetBy_rule (hj : rule.NoRepeats) : Schema.rule.isMetBy rule = true := by
  have htokens : rule.field? "tokens" = some (.array [token]) := rfl
  refine (Schema.isMetBy_rule_iff hj).mpr
    ⟨⟨_, rfl⟩, ⟨_, htokens, _, rfl, ?_⟩, fun x hx => ?_, fun x hx => ?_⟩
  · exact List.forall_mem_singleton.mpr (isMetBy_token ((hj.field? htokens).item token (by simp)))
  · exact .inr (Option.some.inj hx).symm
  · injection hx

variable {n : Json.Number} {rules : List Json}

theorem isMetBy_directive (hintegral : Schema.isIntegral n = true)
    (hnotNegative : Schema.isNotNegative n = true) (hj : (directive (.number n)).NoRepeats) :
    Schema.directive.isMetBy (directive (.number n)) = true := by
  have htrain : (directive (.number n)).field? "train" =
      some (.object [("count", .number n)]) := rfl
  refine (Schema.isMetBy_directive_iff hj).mpr
    ⟨⟨_, rfl⟩, fun x hx => .inl ?_, fun x hx => .inr (Option.some.inj hx).symm⟩
  obtain rfl := Option.some.inj (htrain.symm.trans hx)
  exact (Schema.isMetBy_amount_iff (hj.field? htrain)).mpr
    (.inr ⟨n, rfl, hintegral, hnotNegative⟩)

theorem isMetBy_definition (hintegral : Schema.isIntegral n = true)
    (hnotNegative : Schema.isNotNegative n = true)
    (hrules : ∀ r ∈ rules, Schema.rule.isMetBy r = true)
    (hj : (definition rules (.number n)).NoRepeats) :
    Schema.definition.isMetBy (definition rules (.number n)) = true := by
  have hdirective :
      (definition rules (.number n)).field? "directive" = some (directive (.number n)) := rfl
  have hfield : (definition rules (.number n)).field? "rules" = some (.array rules) := rfl
  refine (Schema.isMetBy_definition_iff hj).mpr
    ⟨⟨_, rfl⟩, fun x hx => .inl ?_, ⟨_, rfl, .intent, rfl⟩, ⟨_, rfl, _, rfl⟩, ?_, ?_, ?_⟩
  · obtain rfl := Option.some.inj (hdirective.symm.trans hx)
    exact isMetBy_directive hintegral hnotNegative (hj.field? hdirective)
  · intro x hx
    injection hx
  · intro x hx
    obtain rfl := Option.some.inj (hfield.symm.trans hx)
    exact ⟨_, rfl, hrules⟩
  · intro x hx
    injection hx

theorem isMetBy_document (hintegral : Schema.isIntegral n = true)
    (hnotNegative : Schema.isNotNegative n = true)
    (hrules : ∀ r ∈ rules, Schema.rule.isMetBy r = true)
    (hj : (document rules (.number n)).NoRepeats) :
    Schema.document.isMetBy (document rules (.number n)) = true := by
  have hdefinitions : (document rules (.number n)).field? "definitions" =
      some (.array [definition rules (.number n)]) := rfl
  refine (Schema.isMetBy_document_iff hj).mpr ⟨⟨_, rfl⟩, _, hdefinitions, _, rfl, ?_⟩
  exact List.forall_mem_singleton.mpr (isMetBy_definition hintegral hnotNegative hrules
    ((hj.field? hdefinitions).item _ (by simp)))

/-- The count is written with a point. -/
def pointed : Json := document [] (.number (.real (.ofNat 5)))

theorem ofText_pointed :
    Graph.ofText pointed.compact = .error (.notDecoded (.expected "a natural number")) := by
  have hreadBack : pointed.IsReadBack :=
    List.forall_mem_singleton.mpr (show Json.Number.IsReadBack _ by decide +kernel)
  have hdepth : pointed.depth ≤ Json.maxDepth := by decide
  have hparse := Json.parse?_of_spells (Json.spells_compact hreadBack)
  rw [if_pos hdepth] at hparse
  have hlast : pointed.lastFields = pointed := rfl
  have hj : pointed.NoRepeats := hlast ▸ Json.noRepeats_lastFields pointed
  rw [Graph.ofText_of_parse? hparse, hlast, Graph.ofJson_of_met]
  · rfl
  · exact isMetBy_document (by decide +kernel) (by decide +kernel) (by simp) hj

end Remarked

/-- Remarks are passed over, and a five is decoded as a count; 5.0 is not. -/
theorem ofJson_of_isMetBy_remarked :
    (Schema.document.isMetBy (Remarked.document [Remarked.rule] (.nat 5)) = true ∧
        ∃ d, Document.ofJson (Remarked.document [Remarked.rule] (.nat 5)) = .ok d) ∧
      (∃ reason, Graph.ofText Remarked.pointed.compact = .error (.notDecoded reason)) ∧
        ∃ j, Json.parse? Remarked.pointed.compact = some j ∧
          ∃ c ∈ Document.countsOf j.lastFields, c.IsOther := by
  have hlast : (Remarked.document [Remarked.rule] (.nat 5)).lastFields =
      Remarked.document [Remarked.rule] (.nat 5) := rfl
  have hj : (Remarked.document [Remarked.rule] (.nat 5)).NoRepeats :=
    hlast ▸ Json.noRepeats_lastFields _
  have hrule : Remarked.rule.NoRepeats :=
    (show Remarked.rule.lastFields = Remarked.rule from rfl) ▸ Json.noRepeats_lastFields _
  have hmet := Remarked.isMetBy_document rfl rfl
    (List.forall_mem_singleton.mpr (Remarked.isMetBy_rule hrule)) hj
  refine ⟨⟨hmet, ofJson_of_isMetBy.1 _ hj hmet ?_⟩, ⟨_, Remarked.ofText_pointed⟩, ?_⟩
  · exact List.forall_mem_singleton.mpr ⟨5, by decide, rfl⟩
  · obtain ⟨j, hparse, -, hcount⟩ := ofJson_of_isMetBy.2 _ _ Remarked.ofText_pointed
    exact ⟨j, hparse, hcount⟩

end Phrasebook
