import Phrasebook.Proofs.Reordering
import Phrasebook.Proofs.Repeats

/-!
When a count that claims to be exact is exact.

A count that is not marked as an upper bound is the number of ways to make a sentence: it did
not reach the cap, and there is no rule that is counted and never used.  The number of
sentences is another thing, since two ways may make the same one, and nothing about the count
says so.  A word without letters that is asked for in both casings is the shortest example.
-/

namespace Phrasebook

/-! ### Ways to make a sentence -/

namespace Possibilities

/-- Unless it is marked, the count is just `n`. -/
def IsExactly (p : Possibilities) (n : Nat) : Prop := p.approximate = false → p.value = n

namespace IsExactly

variable {p q : Possibilities} {n m : Nat}

theorem exact (n : Nat) : (exact n).IsExactly n := fun _ => rfl

theorem mark (p : Possibilities) (n : Nat) : p.mark.IsExactly n := fun h => by injection h

theorem plus (hp : p.IsExactly n) (hq : q.IsExactly m) : (p.plus q).IsExactly (n + m) := by
  intro h
  obtain ⟨hp', hq'⟩ := Bool.or_eq_false_iff.mp h
  rw [plus_value, hp hp', hq hq']

theorem times (hp : p.IsExactly n) (hq : q.IsExactly m) : (p.times q).IsExactly (n * m) := by
  intro h
  obtain ⟨hp', hq'⟩ := Bool.or_eq_false_iff.mp h
  rw [times_value, hp hp', hq hq']

/-- A count that is not marked was not cut off. -/
theorem capped (cap : Nat) (h : p.IsExactly n) : (p.capped cap).IsExactly n := by
  intro hcapped
  by_cases hlt : cap < p.value
  · rw [capped_of_lt hlt] at hcapped
    injection hcapped
  · rw [capped_of_le (by omega)] at hcapped ⊢
    exact h hcapped

end IsExactly

end Possibilities

theorem Modifiers.isExactly_tally {m : Modifiers} {p : Possibilities} (held : Sentences)
    (hp : ∀ base, held = .ok base → p.IsExactly base.length) {es : List Example}
    (hes : (if m.isAbsent then .ok [.empty] else held >>= fun base => .ok (m.expand base)) =
      .ok es) : (m.tally p).IsExactly es.length := by
  rw [tally_eq]
  by_cases habsent : m.isAbsent = true
  · rw [if_pos habsent] at hes ⊢
    obtain rfl : [Example.empty] = es := Except.ok.inj hes
    exact Possibilities.IsExactly.exact 1
  · rw [if_neg habsent] at hes ⊢
    obtain ⟨base, hbase, hes⟩ := bind_eq_ok.mp hes
    obtain rfl : m.expand base = es := Except.ok.inj hes
    have hcased := (hp base hbase).times (.exact m.casing.forms)
    rw [length_expand]
    split
    · exact hcased.plus (.exact 1)
    · exact hcased

section

variable {answer : String → Reference → Sentences} {tallies : Reference → Possibilities}
  {scope : Scope}

mutual

theorem isExactly_tallyTokens
    (hanswer : ∀ owner r es, answer owner r = .ok es → (tallies r).IsExactly es.length) :
    ∀ (tokens : List Token) (fronts es : List Example) (t : Possibilities),
      t.IsExactly fronts.length → expandTokens answer scope fronts tokens = .ok es →
      (t.times (tallyTokens tallies tokens)).IsExactly es.length
  | [], fronts, es, t => by
      intro ht hes
      rw [expandTokens] at hes
      obtain rfl : fronts = es := Except.ok.inj hes
      rw [tallyTokens, Possibilities.times_one]
      exact ht
  | token :: rest, fronts, es, t => by
      intro ht hes
      rw [expandTokens] at hes
      obtain ⟨backs, hbacks, hes⟩ := bind_eq_ok.mp hes
      have htoken := ht.times (isExactly_tallyToken hanswer token backs hbacks)
      rw [tallyTokens, ← Possibilities.times_assoc]
      refine isExactly_tallyTokens hanswer rest _ es _ ?_ hes
      simpa [List.length_flatMap] using htoken

theorem isExactly_tallyToken
    (hanswer : ∀ owner r es, answer owner r = .ok es → (tallies r).IsExactly es.length) :
    ∀ (token : Token) (es : List Example), expandToken answer scope token = .ok es →
      (tallyToken tallies token).IsExactly es.length
  | .word text m, es => by
      intro hes
      rw [expandToken] at hes
      rw [tallyToken]
      refine Modifiers.isExactly_tally (.ok [.ofText (scope.render text)]) ?_ hes
      intro base hbase
      obtain rfl := Except.ok.inj hbase
      exact Possibilities.IsExactly.exact 1
  | .group rules m, es => by
      intro hes
      rw [expandToken] at hes
      rw [tallyToken]
      exact Modifiers.isExactly_tally _
        (fun base hbase => isExactly_tallyRules hanswer (fun _ e => e) rules base hbase) hes
  | .reference target m, es => by
      intro hes
      rw [expandToken] at hes
      rw [tallyToken]
      exact Modifiers.isExactly_tally _ (fun base hbase => hanswer _ _ base hbase) hes

/-- A tally of rules that is not marked is the number of ways to make a sentence of them. -/
theorem isExactly_tallyRules
    (hanswer : ∀ owner r es, answer owner r = .ok es → (tallies r).IsExactly es.length)
    (finish : Rule → Example → Example) :
    ∀ (rules : List Rule) (es : List Example), expandRules answer scope finish rules = .ok es →
      (tallyRules tallies rules).IsExactly es.length
  | [], es => by
      intro hes
      rw [expandRules] at hes
      obtain rfl : [] = es := Except.ok.inj hes
      rw [tallyRules]
      exact Possibilities.IsExactly.exact 0
  | .mk tokens weight value :: rest, es => by
      intro hes
      rw [tallyRules_cons]
      rcases of_expandRules_cons hes with
        ⟨hreach, here, later, hhere, hlater, rfl⟩ | ⟨hreach, hes⟩
      · rw [if_pos hreach]
        have hproduct := isExactly_tallyTokens hanswer tokens [.empty] here (.exact 1)
          (.exact 1) hhere
        rw [Possibilities.one_times] at hproduct
        rw [List.length_append, List.length_map]
        exact hproduct.plus (isExactly_tallyRules hanswer finish rest later hlater)
      · -- What is never used has no ways, and marks the sum.
        rw [if_neg hreach]
        have hsum := (Possibilities.IsExactly.mark (tallyTokens tallies tokens) 0).plus
          (isExactly_tallyRules hanswer finish rest es hes)
        rwa [Nat.zero_add] at hsum

end

end

/-- A tally that is not marked is the number of ways to make a sentence of the use. -/
theorem isExactly_tallyIn (layers : List Definition) (owner : String) (r : Reference)
    (es : List Example) (hes : expandIn layers owner r = .ok es) :
    (tallyIn layers r).IsExactly es.length := by
  induction layers generalizing owner r es with
  | nil => injection hes
  | cons d below ih =>
      rw [expandIn] at hes
      rw [tallyIn]
      by_cases hkey : d.key = r.target
      · rw [if_pos hkey] at hes ⊢
        obtain ⟨rules, hselect, hes⟩ := bind_eq_ok.mp hes
        rw [Definition.tally_of_select hselect]
        exact isExactly_tallyRules ih d.finish rules es hes
      · rw [if_neg hkey] at hes ⊢
        exact ih owner r es hes

theorem Graph.isExactly_tally {g : Graph} {owner : String} {r : Reference} {ways : List Example}
    (h : g.expand owner r = .ok ways) : (g.tally r).IsExactly ways.length :=
  isExactly_tallyIn g.layers owner r ways h

/--
**What an unmarked count counts.**  With nothing known before, the count of a definition whose
casings are impartial is there, and if it is not marked as an upper bound it is the number of
ways to make a sentence.  So it is the number of sentences if, and only if, no two of these
ways make the same one.
-/
theorem unmarked_count_eq_iff {definitions : List Definition} {g : Graph}
    (hg : Graph.ofDefinitions definitions = .ok g) {cap : Nat}
    (hcap : cap < Possibilities.largest) {d : Definition} (hd : d ∈ g.definitions)
    (himpartial : g.Impartial d.name (Item.useOf d.key)) :
    ∃ es ways p counts, (Item.unit d.key).enumerate g = .ok es ∧
      g.expand d.name (Item.useOf d.key) = .ok ways ∧
      ((Item.unit d.key).count g cap).run .empty = (.ok p, counts) ∧
      (p.approximate = false →
        p.value = ways.length ∧ (p.value = es.length ↔ (ways.map Example.key).Nodup)) := by
  have hvalid := Graph.valid_of_ofDefinitions hg
  obtain ⟨es, hes⟩ := hvalid.exists_enumerate hd
  obtain ⟨p, counts, hrun, rfl, -⟩ := hvalid.succeeds_count hcap hd Counts.Tallied.empty
  have hexpand := enumerateIn_eq g.layers d.name (Item.useOf d.key) himpartial
  rw [show enumerateIn g.layers d.name (Item.useOf d.key) = .ok es from hes] at hexpand
  obtain ⟨ways, hways, rfl⟩ := map_eq_ok.mp hexpand.symm
  refine ⟨_, ways, _, counts, hes, hways, hrun, fun happrox => ?_⟩
  have hvalue := (Graph.isExactly_tally hways).capped cap happrox
  refine ⟨hvalue, ?_⟩
  rw [hvalue, eq_comm]
  exact length_distinct_eq_iff

theorem Hello.tally_eq : graph.tally (Item.useOf hello.key) = .exact 2 := by decide +kernel

/-- The two ways to say hello are two sentences, and they are counted as such. -/
theorem unmarked_count_eq_iff_hello :
    (((Item.unit Hello.hello.key).count Hello.graph 10).run .empty).1 = .ok (.exact 2) ∧
      ∃ ways, Hello.graph.expand Hello.hello.name (Item.useOf Hello.hello.key) = .ok ways ∧
        2 = ways.length ∧ (ways.map Example.key).Nodup := by
  have hvalid := Graph.valid_of_ofDefinitions Hello.ofDefinitions_eq
  have hsolid : Hello.graph.HasSolidArguments := by
    simp [Graph.HasSolidArguments, Hello.graph, Hello.references_hello]
  have hmem : Hello.hello ∈ Hello.graph.definitions := by simp [Hello.graph]
  have hcap : 10 < Possibilities.largest := by decide
  have hcount := hvalid.run_count_empty hcap hmem
  rw [Hello.tally_eq] at hcount
  obtain ⟨es, ways, p, counts, hes, hways, hrun, hexact⟩ :=
    unmarked_count_eq_iff Hello.ofDefinitions_eq hcap hmem
      (hvalid.impartial hsolid Hello.hello.name Hello.hello.key)
  rw [hrun] at hcount
  obtain rfl : p = .exact 2 := Except.ok.inj hcount
  obtain rfl := Except.ok.inj (Hello.enumerate_eq.symm.trans hes)
  obtain ⟨hlength, hnodup⟩ := hexact rfl
  exact ⟨congrArg Prod.fst hrun, ways, hways, hlength, hnodup.mp rfl⟩

/-! ### A digit in both casings -/

namespace Dial

/-- An intent with one sentence, a digit, which is asked for in both casings. -/
def dial : Definition where
  kind := .intent
  name := "dial"
  rules := [.mk [.word "7".toList { Modifiers.plain with casing := .either }] .one none]
  variations := []
  parameters := []
  directive := none

/-- The graph of the intent. -/
def graph : Graph := ⟨[dial], [dial]⟩

/-- The one sentence. -/
def seven : Example := ⟨some "dial", "7".toList, []⟩

theorem ofDefinitions_eq : Graph.ofDefinitions [dial] = .ok graph :=
  Graph.ofDefinitions_singleton (ok_of_toOption (by decide +kernel)) rfl

theorem tally_eq : graph.tally (Item.useOf dial.key) = .exact 2 := by decide +kernel

/-- A digit has one form only, so one of the two ways is dropped. -/
theorem enumerate_eq : (Item.unit dial.key).enumerate graph = .ok [seven] := by
  have hways : graph.expand dial.key.name (Item.useOf dial.key) = .ok [seven, seven] :=
    ok_of_toOption (by decide +kernel)
  have hsolid : graph.HasSolidArguments := by
    simp [Graph.HasSolidArguments, graph, show dial.references = [] from rfl]
  rw [(Graph.valid_of_ofDefinitions ofDefinitions_eq).enumerate_unit hsolid hways]
  simp [distinct_cons]

end Dial

/-- The count of the digit says that there are exactly two sentences, and there is one. -/
theorem unmarked_count_not_exact :
    Graph.ofDefinitions [Dial.dial] = .ok Dial.graph ∧
      (((Item.unit Dial.dial.key).count Dial.graph Options.default.possibilityCap).run
        .empty).1 = .ok ⟨2, false⟩ ∧
      (Item.unit Dial.dial.key).enumerate Dial.graph = .ok [Dial.seven] := by
  have hmem : Dial.dial ∈ Dial.graph.definitions := by simp [Dial.graph]
  have hcap : Options.default.possibilityCap < Possibilities.largest := by decide
  have hcount := (Graph.valid_of_ofDefinitions Dial.ofDefinitions_eq).run_count_empty hcap hmem
  rw [Dial.tally_eq] at hcount
  exact ⟨Dial.ofDefinitions_eq, hcount, Dial.enumerate_eq⟩

end Phrasebook
