import Phrasebook.Proofs.Locality
import Phrasebook.Proofs.Session
import Phrasebook.Proofs.Tally

/-!
What an answer about a number of sentences depends on.

Counts are kept, and every question finds what the questions before it have left.  All that
they can leave is tallies, capped, so the answer is the same as if it had been the first
question.

Nor does it depend on the order in which a template lists its rules, or a rule its tokens:
sums and products do not.  `Reordered` says of two lists of rules that they differ in
nothing but such orders, at any depth.
-/

namespace Phrasebook

/-! ### Templates in another order -/

/-- Rules that differ in nothing but the order of the rules, of their tokens, and so on in the
groups among these.  Any group can be brought to the front of the first rule, so that is where
one may be reordered. -/
inductive Reordered : List Rule → List Rule → Prop
  | refl (rules : List Rule) : Reordered rules rules
  | cons (rule : Rule) {rest rest' : List Rule} (h : Reordered rest rest') :
      Reordered (rule :: rest) (rule :: rest')
  | swap (a b : Rule) (rest : List Rule) : Reordered (a :: b :: rest) (b :: a :: rest)
  | tokens {tokens tokens' : List Token} (h : tokens.Perm tokens') (weight : Binary64)
      (value : Option Text) (rest : List Rule) :
      Reordered (.mk tokens weight value :: rest) (.mk tokens' weight value :: rest)
  | group {inner inner' : List Rule} (h : Reordered inner inner') (m : Modifiers)
      (tokens : List Token) (weight : Binary64) (value : Option Text) (rest : List Rule) :
      Reordered (.mk (.group inner m :: tokens) weight value :: rest)
        (.mk (.group inner' m :: tokens) weight value :: rest)
  | trans {a b c : List Rule} (hab : Reordered a b) (hbc : Reordered b c) : Reordered a c

namespace Reordered

theorem append_left (front : List Rule) {rules rules' : List Rule} (h : Reordered rules rules') :
    Reordered (front ++ rules) (front ++ rules') := by
  induction front with
  | nil => exact h
  | cons rule rest ih => exact ih.cons rule

theorem append_right {rules rules' : List Rule} (h : Reordered rules rules') (back : List Rule) :
    Reordered (rules ++ back) (rules' ++ back) := by
  induction h with
  | refl rules => exact refl _
  | cons rule h ih => exact ih.cons rule
  | swap a b rest => exact swap a b _
  | tokens h weight value rest => exact tokens h weight value _
  | group h m ts weight value rest ih => exact group h m ts weight value _
  | trans hab hbc ihab ihbc => exact ihab.trans ihbc

theorem append {a a' b b' : List Rule} (ha : Reordered a a') (hb : Reordered b b') :
    Reordered (a ++ b) (a' ++ b') :=
  (ha.append_right b).trans (hb.append_left a')

end Reordered

/-- A variation of the same name, with its rules in another order. -/
def Variation.Reorders (v v' : Variation) : Prop := v.name = v'.name ∧ Reordered v.rules v'.rules

namespace Variation.Reorders

variable {vs vs' : List Variation}

theorem flatMap_rules (h : List.Forall₂ Variation.Reorders vs vs') :
    Reordered (vs.flatMap (·.rules)) (vs'.flatMap (·.rules)) := by
  induction h with
  | nil => exact .refl _
  | cons hv _ ih => exact hv.2.append ih

theorem exists_find? (h : List.Forall₂ Variation.Reorders vs vs') {name : String} {v : Variation}
    (hv : vs.find? (·.name == name) = some v) :
    ∃ v', vs'.find? (·.name == name) = some v' ∧ v.Reorders v' := by
  induction h with
  | nil => simp at hv
  | @cons w w' rest rest' hw _ ih =>
      rw [List.find?_cons] at hv ⊢
      rw [← hw.1]
      cases hname : w.name == name with
      | true =>
          obtain rfl : w = v := by simpa [hname] using hv
          exact ⟨w', rfl, hw⟩
      | false =>
          rw [hname] at hv
          exact ih hv

end Variation.Reorders

/-- A definition of the same key, with its rules in another order; nothing else of it matters
for a number of sentences. -/
structure Definition.Reorders (d d' : Definition) : Prop where
  key : d'.key = d.key
  rules : Reordered d.rules d'.rules
  variations : List.Forall₂ Variation.Reorders d.variations d'.variations

/-- A graph that has each definition of the first in another order. -/
def Graph.Reorders (g g' : Graph) : Prop :=
  ∀ d ∈ g.definitions, ∃ d' ∈ g'.definitions, d.Reorders d'

/-- What a use chooses from is the same in another order. -/
theorem Definition.Reorders.select {d d' : Definition} (h : d.Reorders d')
    {variation : Option String} {rules : List Rule} (hselect : d.select variation = .ok rules) :
    ∃ rules', d'.select variation = .ok rules' ∧ Reordered rules rules' := by
  cases variation with
  | none =>
      obtain rfl : d.allRules = rules := Except.ok.inj hselect
      exact ⟨d'.allRules, rfl, h.rules.append (Variation.Reorders.flatMap_rules h.variations)⟩
  | some name =>
      unfold Definition.select at hselect
      simp only at hselect
      split at hselect
      · rename_i v hv
        obtain rfl : v.rules = rules := Except.ok.inj hselect
        obtain ⟨v', hv', hreorders⟩ := Variation.Reorders.exists_find? h.variations hv
        refine ⟨v'.rules, ?_, hreorders.2⟩
        rw [Definition.select]
        simp only [Definition.variation?, hv']
      · injection hselect

/-! ### The tally does not depend on orders -/

section

variable {answer answer' : Reference → Possibilities}

mutual

theorem tallyTokens_congr :
    ∀ tokens : List Token, (∀ r ∈ referencesOfTokens tokens, answer r = answer' r) →
      tallyTokens answer tokens = tallyTokens answer' tokens
  | [] => by
      intro _
      rw [tallyTokens, tallyTokens]
  | token :: rest => by
      intro h
      rw [referencesOfTokens] at h
      rw [tallyTokens, tallyTokens,
        tallyToken_congr token fun r hr => h r (List.mem_append_left _ hr),
        tallyTokens_congr rest fun r hr => h r (List.mem_append_right _ hr)]

theorem tallyToken_congr :
    ∀ token : Token, (∀ r ∈ referencesOfToken token, answer r = answer' r) →
      tallyToken answer token = tallyToken answer' token
  | .word text m => by
      intro _
      rw [tallyToken, tallyToken]
  | .group rules m => by
      intro h
      rw [referencesOfToken] at h
      rw [tallyToken, tallyToken, tallyRules_congr rules h]
  | .reference target m => by
      intro h
      rw [tallyToken, tallyToken, h ⟨target, m⟩ (by simp [referencesOfToken])]

/-- The tally of rules depends on those of the uses in them only. -/
theorem tallyRules_congr :
    ∀ rules : List Rule, (∀ r ∈ referencesOfRules rules, answer r = answer' r) →
      tallyRules answer rules = tallyRules answer' rules
  | [] => by
      intro _
      rw [tallyRules, tallyRules]
  | .mk tokens weight value :: rest => by
      intro h
      rw [referencesOfRules] at h
      rw [tallyRules_cons, tallyRules_cons, Rule.tokens,
        tallyTokens_congr tokens fun r hr => h r (List.mem_append_left _ hr),
        tallyRules_congr rest fun r hr => h r (List.mem_append_right _ hr)]

end

theorem tallyTokens_perm {tokens tokens' : List Token} (h : tokens.Perm tokens') :
    tallyTokens answer tokens = tallyTokens answer tokens' := by
  induction h with
  | nil => rfl
  | cons token h ih => rw [tallyTokens, tallyTokens, ih]
  | swap a b rest =>
      rw [tallyTokens, tallyTokens, tallyTokens, tallyTokens, Possibilities.times_left_comm]
  | trans hab hbc ihab ihbc => exact ihab.trans ihbc

/-- **Reordering keeps the tally.** -/
theorem Reordered.tallyRules_eq {rules rules' : List Rule} (h : Reordered rules rules') :
    tallyRules answer rules = tallyRules answer rules' := by
  induction h with
  | refl rules => rfl
  | cons rule h ih => rw [tallyRules_cons, tallyRules_cons, ih]
  | swap a b rest =>
      rw [tallyRules_cons, tallyRules_cons, tallyRules_cons b, tallyRules_cons a,
        Possibilities.plus_left_comm]
  | tokens h weight value rest =>
      rw [tallyRules_cons, tallyRules_cons, Rule.tokens, Rule.tokens, tallyTokens_perm h]
      rfl
  | group h m ts weight value rest ih =>
      rw [tallyRules_cons, tallyRules_cons, Rule.tokens, Rule.tokens, tallyTokens, tallyTokens,
        tallyToken, tallyToken, ih]
      rfl
  | trans hab hbc ihab ihbc => exact ihab.trans ihbc

/-- The tally of a definition depends on those of the uses it makes only. -/
theorem Definition.tally_congr {d : Definition} (variation : Option String)
    (h : ∀ r ∈ d.references, answer r = answer' r) :
    d.tally answer variation = d.tally answer' variation := by
  cases hselect : d.select variation with
  | error e => rw [Definition.tally, Definition.tally, hselect]
  | ok rules =>
      rw [tally_of_select hselect, tally_of_select hselect]
      exact tallyRules_congr rules fun r hr => h r (references_of_select hselect r hr)

theorem Definition.Reorders.tally_eq {d d' : Definition} (h : d.Reorders d')
    {variation : Option String} {rules : List Rule} (hselect : d.select variation = .ok rules) :
    d.tally answer variation = d'.tally answer variation := by
  obtain ⟨rules', hselect', hrules⟩ := h.select hselect
  rw [Definition.tally_of_select hselect, Definition.tally_of_select hselect']
  exact hrules.tallyRules_eq

end

/-! ### Along the layers -/

section

variable {layers : List Definition} {d : Definition} {r : Reference}

/-- The tally of a use, of which counting makes an answer. -/
def Definition.tallyUse (d : Definition) (answer : String → Reference → Possibilities)
    (r : Reference) : Possibilities :=
  d.tally (answer d.name) r.modifiers.variation

theorem Definition.asksOwn_tallyUse : AsksOwn Definition.tallyUse :=
  fun _ _ _ _ h => tally_congr _ h

theorem tallyIn_eq_answerIn (owner : String) (layers : List Definition) (r : Reference) :
    tallyIn layers r = answerIn Definition.tallyUse (fun _ _ => .exact 0) layers owner r := by
  induction layers generalizing owner r with
  | nil => rfl
  | cons d below ih =>
      have hbelow : tallyIn below =
          answerIn Definition.tallyUse (fun _ _ => .exact 0) below d.name := funext (ih d.name)
      rw [tallyIn, answerIn, ← ih owner r, Definition.tallyUse, hbelow]

/-- A use has the tally of the definition it is a use of, with all layers to answer its own
uses. -/
theorem Layered.tallyIn_eq (hl : Layered layers)
    (hd : Definition.find? layers r.target = some d) :
    tallyIn layers r = d.tally (tallyIn layers) r.modifiers.variation := by
  have hlayers : tallyIn layers =
      answerIn Definition.tallyUse (fun _ _ => .exact 0) layers d.name :=
    funext (tallyIn_eq_answerIn d.name layers)
  rw [hlayers]
  exact answerIn_eq _ Definition.asksOwn_tallyUse hl hd d.name

/-- **A use has the same tally in layers that have each definition in another order.** -/
theorem Layered.tallyIn_of_reorders {layers' : List Definition} (hl : Layered layers)
    (hl' : Layered layers') (h : ∀ d ∈ layers, ∃ d' ∈ layers', d.Reorders d')
    (hr : r.Resolves layers) : tallyIn layers r = tallyIn layers' r := by
  induction layers, r, hl, hr using Layered.use_induction with
  | asked d below r rules _ _ hkey hselect ih =>
      have hbelow : ∀ e ∈ below, ∃ d' ∈ layers', e.Reorders d' :=
        fun e he => h e (List.mem_cons_of_mem d he)
      obtain ⟨d', hd', hreorders⟩ := h d (by simp)
      have hfind : Definition.find? layers' r.target = some d' := by
        rw [← hkey, ← hreorders.key]
        exact Definition.find?_of_mem hl'.nodup_key hd'
      rw [tallyIn, if_pos hkey]
      calc d.tally (tallyIn below) r.modifiers.variation
          = d.tally (tallyIn layers') r.modifiers.variation :=
            Definition.tally_congr _ fun r' hr' => ih r' hr' hbelow
        _ = d'.tally (tallyIn layers') r.modifiers.variation := hreorders.tally_eq hselect
        _ = tallyIn layers' r := (hl'.tallyIn_eq hfind).symm
  | passed d below r _ _ _ hkey ih =>
      rw [tallyIn, if_neg hkey]
      exact ih fun e he => h e (List.mem_cons_of_mem d he)

end

/-- A definition of a graph has the same tally in a graph that has each definition in another
order. -/
theorem Graph.Valid.tally_of_reorders {g g' : Graph} (hg : g.Valid) (hg' : g'.Valid)
    (h : g.Reorders g') {d : Definition} (hd : d ∈ g.definitions) :
    g.tally (Item.useOf d.key) = g'.tally (Item.useOf d.key) := by
  refine hg.layered.tallyIn_of_reorders hg'.layered (fun e he => ?_) (hg.resolves_use hd rfl [])
  obtain ⟨e', he', hreorders⟩ := h e ((hg.mem_layers e).mp he)
  exact ⟨e', (hg'.mem_layers e').mpr he', hreorders⟩

/-! ### Sessions -/

namespace Graph

/-- The question how many sentences a definition has. -/
def countOf (key : Key) : Session.Operation := .count (.unit key)

/-- The tally of a definition, cut off once: its value if that is at most the cap, or else the
cap, and whether that is an upper bound only. -/
def cappedTally (g : Graph) (cap : Nat) (key : Key) : Possibilities :=
  let tally := g.tally (Item.useOf key)
  ⟨min tally.value cap, decide (cap < tally.value) || tally.approximate⟩

/-- Each question is answered by the tally, cut off once. -/
theorem Valid.answers_count {g : Graph} (hg : g.Valid) {o : Options}
    (hcap : o.possibilityCap < Possibilities.largest) (stream : Stream) {keys : List Key}
    (hkeys : ∀ key ∈ keys, ∃ d ∈ g.definitions, d.key = key) :
    ((Session.performAll (keys.map countOf)).run (Session.start g o stream)).1 =
      keys.map fun key => .count (g.cappedTally o.possibilityCap key) := by
  refine Session.answers_map (K := Session.Keeps g o (Counts.Tallied g.layers o.possibilityCap))
    (fun key hkey s hs => ?_) ⟨rfl, rfl, Counts.Tallied.empty⟩
  obtain ⟨d, hd, rfl⟩ := hkeys key hkey
  have hcount : Succeeds ((Item.unit d.key).count g o.possibilityCap) s.progress.counts
      fun p c => p = g.cappedTally o.possibilityCap d.key ∧
        c.Tallied g.layers o.possibilityCap := by
    rw [cappedTally, ← Possibilities.capped_eq]
    exact hg.succeeds_count hcap hd hs.counts
  obtain ⟨p, rfl, hanswer, hkept⟩ := hs.answers_count hcount
  exact ⟨hanswer, hkept⟩

end Graph

/--
**A count is the tally, cut off once.**  Whatever is asked how many sentences it has, in
whatever order and however often, the answers are those of the formula without a cap, cut off
at the end.  They are the same for a graph that has each definition in another order.
-/
theorem counts_eq_cappedTally {definitions : List Definition} {g : Graph}
    (hg : Graph.ofDefinitions definitions = .ok g) {o : Options}
    (hcap : o.possibilityCap < Possibilities.largest) (stream : Stream) {keys : List Key}
    (hkeys : ∀ key ∈ keys, ∃ d ∈ g.definitions, d.key = key) :
    ((Session.performAll (keys.map Graph.countOf)).run (Session.start g o stream)).1 =
        keys.map (fun key => .count (g.cappedTally o.possibilityCap key)) ∧
      ∀ (definitions' : List Definition) (g' : Graph), Graph.ofDefinitions definitions' = .ok g' →
        g.Reorders g' → ∀ stream' : Stream,
          ((Session.performAll (keys.map Graph.countOf)).run (Session.start g' o stream')).1 =
            keys.map fun key => .count (g.cappedTally o.possibilityCap key) := by
  have hvalid := Graph.valid_of_ofDefinitions hg
  refine ⟨hvalid.answers_count hcap stream hkeys, fun definitions' g' hg' hreorders stream' => ?_⟩
  have hvalid' := Graph.valid_of_ofDefinitions hg'
  have hkeys' : ∀ key ∈ keys, ∃ d ∈ g'.definitions, d.key = key := by
    intro key hkey
    obtain ⟨d, hd, rfl⟩ := hkeys key hkey
    obtain ⟨d', hd', h⟩ := hreorders d hd
    exact ⟨d', hd', h.key⟩
  rw [hvalid'.answers_count hcap stream' hkeys']
  refine List.map_congr_left fun key hkey => ?_
  obtain ⟨d, hd, rfl⟩ := hkeys key hkey
  rw [Graph.cappedTally, Graph.cappedTally, hvalid.tally_of_reorders hvalid' hreorders hd]

/-! ### A name that is greeted -/

namespace Meeting

/-- The rule that says a word. -/
def line (text : String) (weight : Binary64) : Rule := .mk [.word text.toList .plain] weight none

/-- A word in both casings. -/
def hello : Token := .word "hello".toList { Modifiers.plain with casing := .either }

/-- A choice of words that may be left out. -/
def address (rules : List Rule) : Token :=
  .group rules { Modifiers.plain with chance := some .half }

/-- One of two names. -/
def name : Definition where
  kind := .phrase
  name := "name"
  rules := [line "ann" .one, line "bob" .one]
  variations := []
  parameters := []
  directive := none

/-- A use of a name. -/
def called : Token := .reference name.key .plain

/-- The name is greeted, or something is said that never is. -/
def meet : Definition where
  kind := .intent
  name := "meet"
  rules := [.mk [hello, address [line "dear" .one, line "old" .one], called] .one none,
    line "hey" .zero]
  variations := []
  parameters := []
  directive := none

/-- The graph of both. -/
def graph : Graph := ⟨[name, meet], [meet, name]⟩

/-- The names in the other order. -/
def turnedName : Definition := { name with rules := [line "bob" .one, line "ann" .one] }

/-- The greeting with its rules, its words, and the rules in its group in another order. -/
def turnedMeet : Definition := { meet with
  rules := [line "hey" .zero,
    .mk [address [line "old" .one, line "dear" .one], called, hello] .one none] }

/-- The graph of both in the other order. -/
def turnedGraph : Graph := ⟨[turnedName, turnedMeet], [turnedMeet, turnedName]⟩

theorem ofDefinitions_eq : Graph.ofDefinitions [name, meet] = .ok graph :=
  Graph.ofDefinitions_pair (by decide) (by decide) (ok_of_toOption (by decide +kernel))
    (ok_of_toOption (by decide +kernel)) rfl (by decide)

theorem ofDefinitions_turned : Graph.ofDefinitions [turnedName, turnedMeet] = .ok turnedGraph :=
  Graph.ofDefinitions_pair (by decide) (by decide) (ok_of_toOption (by decide +kernel))
    (ok_of_toOption (by decide +kernel)) rfl (by decide)

theorem reorders : graph.Reorders turnedGraph := by
  have hname : name.Reorders turnedName := ⟨rfl, .swap _ _ [], .nil⟩
  -- The group comes to the front, its rules change places, and then those of the greeting do.
  have htokens : [hello, address [line "dear" .one, line "old" .one], called].Perm
      [address [line "dear" .one, line "old" .one], called, hello] :=
    show ([hello] ++ [_, _]).Perm _ from List.perm_append_comm
  have hrules : Reordered meet.rules turnedMeet.rules :=
    (Reordered.tokens htokens .one none _).trans
      ((Reordered.group (.swap _ _ []) _ _ .one none _).trans (.swap _ _ []))
  have hmeet : meet.Reorders turnedMeet := ⟨rfl, hrules, .nil⟩
  intro d hd
  rcases List.mem_pair.mp hd with rfl | rfl
  · exact ⟨turnedName, by simp [turnedGraph], hname⟩
  · exact ⟨turnedMeet, by simp [turnedGraph], hmeet⟩

theorem tally_name : graph.tally (Item.useOf name.key) = .exact 2 := by decide +kernel

/-- Two forms of the first word, two words between or none, and two names are twelve, and there is
one more rule, which is never used. -/
theorem tally_meet : graph.tally (Item.useOf meet.key) = .upperBound 13 := by decide +kernel

/-- Options that give up above ten sentences. -/
def atMostTen : Options := { Options.default with possibilityCap := 10 }

/-- The names are asked for again after the greeting. -/
def keys : List Key := [name.key, meet.key, name.key]

/-- What is answered when nothing is known. -/
def answers (g : Graph) (o : Options) : List Session.Answer :=
  ((Session.performAll (keys.map Graph.countOf)).run (Session.start g o (.ofWords [0]))).1

end Meeting

open Meeting in
/-- Both graphs count thirteen, of which one is never made, and stop at ten if that is the cap. -/
theorem counts_eq_cappedTally_meeting :
    answers graph .default = [.count ⟨2, false⟩, .count ⟨13, true⟩, .count ⟨2, false⟩] ∧
      answers turnedGraph .default = [.count ⟨2, false⟩, .count ⟨13, true⟩, .count ⟨2, false⟩] ∧
      answers graph atMostTen = [.count ⟨2, false⟩, .count ⟨10, true⟩, .count ⟨2, false⟩] ∧
      answers turnedGraph atMostTen =
        [.count ⟨2, false⟩, .count ⟨10, true⟩, .count ⟨2, false⟩] := by
  have hkeys : ∀ key ∈ keys, ∃ d ∈ graph.definitions, d.key = key := by
    simp [keys, graph]
  have htallies : ∀ cap, keys.map (fun key => Session.Answer.count (graph.cappedTally cap key)) =
      [.count ⟨min 2 cap, decide (cap < 2) || false⟩,
        .count ⟨min 13 cap, decide (cap < 13) || true⟩,
        .count ⟨min 2 cap, decide (cap < 2) || false⟩] := by
    intro cap
    simp only [keys, List.map_cons, List.map_nil, Graph.cappedTally, tally_name, tally_meet]
    rfl
  have hanswers : ∀ o : Options, o.possibilityCap < Possibilities.largest →
      answers graph o = keys.map (fun key => .count (graph.cappedTally o.possibilityCap key)) ∧
        answers turnedGraph o =
          keys.map fun key => .count (graph.cappedTally o.possibilityCap key) := by
    intro o hcap
    obtain ⟨hgraph, hturned⟩ := counts_eq_cappedTally ofDefinitions_eq hcap (.ofWords [0]) hkeys
    exact ⟨hgraph, hturned _ _ ofDefinitions_turned reorders (.ofWords [0])⟩
  obtain ⟨hdefault, hdefault'⟩ := hanswers .default (by decide)
  obtain ⟨hten, hten'⟩ := hanswers atMostTen (by decide)
  rw [hdefault, hdefault', hten, hten', htallies, htallies]
  exact ⟨rfl, rfl, rfl, rfl⟩

end Phrasebook
