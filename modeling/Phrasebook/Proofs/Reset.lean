import Phrasebook.Proofs.Independence

/-!
Starting over.

Forgetting the counts of a graph is meant to give back the graph as it was built.  But the
counts of the groups inside the definitions are left.  So whoever goes on after it is told the
same as with a new graph where no such count had been kept, or where the ones that were kept are
still right.  They are direct counts as long as the cap stays the same and nothing is listed
that a group refers to.

For each of the two cases there is a relation between the table that is left and a new one
(`Counts.AgreeOn`, `Counts.MatchingIn`).  Counting and listing keep it, so each operation does
(`Related.perform`), and from the operations a whole session follows by induction.
-/

namespace Phrasebook

/-! ### What is forgotten -/

theorem Counts.get?_reset (c : Counts) (place : Place) :
    c.reset.get? place = if isOfUnit place then none else c.get? place := by
  unfold get? reset
  rw [Std.HashMap.getElem?_filter']
  cases hget : c.table[place]? with
  | none => simp
  | some p => cases isOfUnit place <;> simp [Option.filter]

/-! ### Sessions that go alike -/

namespace Session

/-- What asks something of the definitions of the graph, or goes on with other options or
another stream. -/
def Operation.IsOnGraph : Operation → Prop
  | .dataset | .adopt _ => True
  | op => op.IsQuery

/-- An operation may list the sentences of the definition with the key. -/
def Operation.Lists (g : Graph) (key : Key) : Operation → Prop
  | .dataset => ∃ d ∈ g.ofKind .intent, d.key = key
  | op => op.listed? = some key

/-- What is asked of an operation that is to go alike: that listing what it may list does, and
that it brings in no options but those allowed. -/
structure Operation.Fits (g : Graph) (K : Options → Prop) (R : Counts → Counts → Prop)
    (op : Operation) : Prop where
  onGraph : op.IsOnGraph
  listed : ∀ key, op.Lists g key → Alike R ((Item.unit key).all g) ((Item.unit key).all g)
  adopted : ∀ o, op = .adopt o → K o

/-- Two sessions over the graph that differ in nothing but their tables, which are related, and
have options of the kind given. -/
structure Related (g : Graph) (K : Options → Prop) (R : Counts → Counts → Prop)
    (s s' : Session) : Prop where
  graph : s.graph = g
  graph' : s'.graph = g
  options : s.options = s'.options
  allowed : K s.options
  progress : Progress.Related R s.progress s'.progress

variable {g : Graph} {K : Options → Prop} {R : Counts → Counts → Prop} {s s' : Session}

theorem answer_run {α : Type} (answer : α → Answer) (m : Generating α) (s : Session) :
    (Session.run answer m s).1 =
      match (m.run s.progress).1 with
      | .ok a => answer a
      | .error reason => .failed reason := rfl

namespace Related

theorem run {α : Type} {answer : α → Answer} {m : Generating α}
    (hm : Alike (Progress.Related R) m m) (h : Related g K R s s') :
    (Session.run answer m s).1 = (Session.run answer m s').1 ∧
      Related g K R (Session.run answer m s).2 (Session.run answer m s').2 := by
  obtain ⟨hresult, hprogress⟩ := hm s.progress s'.progress h.progress
  rw [answer_run, answer_run, hresult]
  exact ⟨rfl, h.graph, h.graph', h.options, h.allowed, hprogress⟩

/-- **One operation goes alike**, if counting does and what the operation asks for. -/
theorem perform
    (hcount : ∀ o, K o → ∀ key, Alike R ((Item.unit key).count g o.possibilityCap)
      ((Item.unit key).count g o.possibilityCap))
    {op : Operation} (hop : op.Fits g K R) (h : Related g K R s s') :
    (Session.perform op s).1 = (Session.perform op s').1 ∧
      Related g K R (Session.perform op s).2 (Session.perform op s').2 := by
  rcases s with ⟨g₁, o, p⟩
  rcases s' with ⟨g₂, o', p'⟩
  obtain rfl : g₁ = g := h.graph
  obtain rfl : g₂ = g₁ := h.graph'
  obtain rfl : o = o' := h.options
  obtain ⟨honGraph, hall, hadopt⟩ := hop
  have hcount := hcount o h.allowed
  have hanswers : ∀ key, op.Lists g₂ key → (Item.unit key).AnswersAlike g₂ g₂ o R :=
    fun key hkey => ⟨hcount key, hall key hkey, rfl⟩
  cases op with
  | count item =>
      cases item with
      | unit key => exact h.run (Generating.alike_ofCounting (hcount key))
      | _ => exact honGraph.elim
  | all item =>
      cases item with
      | unit key => exact h.run (Generating.alike_ofCounting (hall key rfl))
      | _ => exact honGraph.elim
  | one item =>
      cases item with
      | unit key => exact h.run (Generating.alike_ofSampling _)
      | _ => exact honGraph.elim
  | distinct item n =>
      cases item with
      | unit key => exact h.run ((hanswers key rfl).someDistinct n)
      | _ => exact honGraph.elim
  | dataset =>
      exact h.run (Generating.alike_ofCounting
        (Dataset.alike_generate fun d hd => hanswers d.key ⟨d, hd, rfl⟩))
  | adopt o' => exact ⟨rfl, rfl, rfl, rfl, hadopt o' rfl, h.progress⟩
  | restart stream => exact ⟨rfl, rfl, rfl, rfl, h.allowed, h.progress.1, rfl⟩
  | _ => exact honGraph.elim

/-- **Sessions go alike** if each operation does. -/
theorem performAll
    (hcount : ∀ o, K o → ∀ key, Alike R ((Item.unit key).count g o.possibilityCap)
      ((Item.unit key).count g o.possibilityCap))
    {ops : List Operation} (hops : ∀ op ∈ ops, op.Fits g K R) (h : Related g K R s s') :
    ((Session.performAll ops).run s).1 = ((Session.performAll ops).run s').1 ∧
      Related g K R ((Session.performAll ops).run s).2 ((Session.performAll ops).run s').2 := by
  induction ops generalizing s s' with
  | nil => exact ⟨rfl, h⟩
  | cons op ops ih =>
      obtain ⟨hanswer, hstep⟩ := h.perform hcount (hops op (by simp))
      obtain ⟨hanswers, hrest⟩ := ih (fun op' hop' => hops op' (List.mem_cons_of_mem op hop')) hstep
      rw [answers_cons, answers_cons, performAll_cons, performAll_cons, hanswer, hanswers]
      exact ⟨rfl, hrest⟩

end Related

/-- After a reset the session goes on like a new one, if what the reset leaves is related to
nothing. -/
theorem answers_reset_of_alike
    (hcount : ∀ o, K o → ∀ key, Alike R ((Item.unit key).count g o.possibilityCap)
      ((Item.unit key).count g o.possibilityCap))
    {before after : List Operation} (hops : ∀ op ∈ before ++ after, op.Fits g K R)
    (hempty : R .empty .empty) {o : Options} (ho : K o) {stream : Stream} {s : Session}
    (hs : ((performAll (before ++ [.reset])).run (start g o stream)).2 = s)
    (hreset : ∀ c, R c c → s.progress.counts = c.reset → R s.progress.counts .empty) :
    ((performAll after).run s).1 =
      ((performAll after).run (start g s.options s.progress.stream)).1 := by
  obtain ⟨hbefore, hafter⟩ := List.forall_mem_append.mp hops
  have hstart : Related g K R (start g o stream) (start g o stream) :=
    ⟨rfl, rfl, rfl, ho, hempty, rfl⟩
  obtain ⟨-, hkept⟩ := hstart.performAll hcount hbefore
  rw [performAll_append, performAll_cons, performAll_nil] at hs
  have hgraph : s.graph = g := by
    rw [← hs]
    exact hkept.graph
  have hallowed : K s.options := by
    rw [← hs]
    exact hkept.allowed
  have hcounts := hreset _ hkept.progress.1 (by rw [← hs]; rfl)
  have hrelated : Related g K R s (start g s.options s.progress.stream) :=
    ⟨hgraph, rfl, rfl, hallowed, hcounts, rfl⟩
  exact (hrelated.performAll hcount hafter).1

end Session

/-! ### Tables that know the same of a graph -/

/-- A definition has itself as a whole, its variations, and the groups in its rules. -/
def Definition.HasPart (d : Definition) : Part → Prop
  | .group path => path ≠ [] ∧ ∃ rules, d.rulesAt (.group path) = some rules
  | _ => True

namespace Counts

/-- Two tables know the same of the graph. -/
def AgreeOn (g : Graph) (c c' : Counts) : Prop :=
  ∀ d ∈ g.definitions, ∀ part, d.HasPart part →
    c.get? ⟨.unit d.key, part⟩ = c'.get? ⟨.unit d.key, part⟩

/-- Of no group in the graph a count is known. -/
def KnowsNoGroup (g : Graph) (c : Counts) : Prop :=
  ∀ d ∈ g.definitions, ∀ part, d.HasPart part → part.IsGroup → c.get? ⟨.unit d.key, part⟩ = none

variable {g : Graph} {c c' : Counts}

/-- Where there are no groups, no count of one can be known. -/
theorem knowsNoGroup_of_tokens (h : ∀ d ∈ g.definitions, ∀ rules m, .group rules m ∉ d.tokens)
    (c : Counts) : c.KnowsNoGroup g := by
  intro d hd part hpart hgroup
  cases part with
  | group path =>
      obtain ⟨hne, rules, hpath⟩ := hpart
      obtain ⟨m, hmem⟩ := group_of_rulesUnder hpath hne
      exact absurd hmem (h d hd rules m)
  | _ => exact hgroup.elim

theorem AgreeOn.set (h : c.AgreeOn g c') (place : Place) (p : Possibilities) :
    (c.set place p).AgreeOn g (c'.set place p) := by
  intro d hd part hpart
  rw [get?_set, get?_set, h d hd part hpart]

theorem alikeAt_agreeOn {d : Definition} (hd : d ∈ g.definitions) {part : Part}
    (hpart : d.HasPart part) : AlikeAt (AgreeOn g) ⟨.unit d.key, part⟩ :=
  ⟨fun _ _ h => h d hd part hpart, fun _ _ p h => h.set _ p⟩

theorem get?_reset_of_not_isGroup (c : Counts) (key : Key) {part : Part} (h : ¬ part.IsGroup) :
    c.reset.get? ⟨.unit key, part⟩ = none := by
  rw [get?_reset]
  cases part with
  | group path => exact absurd trivial h
  | _ => rfl

/-- Without counts of groups nothing of the graph is known after a reset. -/
theorem agreeOn_reset (h : c.reset.KnowsNoGroup g) : c.reset.AgreeOn g .empty := by
  intro d hd part hpart
  rw [get?_empty]
  by_cases hgroup : part.IsGroup
  · exact h d hd part hpart hgroup
  · exact get?_reset_of_not_isGroup c d.key hgroup

end Counts

theorem Definition.hasPart_of_not_isGroup (d : Definition) {part : Part} (h : ¬ part.IsGroup) :
    d.HasPart part := by
  cases part with
  | group path => exact absurd trivial h
  | _ => trivial

/-- Tables that know the same of a graph answer alike about it, under whatever cap. -/
theorem alike_countIn_agreeOn {g : Graph} {cap : Nat} {layers : List Definition}
    (hlayers : ∀ d ∈ layers, d ∈ g.definitions) (label : String) (r : Reference) :
    Alike (Counts.AgreeOn g) (countIn cap layers label r) (countIn cap layers label r) := by
  induction layers generalizing label r with
  | nil => exact Alike.throw _
  | cons d below ih =>
      have ih := ih fun e he => hlayers e (List.mem_cons_of_mem d he)
      have hd : d ∈ g.definitions := hlayers d (by simp)
      rw [countIn]
      split
      · refine Definition.alike_count (fun path rules hne hpath compute _ hcompute => ?_)
          (fun part hpart => ?_) (fun r' _ => ih d.name r') _
        · exact Counts.alike_remember (Counts.alikeAt_agreeOn hd ⟨hne, rules, hpath⟩) hcompute
        · exact Counts.alikeAt_agreeOn hd (d.hasPart_of_not_isGroup hpart)
      · exact ih label r

/-! ### Tables of direct counts -/

namespace Graph

/-- A group in the graph refers to the key, itself or by way of other definitions. -/
def InGroups (g : Graph) (key : Key) : Prop :=
  ∃ d ∈ g.definitions, ∃ rules m, .group rules m ∈ d.tokens ∧
    ∃ r ∈ referencesOfRules rules, g.Reaches r.target key

/-- The part is not a group, nor is it of a definition that a group refers to. -/
def Loose (g : Graph) (key : Key) (part : Part) : Prop := ¬ part.IsGroup ∧ ¬ g.InGroups key

theorem isSettled_loose {g : Graph} {key : Key} : key.IsSettled g.Loose ↔ g.InGroups key := by
  constructor
  · intro h
    by_contra hkey
    exact h .whole ⟨id, hkey⟩
  · exact fun h _ hpart => hpart.2 h

theorem Valid.closed_loose {g : Graph} (hg : g.Valid) : Closed g.layers g.Loose := by
  intro d hd hsettled r hr
  obtain ⟨e, he, rules, m, hgroup, r', hr', hreach⟩ := isSettled_loose.mp hsettled
  exact isSettled_loose.mpr
    ⟨e, he, rules, m, hgroup, r', hr', hreach.step ((hg.mem_layers d).mp hd) hr⟩

end Graph

/-- The tables keep direct counts of the groups and of what these refer to, and know the same of
everything else. -/
def Counts.MatchingIn (g : Graph) (cap : Nat) : Counts → Counts → Prop :=
  Matching g g cap g.Loose g.Loose

theorem Counts.alikeAt_matchingIn {g : Graph} {cap : Nat} {key : Key} {part : Part}
    (h : g.Loose key part) : AlikeAt (MatchingIn g cap) ⟨.unit key, part⟩ :=
  ⟨fun _ _ hc => hc.known key part h, fun _ _ p hc => hc.set h p⟩

theorem Counts.Direct.reset {layers : List Definition} {cap : Nat} {free : Key → Part → Prop}
    {c : Counts} (h : c.Direct layers cap free) : c.reset.Direct layers cap free := by
  intro d hd part rules hpart hopen p hget
  rw [get?_reset] at hget
  split at hget
  · injection hget
  · exact h d hd part rules hpart hopen p hget

theorem Counts.matchingIn_reset {g : Graph} {cap : Nat} {c : Counts}
    (h : c.MatchingIn g cap c) : c.reset.MatchingIn g cap .empty := by
  refine ⟨h.direct.reset, .of_none (by simp), fun key part hpart => ?_⟩
  rw [get?_empty]
  exact get?_reset_of_not_isGroup c key hpart.1

/-- What comes to the same for sure, and leaves what is known of the free parts, goes alike. -/
theorem alike_matchingIn_of_succeeds {g : Graph} {cap : Nat} {m : Counting Possibilities}
    {q : Possibilities}
    (h : ∀ c known, c.DirectWith g.layers cap g.Loose known →
      Succeeds m c fun p c' => p = q ∧ c'.DirectWith g.layers cap g.Loose known) :
    Alike (Counts.MatchingIn g cap) m m := by
  refine Alike.of_succeeds fun c c' hc => ?_
  obtain ⟨p, t, hrun, hp, ht⟩ := h c _ hc.direct.with_known
  obtain ⟨p', t', hrun', hp', ht'⟩ := h c' (fun key part => c.get? ⟨.unit key, part⟩)
    ⟨hc.direct', fun key part hpart => (hc.known key part hpart).symm⟩
  refine ⟨q, p, t, hrun, hp, p', t', hrun', hp', ht.direct, ht'.direct, fun key part hpart => ?_⟩
  rw [ht.known key part hpart, ht'.known key part hpart]

/-- A group has its direct count, be it known or not. -/
theorem succeeds_group {g : Graph} (hg : g.Valid) {cap : Nat} {d : Definition}
    {below : List Definition} (hs : d :: below <:+ g.layers) {path : List Nat} {rules : List Rule}
    (hne : path ≠ []) (hpath : d.rulesAt (.group path) = some rules)
    {known : Key → Part → Option Possibilities} {c : Counts}
    (hc : c.DirectWith g.layers cap g.Loose known) :
    Succeeds (Counts.remember ⟨.unit d.key, .group path⟩
        (countRules (countIn cap below) cap d.name (.unit d.key) path 0 (.exact 0) rules)) c
      fun p c' => p = directSum (directIn cap g.layers d.name) cap rules ∧
        c'.DirectWith g.layers cap g.Loose known := by
  have hd : d ∈ g.layers := hs.subset (by simp)
  have hgroups : ∀ path, ¬ g.Loose d.key (.group path) := fun _ h => h.1 trivial
  have hkept : PartKept cap (fun rules p => p = directSum (directIn cap g.layers d.name) cap rules)
      (fun r p => p = directIn cap g.layers d.name r) (.unit d.key)
      (Counts.DirectWith g.layers cap g.Loose known) (.group path) rules :=
    partKept_direct hg.layered hd hpath (hgroups path)
  have hrules : ∀ r ∈ referencesOfRules rules, r.target.IsSettled g.Loose := by
    obtain ⟨m, hgroup⟩ := group_of_rulesUnder hpath hne
    exact fun r hr => Graph.isSettled_loose.mpr
      ⟨d, (hg.mem_layers d).mp hd, rules, m, hgroup, r, hr, .refl⟩
  refine Counts.succeeds_remember (fun p hp => ⟨hkept.known c p hc hp, hc⟩) fun _ => ?_
  obtain ⟨p, c', hrun, hp, hc'⟩ :=
    succeeds_directSum hg.layered hg.closed_loose hs hgroups hpath hrules hc
  exact ⟨p, c', hrun, hp, hkept.set c' p hc' hp⟩

/-- **Tables of direct counts answer alike** under their cap. -/
theorem alike_countIn_matchingIn {g : Graph} (hg : g.Valid) {cap : Nat} {below : List Definition}
    (hs : below <:+ g.layers) (label : String) (r : Reference) (hr : r.Resolves below) :
    Alike (Counts.MatchingIn g cap) (countIn cap below label r) (countIn cap below label r) := by
  have hbelow : Layered below := hg.layered.of_suffix hs
  induction below, r, hbelow, hr using Layered.use_induction generalizing label with
  | asked d below r rules _ hr hkey _ ih =>
      by_cases hsettled : g.InGroups r.target
      · exact alike_matchingIn_of_succeeds fun c known hc =>
          succeeds_directIn hg.layered hg.closed_loose hs label hr
            (Graph.isSettled_loose.mpr hsettled) hc
      rw [countIn, if_pos hkey]
      rw [← hkey] at hsettled
      refine Definition.alike_count (fun path rules hne hpath _ hcompute _ => ?_)
        (fun part hpart => Counts.alikeAt_matchingIn ⟨hpart, hsettled⟩)
        (fun r' hr' => ih r' hr' ((List.suffix_cons d below).trans hs) d.name) _
      obtain rfl := hcompute
      exact alike_matchingIn_of_succeeds fun c known hc => succeeds_group hg hs hne hpath hc
  | passed d below r _ _ _ hkey ih =>
      rw [countIn, if_neg hkey]
      exact ih ((List.suffix_cons d below).trans hs) label

theorem countIn_of_find?_eq_none {cap : Nat} {layers : List Definition} {r : Reference}
    (h : Definition.find? layers r.target = none) (label : String) :
    countIn cap layers label r = throw (.unresolved label r.target) := by
  induction layers with
  | nil => rfl
  | cons d below ih =>
      rw [Definition.find?_cons] at h
      rw [countIn]
      by_cases hkey : d.key = r.target
      · rw [if_pos hkey] at h
        injection h
      · rw [if_neg hkey] at h ⊢
        exact ih h

theorem Graph.Valid.alike_count_matchingIn {g : Graph} (hg : g.Valid) (cap : Nat) (key : Key) :
    Alike (Counts.MatchingIn g cap) ((Item.unit key).count g cap)
      ((Item.unit key).count g cap) := by
  cases hfind : g.get? key with
  | none =>
      have hlayers : Definition.find? g.layers (Item.useOf key).target = none :=
        (hg.find?_layers key).trans hfind
      have hcount : (Item.unit key).count g cap = throw (.unresolved key.name key) :=
        countIn_of_find?_eq_none hlayers key.name
      rw [hcount]
      exact Alike.throw _
  | some d =>
      obtain rfl := Definition.key_of_find? hfind
      exact alike_countIn_matchingIn hg (List.suffix_refl _) d.key.name _
        (hg.resolves_use (Definition.mem_of_find? hfind) rfl [])

/-! ### The law of the reset -/

/-- The operation stays under the cap, and lists nothing that a group refers to. -/
structure Session.Operation.Spares (g : Graph) (cap : Nat) (op : Session.Operation) : Prop where
  cap : ∀ o, op = .adopt o → o.possibilityCap = cap
  listed : ∀ key, op.Lists g key → ¬ g.InGroups key

/--
**After a reset a graph is as good as new**, whatever is asked then and under whatever options,
if no count of a group had been kept; and if some had been, it is as long as the cap is always
the same, and nothing is listed that a group refers to.
-/
theorem answers_reset_eq {definitions : List Definition} {g : Graph}
    (hg : Graph.ofDefinitions definitions = .ok g) {o : Options} {stream : Stream}
    {before after : List Session.Operation} (hops : ∀ op ∈ before ++ after, op.IsOnGraph)
    {s : Session}
    (hs : ((Session.performAll (before ++ [.reset])).run (Session.start g o stream)).2 = s)
    (h : s.progress.counts.KnowsNoGroup g ∨
      ∀ op ∈ before ++ after, op.Spares g o.possibilityCap) :
    ((Session.performAll after).run s).1 =
      ((Session.performAll after).run
        (Session.start g s.options s.progress.stream)).1 := by
  have hvalid := Graph.valid_of_ofDefinitions hg
  rcases h with hgroups | hspares
  · refine Session.answers_reset_of_alike (K := fun _ => True) (R := Counts.AgreeOn g)
      (fun _ _ key => ?_) (fun op hop => ?_) (fun _ _ _ _ => rfl) trivial hs fun c _ hc => ?_
    · exact alike_countIn_agreeOn (fun d hd => (hvalid.mem_layers d).mp hd) _ _
    · exact ⟨hops op hop, fun key _ => Item.alike_all rfl fun _ _ _ h => h.set _ _,
        fun _ _ => trivial⟩
    · rw [hc] at hgroups ⊢
      exact Counts.agreeOn_reset hgroups
  · refine Session.answers_reset_of_alike (K := fun o' => o'.possibilityCap = o.possibilityCap)
      (R := Counts.MatchingIn g o.possibilityCap) (fun o' ho' key => ?_) (fun op hop => ?_)
      ⟨.of_none (by simp), .of_none (by simp), fun _ _ _ => rfl⟩ rfl hs fun c hkept hc => ?_
    · rw [ho']
      exact hvalid.alike_count_matchingIn o.possibilityCap key
    · obtain ⟨hcap, hlisted⟩ := hspares op hop
      refine ⟨hops op hop, fun key hkey => Item.alike_all rfl fun n _ _ hc => ?_, hcap⟩
      exact hc.set ⟨id, hlisted key hkey⟩ (.exact n)
    · rw [hc]
      exact Counts.matchingIn_reset hkept

/-! ### A second round -/

namespace Greetings

/-- The only group is that of the title, and it refers to nothing. -/
theorem not_inGroups_both (key : Key) : ¬ both.InGroups key := by
  rintro ⟨d, hd, rules, m, hgroup, r, hr, -⟩
  simp only [both, List.mem_cons, List.not_mem_nil, or_false] at hd
  rcases hd with rfl | rfl | rfl
  · simp [polite, Definition.tokens, Definition.allRules, tokensWithinRules, tokensWithin,
      tokensWithinToken] at hgroup
    obtain ⟨rfl, -⟩ := hgroup
    simp [referencesOfRules, referencesOfTokens, referencesOfToken] at hr
  · simp [farewell, Definition.tokens, Definition.allRules, tokensWithinRules, tokensWithin,
      tokensWithinToken] at hgroup
  · simp [greetSir, greet, Definition.tokens, Definition.allRules, tokensWithinRules,
      tokensWithin, tokensWithinToken] at hgroup

/-- A data set, after the title was listed and its count was corrected. -/
def round : List Session.Operation := [.all (.unit polite.key), .dataset]

/-- The session after a round and a reset. -/
def again : Session :=
  ((Session.performAll (round ++ [.reset])).run (Session.start both .default (.ofWords []))).2

end Greetings

namespace Hello

/-- Counting with a cap of one. -/
def before : List Session.Operation :=
  [.adopt { Options.default with possibilityCap := 1 }, .count (.unit hello.key)]

/-- Counting with the usual cap. -/
def after : List Session.Operation := [.adopt .default, .count (.unit hello.key)]

/-- The session that counted with a cap of one, after a reset. -/
def again : Session :=
  ((Session.performAll (before ++ [.reset])).run (Session.start graph .default (.ofWords []))).2

theorem knowsNoGroup (c : Counts) : c.KnowsNoGroup graph := by
  refine Counts.knowsNoGroup_of_tokens (fun d hd rules m hgroup => ?_) c
  obtain rfl := List.mem_singleton.mp hd
  simp [hello, Definition.tokens, Definition.allRules, tokensWithinRules, tokensWithin,
    tokensWithinToken] at hgroup

end Hello

/-- A second round has the answers that a first one has, with a group that refers to nothing; and
without groups so has a count under another cap. -/
theorem answers_reset_eq_round :
    Graph.ofDefinitions [Greetings.polite, Greetings.farewell, Greetings.greetSir] =
        .ok Greetings.both ∧
      ((Session.performAll Greetings.round).run Greetings.again).1 =
        ((Session.performAll Greetings.round).run (Session.start Greetings.both
          Greetings.again.options Greetings.again.progress.stream)).1 ∧
      Graph.ofDefinitions [Hello.hello] = .ok Hello.graph ∧
      ((Session.performAll Hello.after).run Hello.again).1 =
        ((Session.performAll Hello.after).run (Session.start Hello.graph Hello.again.options
          Hello.again.progress.stream)).1 := by
  refine ⟨Greetings.ofDefinitions_both, answers_reset_eq Greetings.ofDefinitions_both ?_ rfl
    (Or.inr ?_), Hello.ofDefinitions_eq, answers_reset_eq Hello.ofDefinitions_eq ?_ rfl
    (Or.inl (Hello.knowsNoGroup _))⟩
  · simp [Greetings.round, Session.Operation.IsOnGraph, Session.Operation.IsQuery]
  · intro op hop
    refine ⟨fun o ho => ?_, fun key _ => Greetings.not_inGroups_both key⟩
    simp [Greetings.round, ho] at hop
  · simp [Hello.before, Hello.after, Session.Operation.IsOnGraph, Session.Operation.IsQuery]

/-! ### A count that is left over -/

namespace Choice

/-- Two ways to greet. -/
def ways : List Rule :=
  [.mk [.word "hi".toList .plain] .one none, .mk [.word "hey".toList .plain] .one none]

/-- An intent that leaves the choice to a group. -/
def greet : Definition where
  kind := .intent
  name := "greet"
  rules := [.mk [.group ways .plain] .one none]
  variations := []
  parameters := []
  directive := none

/-- The graph of the intent. -/
def graph : Graph := ⟨[greet], [greet]⟩

/-- Where the count of the group is kept. -/
def place : Place := ⟨.unit greet.key, .group [0, 0]⟩

/-- Options with the least cap. -/
def tight : Options := { Options.default with possibilityCap := 1 }

theorem ofDefinitions_eq : Graph.ofDefinitions [greet] = .ok graph :=
  Graph.ofDefinitions_singleton (ok_of_toOption (by decide +kernel)) rfl

theorem count_eq (cap : Nat) : (Item.unit greet.key).count graph cap =
    greet.count (countIn cap []) cap (.unit greet.key) none :=
  countIn_of_suffix (Graph.valid_of_ofDefinitions ofDefinitions_eq).layered
    (List.suffix_refl [greet]) (r := Item.useOf greet.key) rfl greet.key.name

/-- The group has the count that is known of it, or else the one that is computed. -/
theorem succeeds_ways {c : Counts} {cap : Nat} {q : Possibilities}
    (hknown : ∀ p, c.get? place = some p → p = q)
    (hcomputed : c.get? place = none → directSum (fun _ => .exact 0) cap ways = q) :
    Succeeds (Counts.remember place
        (countRules (countIn cap []) cap greet.name (.unit greet.key) [0, 0] 0 (.exact 0) ways)) c
      fun p c' => p = q ∧ c'.get? place = some q := by
  refine Counts.succeeds_remember (fun p hp => ?_) fun hnone => ?_
  · obtain rfl := hknown p hp
    exact ⟨rfl, hp⟩
  · have hways := hcomputed hnone
    simp [ways, directSum, directRules, directTokens, directToken, Modifiers.direct,
      Modifiers.plain, Modifiers.isAbsent, Modifiers.counted, Modifiers.mayBeAbsent,
      Rule.isReachable, Rule.weight] at hways
    simp [ways, countRules, countTokens, countToken, Modifiers.plain, Modifiers.isAbsent,
      Modifiers.counted, Modifiers.mayBeAbsent, Rule.isReachable, Rule.weight]
    exact Succeeds.pure ⟨hways, by rw [Counts.get?_set, if_pos rfl, hways]⟩

/-- The count of the intent when that of its group is given. -/
def countOf (cap : Nat) (q : Possibilities) : Possibilities :=
  (Possibilities.exact 0).add cap ((Possibilities.exact 1).mul cap (q.cased cap .unchanged))

/-- As long as its own count is not known, the intent is counted by that of the group. -/
theorem succeeds_count {c : Counts} (hwhole : c.get? greet.key.whole = none) {cap : Nat}
    {q : Possibilities} (hknown : ∀ p, c.get? place = some p → p = q)
    (hcomputed : c.get? place = none → directSum (fun _ => .exact 0) cap ways = q) :
    Succeeds ((Item.unit greet.key).count graph cap) c fun p c' =>
      p = countOf cap q ∧ c'.get? place = some q := by
  have hne : greet.key.whole ≠ place := by decide
  rw [count_eq]
  refine Counts.succeeds_remember (fun p hp => ?_) fun _ => ?_
  · have hsome : some p = none := hp.symm.trans hwhole
    injection hsome
  · simp [greet, Definition.allRules, countRules, countTokens, countToken, Modifiers.plain,
      Modifiers.isAbsent, Modifiers.counted, Modifiers.mayBeAbsent, Rule.isReachable, Rule.weight]
    rw [map_eq_pure_bind]
    refine Succeeds.bind (succeeds_ways hknown hcomputed) ?_
    rintro p c' ⟨rfl, hc'⟩
    exact Succeeds.pure ⟨rfl, (Counts.get?_set _ _ _ _).trans ((if_neg hne).trans hc')⟩

/-- In a session that does not know the count of the intent, this is what is answered when the
intent is counted under other options, and the count of the group is known from then on. -/
theorem answers_count {s : Session} (hgraph : s.graph = graph)
    (hwhole : s.progress.counts.get? greet.key.whole = none) {o : Options} {q : Possibilities}
    (hknown : ∀ p, s.progress.counts.get? place = some p → p = q)
    (hcomputed : s.progress.counts.get? place = none →
      directSum (fun _ => .exact 0) o.possibilityCap ways = q) :
    ((Session.performAll [.adopt o, .count (.unit greet.key)]).run s).1 =
        [.done, .count (countOf o.possibilityCap q)] ∧
      ((Session.performAll [.adopt o, .count (.unit greet.key)]).run s).2.Keeps graph o
        fun c => c.get? place = some q := by
  have hkeeps : (Session.perform (.adopt o) s).2.Keeps graph o fun _ => True :=
    ⟨hgraph, rfl, trivial⟩
  have hcount : Succeeds ((Item.unit greet.key).count graph o.possibilityCap)
      (Session.perform (.adopt o) s).2.progress.counts _ := succeeds_count hwhole hknown hcomputed
  obtain ⟨p, rfl, hanswer, hkept⟩ := hkeeps.answers_count hcount
  rw [Session.answers_cons, Session.answers_cons, Session.performAll_cons, Session.performAll_cons,
    hanswer]
  exact ⟨rfl, hkept⟩

/-- The session in which the intent was counted under the least cap, after a reset. -/
def used : Session :=
  ((Session.performAll ([.adopt tight, .count (.unit greet.key)] ++ [.reset])).run
    (Session.start graph .default (.ofWords []))).2

theorem used_counts : used.graph = graph ∧
    used.progress.counts.get? greet.key.whole = none ∧
    used.progress.counts.get? place = some ⟨1, true⟩ := by
  obtain ⟨-, hkept⟩ := answers_count (s := Session.start graph .default (.ofWords [])) rfl
    (Counts.get?_empty _) (o := tight) (q := ⟨1, true⟩) (by simp [Session.start])
    (fun _ => by decide +kernel)
  unfold used
  rw [Session.performAll_append, Session.performAll_cons, Session.performAll_nil]
  refine ⟨hkept.graph, Counts.get?_reset _ _, ?_⟩
  exact (Counts.get?_reset _ _).trans hkept.counts

end Choice

/--
A count of the group that was capped is still there after the reset.  So the intent is said to
have one sentence or more, where a new graph knows that it has two.
-/
theorem answers_reset_ne :
    Graph.ofDefinitions [Choice.greet] = .ok Choice.graph ∧
      ((Session.performAll [.adopt .default, .count (.unit Choice.greet.key)]).run
        Choice.used).1 = [.done, .count ⟨1, true⟩] ∧
      ((Session.performAll [.adopt .default, .count (.unit Choice.greet.key)]).run
        (Session.start Choice.graph Choice.used.options Choice.used.progress.stream)).1 =
          [.done, .count ⟨2, false⟩] := by
  obtain ⟨hgraph, hwhole, hplace⟩ := Choice.used_counts
  have hused := Choice.answers_count hgraph hwhole (o := .default) (q := ⟨1, true⟩)
    (fun p hp => (Option.some.inj (hplace.symm.trans hp)).symm)
    (fun hnone => by rw [hplace] at hnone; injection hnone)
  have hnew := Choice.answers_count (s := Session.start Choice.graph Choice.used.options
    Choice.used.progress.stream) rfl (Counts.get?_empty _) (o := .default) (q := ⟨2, false⟩)
    (by simp [Session.start]) (fun _ => by decide +kernel)
  exact ⟨Choice.ofDefinitions_eq, hused.1, hnew.1⟩

end Phrasebook
